import Latebra.Crypto.ChainSuite

/-!
# The wire forms of the transfers

The two kinds of zero-knowledge transfer are written as fixed sequences of compressed points,
canonical scalars and range proofs behind their lengths, and read back with a bounds-checked
cursor. A `TransferSuite` holds the encodings that come from outside: those of points, scalars and
range proofs, each of which reads exactly what it writes. `readSolvent_eq_some` and
`readAnon_eq_some` carry this over to the transfers, so a transfer has one wire form, and `chainSuite` is the suite
of a chain with these wire forms.
-/

set_option autoImplicit false
set_option relaxedAutoImplicit false

namespace Latebra.Crypto

open Foundation

/-! ### The bundles of proofs -/

/-- The proofs of a solvent transfer. -/
structure SolventProof (Point Scalar RangeProof : Type) where
  vT : Bytes32
  vB : Bytes32
  rpT : RangeProof
  rpB : RangeProof
  a1 : Point
  a2 : Point
  a3 : Point
  a4 : Point
  a5 : Point
  a6 : Point
  a7 : Point
  zX : Scalar
  zT : Scalar
  zR : Scalar
  zB : Scalar
  zSt : Scalar
  zSb : Scalar

/-- The proof that a ciphertext encrypts the value of a commitment. -/
structure DeltaLink (Point Scalar : Type) where
  a1 : Point
  a2 : Point
  a3 : Point
  zD : Scalar
  zS : Scalar
  zY : Scalar

/-- The proof that a commitment opens to zero or to the hidden debit. -/
structure ZeroOrDebit (Point Scalar : Type) where
  a0 : Point
  a1 : Point
  e0 : Scalar
  z0 : Scalar
  z1 : Scalar

/-- The proofs of an anonymous transfer, with its commitments. -/
structure AnonProof (Point Scalar RangeProof : Type) where
  deltas : List Point
  cDebit : Point
  v : Bytes32
  rp : RangeProof
  e : List Scalar
  zX : List Scalar
  zS : List Scalar
  zG : List Scalar
  membership : List (ZeroOrDebit Point Scalar)
  links : List (DeltaLink Point Scalar)
  creditLink : DeltaLink Point Scalar
  sumA : Point
  sumZ : Scalar

/-- The cryptography that a chain is run with, with the encodings that its transfers are made of.
The transfers of `ground` itself are not used. -/
structure TransferSuite where
  ground : CryptoSuite
  /-- Only canonical strings decompress. -/
  compress_of_decompress : ∀ bytes point, ground.decompress bytes = some point →
    ground.compress point = bytes
  Scalar : Type
  scalarToBytes : Scalar → Bytes32
  scalarFromCanonicalBytes : Bytes32 → Option Scalar
  scalarFromCanonicalBytes_eq_some : ∀ bytes scalar,
    scalarFromCanonicalBytes bytes = some scalar ↔ scalarToBytes scalar = bytes
  RangeProof : Type
  rangeToBytes : RangeProof → Bytes
  rangeFromBytes : Bytes → Option RangeProof
  rangeFromBytes_eq_some : ∀ bytes proof,
    rangeFromBytes bytes = some proof ↔ rangeToBytes proof = bytes
  length_rangeToBytes : ∀ proof, (rangeToBytes proof).length < 2 ^ 16
  solventVerify : SolventTransfer ground.Point (SolventProof ground.Point Scalar RangeProof) →
    UInt32 → Ciphertext ground.Point → Bool
  /-- The relations that an anonymous transfer proves, once its lists have one length. -/
  anonRelations : AnonTransfer ground.Point (AnonProof ground.Point Scalar RangeProof) →
    UInt32 → Bool
  powHash : Bytes → Bytes32
  digestBytes : ground.Digest → Bytes32

namespace TransferSuite

variable (T : TransferSuite)

/-- A solvent transfer of the suite. -/
abbrev Solvent : Type :=
  SolventTransfer T.ground.Point (SolventProof T.ground.Point T.Scalar T.RangeProof)

/-- An anonymous transfer of the suite. -/
abbrev Anon : Type :=
  AnonTransfer T.ground.Point (AnonProof T.ground.Point T.Scalar T.RangeProof)

/-! ### Encodings -/

def pointBytes (point : T.ground.Point) : Bytes := bytesOf32 (T.ground.compress point)

def keyBytes (key : PublicKey T.ground.Point) : Bytes := bytesOf32 (T.ground.keyToBytes key)

def ciphertextBytes (ct : Ciphertext T.ground.Point) : Bytes :=
  bytesOf64 (T.ground.ciphertextToBytes ct)

def scalarBytes (scalar : T.Scalar) : Bytes := bytesOf32 (T.scalarToBytes scalar)

/-- A range proof behind its length. -/
def rangeBytes (proof : T.RangeProof) : Bytes :=
  leBytes 4 (T.rangeToBytes proof).length ++ T.rangeToBytes proof

/-- Canonical wire encoding of a solvent transfer. -/
def solventToBytes (xfer : T.Solvent) : Bytes :=
  [xfer.sender.point, xfer.receiver.point, xfer.cSender, xfer.cReceiver, xfer.d].flatMap
      T.pointBytes ++
    bytesOf32 xfer.proof.vT ++ bytesOf32 xfer.proof.vB ++
    [xfer.proof.a1, xfer.proof.a2, xfer.proof.a3, xfer.proof.a4, xfer.proof.a5, xfer.proof.a6,
      xfer.proof.a7].flatMap T.pointBytes ++
    [xfer.proof.zX, xfer.proof.zT, xfer.proof.zR, xfer.proof.zB, xfer.proof.zSt,
      xfer.proof.zSb].flatMap T.scalarBytes ++
    [xfer.proof.rpT, xfer.proof.rpB].flatMap T.rangeBytes ++
    u64Le xfer.nonce ++ u64Le xfer.fee

def zeroOrDebitBytes (m : ZeroOrDebit T.ground.Point T.Scalar) : Bytes :=
  T.pointBytes m.a0 ++ T.pointBytes m.a1 ++ [m.e0, m.z0, m.z1].flatMap T.scalarBytes

def linkBytes (lk : DeltaLink T.ground.Point T.Scalar) : Bytes :=
  [lk.a1, lk.a2, lk.a3].flatMap T.pointBytes ++ [lk.zD, lk.zS, lk.zY].flatMap T.scalarBytes

/-- Canonical byte encoding of an anonymous transfer. -/
def anonToBytes (xfer : T.Anon) : Bytes :=
  leBytes 4 xfer.ring.length ++ u64Le xfer.fee ++ u64Le xfer.epoch ++
    xfer.ring.flatMap T.keyBytes ++ xfer.balances.flatMap T.ciphertextBytes ++
    xfer.proof.deltas.flatMap T.pointBytes ++ xfer.enc.flatMap T.ciphertextBytes ++
    T.pointBytes xfer.proof.cDebit ++ T.ciphertextBytes xfer.credit ++
    T.keyBytes xfer.output.ephemeral ++ T.keyBytes xfer.output.oneTime ++
    T.pointBytes xfer.nullifierPoint ++ bytesOf32 xfer.proof.v ++ T.rangeBytes xfer.proof.rp ++
    [xfer.proof.e, xfer.proof.zX, xfer.proof.zS, xfer.proof.zG].flatMap
      (fun responses ↦ responses.flatMap T.scalarBytes) ++
    xfer.proof.membership.flatMap T.zeroOrDebitBytes ++
    (xfer.proof.links ++ [xfer.proof.creditLink]).flatMap T.linkBytes ++
    T.pointBytes xfer.proof.sumA ++ T.scalarBytes xfer.proof.sumZ

/-! ### Readers -/

def readPoint : Reader T.ground.Point := do
  Reader.ofOption (T.ground.decompress (← Reader.arr32))

def readKey : Reader (PublicKey T.ground.Point) := do
  Reader.ofOption (T.ground.keyFromBytes (← Reader.arr32))

def readCiphertext : Reader (Ciphertext T.ground.Point) := do
  Reader.ofOption (T.ground.ciphertextFromBytes (← Reader.arr64))

def readScalar : Reader T.Scalar := do
  Reader.ofOption (T.scalarFromCanonicalBytes (← Reader.arr32))

/-- A range proof behind its length. -/
def readRange : Reader T.RangeProof := do
  let len ← Reader.u32
  Reader.ofOption (T.rangeFromBytes (← Reader.take len.toNat))

def readSolvent : Reader T.Solvent := do
  let sender ← T.readPoint
  let receiver ← T.readPoint
  let cSender ← T.readPoint
  let cReceiver ← T.readPoint
  let d ← T.readPoint
  let vT ← Reader.arr32
  let vB ← Reader.arr32
  let a1 ← T.readPoint
  let a2 ← T.readPoint
  let a3 ← T.readPoint
  let a4 ← T.readPoint
  let a5 ← T.readPoint
  let a6 ← T.readPoint
  let a7 ← T.readPoint
  let zX ← T.readScalar
  let zT ← T.readScalar
  let zR ← T.readScalar
  let zB ← T.readScalar
  let zSt ← T.readScalar
  let zSb ← T.readScalar
  let rpT ← T.readRange
  let rpB ← T.readRange
  let nonce ← Reader.u64
  let fee ← Reader.u64
  return ⟨⟨sender⟩, ⟨receiver⟩, nonce, fee, cSender, cReceiver, d,
    ⟨vT, vB, rpT, rpB, a1, a2, a3, a4, a5, a6, a7, zX, zT, zR, zB, zSt, zSb⟩⟩

/-- Decode a solvent transfer. There is none in malformed input. -/
def solventFromBytes (bytes : Bytes) : Option T.Solvent := T.readSolvent.complete bytes

def readZeroOrDebit : Reader (ZeroOrDebit T.ground.Point T.Scalar) := do
  return ⟨← T.readPoint, ← T.readPoint, ← T.readScalar, ← T.readScalar, ← T.readScalar⟩

def readLink : Reader (DeltaLink T.ground.Point T.Scalar) := do
  return ⟨← T.readPoint, ← T.readPoint, ← T.readPoint, ← T.readScalar, ← T.readScalar,
    ← T.readScalar⟩

/-- The fields of an anonymous transfer behind the size of its ring. -/
def readMembers (n : ℕ) : Reader T.Anon := do
  let fee ← Reader.u64
  let epoch ← Reader.u64
  let ring ← Reader.many n T.readKey
  let balances ← Reader.many n T.readCiphertext
  let deltas ← Reader.many n T.readPoint
  let enc ← Reader.many n T.readCiphertext
  let cDebit ← T.readPoint
  let credit ← T.readCiphertext
  let ephemeral ← T.readKey
  let oneTime ← T.readKey
  let nullifier ← T.readPoint
  let v ← Reader.arr32
  let rp ← T.readRange
  let e ← Reader.many n T.readScalar
  let zX ← Reader.many n T.readScalar
  let zS ← Reader.many n T.readScalar
  let zG ← Reader.many n T.readScalar
  let membership ← Reader.many n T.readZeroOrDebit
  let links ← Reader.many n T.readLink
  let creditLink ← T.readLink
  let sumA ← T.readPoint
  let sumZ ← T.readScalar
  return ⟨ring, balances, enc, credit, fee, epoch, ⟨ephemeral, oneTime⟩, nullifier,
    ⟨deltas, cDebit, v, rp, e, zX, zS, zG, membership, links, creditLink, sumA, sumZ⟩⟩

/-- The size of the ring is checked before anything of that size is read. -/
def readAnon : Reader T.Anon := do
  let n ← Reader.u32
  if n.toNat < 2 ∨ MAX_RING_SIZE < n.toNat then Reader.failure
  else T.readMembers n.toNat

/-- Decode an anonymous transfer. There is none in malformed input. -/
def anonFromBytes (bytes : Bytes) : Option T.Anon := T.readAnon.complete bytes

/-! ### One wire form -/

/-- The two halves of a 64-byte string. -/
theorem extractLsb'_append_extractLsb' (bytes : Bytes64) :
    bytes.extractLsb' 256 256 ++ bytes.extractLsb' 0 256 = bytes := by
  apply BitVec.eq_of_getLsbD_eq
  intro i hi
  rw [BitVec.getLsbD_append]
  split
  · next hlow => simp [hlow]
  · next hhigh =>
    have hrest : i - 256 < 256 := by omega
    have hsum : 256 + (i - 256) = i := by omega
    simp [hrest, hsum]

section Accepts

open Reader (bind_eq_some pure_eq_some take_eq_some ofOption_eq_some u32_eq_some u64_eq_some
  arr32_eq_some arr64_eq_some many_eq_some)

variable {T} {input rest : Bytes}

theorem decompress_eq_some {bytes : Bytes32} {point : T.ground.Point} :
    T.ground.decompress bytes = some point ↔ T.ground.compress point = bytes := by
  constructor
  · exact T.compress_of_decompress bytes point
  · rintro rfl
    exact T.ground.decompress_compress point

theorem keyFromBytes_eq_some {bytes : Bytes32} {key : PublicKey T.ground.Point} :
    T.ground.keyFromBytes bytes = some key ↔ T.ground.keyToBytes key = bytes := by
  rw [CryptoSuite.keyFromBytes, Option.map_eq_some_iff]
  constructor
  · rintro ⟨point, hpoint, rfl⟩
    exact decompress_eq_some.mp hpoint
  · intro hkey
    exact ⟨key.point, decompress_eq_some.mpr hkey, rfl⟩

theorem ciphertextFromBytes_eq_some {bytes : Bytes64} {ct : Ciphertext T.ground.Point} :
    T.ground.ciphertextFromBytes bytes = some ct ↔ T.ground.ciphertextToBytes ct = bytes := by
  constructor
  · intro hread
    obtain ⟨c, hc, hrest⟩ := Option.bind_eq_some_iff.mp hread
    obtain ⟨d, hd, hct⟩ := Option.bind_eq_some_iff.mp hrest
    obtain rfl := Option.some.inj hct
    rw [CryptoSuite.ciphertextToBytes, T.compress_of_decompress _ _ hc,
      T.compress_of_decompress _ _ hd]
    exact extractLsb'_append_extractLsb' bytes
  · rintro rfl
    exact T.ground.ciphertextFromBytes_toBytes ct

theorem readPoint_eq_some {point : T.ground.Point} :
    T.readPoint input = some (point, rest) ↔ input = T.pointBytes point ++ rest := by
  unfold readPoint
  simp only [bind_eq_some, ofOption_eq_some, arr32_eq_some, decompress_eq_some]
  constructor
  · rintro ⟨bytes, mid, rfl, rfl, rfl⟩
    rfl
  · rintro rfl
    exact ⟨_, _, rfl, rfl, rfl⟩

theorem readKey_eq_some {key : PublicKey T.ground.Point} :
    T.readKey input = some (key, rest) ↔ input = T.keyBytes key ++ rest := by
  unfold readKey
  simp only [bind_eq_some, ofOption_eq_some, arr32_eq_some, keyFromBytes_eq_some]
  constructor
  · rintro ⟨bytes, mid, rfl, rfl, rfl⟩
    rfl
  · rintro rfl
    exact ⟨_, _, rfl, rfl, rfl⟩

theorem readCiphertext_eq_some {ct : Ciphertext T.ground.Point} :
    T.readCiphertext input = some (ct, rest) ↔ input = T.ciphertextBytes ct ++ rest := by
  unfold readCiphertext
  simp only [bind_eq_some, ofOption_eq_some, arr64_eq_some, ciphertextFromBytes_eq_some]
  constructor
  · rintro ⟨bytes, mid, rfl, rfl, rfl⟩
    rfl
  · rintro rfl
    exact ⟨_, _, rfl, rfl, rfl⟩

theorem readScalar_eq_some {scalar : T.Scalar} :
    T.readScalar input = some (scalar, rest) ↔ input = T.scalarBytes scalar ++ rest := by
  unfold readScalar
  simp only [bind_eq_some, ofOption_eq_some, arr32_eq_some, T.scalarFromCanonicalBytes_eq_some]
  constructor
  · rintro ⟨bytes, mid, rfl, rfl, rfl⟩
    rfl
  · rintro rfl
    exact ⟨_, _, rfl, rfl, rfl⟩

theorem readRange_eq_some {proof : T.RangeProof} :
    T.readRange input = some (proof, rest) ↔ input = T.rangeBytes proof ++ rest := by
  have hlength : (T.rangeToBytes proof).length < 2 ^ 32 :=
    (T.length_rangeToBytes proof).trans (by norm_num)
  unfold readRange rangeBytes
  simp only [bind_eq_some, ofOption_eq_some, take_eq_some, u32_eq_some, T.rangeFromBytes_eq_some]
  constructor
  · rintro ⟨len, mid, rfl, bytes, mid', ⟨hlen, rfl⟩, rfl, rfl⟩
    rw [hlen, u32Le, List.append_assoc]
  · rintro rfl
    refine ⟨UInt32.ofNat (T.rangeToBytes proof).length, _, ?_, _, _, ⟨?_, rfl⟩, rfl, rfl⟩
    · rw [u32Le, UInt32.toNat_ofNat_of_lt' hlength, List.append_assoc]
    · rw [UInt32.toNat_ofNat_of_lt' hlength]

theorem readSolvent_canonical : T.readSolvent.Canonical [] (fun _ ↦ True) T.solventToBytes := by
  refine .field readPoint_eq_some fun sender ↦ .field readPoint_eq_some fun receiver ↦
    .field readPoint_eq_some fun cSender ↦ .field readPoint_eq_some fun cReceiver ↦
    .field readPoint_eq_some fun d ↦ .field arr32_eq_some fun vT ↦ .field arr32_eq_some fun vB ↦
    .field readPoint_eq_some fun a1 ↦ .field readPoint_eq_some fun a2 ↦
    .field readPoint_eq_some fun a3 ↦ .field readPoint_eq_some fun a4 ↦
    .field readPoint_eq_some fun a5 ↦ .field readPoint_eq_some fun a6 ↦
    .field readPoint_eq_some fun a7 ↦ .field readScalar_eq_some fun zX ↦
    .field readScalar_eq_some fun zT ↦ .field readScalar_eq_some fun zR ↦
    .field readScalar_eq_some fun zB ↦ .field readScalar_eq_some fun zSt ↦
    .field readScalar_eq_some fun zSb ↦ .field readRange_eq_some fun rpT ↦
    .field readRange_eq_some fun rpB ↦ .field u64_eq_some fun nonce ↦ .field u64_eq_some fun fee ↦ ?_
  apply Reader.Canonical.pure trivial
  simp [solventToBytes]

/-- A byte string is read as a solvent transfer exactly when it starts with its encoding. -/
theorem readSolvent_eq_some {xfer : T.Solvent} :
    T.readSolvent input = some (xfer, rest) ↔ input = T.solventToBytes xfer ++ rest := by
  constructor
  · exact fun hread ↦ (readSolvent_canonical _ _ _ hread).2
  · intro hinput
    rw [hinput]
    unfold readSolvent solventToBytes
    simp only [bind_eq_some, pure_eq_some, arr32_eq_some, u64_eq_some, readPoint_eq_some,
      readScalar_eq_some, readRange_eq_some, List.flatMap_cons, List.flatMap_nil, List.append_assoc, List.append_nil]
    exact ⟨_, _, rfl, _, _, rfl, _, _, rfl, _, _, rfl, _, _, rfl, _, _, rfl, _, _, rfl, _, _, rfl,
      _, _, rfl, _, _, rfl, _, _, rfl, _, _, rfl, _, _, rfl, _, _, rfl, _, _, rfl, _, _, rfl, _, _,
      rfl, _, _, rfl, _, _, rfl, _, _, rfl, _, _, rfl, _, _, rfl, _, _, rfl, _, _, rfl, rfl, rfl⟩

theorem readZeroOrDebit_eq_some {m : ZeroOrDebit T.ground.Point T.Scalar} :
    T.readZeroOrDebit input = some (m, rest) ↔ input = T.zeroOrDebitBytes m ++ rest := by
  unfold readZeroOrDebit zeroOrDebitBytes
  simp only [bind_eq_some, pure_eq_some, readPoint_eq_some, readScalar_eq_some, List.flatMap_cons,
    List.flatMap_nil, List.append_assoc, List.append_nil]
  constructor
  · rintro ⟨a0, -, rfl, a1, -, rfl, e0, -, rfl, z0, -, rfl, z1, -, rfl, rfl, rfl⟩
    rfl
  · rintro rfl
    exact ⟨_, _, rfl, _, _, rfl, _, _, rfl, _, _, rfl, _, _, rfl, rfl, rfl⟩

theorem readLink_eq_some {lk : DeltaLink T.ground.Point T.Scalar} :
    T.readLink input = some (lk, rest) ↔ input = T.linkBytes lk ++ rest := by
  unfold readLink linkBytes
  simp only [bind_eq_some, pure_eq_some, readPoint_eq_some, readScalar_eq_some, List.flatMap_cons,
    List.flatMap_nil, List.append_assoc, List.append_nil]
  constructor
  · rintro ⟨a1, -, rfl, a2, -, rfl, a3, -, rfl, zD, -, rfl, zS, -, rfl, zY, -, rfl, rfl, rfl⟩
    rfl
  · rintro rfl
    exact ⟨_, _, rfl, _, _, rfl, _, _, rfl, _, _, rfl, _, _, rfl, _, _, rfl, rfl, rfl⟩

/-- Whether every per-member list of a bundle of proofs has this length. -/
def proofWidth (proof : AnonProof T.ground.Point T.Scalar T.RangeProof) (n : ℕ) : Bool :=
  proof.deltas.length = n ∧ proof.e.length = n ∧ proof.zX.length = n ∧ proof.zS.length = n ∧
    proof.zG.length = n ∧ proof.membership.length = n ∧ proof.links.length = n

/-- An anonymous transfer with one entry for each of two to sixteen ring members in every list. -/
def Fits (xfer : T.Anon) : Prop :=
  2 ≤ xfer.ring.length ∧ xfer.ring.length ≤ MAX_RING_SIZE ∧
    xfer.balances.length = xfer.ring.length ∧ xfer.enc.length = xfer.ring.length ∧
    proofWidth xfer.proof xfer.ring.length = true

theorem readMembers_canonical {n : UInt32} (hn : ¬ (n.toNat < 2 ∨ MAX_RING_SIZE < n.toNat)) :
    (T.readMembers n.toNat).Canonical (u32Le n) Fits T.anonToBytes := by
  refine .field u64_eq_some fun fee ↦ .field u64_eq_some fun epoch ↦
    .list readKey_eq_some fun ring hring ↦ .list readCiphertext_eq_some fun balances hbalances ↦
    .list readPoint_eq_some fun deltas hdeltas ↦ .list readCiphertext_eq_some fun enc henc ↦
    .field readPoint_eq_some fun cDebit ↦ .field readCiphertext_eq_some fun credit ↦
    .field readKey_eq_some fun ephemeral ↦ .field readKey_eq_some fun oneTime ↦
    .field readPoint_eq_some fun nullifier ↦ .field arr32_eq_some fun v ↦
    .field readRange_eq_some fun rp ↦ .list readScalar_eq_some fun e he ↦
    .list readScalar_eq_some fun zX hzX ↦ .list readScalar_eq_some fun zS hzS ↦
    .list readScalar_eq_some fun zG hzG ↦
    .list readZeroOrDebit_eq_some fun membership hmembership ↦
    .list readLink_eq_some fun links hlinks ↦ .field readLink_eq_some fun creditLink ↦
    .field readPoint_eq_some fun sumA ↦ .field readScalar_eq_some fun sumZ ↦ ?_
  obtain ⟨hlow, hhigh⟩ := not_or.mp hn
  apply Reader.Canonical.pure
  · refine ⟨?_, ?_, ?_, ?_, ?_⟩
    · exact (not_lt.mp hlow).trans_eq hring.symm
    · exact hring.trans_le (not_lt.mp hhigh)
    · exact hbalances.trans hring.symm
    · exact henc.trans hring.symm
    · exact decide_eq_true ⟨hdeltas.trans hring.symm, he.trans hring.symm, hzX.trans hring.symm,
        hzS.trans hring.symm, hzG.trans hring.symm, hmembership.trans hring.symm,
        hlinks.trans hring.symm⟩
  · delta anonToBytes
    simp only [u32Le, hring, List.flatMap_append, List.flatMap_cons, List.flatMap_nil,
      List.append_assoc, List.append_nil]

/-- A byte string is read as an anonymous transfer exactly when it starts with its encoding. -/
theorem readAnon_eq_some {xfer : T.Anon} :
    T.readAnon input = some (xfer, rest) ↔ Fits xfer ∧ input = T.anonToBytes xfer ++ rest := by
  unfold readAnon
  rw [bind_eq_some]
  constructor
  · rintro ⟨n, mid, hn, hread⟩
    rw [u32_eq_some] at hn
    subst hn
    by_cases hring : n.toNat < 2 ∨ MAX_RING_SIZE < n.toNat
    · rw [if_pos hring] at hread
      cases hread
    · rw [if_neg hring] at hread
      exact readMembers_canonical hring _ _ _ hread
  · rintro ⟨⟨hlow, hhigh, hbalances, henc, hwidth⟩, hinput⟩
    have hn : (UInt32.ofNat xfer.ring.length).toNat = xfer.ring.length := by
      unfold MAX_RING_SIZE at hhigh
      exact UInt32.toNat_ofNat_of_lt' (show _ < 2 ^ 32 by omega)
    obtain ⟨hdeltas, he, hzX, hzS, hzG, hmembership, hlinks⟩ := of_decide_eq_true hwidth
    rw [hinput]
    delta anonToBytes
    simp only [List.append_assoc]
    refine ⟨UInt32.ofNat xfer.ring.length, _, u32_eq_some.mpr (by rw [u32Le, hn]), ?_⟩
    rw [if_neg (by omega), hn]
    unfold readMembers
    simp only [bind_eq_some, pure_eq_some, u64_eq_some, arr32_eq_some, readPoint_eq_some,
      readKey_eq_some, readCiphertext_eq_some, readScalar_eq_some, readRange_eq_some,
      readLink_eq_some, many_eq_some readPoint_eq_some, many_eq_some readKey_eq_some,
      many_eq_some readCiphertext_eq_some, many_eq_some readScalar_eq_some,
      many_eq_some readZeroOrDebit_eq_some, many_eq_some readLink_eq_some, List.flatMap_append,
      List.flatMap_cons, List.flatMap_nil, List.append_assoc, List.append_nil]
    exact ⟨_, _, rfl, _, _, rfl, _, _, ⟨rfl, rfl⟩, _, _, ⟨hbalances, rfl⟩, _, _, ⟨hdeltas, rfl⟩, _,
      _, ⟨henc, rfl⟩, _, _, rfl, _, _, rfl, _, _, rfl, _, _, rfl, _, _, rfl, _, _, rfl, _, _, rfl, _,
      _, ⟨he, rfl⟩, _, _, ⟨hzX, rfl⟩, _, _, ⟨hzS, rfl⟩, _, _, ⟨hzG, rfl⟩, _, _, ⟨hmembership, rfl⟩,
      _, _, ⟨hlinks, rfl⟩, _, _, rfl, _, _, rfl, _, _, rfl, rfl, rfl⟩

theorem solventFromBytes_eq_some (bytes : Bytes) (xfer : T.Solvent) :
    T.solventFromBytes bytes = some xfer ↔ T.solventToBytes xfer = bytes := by
  rw [solventFromBytes, Reader.complete_eq_some, readSolvent_eq_some, List.append_nil, eq_comm]

theorem anonFromBytes_eq_some (bytes : Bytes) (xfer : T.Anon) :
    T.anonFromBytes bytes = some xfer ↔ Fits xfer ∧ T.anonToBytes xfer = bytes := by
  rw [anonFromBytes, Reader.complete_eq_some, readAnon_eq_some, List.append_nil, eq_comm (a := bytes)]

end Accepts

/-! ### Lengths -/

section Lengths

variable {T}

@[simp] theorem length_pointBytes (point : T.ground.Point) : (T.pointBytes point).length = 32 :=
  length_bytesOf32 _

@[simp] theorem length_keyBytes (key : PublicKey T.ground.Point) : (T.keyBytes key).length = 32 :=
  length_bytesOf32 _

@[simp]
theorem length_ciphertextBytes (ct : Ciphertext T.ground.Point) :
    (T.ciphertextBytes ct).length = 64 := length_bytesOf64 _

@[simp] theorem length_scalarBytes (scalar : T.Scalar) : (T.scalarBytes scalar).length = 32 :=
  length_bytesOf32 _

theorem length_rangeBytes_lt (proof : T.RangeProof) : (T.rangeBytes proof).length < 2 ^ 17 := by
  have hlength := T.length_rangeToBytes proof
  simp only [rangeBytes, List.length_append, length_leBytes]
  omega

theorem length_solventToBytes_lt (xfer : T.Solvent) : (T.solventToBytes xfer).length < 2 ^ 31 := by
  have hT := length_rangeBytes_lt xfer.proof.rpT
  have hB := length_rangeBytes_lt xfer.proof.rpB
  delta solventToBytes
  simp only [List.flatMap_cons, List.flatMap_nil, List.length_append, List.length_nil,
    length_pointBytes, length_scalarBytes, length_bytesOf32, length_u64Le]
  omega

/-- A list of entries of one length. -/
theorem length_flatMap_const {α : Type} {part : α → Bytes} {width : ℕ} (entries : List α)
    (hwidth : ∀ entry, (part entry).length = width) :
    (entries.flatMap part).length = entries.length * width := by
  simp [List.length_flatMap, hwidth]

theorem length_anonToBytes_lt {xfer : T.Anon} (hfits : Fits xfer) :
    (T.anonToBytes xfer).length < 2 ^ 31 := by
  obtain ⟨-, hcap, hbalances, henc, hwidth⟩ := hfits
  obtain ⟨hdeltas, he, hzX, hzS, hzG, hmembership, hlinks⟩ := of_decide_eq_true hwidth
  have hrange := length_rangeBytes_lt xfer.proof.rp
  have hzeroOrDebit : ∀ m, (T.zeroOrDebitBytes m).length = 160 := fun m ↦ by
    simp [zeroOrDebitBytes]
  have hlink : ∀ lk, (T.linkBytes lk).length = 192 := fun lk ↦ by simp [linkBytes]
  delta anonToBytes
  simp only [List.length_append, length_flatMap_const _ length_keyBytes,
    length_flatMap_const _ length_ciphertextBytes, length_flatMap_const _ length_pointBytes,
    length_flatMap_const _ length_scalarBytes, length_flatMap_const _ hzeroOrDebit,
    length_flatMap_const _ hlink, List.flatMap_cons, List.flatMap_nil, length_leBytes,
    length_u64Le, length_bytesOf32, length_pointBytes, length_keyBytes, length_ciphertextBytes,
    length_scalarBytes, List.length_cons, List.length_nil, hbalances, henc, hdeltas, he, hzX, hzS,
    hzG, hmembership, hlinks]
  unfold MAX_RING_SIZE at hcap
  omega

end Lengths

/-! ### The suite -/

/-- The suite of a chain with these transfers. -/
def chainSuite : ChainSuite where
  toCryptoSuite :=
    { T.ground with
      SolventProof := SolventProof T.ground.Point T.Scalar T.RangeProof
      solventVerify := T.solventVerify
      solventToBytes := T.solventToBytes
      AnonProof := AnonProof T.ground.Point T.Scalar T.RangeProof
      -- The lists are checked to have one length before anything else is verified.
      anonVerify := fun xfer token ↦
        (2 ≤ xfer.ring.length ∧ xfer.balances.length = xfer.ring.length ∧
          xfer.enc.length = xfer.ring.length ∧
          proofWidth xfer.proof xfer.ring.length = true : Bool) && T.anonRelations xfer token
      anonToBytes := T.anonToBytes }
  solventFromBytes := T.solventFromBytes
  solventFromBytes_eq_some := solventFromBytes_eq_some
  length_solventToBytes := length_solventToBytes_lt
  anonProofWidth := proofWidth
  anonFromBytes := T.anonFromBytes
  anonFromBytes_eq_some := anonFromBytes_eq_some
  length_of_anonFromBytes bytes xfer hread := by
    obtain ⟨hfits, rfl⟩ := (anonFromBytes_eq_some bytes xfer).mp hread
    exact length_anonToBytes_lt hfits
  width_of_anonVerify xfer token hverified := by
    rw [Bool.and_eq_true] at hverified
    exact of_decide_eq_true hverified.1
  powHash := T.powHash
  digestBytes := T.digestBytes

end TransferSuite

/-- A suite to read and write transfers with. None of them is accepted. -/
def freeTransfers : TransferSuite where
  ground := freeSuite
  compress_of_decompress _ _ hread := (Option.some.inj hread).symm
  Scalar := Bytes32
  scalarToBytes scalar := scalar
  scalarFromCanonicalBytes bytes := some bytes
  scalarFromCanonicalBytes_eq_some bytes scalar := by rw [Option.some_inj, eq_comm]
  RangeProof := { bytes : Bytes // bytes.length < 2 ^ 16 }
  rangeToBytes proof := proof.1
  rangeFromBytes bytes := if hlength : bytes.length < 2 ^ 16 then some ⟨bytes, hlength⟩ else none
  rangeFromBytes_eq_some bytes proof := by
    constructor
    · intro hread
      obtain ⟨hlength, hproof⟩ := Option.dite_none_right_eq_some.mp hread
      rw [← Option.some.inj hproof]
    · rintro rfl
      rw [dif_pos proof.2]
  length_rangeToBytes proof := proof.2
  solventVerify _ _ _ := false
  anonRelations _ _ := false
  powHash := polynomialHash
  digestBytes := FreeDigest.hash

end Latebra.Crypto
