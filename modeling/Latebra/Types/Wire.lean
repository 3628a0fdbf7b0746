import Latebra.Crypto.ChainSuite
import Latebra.Types.Transaction

/-!
# Transactions on the wire

`Transaction.decode` reads a transaction from its canonical encoding: a tag byte, then the fields of
the variant, then nothing. `decode_encode` is the round trip of every transaction that has a wire
form, and `decode_eq_some` says that no other byte string is read as a transaction.
-/

set_option autoImplicit false
set_option relaxedAutoImplicit false

namespace Latebra.Types

open Foundation Crypto

/-- The next little-endian 16-bit number. -/
def readU16 : Reader ℕ := do
  let bytes ← Reader.take 2
  return leValue bytes

/-- The next little-endian 32-bit number, as a length. -/
def readLen : Reader ℕ := do
  let bytes ← Reader.take 4
  return leValue bytes

/-- Everything that is left. -/
def readRest : Reader Bytes := fun input ↦ some (input, [])

/-- The next byte as a flag, strictly zero or one. -/
def readFlag : Reader Bool := do
  let byte ← Reader.u8
  if byte = 0 then return false
  else if byte = 1 then return true
  else Reader.failure

namespace Transaction

open Reader (u32 u64 arr32 arr64 take ofOption)

/-- The fields after the tag byte. -/
def readBody (S : ChainSuite) (tag : UInt8) : Reader (Transaction S.toCryptoSuite) :=
  match tag.toNat with
  | 0x00 => do
    return .register (← arr32) (← u64)
  | 0x02 => do
    let len ← readU16
    let ticker ← ofOption (Text.fromUtf8 (← take len))
    return .createToken ticker (← arr32) (← u64) (← arr64)
  | 0x03 => do
    let token ← u32
    return .solventTransfer token (← ofOption (S.solventFromBytes (← readRest)))
  | 0x04 => do
    return .rollover (← arr32) (← u64) (← arr64)
  | 0x05 => do
    let deployer ← arr32
    let len ← readLen
    return .deployContract deployer (← take len) (← arr64)
  | 0x06 => do
    return .callContract (← arr32) (← arr32) (← u64) (← u64) (← arr64)
  | 0x07 => do
    return .publicTransfer (← u32) (← arr32) (← arr32) (← u64) (← u64) (← u64) (← arr64)
  | 0x08 => do
    return .shield (← u32) (← arr32) (← arr32) (← u64) (← u64) (← u64) (← arr64)
  | 0x09 => do
    let token ← u32
    let toId ← arr32
    let amount ← u64
    let len ← readLen
    let xfer ← ofOption (S.solventFromBytes (← take len))
    return .unshield token toId amount xfer (← arr64)
  | 0x0A => do
    return .shieldStealth (← u32) (← arr32) (← arr32) (← arr32) (← u64) (← u64) (← u64) (← arr64)
  | 0x0B => do
    let token ← u32
    let len ← readLen
    return .anonTransfer token (← ofOption (S.anonFromBytes (← take len)))
  | 0x0C => do
    return .stake (← arr32) (← u64) (← u64) (← arr64)
  | 0x0D => do
    return .unstake (← arr32) (← u64) (← u64) (← arr64)
  | 0x0E => do
    return .slashEvidence (← arr32) (← arr32) (← u64) (← arr32) (← arr64) (← arr32) (← arr64)
  | 0x0F => do
    return .addLiquidity (← u32) (← arr32) (← u64) (← u64) (← u64) (← u64) (← arr64)
  | 0x10 => do
    return .removeLiquidity (← u32) (← arr32) (← u64) (← u64) (← u64) (← arr64)
  | 0x11 => do
    return .swap (← u32) (← arr32) (← readFlag) (← u64) (← u64) (← u64) (← u64) (← arr64)
  | 0x12 => do
    return .htlcLock (← u32) (← arr32) (← arr32) (← u64) (← arr32) (← u64) (← u64) (← u64) (← arr64)
  | 0x13 => do
    return .htlcClaim (← arr32) (← arr32)
  | 0x14 => do
    return .htlcRefund (← arr32)
  | 0x15 => do
    return .curveTrade (← u32) (← arr32) (← readFlag) (← u64) (← u64) (← u64) (← u64) (← arr64)
  | _ => Reader.failure

/-- Decode a transaction from its canonical encoding. There is none in malformed input. -/
def decode (S : ChainSuite) : Bytes → Option (Transaction S.toCryptoSuite)
  | [] => none
  | tag :: rest => (readBody S tag).complete rest

end Transaction

/-- A byte string is read as a text exactly when it is the encoding of the text. -/
theorem Text.fromUtf8_eq_some {bytes : Bytes} {text : Text} :
    Text.fromUtf8 bytes = some text ↔ Text.asBytes text = bytes := by
  constructor
  · intro hread
    rw [Text.fromUtf8, Option.map_eq_some_iff] at hread
    obtain ⟨letters, hdecode, rfl⟩ := hread
    have hsome : bytes.toByteArray.utf8Decode?.isSome := by rw [hdecode]; rfl
    have hencode := ByteArray.utf8Encode_get_utf8Decode? (b := bytes.toByteArray) (h := hsome)
    have hget : bytes.toByteArray.utf8Decode?.get hsome = letters := by simp [hdecode]
    rw [hget] at hencode
    have hdata := congrArg (fun array ↦ array.data.toList) hencode
    simpa [List.utf8Encode, Text.asBytes] using hdata
  · rintro rfl
    exact Text.fromUtf8_asBytes text

namespace Transaction

open Reader (u32 u64 arr32 arr64 take ofOption)

/-! ### Round trip -/

/-- A transaction that has a wire form: its lengths fit their counts. -/
def Transmissible (S : ChainSuite) : Transaction S.toCryptoSuite → Prop
  | createToken ticker _ _ _ => (Text.asBytes ticker).length < 2 ^ 16
  | deployContract _ code _ => code.length < 2 ^ 32
  | anonTransfer _ xfer => S.Sized xfer
  | _ => True

section Reads

open Reader (Reads)

theorem reads_len {n : ℕ} (hn : n < 2 ^ 32) : Reads readLen n (leBytes 4 n) := by
  have hvalue : leValue (leBytes 4 n) = n := leValue_leBytes (by omega)
  have htake := Reads.take (leBytes 4 n)
  rw [length_leBytes] at htake
  have hread : Reads readLen (leValue (leBytes 4 n)) (leBytes 4 n ++ []) :=
    htake.bind (Reads.pure _)
  rwa [hvalue, List.append_nil] at hread

theorem reads_u16 {n : ℕ} (hn : n < 2 ^ 16) : Reads readU16 n (leBytes 2 n) := by
  have hvalue : leValue (leBytes 2 n) = n := leValue_leBytes (by omega)
  have htake := Reads.take (leBytes 2 n)
  rw [length_leBytes] at htake
  have hread : Reads readU16 (leValue (leBytes 2 n)) (leBytes 2 n ++ []) :=
    htake.bind (Reads.pure _)
  rwa [hvalue, List.append_nil] at hread

theorem reads_flag (flag : Bool) : Reads readFlag flag (flagByte flag) := by
  cases flag <;> exact (Reads.u8 _).bind (Reads.pure _)

variable {S : ChainSuite} {tx : Transaction S.toCryptoSuite} {body : Bytes}

/-- A variant reads back when its fields do. -/
theorem decode_of_reads (tag : UInt8) (hread : Reads (readBody S tag) tx body)
    (hencode : tx.encode = tag :: body) : decode S tx.encode = some tx := by
  rw [hencode]
  exact Reader.complete_of_reads hread

/-- The only variant that reads to the end of its bytes without a length. -/
theorem decode_solventTransfer (token : UInt32) (xfer : SolventTransfer S.Point S.SolventProof) :
    decode S (solventTransfer token xfer : Transaction S.toCryptoSuite).encode =
      some (solventTransfer token xfer) := by
  have hbody : readBody S 0x03 (u32Le token ++ S.solventToBytes xfer) =
      some (solventTransfer token xfer, []) := by
    have htail : Reads (ofOption (S.solventFromBytes (S.solventToBytes xfer)) >>= fun read ↦
        Pure.pure (solventTransfer token read : Transaction S.toCryptoSuite))
        (solventTransfer token xfer) ([] ++ []) :=
      (Reads.ofOption (S.solventFromBytes_toBytes xfer)).bind (Reads.pure _)
    exact ((Reads.u32 token).bind_apply _ _).trans (htail [])
  have hencode : (solventTransfer token xfer : Transaction S.toCryptoSuite).encode =
      0x03 :: (u32Le token ++ S.solventToBytes xfer) := rfl
  rw [hencode]
  change (readBody S 0x03).complete _ = _
  rw [Reader.complete, hbody]

/-- A transaction that has a wire form reads back. -/
theorem decode_encode (hfits : tx.Transmissible S) : decode S tx.encode = some tx := by
  cases tx with
  | register pubkey powNonce =>
    refine decode_of_reads 0x00 ((Reads.arr32 pubkey).bind ((Reads.u64 powNonce).bind
        (Reads.pure _))) ?_
    simp [encode]
  | rollover account nonce sig =>
    refine decode_of_reads 0x04 ((Reads.arr32 account).bind ((Reads.u64 nonce).bind
        ((Reads.arr64 sig).bind (Reads.pure _)))) ?_
    simp [encode]
  | callContract contract caller input nonce sig =>
    refine decode_of_reads 0x06 ((Reads.arr32 contract).bind ((Reads.arr32 caller).bind
        ((Reads.u64 input).bind ((Reads.u64 nonce).bind ((Reads.arr64 sig).bind
        (Reads.pure _)))))) ?_
    simp [encode]
  | publicTransfer token fromId toId amount fee nonce sig =>
    refine decode_of_reads 0x07 ((Reads.u32 token).bind ((Reads.arr32 fromId).bind
        ((Reads.arr32 toId).bind ((Reads.u64 amount).bind ((Reads.u64 fee).bind
        ((Reads.u64 nonce).bind ((Reads.arr64 sig).bind (Reads.pure _)))))))) ?_
    simp [encode]
  | shield token fromId toId amount fee nonce sig =>
    refine decode_of_reads 0x08 ((Reads.u32 token).bind ((Reads.arr32 fromId).bind
        ((Reads.arr32 toId).bind ((Reads.u64 amount).bind ((Reads.u64 fee).bind
        ((Reads.u64 nonce).bind ((Reads.arr64 sig).bind (Reads.pure _)))))))) ?_
    simp [encode]
  | shieldStealth token fromId ephemeral oneTime amount fee nonce sig =>
    refine decode_of_reads 0x0A ((Reads.u32 token).bind ((Reads.arr32 fromId).bind
        ((Reads.arr32 ephemeral).bind ((Reads.arr32 oneTime).bind ((Reads.u64 amount).bind
        ((Reads.u64 fee).bind ((Reads.u64 nonce).bind ((Reads.arr64 sig).bind
        (Reads.pure _))))))))) ?_
    simp [encode]
  | stake validator amount nonce sig =>
    refine decode_of_reads 0x0C ((Reads.arr32 validator).bind ((Reads.u64 amount).bind
        ((Reads.u64 nonce).bind ((Reads.arr64 sig).bind (Reads.pure _))))) ?_
    simp [encode]
  | unstake validator amount nonce sig =>
    refine decode_of_reads 0x0D ((Reads.arr32 validator).bind ((Reads.u64 amount).bind
        ((Reads.u64 nonce).bind ((Reads.arr64 sig).bind (Reads.pure _))))) ?_
    simp [encode]
  | slashEvidence validator beneficiary height blockA sigA blockB sigB =>
    refine decode_of_reads 0x0E ((Reads.arr32 validator).bind ((Reads.arr32 beneficiary).bind
        ((Reads.u64 height).bind ((Reads.arr32 blockA).bind ((Reads.arr64 sigA).bind
        ((Reads.arr32 blockB).bind ((Reads.arr64 sigB).bind (Reads.pure _)))))))) ?_
    simp [encode]
  | addLiquidity token provider latAmount tokAmount fee nonce sig =>
    refine decode_of_reads 0x0F ((Reads.u32 token).bind ((Reads.arr32 provider).bind
        ((Reads.u64 latAmount).bind ((Reads.u64 tokAmount).bind ((Reads.u64 fee).bind
        ((Reads.u64 nonce).bind ((Reads.arr64 sig).bind (Reads.pure _)))))))) ?_
    simp [encode]
  | removeLiquidity token provider lpAmount fee nonce sig =>
    refine decode_of_reads 0x10 ((Reads.u32 token).bind ((Reads.arr32 provider).bind
        ((Reads.u64 lpAmount).bind ((Reads.u64 fee).bind ((Reads.u64 nonce).bind
        ((Reads.arr64 sig).bind (Reads.pure _))))))) ?_
    simp [encode]
  | swap token trader latIn amountIn minOut fee nonce sig =>
    refine decode_of_reads 0x11 ((Reads.u32 token).bind ((Reads.arr32 trader).bind
        ((reads_flag latIn).bind ((Reads.u64 amountIn).bind ((Reads.u64 minOut).bind
        ((Reads.u64 fee).bind ((Reads.u64 nonce).bind ((Reads.arr64 sig).bind
        (Reads.pure _))))))))) ?_
    simp [encode]
  | curveTrade token trader isBuy amount minOut fee nonce sig =>
    refine decode_of_reads 0x15 ((Reads.u32 token).bind ((Reads.arr32 trader).bind
        ((reads_flag isBuy).bind ((Reads.u64 amount).bind ((Reads.u64 minOut).bind
        ((Reads.u64 fee).bind ((Reads.u64 nonce).bind ((Reads.arr64 sig).bind
        (Reads.pure _))))))))) ?_
    simp [encode]
  | htlcLock token fromId toId amount hashlock expiry fee nonce sig =>
    refine decode_of_reads 0x12 ((Reads.u32 token).bind ((Reads.arr32 fromId).bind
        ((Reads.arr32 toId).bind ((Reads.u64 amount).bind ((Reads.arr32 hashlock).bind
        ((Reads.u64 expiry).bind ((Reads.u64 fee).bind ((Reads.u64 nonce).bind
        ((Reads.arr64 sig).bind (Reads.pure _)))))))))) ?_
    simp [encode]
  | htlcClaim id preimage =>
    refine decode_of_reads 0x13 ((Reads.arr32 id).bind ((Reads.arr32 preimage).bind
        (Reads.pure _))) ?_
    simp [encode]
  | htlcRefund id =>
    refine decode_of_reads 0x14 ((Reads.arr32 id).bind (Reads.pure _)) ?_
    simp [encode]
  | createToken ticker creator supply sig =>
    refine decode_of_reads 0x02 ((reads_u16 hfits).bind ((Reads.take _).bind
      ((Reads.ofOption (Text.fromUtf8_asBytes ticker)).bind ((Reads.arr32 creator).bind
        ((Reads.u64 supply).bind ((Reads.arr64 sig).bind (Reads.pure _))))))) ?_
    simp [encode]
  | solventTransfer token xfer => exact decode_solventTransfer token xfer
  | deployContract deployer code sig =>
    refine decode_of_reads 0x05 ((Reads.arr32 deployer).bind ((reads_len hfits).bind
      ((Reads.take _).bind ((Reads.arr64 sig).bind (Reads.pure _))))) ?_
    simp [encode]
  | unshield token toId amount xfer sig =>
    have hlength := S.length_solventToBytes xfer
    refine decode_of_reads 0x09 ((Reads.u32 token).bind ((Reads.arr32 toId).bind
      ((Reads.u64 amount).bind ((reads_len (by omega)).bind ((Reads.take _).bind
        ((Reads.ofOption (S.solventFromBytes_toBytes xfer)).bind
          ((Reads.arr64 sig).bind (Reads.pure _)))))))) ?_
    simp [encode]
  | anonTransfer token xfer =>
    have hlength := S.length_of_anonFromBytes _ _ (S.anonFromBytes_toBytes hfits)
    refine decode_of_reads 0x0B ((Reads.u32 token).bind ((reads_len (by omega)).bind
      ((Reads.take _).bind ((Reads.ofOption (S.anonFromBytes_toBytes hfits)).bind
        (Reads.pure _))))) ?_
    simp [encode]

end Reads

/-! ### No second wire form -/

section Accepts

open Reader (bind_eq_some pure_eq_some take_eq_some ofOption_eq_some u8_eq_some u32_eq_some
  u64_eq_some arr32_eq_some arr64_eq_some)

variable {S : ChainSuite} {tx : Transaction S.toCryptoSuite} {input rest : Bytes}

theorem readLen_eq_some {n : ℕ} :
    readLen input = some (n, rest) ↔ n < 2 ^ 32 ∧ input = leBytes 4 n ++ rest := by
  unfold readLen
  simp only [bind_eq_some, pure_eq_some, take_eq_some]
  constructor
  · rintro ⟨bytes, mid, ⟨hlength, rfl⟩, rfl, rfl⟩
    have hround := leBytes_leValue bytes
    have hlt := leValue_lt bytes
    rw [hlength] at hround hlt
    exact ⟨by omega, by rw [hround]⟩
  · rintro ⟨hn, rfl⟩
    exact ⟨_, _, ⟨length_leBytes 4 n, rfl⟩, leValue_leBytes (by omega), rfl⟩

theorem readU16_eq_some {n : ℕ} :
    readU16 input = some (n, rest) ↔ n < 2 ^ 16 ∧ input = leBytes 2 n ++ rest := by
  unfold readU16
  simp only [bind_eq_some, pure_eq_some, take_eq_some]
  constructor
  · rintro ⟨bytes, mid, ⟨hlength, rfl⟩, rfl, rfl⟩
    have hround := leBytes_leValue bytes
    have hlt := leValue_lt bytes
    rw [hlength] at hround hlt
    exact ⟨by omega, by rw [hround]⟩
  · rintro ⟨hn, rfl⟩
    exact ⟨_, _, ⟨length_leBytes 2 n, rfl⟩, leValue_leBytes (by omega), rfl⟩

theorem readRest_eq_some {bytes : Bytes} :
    readRest input = some (bytes, rest) ↔ input = bytes ∧ rest = [] := by
  simp [readRest, eq_comm]

theorem readFlag_eq_some {flag : Bool} :
    readFlag input = some (flag, rest) ↔ input = flagByte flag ++ rest := by
  unfold readFlag
  simp only [bind_eq_some, u8_eq_some]
  constructor
  · rintro ⟨byte, mid, rfl, hflag⟩
    by_cases hzero : byte = 0
    · subst hzero
      obtain ⟨rfl, rfl⟩ := pure_eq_some.mp hflag
      rfl
    by_cases hone : byte = 1
    · subst hone
      obtain ⟨rfl, rfl⟩ := pure_eq_some.mp hflag
      rfl
    · rw [if_neg hzero, if_neg hone] at hflag
      cases hflag
  · rintro rfl
    cases flag <;> exact ⟨_, _, rfl, rfl⟩

/-- Whatever the fields behind a tag are read as writes the tag and the fields. -/
theorem of_readBody {tag : UInt8} (hread : readBody S tag rest = some (tx, [])) :
    tx.Transmissible S ∧ tx.encode = tag :: rest := by
  have htag : ∀ {code : ℕ}, tag.toNat = code → tag = UInt8.ofNat code := by
    rintro code rfl
    exact UInt8.ofNat_toNat.symm
  revert hread
  fun_cases readBody S tag <;> intro hread
  case case22 => cases hread
  all_goals
    rename_i hcode
    have htag := htag hcode
    subst htag
    simp only [bind_eq_some, pure_eq_some, ofOption_eq_some, u32_eq_some, u64_eq_some,
      arr32_eq_some, arr64_eq_some, readFlag_eq_some, readLen_eq_some, readU16_eq_some,
      take_eq_some, readRest_eq_some, Text.fromUtf8_eq_some, S.solventFromBytes_eq_some,
      S.anonFromBytes_eq_some] at hread
  case case1 =>
    -- register
    obtain ⟨pubkey, -, rfl, powNonce, -, rfl, rfl, rfl⟩ := hread
    exact ⟨trivial, by simp [encode]⟩
  case case2 =>
    -- createToken
    obtain ⟨len, -, ⟨hlen, rfl⟩, bytes, -, ⟨rfl, rfl⟩, ticker, -, ⟨rfl, rfl⟩, creator, -, rfl, supply, -,
      rfl, sig, -, rfl, rfl, rfl⟩ := hread
    exact ⟨hlen, by simp [encode]⟩
  case case3 =>
    -- solventTransfer
    obtain ⟨token, -, rfl, bytes, -, ⟨rfl, rfl⟩, xfer, -, ⟨rfl, rfl⟩, rfl, -⟩ := hread
    exact ⟨trivial, by simp [encode]⟩
  case case4 =>
    -- rollover
    obtain ⟨account, -, rfl, nonce, -, rfl, sig, -, rfl, rfl, rfl⟩ := hread
    exact ⟨trivial, by simp [encode]⟩
  case case5 =>
    -- deployContract
    obtain ⟨deployer, -, rfl, len, -, ⟨hlen, rfl⟩, code, -, ⟨rfl, rfl⟩, sig, -, rfl, rfl, rfl⟩ := hread
    exact ⟨hlen, by simp [encode]⟩
  case case6 =>
    -- callContract
    obtain ⟨contract, -, rfl, caller, -, rfl, word, -, rfl, nonce, -, rfl, sig, -, rfl, rfl,
      rfl⟩ := hread
    exact ⟨trivial, by simp [encode]⟩
  case case7 =>
    -- publicTransfer
    obtain ⟨token, -, rfl, fromId, -, rfl, toId, -, rfl, amount, -, rfl, fee, -, rfl, nonce, -,
      rfl, sig, -, rfl, rfl, rfl⟩ := hread
    exact ⟨trivial, by simp [encode]⟩
  case case8 =>
    -- shield
    obtain ⟨token, -, rfl, fromId, -, rfl, toId, -, rfl, amount, -, rfl, fee, -, rfl, nonce, -,
      rfl, sig, -, rfl, rfl, rfl⟩ := hread
    exact ⟨trivial, by simp [encode]⟩
  case case9 =>
    -- unshield
    obtain ⟨token, -, rfl, toId, -, rfl, amount, -, rfl, len, -, ⟨-, rfl⟩, bytes, -, ⟨rfl, rfl⟩, xfer, -,
      ⟨rfl, rfl⟩, sig, -, rfl, rfl, rfl⟩ := hread
    exact ⟨trivial, by simp [encode]⟩
  case case10 =>
    -- shieldStealth
    obtain ⟨token, -, rfl, fromId, -, rfl, ephemeral, -, rfl, oneTime, -, rfl, amount, -, rfl, fee,
      -, rfl, nonce, -, rfl, sig, -, rfl, rfl, rfl⟩ := hread
    exact ⟨trivial, by simp [encode]⟩
  case case11 =>
    -- anonTransfer
    obtain ⟨token, -, rfl, len, -, ⟨-, rfl⟩, bytes, -, ⟨rfl, rfl⟩, xfer, -, ⟨⟨hsized, rfl⟩, rfl⟩, rfl,
      rfl⟩ := hread
    exact ⟨hsized, by simp [encode]⟩
  case case12 =>
    -- stake
    obtain ⟨validator, -, rfl, amount, -, rfl, nonce, -, rfl, sig, -, rfl, rfl, rfl⟩ := hread
    exact ⟨trivial, by simp [encode]⟩
  case case13 =>
    -- unstake
    obtain ⟨validator, -, rfl, amount, -, rfl, nonce, -, rfl, sig, -, rfl, rfl, rfl⟩ := hread
    exact ⟨trivial, by simp [encode]⟩
  case case14 =>
    -- slashEvidence
    obtain ⟨validator, -, rfl, beneficiary, -, rfl, height, -, rfl, blockA, -, rfl, sigA, -, rfl,
      blockB, -, rfl, sigB, -, rfl, rfl, rfl⟩ := hread
    exact ⟨trivial, by simp [encode]⟩
  case case15 =>
    -- addLiquidity
    obtain ⟨token, -, rfl, provider, -, rfl, latAmount, -, rfl, tokAmount, -, rfl, fee, -, rfl,
      nonce, -, rfl, sig, -, rfl, rfl, rfl⟩ := hread
    exact ⟨trivial, by simp [encode]⟩
  case case16 =>
    -- removeLiquidity
    obtain ⟨token, -, rfl, provider, -, rfl, lpAmount, -, rfl, fee, -, rfl, nonce, -, rfl, sig, -,
      rfl, rfl, rfl⟩ := hread
    exact ⟨trivial, by simp [encode]⟩
  case case17 =>
    -- swap
    obtain ⟨token, -, rfl, trader, -, rfl, latIn, -, rfl, amountIn, -, rfl, minOut, -, rfl, fee, -,
      rfl, nonce, -, rfl, sig, -, rfl, rfl, rfl⟩ := hread
    exact ⟨trivial, by simp [encode]⟩
  case case18 =>
    -- htlcLock
    obtain ⟨token, -, rfl, fromId, -, rfl, toId, -, rfl, amount, -, rfl, hashlock, -, rfl, expiry,
      -, rfl, fee, -, rfl, nonce, -, rfl, sig, -, rfl, rfl, rfl⟩ := hread
    exact ⟨trivial, by simp [encode]⟩
  case case19 =>
    -- htlcClaim
    obtain ⟨id, -, rfl, preimage, -, rfl, rfl, rfl⟩ := hread
    exact ⟨trivial, by simp [encode]⟩
  case case20 =>
    -- htlcRefund
    obtain ⟨id, -, rfl, rfl, rfl⟩ := hread
    exact ⟨trivial, by simp [encode]⟩
  case case21 =>
    -- curveTrade
    obtain ⟨token, -, rfl, trader, -, rfl, isBuy, -, rfl, amount, -, rfl, minOut, -, rfl, fee, -,
      rfl, nonce, -, rfl, sig, -, rfl, rfl, rfl⟩ := hread
    exact ⟨trivial, by simp [encode]⟩

/-- A byte string is read as a transaction exactly when it is its encoding, and only a transaction
that has a wire form is read. -/
theorem decode_eq_some {bytes : Bytes} :
    decode S bytes = some tx ↔ tx.Transmissible S ∧ tx.encode = bytes := by
  constructor
  · intro hread
    cases bytes with
    | nil => cases hread
    | cons tag body => exact of_readBody (Reader.complete_eq_some.mp hread)
  · rintro ⟨hfits, rfl⟩
    exact decode_encode hfits

end Accepts

end Transaction

end Latebra.Types
