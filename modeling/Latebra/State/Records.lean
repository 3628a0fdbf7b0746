import Latebra.Foundation.MachineWord
import Latebra.Foundation.OverlayMap
import Latebra.Contracts.BondingCurve
import Latebra.Types.Transaction
import Latebra.Vm.Machine

/-!
# Object records

The objects of the ledger, and their encoded records: every object is one record, stored under a
tag byte followed by the id of the object, so that each kind of object occupies a contiguous range
of keys.

`RecordKey.bytes_injective` says that two objects never share a record key, and
the lemmas of the last section (`decodeAccount_encodeAccount` and the like) that the record of an
object reads back as that object. Counts are written in four bytes, so the latter holds for objects
whose lists are shorter than `2 ^ 32` entries (`Account.Fits` and the like).
-/

set_option autoImplicit false
set_option relaxedAutoImplicit false

namespace Latebra.State

open Foundation Crypto Latebra.Types Contracts

/-- The native coin LAT. -/
def LAT_TOKEN : UInt32 := 0

/-! ### Objects -/

/-- A validator's staking state: bonded stake, unbonding entries as amount and release height, and
whether it was slashed for equivocation. -/
structure Validator where
  staked : UInt64
  unbonding : List (UInt64 × UInt64)
  tombstoned : Bool
deriving DecidableEq

/-- The state of an account that never staked. -/
def Validator.default : Validator := ⟨0, [], false⟩

/-- A constant-product liquidity pool pairing a token against native LAT. -/
structure Pool where
  token : UInt32
  lat : UInt64
  tok : UInt64
  lpSupply : UInt64
deriving DecidableEq

/-- A native bonding-curve pool for one token. -/
structure CurvePool where
  token : UInt32
  vlat : UInt64
  vtok : UInt64
  realLat : UInt64
  graduated : Bool
deriving DecidableEq

namespace CurvePool

/-- The curve pool of a token with the reserves of a price curve. -/
def fromMath (token : UInt32) (curve : Curve) : CurvePool :=
  ⟨token, curve.vlat, curve.vtok, curve.realLat, curve.graduated⟩

/-- A fresh curve for a token. -/
def genesis (token : UInt32) : CurvePool := fromMath token Curve.default

/-- The pricing view of a curve pool. -/
def math (pool : CurvePool) : Curve := ⟨pool.vlat, pool.vtok, pool.realLat, pool.graduated⟩

end CurvePool

/-- An open hash time-locked contract. -/
structure Htlc where
  token : UInt32
  fromId : Bytes32
  toId : Bytes32
  amount : UInt64
  hashlock : Bytes32
  expiry : UInt64
deriving DecidableEq

/-- Metadata recorded for each created token. -/
structure TokenMeta where
  id : UInt32
  ticker : Text
  creator : Bytes32
  supply : UInt64
deriving DecidableEq

/-- One account's state: spendable and pending confidential balances, the public balances, and the
spend nonce. -/
structure Account (C : CryptoSuite) where
  balances : FMap UInt32 (Ciphertext C.Point)
  pendings : FMap UInt32 (Ciphertext C.Point)
  publics : FMap UInt32 UInt64
  nonce : UInt64

namespace Account

variable {C : CryptoSuite} (a : Account C) (token : UInt32)

/-- A freshly registered account. -/
def default : Account C := ⟨∅, ∅, ∅, 0⟩

def balance : Ciphertext C.Point := a.balances[token]?.getD C.zero

def pending : Ciphertext C.Point := a.pendings[token]?.getD C.zero

def set (ct : Ciphertext C.Point) : Account C := { a with balances := a.balances.insert token ct }

def setPending (ct : Ciphertext C.Point) : Account C :=
  { a with pendings := a.pendings.insert token ct }

/-- The transparent balance of a token. -/
def pub : UInt64 := a.publics[token]?.getD 0

def setPublic (amount : UInt64) : Account C := { a with publics := a.publics.insert token amount }

/-- The account with another spend nonce. -/
def withNonce (next : UInt64) : Account C := { a with nonce := next }

section Updates

variable (ct : Ciphertext C.Point) (amount next : UInt64) (other : UInt32)

@[simp]
theorem balance_set :
    (a.set token ct).balance other = if other = token then ct else a.balance other := by
  simp only [balance, set, FMap.lookup_insert]
  split <;> rfl

@[simp]
theorem pending_setPending :
    (a.setPending token ct).pending other = if other = token then ct else a.pending other := by
  simp only [pending, setPending, FMap.lookup_insert]
  split <;> rfl

@[simp]
theorem pub_setPublic :
    (a.setPublic token amount).pub other = if other = token then amount else a.pub other := by
  simp only [pub, setPublic, FMap.lookup_insert]
  split <;> rfl

@[simp] theorem pending_set : (a.set token ct).pending other = a.pending other := rfl
@[simp] theorem pub_set : (a.set token ct).pub other = a.pub other := rfl
@[simp] theorem nonce_set : (a.set token ct).nonce = a.nonce := rfl
@[simp] theorem balance_setPending : (a.setPending token ct).balance other = a.balance other := rfl
@[simp] theorem pub_setPending : (a.setPending token ct).pub other = a.pub other := rfl
@[simp] theorem nonce_setPending : (a.setPending token ct).nonce = a.nonce := rfl
@[simp] theorem balance_setPublic : (a.setPublic token amount).balance other = a.balance other := rfl
@[simp] theorem pending_setPublic : (a.setPublic token amount).pending other = a.pending other := rfl
@[simp] theorem nonce_setPublic : (a.setPublic token amount).nonce = a.nonce := rfl
@[simp] theorem balance_withNonce : (a.withNonce next).balance other = a.balance other := rfl
@[simp] theorem pending_withNonce : (a.withNonce next).pending other = a.pending other := rfl
@[simp] theorem pub_withNonce : (a.withNonce next).pub other = a.pub other := rfl
@[simp] theorem nonce_withNonce : (a.withNonce next).nonce = next := rfl
@[simp] theorem balance_default : (default : Account C).balance token = C.zero := by
  simp [balance, default]
@[simp] theorem pending_default : (default : Account C).pending token = C.zero := by
  simp [pending, default]
@[simp] theorem pub_default : (default : Account C).pub token = 0 := by simp [pub, default]

end Updates

end Account

/-- A deployed contract: its bytecode and persistent storage. -/
structure Contract where
  code : Bytes
  storage : Vm.Storage

/-! ### Record keys -/

/-- One state entry that the commitment has a leaf for. -/
inductive DirtyKey where
  | account (id : Bytes32)
  | token (id : UInt32)
  | contract (id : Bytes32)
  | nullifier (nf : Bytes32)
  | validator (id : Bytes32)
  | pool (token : UInt32)
  | curve (token : UInt32)
  | lp (token : UInt32) (provider : Bytes32)
  | htlc (id : Bytes32)
  | metaRecord
deriving DecidableEq

/-- The record keys of the store: the committed entries, and the index from tickers to tokens. -/
inductive RecordKey where
  | committed (key : DirtyKey)
  | ticker (name : Text)
deriving DecidableEq

def REC_ACCOUNT : UInt8 := 97
def REC_TOKEN : UInt8 := 116
def REC_TICKER : UInt8 := 117
def REC_CONTRACT : UInt8 := 99
def REC_NULLIFIER : UInt8 := 110
def REC_VALIDATOR : UInt8 := 118
def REC_POOL : UInt8 := 112
def REC_CURVE : UInt8 := 67
def REC_LP : UInt8 := 108
def REC_HTLC : UInt8 := 104
def REC_META : UInt8 := 109

/-- A record key: a tag byte and the id of the object. -/
def recKey (tag : UInt8) (body : Bytes) : Bytes := tag :: body

namespace RecordKey

/-- The key that a record is stored under. Token ids are big-endian, so that keys sort by id. -/
def bytes : RecordKey → Bytes
  | committed (.account id) => recKey REC_ACCOUNT (bytesOf32 id)
  | committed (.token id) => recKey REC_TOKEN (u32Be id)
  | committed (.contract id) => recKey REC_CONTRACT (bytesOf32 id)
  | committed (.nullifier nf) => recKey REC_NULLIFIER (bytesOf32 nf)
  | committed (.validator id) => recKey REC_VALIDATOR (bytesOf32 id)
  | committed (.pool token) => recKey REC_POOL (u32Be token)
  | committed (.curve token) => recKey REC_CURVE (u32Be token)
  | committed (.lp token provider) => recKey REC_LP (u32Be token ++ bytesOf32 provider)
  | committed (.htlc id) => recKey REC_HTLC (bytesOf32 id)
  | committed .metaRecord => recKey REC_META []
  | ticker name => recKey REC_TICKER (Text.asBytes name)

/-- Two objects never share a record key. -/
theorem bytes_injective : Function.Injective bytes := by
  intro first second heq
  rcases first with (_ | _ | _ | _ | _ | _ | _ | _ | _ | _) | _ <;>
    rcases second with (_ | _ | _ | _ | _ | _ | _ | _ | _ | _) | _ <;>
    simp only [bytes, recKey, List.cons.injEq] at heq <;>
    first
    | exact absurd heq.1 (by decide)
    | rfl
    | (rw [bytesOf32_injective heq.2])
    | (rw [u32Be_injective heq.2])
    | (rw [Text.asBytes_injective heq.2])
    | skip
  obtain ⟨htoken, hprovider⟩ := List.append_inj heq.2 (by simp)
  rw [u32Be_injective htoken, bytesOf32_injective hprovider]

end RecordKey

/-! ### Encodings -/

section Encodings

variable {C : CryptoSuite}

def encodeCtMap (m : FMap UInt32 (Ciphertext C.Point)) : Bytes :=
  leBytes 4 m.toList.length ++
    m.toList.flatMap fun entry ↦ u32Le entry.1 ++ bytesOf64 (C.ciphertextToBytes entry.2)

def encodeU64Map (m : FMap UInt32 UInt64) : Bytes :=
  leBytes 4 m.toList.length ++ m.toList.flatMap fun entry ↦ u32Le entry.1 ++ u64Le entry.2

/-- Account record: nonce, balances, pending, public. -/
def encodeAccount (a : Account C) : Bytes :=
  u64Le a.nonce ++ encodeCtMap a.balances ++ encodeCtMap a.pendings ++ encodeU64Map a.publics

/-- Token record: id, ticker, creator, supply. -/
def encodeToken (t : TokenMeta) : Bytes :=
  u32Le t.id ++ leBytes 4 (Text.asBytes t.ticker).length ++ Text.asBytes t.ticker ++
    bytesOf32 t.creator ++ u64Le t.supply

/-- Contract record: code, then the storage slots in ascending order. -/
def encodeContract (c : Contract) : Bytes :=
  leBytes 4 c.code.length ++ c.code ++ leBytes 4 c.storage.toList.length ++
    c.storage.toList.flatMap fun slot ↦ u64Le slot.1 ++ u64Le slot.2

/-- Validator record: stake, unbonding entries, tombstone. -/
def encodeValidator (v : Validator) : Bytes :=
  u64Le v.staked ++ leBytes 4 v.unbonding.length ++
    (v.unbonding.flatMap fun entry ↦ u64Le entry.1 ++ u64Le entry.2) ++
    Transaction.flagByte v.tombstoned

/-- Pool record: token id, reserves, LP supply. -/
def encodePool (p : Pool) : Bytes :=
  u32Le p.token ++ u64Le p.lat ++ u64Le p.tok ++ u64Le p.lpSupply

/-- Bonding-curve record: token id, virtual reserves, real LAT, graduation flag. -/
def encodeCurve (c : CurvePool) : Bytes :=
  u32Le c.token ++ u64Le c.vlat ++ u64Le c.vtok ++ u64Le c.realLat ++
    Transaction.flagByte c.graduated

/-- Escrow record. -/
def encodeHtlc (h : Htlc) : Bytes :=
  u32Le h.token ++ bytesOf32 h.fromId ++ bytesOf32 h.toId ++ u64Le h.amount ++
    bytesOf32 h.hashlock ++ u64Le h.expiry

end Encodings

/-! ### Decodings -/

section Decodings

variable (C : CryptoSuite)

/-- A counted list. -/
def readCounted {α : Type} (reader : Reader α) : Reader (List α) := do
  let n ← Reader.u32
  Reader.many n.toNat reader

def readCtEntry : Reader (UInt32 × Ciphertext C.Point) := do
  let k ← Reader.u32
  let bytes ← Reader.arr64
  let ct ← Reader.ofOption (C.ciphertextFromBytes bytes)
  return (k, ct)

def readCtMap : Reader (FMap UInt32 (Ciphertext C.Point)) := do
  let entries ← readCounted (readCtEntry C)
  return FMap.ofEntries entries

def readU64Entry : Reader (UInt32 × UInt64) := do
  let k ← Reader.u32
  let amount ← Reader.u64
  return (k, amount)

def readU64Map : Reader (FMap UInt32 UInt64) := do
  let entries ← readCounted readU64Entry
  return FMap.ofEntries entries

def readWordPair : Reader (UInt64 × UInt64) := do
  let first ← Reader.u64
  let second ← Reader.u64
  return (first, second)

def readAccount : Reader (Account C) := do
  let nonce ← Reader.u64
  let balances ← readCtMap C
  let pendings ← readCtMap C
  let publics ← readU64Map
  return ⟨balances, pendings, publics, nonce⟩

def readToken : Reader TokenMeta := do
  let id ← Reader.u32
  let tickLen ← Reader.u32
  let tickerBytes ← Reader.take tickLen.toNat
  let ticker ← Reader.ofOption (Text.fromUtf8 tickerBytes)
  let creator ← Reader.arr32
  let supply ← Reader.u64
  return ⟨id, ticker, creator, supply⟩

def readContract : Reader Contract := do
  let codeLen ← Reader.u32
  let code ← Reader.take codeLen.toNat
  let slots ← readCounted readWordPair
  return ⟨code, FMap.ofEntries slots⟩

def readValidator : Reader Validator := do
  let staked ← Reader.u64
  let unbonding ← readCounted readWordPair
  let flag ← Reader.u8
  return ⟨staked, unbonding, flag != 0⟩

def readPool : Reader Pool := do
  let token ← Reader.u32
  let lat ← Reader.u64
  let tok ← Reader.u64
  let lpSupply ← Reader.u64
  return ⟨token, lat, tok, lpSupply⟩

/-- A flag that is strictly zero or one. -/
def flagOfByte (byte : UInt8) : Option Bool :=
  if byte = 0 then some false else if byte = 1 then some true else none

def readCurve : Reader CurvePool := do
  let token ← Reader.u32
  let vlat ← Reader.u64
  let vtok ← Reader.u64
  let realLat ← Reader.u64
  let byte ← Reader.u8
  let graduated ← Reader.ofOption (flagOfByte byte)
  return ⟨token, vlat, vtok, realLat, graduated⟩

def readHtlc : Reader Htlc := do
  let token ← Reader.u32
  let fromId ← Reader.arr32
  let toId ← Reader.arr32
  let amount ← Reader.u64
  let hashlock ← Reader.arr32
  let expiry ← Reader.u64
  return ⟨token, fromId, toId, amount, hashlock, expiry⟩

def decodeAccount : Bytes → Option (Account C) := (readAccount C).complete
def decodeToken : Bytes → Option TokenMeta := readToken.complete
def decodeContract : Bytes → Option Contract := readContract.complete
def decodeValidator : Bytes → Option Validator := readValidator.complete
def decodePool : Bytes → Option Pool := readPool.complete
def decodeCurve : Bytes → Option CurvePool := readCurve.complete
def decodeHtlc : Bytes → Option Htlc := readHtlc.complete

end Decodings

/-! ### Records read back -/

section RoundTrips

open Reader

variable {C : CryptoSuite}

theorem Reads.counted {α : Type} {reader : Reader α} {encode : α → Bytes} {values : List α}
    (hlength : values.length < 2 ^ 32)
    (hreads : ∀ value ∈ values, Reads reader value (encode value)) :
    Reads (readCounted reader) values (leBytes 4 values.length ++ values.flatMap encode) := by
  have hcount : (UInt32.ofNat values.length).toNat = values.length :=
    UInt32.toNat_ofNat_of_lt' hlength
  have hhead := Reads.u32 (UInt32.ofNat values.length)
  rw [u32Le, hcount] at hhead
  refine hhead.bind ?_
  rw [hcount]
  exact Reads.many hreads

/-- A length-prefixed byte string. -/
theorem Reads.prefixed {α : Type} {bytes rest : Bytes} {next : Bytes → Reader α} {value : α}
    (hlength : bytes.length < 2 ^ 32) (hnext : Reads (next bytes) value rest) :
    Reads (Reader.u32 >>= fun n ↦ Reader.take n.toNat >>= next) value
      (leBytes 4 bytes.length ++ (bytes ++ rest)) := by
  have hcount : (UInt32.ofNat bytes.length).toNat = bytes.length :=
    UInt32.toNat_ofNat_of_lt' hlength
  have hhead := Reads.u32 (UInt32.ofNat bytes.length)
  rw [u32Le, hcount] at hhead
  refine hhead.bind ?_
  rw [hcount]
  exact (Reads.take bytes).bind hnext

/-- A counted list of entries read into a map. -/
theorem Reads.map {K V : Type} [Ord K] [Std.TransOrd K] [Std.LawfulEqOrd K] [DecidableEq K]
    {reader : Reader (K × V)} {encode : K × V → Bytes} (m : FMap K V)
    (hfits : m.toList.length < 2 ^ 32) (hreads : ∀ entry, Reads reader entry (encode entry)) :
    Reads (readCounted reader >>= fun entries ↦ pure (FMap.ofEntries entries)) m
      (leBytes 4 m.toList.length ++ m.toList.flatMap encode ++ []) := by
  refine (Reads.counted hfits fun entry _ ↦ hreads entry).bind ?_
  have hround := Reads.pure (FMap.ofEntries m.toList)
  rwa [FMap.ofEntries_toList] at hround ⊢

theorem reads_ctMap (m : FMap UInt32 (Ciphertext C.Point)) (hfits : m.toList.length < 2 ^ 32) :
    Reads (readCtMap C) m (encodeCtMap m) := by
  have hread : Reads (readCtMap C) m (encodeCtMap m ++ []) := by
    refine Reads.map m hfits fun entry ↦ ?_
    have hentry : Reads (readCtEntry C) entry
        (u32Le entry.1 ++ (bytesOf64 (C.ciphertextToBytes entry.2) ++ ([] ++ []))) :=
      (Reads.u32 entry.1).bind ((Reads.arr64 _).bind
        ((Reads.ofOption (C.ciphertextFromBytes_toBytes entry.2)).bind (Reads.pure entry)))
    simpa only [List.append_nil] using hentry
  rwa [List.append_nil] at hread

theorem reads_u64Map (m : FMap UInt32 UInt64) (hfits : m.toList.length < 2 ^ 32) :
    Reads readU64Map m (encodeU64Map m) := by
  have hread : Reads readU64Map m (encodeU64Map m ++ []) := by
    refine Reads.map m hfits fun entry ↦ ?_
    have hentry : Reads readU64Entry entry (u32Le entry.1 ++ (u64Le entry.2 ++ [])) :=
      (Reads.u32 entry.1).bind ((Reads.u64 entry.2).bind (Reads.pure entry))
    simpa only [List.append_nil] using hentry
  rwa [List.append_nil] at hread

theorem reads_wordPair (entry : UInt64 × UInt64) :
    Reads readWordPair entry (u64Le entry.1 ++ u64Le entry.2) := by
  have hentry : Reads readWordPair entry (u64Le entry.1 ++ (u64Le entry.2 ++ [])) :=
    (Reads.u64 entry.1).bind ((Reads.u64 entry.2).bind (Reads.pure entry))
  simpa only [List.append_nil] using hentry

/-- The lists of an account are short enough to be counted in four bytes. -/
def Account.Fits (a : Account C) : Prop :=
  a.balances.toList.length < 2 ^ 32 ∧ a.pendings.toList.length < 2 ^ 32 ∧
    a.publics.toList.length < 2 ^ 32

/-- The code and the storage of a contract are short enough to be counted in four bytes. -/
def Contract.Fits (c : Contract) : Prop :=
  c.code.length < 2 ^ 32 ∧ c.storage.toList.length < 2 ^ 32

/-- The unbonding entries of a validator are few enough to be counted in four bytes. -/
def Validator.Fits (v : Validator) : Prop := v.unbonding.length < 2 ^ 32

/-- The ticker of a token is short enough to be counted in four bytes. -/
def TokenMeta.Fits (t : TokenMeta) : Prop := (Text.asBytes t.ticker).length < 2 ^ 32

theorem reads_account {a : Account C} (hfits : a.Fits) :
    Reads (readAccount C) a (encodeAccount a) := by
  obtain ⟨hbalances, hpendings, hpublics⟩ := hfits
  have hread : Reads (readAccount C) a (u64Le a.nonce ++ (encodeCtMap a.balances ++
      (encodeCtMap a.pendings ++ (encodeU64Map a.publics ++ [])))) :=
    (Reads.u64 a.nonce).bind ((reads_ctMap a.balances hbalances).bind
      ((reads_ctMap a.pendings hpendings).bind ((reads_u64Map a.publics hpublics).bind
        (Reads.pure a))))
  simpa only [encodeAccount, List.append_assoc, List.append_nil] using hread

theorem decodeAccount_encodeAccount {a : Account C} (hfits : a.Fits) :
    decodeAccount C (encodeAccount a) = some a :=
  complete_of_reads (reads_account hfits)

theorem reads_token {t : TokenMeta} (hfits : t.Fits) : Reads readToken t (encodeToken t) := by
  have hticker := Text.fromUtf8_asBytes t.ticker
  have hread : Reads readToken t (u32Le t.id ++ (leBytes 4 (Text.asBytes t.ticker).length ++
      (Text.asBytes t.ticker ++ ([] ++ (bytesOf32 t.creator ++ (u64Le t.supply ++ [])))))) :=
    (Reads.u32 t.id).bind (Reads.prefixed hfits ((Reads.ofOption hticker).bind
      ((Reads.arr32 t.creator).bind ((Reads.u64 t.supply).bind (Reads.pure t)))))
  simpa only [encodeToken, List.append_assoc, List.append_nil, List.nil_append] using hread

theorem decodeToken_encodeToken {t : TokenMeta} (hfits : t.Fits) :
    decodeToken (encodeToken t) = some t :=
  complete_of_reads (reads_token hfits)

theorem reads_contract {c : Contract} (hfits : c.Fits) :
    Reads readContract c (encodeContract c) := by
  obtain ⟨hcode, hstorage⟩ := hfits
  have hslots : Reads (readCounted readWordPair >>= fun slots ↦
      pure (⟨c.code, FMap.ofEntries slots⟩ : Contract)) c
      (leBytes 4 c.storage.toList.length ++
        (c.storage.toList.flatMap fun slot ↦ u64Le slot.1 ++ u64Le slot.2) ++ []) := by
    refine (Reads.counted hstorage fun entry _ ↦ reads_wordPair entry).bind ?_
    rw [FMap.ofEntries_toList]
    exact Reads.pure c
  have hread : Reads readContract c _ := Reads.prefixed hcode hslots
  simpa only [encodeContract, List.append_assoc, List.append_nil] using hread

theorem decodeContract_encodeContract {c : Contract} (hfits : c.Fits) :
    decodeContract (encodeContract c) = some c :=
  complete_of_reads (reads_contract hfits)

theorem reads_validator {v : Validator} (hfits : v.Fits) :
    Reads readValidator v (encodeValidator v) := by
  have hflag : ((if v.tombstoned then 1 else 0 : UInt8) != 0) = v.tombstoned := by
    cases v.tombstoned <;> rfl
  have hlast : Reads (pure (⟨v.staked, v.unbonding, (if v.tombstoned then 1 else 0 : UInt8) != 0⟩ :
      Validator)) v [] := by
    rw [hflag]
    exact Reads.pure v
  have hread : Reads readValidator v (u64Le v.staked ++ (leBytes 4 v.unbonding.length ++
      (v.unbonding.flatMap fun entry ↦ u64Le entry.1 ++ u64Le entry.2) ++
        ([if v.tombstoned then 1 else 0] ++ []))) :=
    (Reads.u64 v.staked).bind ((Reads.counted hfits fun entry _ ↦ reads_wordPair entry).bind
      ((Reads.u8 _).bind hlast))
  simpa only [encodeValidator, Transaction.flagByte, List.append_assoc, List.append_nil] using hread

theorem decodeValidator_encodeValidator {v : Validator} (hfits : v.Fits) :
    decodeValidator (encodeValidator v) = some v :=
  complete_of_reads (reads_validator hfits)

theorem reads_pool (p : Pool) : Reads readPool p (encodePool p) := by
  have hread : Reads readPool p
      (u32Le p.token ++ (u64Le p.lat ++ (u64Le p.tok ++ (u64Le p.lpSupply ++ [])))) :=
    (Reads.u32 p.token).bind ((Reads.u64 p.lat).bind ((Reads.u64 p.tok).bind
      ((Reads.u64 p.lpSupply).bind (Reads.pure p))))
  simpa only [encodePool, List.append_assoc, List.append_nil] using hread

theorem decodePool_encodePool (p : Pool) : decodePool (encodePool p) = some p :=
  complete_of_reads (reads_pool p)

theorem reads_curve (c : CurvePool) : Reads readCurve c (encodeCurve c) := by
  have hflag : flagOfByte (if c.graduated then 1 else 0) = some c.graduated := by
    cases c.graduated <;> rfl
  have hread : Reads readCurve c (u32Le c.token ++ (u64Le c.vlat ++ (u64Le c.vtok ++
      (u64Le c.realLat ++ ([if c.graduated then 1 else 0] ++ ([] ++ [])))))) :=
    (Reads.u32 c.token).bind ((Reads.u64 c.vlat).bind ((Reads.u64 c.vtok).bind
      ((Reads.u64 c.realLat).bind ((Reads.u8 _).bind
        ((Reads.ofOption hflag).bind (Reads.pure c))))))
  simpa only [encodeCurve, Transaction.flagByte, List.append_assoc, List.append_nil] using hread

theorem decodeCurve_encodeCurve (c : CurvePool) : decodeCurve (encodeCurve c) = some c :=
  complete_of_reads (reads_curve c)

theorem reads_htlc (h : Htlc) : Reads readHtlc h (encodeHtlc h) := by
  have hread : Reads readHtlc h (u32Le h.token ++ (bytesOf32 h.fromId ++ (bytesOf32 h.toId ++
      (u64Le h.amount ++ (bytesOf32 h.hashlock ++ (u64Le h.expiry ++ [])))))) :=
    (Reads.u32 h.token).bind ((Reads.arr32 h.fromId).bind ((Reads.arr32 h.toId).bind
      ((Reads.u64 h.amount).bind ((Reads.arr32 h.hashlock).bind ((Reads.u64 h.expiry).bind
        (Reads.pure h))))))
  simpa only [encodeHtlc, List.append_assoc, List.append_nil] using hread

theorem decodeHtlc_encodeHtlc (h : Htlc) : decodeHtlc (encodeHtlc h) = some h :=
  complete_of_reads (reads_htlc h)

end RoundTrips

end Latebra.State
