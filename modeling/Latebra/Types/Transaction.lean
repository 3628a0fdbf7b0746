import Latebra.Crypto.Suite

/-!
# Transactions

The transactions of the ledger with their canonical byte encoding, the bytes that a signature
covers, the ids that the ledger derives from a transaction, and the normal form of a ticker.

A text is the list of its characters. A normalized ticker is plain ASCII, so its bytes are one for
each character (`length_asBytes_normalizeTicker`), and those of any text read back as it
(`fromUtf8_asBytes`).
-/

set_option autoImplicit false
set_option relaxedAutoImplicit false

namespace Latebra.Types

open Foundation Crypto

/-! ### Texts -/

/-- A text, as its characters. -/
abbrev Text := List Char

namespace Text

/-- The UTF-8 bytes of a text. -/
def asBytes (text : Text) : Bytes := text.flatMap String.utf8EncodeChar

/-- The text of a UTF-8 byte string. -/
def fromUtf8 (bytes : Bytes) : Option Text :=
  bytes.toByteArray.utf8Decode?.map Array.toList

theorem fromUtf8_asBytes (text : Text) : fromUtf8 text.asBytes = some text := by
  have hdecode : (asBytes text).toByteArray.utf8Decode? = some text.toArray :=
    List.utf8Decode?_utf8Encode
  rw [fromUtf8, hdecode]
  rfl

theorem asBytes_injective : Function.Injective asBytes := by
  intro first second heq
  have hread := fromUtf8_asBytes first
  rw [heq, fromUtf8_asBytes] at hread
  exact (Option.some.inj hread).symm

end Text

/-- Unicode white space. -/
def isWhitespace (letter : Char) : Bool :=
  let code := letter.toNat
  (0x09 ≤ code && code ≤ 0x0D) || code = 0x20 || code = 0x85 || code = 0xA0 || code = 0x1680 ||
    (0x2000 ≤ code && code ≤ 0x200A) || code = 0x2028 || code = 0x2029 || code = 0x202F ||
    code = 0x205F || code = 0x3000

/-- A text without the white space around it. -/
def trim (text : Text) : Text :=
  ((text.dropWhile isWhitespace).reverse.dropWhile isWhitespace).reverse

/-- The canonical form of a ticker: a leading `$` stripped, upper case, one to ten ASCII letters
or digits. -/
def normalizeTicker (input : Text) : Option Text :=
  let s := match trim input with
    | '$' :: rest => rest
    | other => other
  if s.isEmpty ∨ (Text.asBytes s).length > 10 ∨ ¬ s.all Char.isAlphanum then none
  else some (s.map Char.toUpper)

/-! ### Transactions -/

/-- A Latebra transaction. -/
inductive Transaction (C : CryptoSuite) where
  | register (pubkey : Bytes32) (powNonce : UInt64)
  | createToken (ticker : Text) (creator : Bytes32) (supply : UInt64) (sig : Bytes64)
  | solventTransfer (token : UInt32) (xfer : SolventTransfer C.Point C.SolventProof)
  | rollover (account : Bytes32) (nonce : UInt64) (sig : Bytes64)
  | deployContract (deployer : Bytes32) (code : Bytes) (sig : Bytes64)
  | callContract (contract caller : Bytes32) (input nonce : UInt64) (sig : Bytes64)
  | publicTransfer (token : UInt32) (fromId toId : Bytes32) (amount fee nonce : UInt64)
      (sig : Bytes64)
  | shield (token : UInt32) (fromId toId : Bytes32) (amount fee nonce : UInt64) (sig : Bytes64)
  | unshield (token : UInt32) (toId : Bytes32) (amount : UInt64)
      (xfer : SolventTransfer C.Point C.SolventProof) (sig : Bytes64)
  | shieldStealth (token : UInt32) (fromId ephemeral oneTime : Bytes32)
      (amount fee nonce : UInt64) (sig : Bytes64)
  | anonTransfer (token : UInt32) (xfer : AnonTransfer C.Point C.AnonProof)
  | stake (validator : Bytes32) (amount nonce : UInt64) (sig : Bytes64)
  | unstake (validator : Bytes32) (amount nonce : UInt64) (sig : Bytes64)
  | slashEvidence (validator beneficiary : Bytes32) (height : UInt64) (blockA : Bytes32)
      (sigA : Bytes64) (blockB : Bytes32) (sigB : Bytes64)
  | addLiquidity (token : UInt32) (provider : Bytes32) (latAmount tokAmount fee nonce : UInt64)
      (sig : Bytes64)
  | removeLiquidity (token : UInt32) (provider : Bytes32) (lpAmount fee nonce : UInt64)
      (sig : Bytes64)
  | swap (token : UInt32) (trader : Bytes32) (latIn : Bool) (amountIn minOut fee nonce : UInt64)
      (sig : Bytes64)
  | curveTrade (token : UInt32) (trader : Bytes32) (isBuy : Bool)
      (amount minOut fee nonce : UInt64) (sig : Bytes64)
  | htlcLock (token : UInt32) (fromId toId : Bytes32) (amount : UInt64) (hashlock : Bytes32)
      (expiry fee nonce : UInt64) (sig : Bytes64)
  | htlcClaim (id preimage : Bytes32)
  | htlcRefund (id : Bytes32)

/-- The id of the escrow that a lock opens. -/
def htlcId (C : CryptoSuite) (token : UInt32) (fromId toId : Bytes32) (amount : UInt64)
    (hashlock : Bytes32) (expiry nonce : UInt64) : Bytes32 :=
  C.blake3 (ascii "LAT-htlc-v1" ++ u32Le token ++ bytesOf32 fromId ++ bytesOf32 toId ++
    u64Le amount ++ bytesOf32 hashlock ++ u64Le expiry ++ u64Le nonce)

/-- The bytes that a finality vote signs. -/
def finalityVoteSigningBytes (blockId : Bytes32) (height : UInt64) : Bytes :=
  ascii "LAT-finality-v1" ++ [0] ++ bytesOf32 blockId ++ u64Le height

namespace Transaction

variable {C : CryptoSuite}

/-- A truth value as a byte. -/
def flagByte (flag : Bool) : Bytes := [if flag then 1 else 0]

/-- Canonical byte encoding. A leading tag byte distinguishes the variants. -/
def encode : Transaction C → Bytes
  | register pubkey powNonce => [0x00] ++ bytesOf32 pubkey ++ u64Le powNonce
  | createToken ticker creator supply sig =>
    [0x02] ++ leBytes 2 (Text.asBytes ticker).length ++ Text.asBytes ticker ++
      bytesOf32 creator ++ u64Le supply ++ bytesOf64 sig
  | solventTransfer token xfer => [0x03] ++ u32Le token ++ C.solventToBytes xfer
  | rollover account nonce sig => [0x04] ++ bytesOf32 account ++ u64Le nonce ++ bytesOf64 sig
  | deployContract deployer code sig =>
    [0x05] ++ bytesOf32 deployer ++ leBytes 4 code.length ++ code ++ bytesOf64 sig
  | callContract contract caller input nonce sig =>
    [0x06] ++ bytesOf32 contract ++ bytesOf32 caller ++ u64Le input ++ u64Le nonce ++
      bytesOf64 sig
  | publicTransfer token fromId toId amount fee nonce sig =>
    [0x07] ++ u32Le token ++ bytesOf32 fromId ++ bytesOf32 toId ++ u64Le amount ++ u64Le fee ++
      u64Le nonce ++ bytesOf64 sig
  | shield token fromId toId amount fee nonce sig =>
    [0x08] ++ u32Le token ++ bytesOf32 fromId ++ bytesOf32 toId ++ u64Le amount ++ u64Le fee ++
      u64Le nonce ++ bytesOf64 sig
  | unshield token toId amount xfer sig =>
    [0x09] ++ u32Le token ++ bytesOf32 toId ++ u64Le amount ++
      leBytes 4 (C.solventToBytes xfer).length ++ C.solventToBytes xfer ++ bytesOf64 sig
  | shieldStealth token fromId ephemeral oneTime amount fee nonce sig =>
    [0x0A] ++ u32Le token ++ bytesOf32 fromId ++ bytesOf32 ephemeral ++ bytesOf32 oneTime ++
      u64Le amount ++ u64Le fee ++ u64Le nonce ++ bytesOf64 sig
  | anonTransfer token xfer =>
    [0x0B] ++ u32Le token ++ leBytes 4 (C.anonToBytes xfer).length ++ C.anonToBytes xfer
  | stake validator amount nonce sig =>
    [0x0C] ++ bytesOf32 validator ++ u64Le amount ++ u64Le nonce ++ bytesOf64 sig
  | unstake validator amount nonce sig =>
    [0x0D] ++ bytesOf32 validator ++ u64Le amount ++ u64Le nonce ++ bytesOf64 sig
  | slashEvidence validator beneficiary height blockA sigA blockB sigB =>
    [0x0E] ++ bytesOf32 validator ++ bytesOf32 beneficiary ++ u64Le height ++ bytesOf32 blockA ++
      bytesOf64 sigA ++ bytesOf32 blockB ++ bytesOf64 sigB
  | addLiquidity token provider latAmount tokAmount fee nonce sig =>
    [0x0F] ++ u32Le token ++ bytesOf32 provider ++ u64Le latAmount ++ u64Le tokAmount ++
      u64Le fee ++ u64Le nonce ++ bytesOf64 sig
  | removeLiquidity token provider lpAmount fee nonce sig =>
    [0x10] ++ u32Le token ++ bytesOf32 provider ++ u64Le lpAmount ++ u64Le fee ++ u64Le nonce ++
      bytesOf64 sig
  | swap token trader latIn amountIn minOut fee nonce sig =>
    [0x11] ++ u32Le token ++ bytesOf32 trader ++ flagByte latIn ++ u64Le amountIn ++
      u64Le minOut ++ u64Le fee ++ u64Le nonce ++ bytesOf64 sig
  | curveTrade token trader isBuy amount minOut fee nonce sig =>
    [0x15] ++ u32Le token ++ bytesOf32 trader ++ flagByte isBuy ++ u64Le amount ++ u64Le minOut ++
      u64Le fee ++ u64Le nonce ++ bytesOf64 sig
  | htlcLock token fromId toId amount hashlock expiry fee nonce sig =>
    [0x12] ++ u32Le token ++ bytesOf32 fromId ++ bytesOf32 toId ++ u64Le amount ++
      bytesOf32 hashlock ++ u64Le expiry ++ u64Le fee ++ u64Le nonce ++ bytesOf64 sig
  | htlcClaim id preimage => [0x13] ++ bytesOf32 id ++ bytesOf32 preimage
  | htlcRefund id => [0x14] ++ bytesOf32 id

/-- Whether the variant ends with a signature over its signing bytes. -/
def carriesSignature : Transaction C → Bool
  | createToken .. | rollover .. | deployContract .. | callContract .. | publicTransfer ..
  | shield .. | unshield .. | shieldStealth .. | stake .. | unstake .. | addLiquidity ..
  | removeLiquidity .. | swap .. | curveTrade .. | htlcLock .. => true
  | _ => false

/-- The bytes that a signature covers: the encoding without the trailing signature. -/
def signingBytes (tx : Transaction C) : Bytes :=
  let v := tx.encode
  if tx.carriesSignature then v.take (v.length - 64) else v

end Transaction

/-! ### Normal forms -/

/-- An ASCII letter or digit is one byte. -/
theorem utf8EncodeChar_of_lt {letter : Char} (hascii : letter.toNat ≤ 0x7f) :
    String.utf8EncodeChar letter = [UInt8.ofNat letter.toNat] := by
  have hval : letter.val.toNat ≤ 0x7f := hascii
  rw [String.utf8EncodeChar, if_pos hval]
  rfl

theorem toNat_le_of_isAlphanum {letter : Char} (halnum : letter.isAlphanum = true) :
    letter.toNat ≤ 0x7f := by
  simp only [Char.isAlphanum, Char.isAlpha, Char.isUpper, Char.isLower, Char.isDigit,
    Bool.or_eq_true, Bool.and_eq_true, decide_eq_true_eq, ge_iff_le, UInt32.le_iff_toNat_le]
    at halnum
  have hupper : 'Z'.val.toNat = 90 := rfl
  have hlower : 'z'.val.toNat = 122 := rfl
  have hdigit : '9'.val.toNat = 57 := rfl
  change letter.val.toNat ≤ 0x7f
  omega

/-- Upper case keeps ASCII. -/
theorem toNat_toUpper_le {letter : Char} (hascii : letter.toNat ≤ 0x7f) :
    letter.toUpper.toNat ≤ 0x7f := by
  have htable : ∀ code : Fin 128, (Char.ofNat code).toUpper.toNat ≤ 0x7f := by decide
  have hletter := htable ⟨letter.toNat, by omega⟩
  rwa [Char.ofNat_toNat] at hletter

/-- A text of ASCII characters has one byte for each. -/
theorem length_asBytes_of_ascii {text : Text} (hascii : ∀ letter ∈ text, letter.toNat ≤ 0x7f) :
    (Text.asBytes text).length = text.length := by
  induction text with
  | nil => rfl
  | cons letter rest ih =>
    have hfirst := utf8EncodeChar_of_lt (hascii letter List.mem_cons_self)
    have hrest := ih fun later hlater ↦ hascii later (List.mem_cons_of_mem _ hlater)
    rw [Text.asBytes] at hrest ⊢
    rw [List.flatMap_cons, hfirst, List.length_append, hrest, List.length_cons]
    simp [add_comm]

/-- A normalized ticker is at most ten bytes long. -/
theorem length_asBytes_normalizeTicker {input ticker : Text}
    (hnormal : normalizeTicker input = some ticker) : (Text.asBytes ticker).length ≤ 10 := by
  simp only [normalizeTicker] at hnormal
  generalize (match trim input with
    | '$' :: rest => rest
    | other => other) = s at hnormal
  split at hnormal
  · exact nomatch hnormal
  · next hguard =>
    obtain rfl := Option.some.inj hnormal
    rw [not_or, not_or, not_not, List.all_eq_true] at hguard
    obtain ⟨-, hlength, halnum⟩ := hguard
    have hascii : ∀ letter ∈ s, letter.toNat ≤ 0x7f :=
      fun letter hmem ↦ toNat_le_of_isAlphanum (halnum letter hmem)
    have hupper : ∀ letter ∈ s.map Char.toUpper, letter.toNat ≤ 0x7f := by
      intro letter hmem
      obtain ⟨before, hbefore, rfl⟩ := List.mem_map.mp hmem
      exact toNat_toUpper_le (hascii before hbefore)
    rw [length_asBytes_of_ascii hupper, List.length_map]
    rw [length_asBytes_of_ascii hascii] at hlength
    omega

end Latebra.Types
