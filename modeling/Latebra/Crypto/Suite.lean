import Latebra.Foundation.ByteCodec
import Latebra.Foundation.SparseMerkle

/-!
# The cryptographic suite

The cryptography that the ledger rests on is a parameter of the development. A `CryptoSuite` holds
the ristretto group with its base point and its 32-byte encoding, the Schnorr verifier, the
verifiers and encodings of the two kinds of zero-knowledge transfer, the hash functions, and the
hashes of the state trie. Ciphertexts and their homomorphic arithmetic, public keys, and the
unshield reveal check are built from the group exactly as the code builds them.

A suite carries the one fact that records need, that compressed points decompress to themselves,
and that the bits of a 32-byte key determine it. Whatever else a result assumes of a suite,
soundness of the proofs or absence of collisions, it states as a hypothesis.
-/

set_option autoImplicit false
set_option relaxedAutoImplicit false

namespace Latebra.Crypto

open Foundation

/-- A twisted-ElGamal ciphertext encrypting a balance under one public key: `c = b·G + r·Y` and
`d = r·G`. -/
structure Ciphertext (Point : Type) where
  c : Point
  d : Point
deriving DecidableEq

/-- An account public key. -/
structure PublicKey (Point : Type) where
  point : Point
deriving DecidableEq

/-- A confidential transfer that also proves the sender is solvent: its public statement, and the
bundle of its proofs. -/
structure SolventTransfer (Point Proof : Type) where
  sender : PublicKey Point
  receiver : PublicKey Point
  nonce : UInt64
  fee : UInt64
  cSender : Point
  cReceiver : Point
  d : Point
  proof : Proof

namespace SolventTransfer

variable {Point Proof : Type} (xfer : SolventTransfer Point Proof)

/-- The ciphertext to subtract from the sender's balance. -/
def senderCiphertext : Ciphertext Point := ⟨xfer.cSender, xfer.d⟩

/-- The ciphertext to add to the receiver's balance. -/
def receiverCiphertext : Ciphertext Point := ⟨xfer.cReceiver, xfer.d⟩

end SolventTransfer

/-- The one-time account that a stealth payment credits, with the sender's ephemeral key. -/
structure StealthOutput (Point : Type) where
  ephemeral : PublicKey Point
  oneTime : PublicKey Point

/-- An anonymous transfer: its public statement, and the bundle of its proofs. -/
structure AnonTransfer (Point Proof : Type) where
  ring : List (PublicKey Point)
  balances : List (Ciphertext Point)
  enc : List (Ciphertext Point)
  credit : Ciphertext Point
  fee : UInt64
  epoch : UInt64
  output : StealthOutput Point
  nullifierPoint : Point
  proof : Proof

/-- The cryptography that the code is run with. -/
structure CryptoSuite where
  /-- The group. -/
  Point : Type
  [pointGroup : AddCommGroup Point]
  [pointDecidableEq : DecidableEq Point]
  basePoint : Point
  compress : Point → Bytes32
  decompress : Bytes32 → Option Point
  decompress_compress : ∀ point, decompress (compress point) = some point
  /-- Schnorr signatures. -/
  Signature : Type
  signatureFromBytes : Bytes64 → Option Signature
  verifySignature : PublicKey Point → Bytes → Signature → Bool
  /-- Solvent transfers. -/
  SolventProof : Type
  solventVerify : SolventTransfer Point SolventProof → UInt32 → Ciphertext Point → Bool
  solventToBytes : SolventTransfer Point SolventProof → Bytes
  /-- The scalar of the public unshield view key. -/
  viewSecret : ℕ
  /-- Anonymous transfers. -/
  AnonProof : Type
  anonVerify : AnonTransfer Point AnonProof → UInt32 → Bool
  anonToBytes : AnonTransfer Point AnonProof → Bytes
  /-- Hash functions. -/
  blake3 : Bytes → Bytes32
  sha256 : Bytes → Bytes32
  /-- The hashes of the state trie. -/
  Digest : Type
  [digestDecidableEq : DecidableEq Digest]
  trieEmptyLeaf : Digest
  trieHashLeaf : Bytes32 → Bytes → Digest
  trieHashInternal : Digest → Digest → Digest

namespace CryptoSuite

attribute [instance] pointGroup pointDecidableEq digestDecidableEq

variable (C : CryptoSuite)

/-- The bits of a 32-byte path from the most significant end determine it. -/
theorem msb_injective (key key' : Bytes32)
    (hbits : ∀ i < 256, key.getMsbD i = key'.getMsbD i) : key = key' :=
  BitVec.eq_of_getMsbD_eq hbits

/-- The state trie: 256-bit paths, bit 0 the most significant bit of byte 0. -/
def trie : TrieScheme Bytes32 Bytes C.Digest where
  keyBits := 256
  bit key i := key.getMsbD i
  emptyLeaf := C.trieEmptyLeaf
  hashLeaf := C.trieHashLeaf
  hashInternal := C.trieHashInternal
  bit_injective := msb_injective

/-- The 32-byte form of a public key. -/
def keyToBytes (key : PublicKey C.Point) : Bytes32 := C.compress key.point

/-- The public key of a 32-byte string. -/
def keyFromBytes (bytes : Bytes32) : Option (PublicKey C.Point) :=
  (C.decompress bytes).map PublicKey.mk

/-- The all-zero balance. -/
def zero : Ciphertext C.Point := ⟨0, 0⟩

/-- A transparent ciphertext of a public amount. -/
def mint (amount : UInt64) : Ciphertext C.Point := ⟨amount.toNat • C.basePoint, 0⟩

/-- Homomorphic addition. -/
def add (first second : Ciphertext C.Point) : Ciphertext C.Point :=
  ⟨first.c + second.c, first.d + second.d⟩

/-- Homomorphic subtraction. -/
def sub (first second : Ciphertext C.Point) : Ciphertext C.Point :=
  ⟨first.c - second.c, first.d - second.d⟩

/-- The 64 bytes of a ciphertext: both compressed points. -/
def ciphertextToBytes (ct : Ciphertext C.Point) : Bytes64 :=
  C.compress ct.c ++ C.compress ct.d

/-- The ciphertext of 64 bytes. -/
def ciphertextFromBytes (bytes : Bytes64) : Option (Ciphertext C.Point) := do
  let c ← C.decompress (bytes.extractLsb' 256 256)
  let d ← C.decompress (bytes.extractLsb' 0 256)
  return ⟨c, d⟩

/-- The public unshield view key. -/
def unshieldViewKey : PublicKey C.Point := ⟨C.viewSecret • C.basePoint⟩

/-- Whether a ciphertext under the unshield view key encrypts exactly an amount. -/
def unshieldReveals (ct : Ciphertext C.Point) (amount : UInt64) : Bool :=
  ct.c - amount.toNat • C.basePoint = C.viewSecret • ct.d

/-- The 32 bytes that identify the spend of an anonymous transfer within its epoch. -/
def nullifier (xfer : AnonTransfer C.Point C.AnonProof) : Bytes32 := C.compress xfer.nullifierPoint

@[simp]
theorem ciphertextFromBytes_toBytes (ct : Ciphertext C.Point) :
    C.ciphertextFromBytes (C.ciphertextToBytes ct) = some ct := by
  have hhigh : (C.compress ct.c ++ C.compress ct.d).extractLsb' 256 256 = C.compress ct.c :=
    BitVec.extractLsb'_append_eq_left
  have hlow : (C.compress ct.c ++ C.compress ct.d).extractLsb' 0 256 = C.compress ct.d :=
    BitVec.extractLsb'_append_eq_right
  simp [ciphertextFromBytes, ciphertextToBytes, hhigh, hlow, C.decompress_compress]

end CryptoSuite

end Latebra.Crypto
