import Latebra.Crypto.Suite

/-!
# A suite to run the code with

`freeSuite` is a suite whose cryptography can be evaluated. The group is the integers modulo
`2 ^ 256`, every 32-byte string is a point, and a signature is the key of its signer. The trie
hashes are the constructors of a free type of trees, where a subtree without leaves is compressed to
its height, so they have no collisions (`freeSuite_collisionFree`). No proof of a confidential
transfer is accepted. `clearSuite` is the same suite with solvent transfers that hide nothing, whose
amounts are checked in the clear.
-/

set_option autoImplicit false
set_option relaxedAutoImplicit false

namespace Latebra.Crypto

open Foundation

/-- Trees as their own digests. -/
inductive FreeDigest where
  | empty (height : ℕ)
  | leaf (key : Bytes32) (value : Bytes)
  | internal (left right : FreeDigest)
deriving DecidableEq

namespace FreeDigest

/-- Pair two subtrees. Two empty ones of the same height pair to an empty one. -/
def pair (left right : FreeDigest) : FreeDigest :=
  match left, right with
  | .empty n, .empty m => if n = m then .empty (n + 1) else .internal left right
  | _, _ => .internal left right

theorem pair_injective {left right left' right' : FreeDigest}
    (heq : pair left right = pair left' right') : left = left' ∧ right = right' := by
  unfold pair at heq
  grind

theorem pair_ne_leaf (left right : FreeDigest) (key : Bytes32) (value : Bytes) :
    pair left right ≠ leaf key value := by
  unfold pair
  grind

theorem pair_ne_empty (left right : FreeDigest) : pair left right ≠ empty 0 := by
  unfold pair
  grind

end FreeDigest

/-- A polynomial hash of a byte string. -/
def polynomialHash (bytes : Bytes) : Bytes32 :=
  BitVec.ofNat 256 (bytes.foldl (fun acc byte ↦ acc * 257 + byte.toNat + 1) 0)

/-- A suite whose cryptography can be evaluated. -/
def freeSuite : CryptoSuite where
  Point := BitVec 256
  basePoint := 1
  compress point := point
  decompress bytes := some bytes
  decompress_compress _ := rfl
  Signature := BitVec 256
  signatureFromBytes bytes := some (bytes.extractLsb' 0 256)
  verifySignature key _ signature := key.point = signature
  SolventProof := Unit
  solventVerify _ _ _ := false
  solventToBytes _ := []
  viewSecret := 7
  AnonProof := Unit
  anonVerify _ _ := false
  anonToBytes _ := []
  blake3 := polynomialHash
  sha256 := polynomialHash
  Digest := FreeDigest
  trieEmptyLeaf := .empty 0
  trieHashLeaf := .leaf
  trieHashInternal := .pair

/-- The suite with solvent transfers checked in the clear: nothing is blinded, and the balance covers
the amount and the fee. -/
def clearSuite : CryptoSuite :=
  { freeSuite with
    solventVerify := fun (xfer : SolventTransfer (BitVec 256) Unit) _
        (balance : Ciphertext (BitVec 256)) ↦
      xfer.d = 0 ∧ balance.d = 0 ∧ xfer.cSender = xfer.cReceiver ∧
        xfer.cSender.toNat + xfer.fee.toNat ≤ balance.c.toNat }

theorem freeSuite_collisionFree : freeSuite.trie.CollisionFree where
  leaf_injective _ _ _ _ heq := FreeDigest.leaf.inj heq
  internal_injective _ _ _ _ heq := FreeDigest.pair_injective heq
  leaf_ne_internal key value left right heq := FreeDigest.pair_ne_leaf left right key value heq.symm
  leaf_ne_empty _ _ := nofun
  internal_ne_empty left right := FreeDigest.pair_ne_empty left right

end Latebra.Crypto
