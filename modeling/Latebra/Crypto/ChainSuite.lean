import Latebra.Crypto.FreeSuite

/-!
# The suite of a chain

What a chain needs of the cryptography on top of what its ledger needs: the two kinds of transfer
read from their wire forms, the proof-of-work hash of a header, and the 32 bytes that a header
commits of a state root.

The wire forms are canonical: a byte string is read as a transfer exactly when it is what the
transfer writes. An anonymous transfer has a wire form when every per-member list of it has one entry
for each of two to sixteen ring members, and the verifier accepts no other. `plainSuite` is a suite
to run a chain with, in which there are no confidential transfers.
-/

set_option autoImplicit false
set_option relaxedAutoImplicit false

namespace Latebra.Crypto

open Foundation

/-- Cap on the ring of an anonymous transfer. -/
def MAX_RING_SIZE : ℕ := 16

/-- The cryptography that a chain is run with. -/
structure ChainSuite extends CryptoSuite where
  solventFromBytes : Bytes → Option (SolventTransfer Point SolventProof)
  solventFromBytes_eq_some : ∀ bytes xfer,
    solventFromBytes bytes = some xfer ↔ solventToBytes xfer = bytes
  length_solventToBytes : ∀ xfer, (solventToBytes xfer).length < 2 ^ 31
  /-- Whether every per-member list of a bundle of proofs has this length. -/
  anonProofWidth : AnonProof → ℕ → Bool
  anonFromBytes : Bytes → Option (AnonTransfer Point AnonProof)
  anonFromBytes_eq_some : ∀ bytes xfer, anonFromBytes bytes = some xfer ↔
    (2 ≤ xfer.ring.length ∧ xfer.ring.length ≤ MAX_RING_SIZE ∧
      xfer.balances.length = xfer.ring.length ∧ xfer.enc.length = xfer.ring.length ∧
      anonProofWidth xfer.proof xfer.ring.length = true) ∧ anonToBytes xfer = bytes
  length_of_anonFromBytes : ∀ bytes xfer, anonFromBytes bytes = some xfer → bytes.length < 2 ^ 31
  width_of_anonVerify : ∀ xfer token, anonVerify xfer token = true →
    2 ≤ xfer.ring.length ∧ xfer.balances.length = xfer.ring.length ∧
      xfer.enc.length = xfer.ring.length ∧ anonProofWidth xfer.proof xfer.ring.length = true
  /-- The proof-of-work hash. -/
  powHash : Bytes → Bytes32
  /-- The 32 bytes of a trie digest. -/
  digestBytes : Digest → Bytes32

namespace ChainSuite

variable (S : ChainSuite)

/-- An anonymous transfer that has a wire form. -/
def Sized (xfer : AnonTransfer S.Point S.AnonProof) : Prop :=
  2 ≤ xfer.ring.length ∧ xfer.ring.length ≤ MAX_RING_SIZE ∧
    xfer.balances.length = xfer.ring.length ∧ xfer.enc.length = xfer.ring.length ∧
    S.anonProofWidth xfer.proof xfer.ring.length = true

theorem solventFromBytes_toBytes (xfer : SolventTransfer S.Point S.SolventProof) :
    S.solventFromBytes (S.solventToBytes xfer) = some xfer :=
  (S.solventFromBytes_eq_some _ xfer).mpr rfl

theorem anonFromBytes_toBytes {xfer : AnonTransfer S.Point S.AnonProof} (hsized : S.Sized xfer) :
    S.anonFromBytes (S.anonToBytes xfer) = some xfer :=
  (S.anonFromBytes_eq_some _ xfer).mpr ⟨hsized, rfl⟩

end ChainSuite

/-- The hash of a tree that is its own digest. -/
def FreeDigest.hash : FreeDigest → Bytes32
  | .empty height => polynomialHash (leBytes 4 height)
  | .leaf key value => polynomialHash (1 :: bytesOf32 key ++ value)
  | .internal left right => polynomialHash (2 :: bytesOf32 left.hash ++ bytesOf32 right.hash)

/-- A suite to run a chain with. There are no proofs of confidential transfers in it. -/
def plainSuite : ChainSuite where
  toCryptoSuite :=
    { freeSuite with
      SolventProof := Empty
      solventVerify := fun _ _ _ ↦ false
      solventToBytes := fun _ ↦ []
      AnonProof := Empty
      anonVerify := fun _ _ ↦ false
      anonToBytes := fun _ ↦ [] }
  solventFromBytes _ := none
  solventFromBytes_eq_some _ xfer := xfer.proof.elim
  length_solventToBytes xfer := xfer.proof.elim
  anonProofWidth _ _ := false
  anonFromBytes _ := none
  anonFromBytes_eq_some _ xfer := xfer.proof.elim
  length_of_anonFromBytes _ xfer := xfer.proof.elim
  width_of_anonVerify xfer := xfer.proof.elim
  powHash := polynomialHash
  digestBytes := FreeDigest.hash

end Latebra.Crypto
