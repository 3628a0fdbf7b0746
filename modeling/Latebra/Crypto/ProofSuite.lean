import Latebra.Crypto.Decryption
import Latebra.Crypto.TransferCodec
import Latebra.Foundation.SigmaProtocol

/-!
# The group of the proofs

The proofs of the transfers compute with the scalars of the group. A `ProofSuite` gives a transfer
suite its scalar field, of a large characteristic, the second base that commitments are blinded
with, the hash onto points, and a range prover with its verifier. The hash onto scalars, from which
every challenge is drawn, is a parameter of each definition.

Keys and encryption are built on it as the code builds them. Decryption looks for the balance by
baby steps and giant steps, and finds it: `decrypt_of_encrypts`. A stealth output is recognised by
the recipient it was made for, who gets the key of its one-time account (`stealthReceive_send`).
-/

set_option autoImplicit false
set_option relaxedAutoImplicit false

namespace Latebra.Crypto

open Foundation
open Foundation.SigmaProtocol (Opening)

/-- A transfer suite with what its proofs compute with. -/
structure ProofSuite extends TransferSuite where
  [scalarField : Field Scalar]
  [scalarDecidableEq : DecidableEq Scalar]
  [pointModule : Module Scalar ground.Point]
  /-- The number of scalars of the prime field. -/
  order : ℕ
  [scalarCharP : CharP Scalar order]
  order_large : 2 ^ 66 ≤ order
  basePoint_ne_zero : ground.basePoint ≠ 0
  /-- The base that commitments are blinded with. -/
  blindingBase : ground.Point
  hashToPoint : Bytes → ground.Point
  /-- The randomness of the range prover. -/
  RangeRandomness : Type
  /-- Prove the values of openings in range, under the label of a transcript. -/
  proveMultiple : Bytes → List (UInt64 × Scalar) → RangeRandomness →
    Option (RangeProof × List Bytes32)
  verifyMultiple : RangeProof → Bytes → List Bytes32 → Bool

namespace ProofSuite

attribute [instance] scalarField scalarDecidableEq pointModule scalarCharP

variable (P : ProofSuite)

/-- The base of values. -/
abbrev G : P.ground.Point := P.ground.basePoint

/-- The base of blinding factors. -/
abbrev H : P.ground.Point := P.blindingBase

/-- The opening of a commitment to a word. -/
def opening (o : UInt64 × P.Scalar) : Opening P.Scalar := ((o.1.toNat : P.Scalar), o.2)

/-- Commit to a word. -/
def commitDelta (value : UInt64) (blind : P.Scalar) : P.ground.Point :=
  (value.toNat : P.Scalar) • P.G + blind • P.H

/-- Commit to the values of openings. -/
def commitments (openings : List (UInt64 × P.Scalar)) : List Bytes32 :=
  openings.map fun o ↦ P.ground.compress (P.commitDelta o.1 o.2)

/-- The range prover proves every pair of values and every single one, commits to them, and its
proof is accepted. -/
def RangeComplete : Prop :=
  ∀ label openings rng, openings.length = 1 ∨ openings.length = 2 →
    ∃ rp, P.proveMultiple label openings rng = some (rp, P.commitments openings) ∧
      P.verifyMultiple rp label (P.commitments openings) = true

/-- What can be extracted from the range proofs: openings of the commitments in range. -/
structure RangeExtractor where
  openings : P.RangeProof → Bytes → List Bytes32 → List (UInt64 × P.Scalar)
  opens : ∀ rp label comms, P.verifyMultiple rp label comms = true →
    comms = P.commitments (openings rp label comms)

/-- Prove one value in range. -/
def proveSingle (label : Bytes) (value : UInt64) (blind : P.Scalar) (rng : P.RangeRandomness) :
    Option (P.RangeProof × Bytes32) := do
  let (rp, comms) ← P.proveMultiple label [(value, blind)] rng
  return (rp, ← comms[0]?)

def verifySingle (rp : P.RangeProof) (label : Bytes) (comm : Bytes32) : Bool :=
  P.verifyMultiple rp label [comm]

/-! ### Keys and ciphertexts -/

/-- The public key of a secret one. -/
abbrev publicKey (secret : SecretKey P.Scalar) : PublicKey P.ground.Point :=
  P.ground.publicKey secret

/-- Encrypt with given randomness. -/
abbrev encryptWithRandomness (key : PublicKey P.ground.Point) (amount : UInt64) (r : P.Scalar) :
    Ciphertext P.ground.Point :=
  P.ground.encryptWithRandomness key amount r

/-- A ciphertext that encrypts a number under a key. -/
def Encrypts (key : PublicKey P.ground.Point) (ct : Ciphertext P.ground.Point) (value : ℕ) : Prop :=
  ∃ r : P.Scalar, ct = ⟨(value : P.Scalar) • P.G + r • key.point, r • P.G⟩

/-- Recover the balance of a ciphertext. -/
abbrev decrypt (secret : SecretKey P.Scalar) (ct : Ciphertext P.ground.Point) (maxBits : ℕ) :
    Option ℕ :=
  P.ground.decrypt secret ct maxBits

/-! ### Stealth outputs -/

section Stealth

variable (oracle : Bytes → P.Scalar)

/-- Hash a shared point to a scalar. -/
def sharedScalar (shared : P.ground.Point) : P.Scalar :=
  oracle (ascii "Latebra.Stealth.v1" ++ P.pointBytes shared)

/-- A one-time output that pays a recipient. -/
def stealthSend (recipient : PublicKey P.ground.Point) (r : P.Scalar) :
    StealthOutput P.ground.Point :=
  let s := P.sharedScalar oracle (r • recipient.point)
  ⟨⟨r • P.G⟩, ⟨s • P.G + recipient.point⟩⟩

/-- The spend key of a one-time output, if it pays this key. -/
def stealthReceive (secret : SecretKey P.Scalar) (ephemeral oneTime : PublicKey P.ground.Point) :
    Option (SecretKey P.Scalar) :=
  let s := P.sharedScalar oracle (secret.scalar • ephemeral.point)
  if s • P.G + (P.publicKey secret).point = oneTime.point then some ⟨s + secret.scalar⟩ else none

end Stealth

/-! ### Scalars and small numbers -/

variable {P}

theorem smul_base_inj {a b : P.Scalar} (heq : a • P.G = b • P.G) : a = b :=
  smul_left_injective P.Scalar P.basePoint_ne_zero heq

theorem natCast_inj {a b : ℕ} (ha : a < P.order) (hb : b < P.order)
    (heq : (a : P.Scalar) = b) : a = b :=
  CharP.natCast_injOn_Iio P.Scalar P.order ha hb heq

theorem nsmul_base_inj {a b : ℕ} (ha : a < P.order) (hb : b < P.order)
    (heq : a • P.G = b • P.G) : a = b := by
  rw [← Nat.cast_smul_eq_nsmul P.Scalar, ← Nat.cast_smul_eq_nsmul P.Scalar] at heq
  exact natCast_inj ha hb (smul_base_inj heq)

/-! ### One value in range -/

theorem proveSingle_eq {label : Bytes} {value : UInt64} {blind : P.Scalar}
    {rng : P.RangeRandomness} {rp : P.RangeProof}
    (hproved : P.proveMultiple label [(value, blind)] rng =
      some (rp, P.commitments [(value, blind)])) :
    P.proveSingle label value blind rng =
      some (rp, P.ground.compress (P.commitDelta value blind)) := by
  rw [proveSingle, hproved]
  rfl

theorem RangeComplete.single (hrange : P.RangeComplete) (label : Bytes) (value : UInt64)
    (blind : P.Scalar) (rng : P.RangeRandomness) :
    ∃ rp, P.proveSingle label value blind rng =
        some (rp, P.ground.compress (P.commitDelta value blind)) ∧
      P.verifySingle rp label (P.ground.compress (P.commitDelta value blind)) = true := by
  obtain ⟨rp, hproved, hverified⟩ := hrange label [(value, blind)] rng (.inl rfl)
  exact ⟨rp, proveSingle_eq hproved, hverified⟩

/-- The opening that is extracted from the proof of one value. -/
theorem RangeExtractor.single (E : P.RangeExtractor) {rp : P.RangeProof} {label : Bytes}
    {comm : Bytes32} (hverified : P.verifySingle rp label comm = true) :
    ∃ o : UInt64 × P.Scalar, E.openings rp label [comm] = [o] ∧
      comm = P.ground.compress (P.commitDelta o.1 o.2) := by
  have hopens := E.opens rp label [comm] hverified
  obtain ⟨o, hsingle, hcomm⟩ := List.map_eq_singleton_iff.mp hopens.symm
  exact ⟨o, hsingle, hcomm.symm⟩

/-! ### Decryption -/

/-- The order of the base point is that of the field. -/
theorem addOrderOf_basePoint : addOrderOf P.ground.basePoint = P.order := by
  have horder := P.order_large
  have hne : P.order ≠ 0 := by omega
  exact CryptoSuite.addOrderOf_basePoint P.Scalar P.basePoint_ne_zero hne

theorem order_above_word : 2 ^ 64 < addOrderOf P.ground.basePoint := by
  have horder := P.order_large
  rw [addOrderOf_basePoint]
  omega

/-- The mask that a key takes off is the one that encryption puts on. -/
theorem sub_smul_of_encrypts {secret : SecretKey P.Scalar} {ct : Ciphertext P.ground.Point}
    {value : ℕ} (hencrypts : P.Encrypts (P.publicKey secret) ct value) :
    ct.c - secret.scalar • ct.d = value • P.G := by
  obtain ⟨r, rfl⟩ := hencrypts
  show (value : P.Scalar) • P.G + r • secret.scalar • P.G - secret.scalar • r • P.G = value • P.G
  rw [smul_comm, add_sub_cancel_right, Nat.cast_smul_eq_nsmul]

/-- A ciphertext of a balance of at most so many bits is decrypted to it. -/
theorem decrypt_of_encrypts {secret : SecretKey P.Scalar} {ct : Ciphertext P.ground.Point}
    {value maxBits : ℕ} (hencrypts : P.Encrypts (P.publicKey secret) ct value)
    (hword : value < 2 ^ 64) (hbits : value < 2 ^ maxBits) :
    P.decrypt secret ct maxBits = some value := by
  rw [decrypt, CryptoSuite.decrypt, sub_smul_of_encrypts hencrypts]
  exact CryptoSuite.discreteLog_found order_above_word (lt_searchReach_iff.mpr (.inr ⟨hword, hbits⟩))

/-- Decryption finds the number that the key unmasks, whichever bound it searches to. -/
theorem eq_of_decrypt {secret : SecretKey P.Scalar} {ct : Ciphertext P.ground.Point}
    {value m maxBits : ℕ} (hvalue : value < P.order)
    (hunmasked : ct.c - secret.scalar • ct.d = value • P.G)
    (hfound : P.decrypt secret ct maxBits = some m) : m = value := by
  have horder := P.order_large
  obtain ⟨hreach, hpoint⟩ := CryptoSuite.of_discreteLog hfound
  have hm := lt_of_lt_of_le hreach (searchReach_le maxBits)
  rw [hunmasked] at hpoint
  exact (nsmul_base_inj hvalue (by omega) hpoint).symm

/-- A ciphertext encrypts one number below the order. -/
theorem eq_of_encrypts {key : PublicKey P.ground.Point} {ct : Ciphertext P.ground.Point}
    {value value' : ℕ} (hvalue : value < P.order) (hvalue' : value' < P.order)
    (hencrypts : P.Encrypts key ct value) (hencrypts' : P.Encrypts key ct value') :
    value = value' := by
  obtain ⟨r, rfl⟩ := hencrypts
  obtain ⟨r', heq⟩ := hencrypts'
  obtain ⟨hc, hd⟩ := Ciphertext.mk.inj heq
  obtain rfl := smul_base_inj hd
  exact natCast_inj hvalue hvalue' (smul_base_inj (add_right_cancel hc))

theorem Encrypts.add {key : PublicKey P.ground.Point} {first second : Ciphertext P.ground.Point}
    {value value' : ℕ} (hfirst : P.Encrypts key first value)
    (hsecond : P.Encrypts key second value') :
    P.Encrypts key (P.ground.add first second) (value + value') := by
  obtain ⟨r, rfl⟩ := hfirst
  obtain ⟨r', rfl⟩ := hsecond
  refine ⟨r + r', ?_⟩
  rw [CryptoSuite.add]
  congr 1
  · push_cast
    module
  · module

theorem Encrypts.sub {key : PublicKey P.ground.Point} {first second : Ciphertext P.ground.Point}
    {value value' : ℕ} (hfirst : P.Encrypts key first value)
    (hsecond : P.Encrypts key second value') (hle : value' ≤ value) :
    P.Encrypts key (P.ground.sub first second) (value - value') := by
  obtain ⟨r, rfl⟩ := hfirst
  obtain ⟨r', rfl⟩ := hsecond
  refine ⟨r - r', ?_⟩
  rw [CryptoSuite.sub, Nat.cast_sub hle]
  congr 1
  · module
  · module

/-- The recipient of a stealth output gets the key of its one-time account. -/
theorem stealthReceive_send (oracle : Bytes → P.Scalar) (secret : SecretKey P.Scalar)
    (r : P.Scalar) :
    ∃ key, P.stealthReceive oracle secret (P.stealthSend oracle (P.publicKey secret) r).ephemeral
        (P.stealthSend oracle (P.publicKey secret) r).oneTime = some key ∧
      P.publicKey key = (P.stealthSend oracle (P.publicKey secret) r).oneTime := by
  have hshared : secret.scalar • r • P.G = r • secret.scalar • P.G := smul_comm _ _ _
  refine ⟨⟨P.sharedScalar oracle (r • secret.scalar • P.G) + secret.scalar⟩, ?_, ?_⟩
  · simp only [stealthReceive, stealthSend, publicKey, CryptoSuite.publicKey, hshared, if_pos]
  · simp only [stealthSend, publicKey, CryptoSuite.publicKey, add_smul]

end ProofSuite

end Latebra.Crypto
