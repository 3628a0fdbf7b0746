import Latebra.Crypto.PrimeSuite

/-!
# When decryption is exact

Every ciphertext that encryption, minting, addition and subtraction make under one key has an
integer value (`HomomorphicForm.value`), and the key unmasks the multiple of the base point by it
(`unmasked`). A search for a number of so many bits should then return the value when it is in
range and nothing otherwise.

It does not when the range is smaller than the table of baby steps, because one stride always
covers the whole table. `decryption_exact_iff` gives the exact condition, for discrete logarithms
and for ciphertexts: the value is in the range and is a machine word, or it is out of the range and
its residue modulo the order is above everything that the search covers.
-/

set_option autoImplicit false
set_option relaxedAutoImplicit false

namespace Latebra.Crypto

open Foundation

/-- A ciphertext under one key, by the operations that make it. -/
inductive HomomorphicForm (Scalar : Type) where
  | encrypt (amount : UInt64) (r : Scalar)
  | mint (amount : UInt64)
  | zero
  | add (first second : HomomorphicForm Scalar)
  | sub (first second : HomomorphicForm Scalar)

namespace HomomorphicForm

variable {Scalar : Type}

/-- The integer that the operations add up to. -/
def value : HomomorphicForm Scalar → ℤ
  | encrypt amount _ => amount.toNat
  | mint amount => amount.toNat
  | zero => 0
  | add first second => value first + value second
  | sub first second => value first - value second

variable (C : CryptoSuite) [Field Scalar] [Module Scalar C.Point]

/-- The ciphertext that the operations make. -/
def ciphertext (key : PublicKey C.Point) : HomomorphicForm Scalar → Ciphertext C.Point
  | encrypt amount r => C.encryptWithRandomness key amount r
  | mint amount => C.mint amount
  | zero => C.zero
  | add first second => C.add (ciphertext key first) (ciphertext key second)
  | sub first second => C.sub (ciphertext key first) (ciphertext key second)

variable {C}

/-- The key takes off every mask, and leaves the multiple of the base point by the value. -/
theorem unmasked (secret : SecretKey Scalar) (form : HomomorphicForm Scalar) :
    (form.ciphertext C (C.publicKey secret)).c -
        secret.scalar • (form.ciphertext C (C.publicKey secret)).d =
      (form.value : Scalar) • C.basePoint := by
  induction form with
  | encrypt amount r =>
    show (amount.toNat : Scalar) • C.basePoint + r • secret.scalar • C.basePoint -
      secret.scalar • r • C.basePoint = ((amount.toNat : ℤ) : Scalar) • C.basePoint
    rw [smul_comm, add_sub_cancel_right, Int.cast_natCast]
  | mint amount =>
    show amount.toNat • C.basePoint - secret.scalar • (0 : C.Point) =
      ((amount.toNat : ℤ) : Scalar) • C.basePoint
    rw [smul_zero, sub_zero, Int.cast_natCast, Nat.cast_smul_eq_nsmul]
  | zero =>
    show (0 : C.Point) - secret.scalar • (0 : C.Point) = ((0 : ℤ) : Scalar) • C.basePoint
    rw [smul_zero, sub_zero, Int.cast_zero, zero_smul]
  | add first second ihFirst ihSecond =>
    simp only [ciphertext, value, CryptoSuite.add, Int.cast_add, add_smul, smul_add, ← ihFirst,
      ← ihSecond]
    abel
  | sub first second ihFirst ihSecond =>
    simp only [ciphertext, value, CryptoSuite.sub, Int.cast_sub, sub_smul, smul_sub, ← ihFirst,
      ← ihSecond]
    abel

end HomomorphicForm

section

variable {C : CryptoSuite} {Scalar : Type} [Field Scalar] [Module Scalar C.Point] {order : ℕ}
  [CharP Scalar order] (horder : 2 ^ 64 < order) (hbase : C.basePoint ≠ 0)

include horder hbase

/-- Decryption finds the residue of the value modulo the order, when the search covers it. -/
theorem decrypt_form (secret : SecretKey Scalar) (form : HomomorphicForm Scalar) (maxBits : ℕ) :
    C.decrypt secret (form.ciphertext C (C.publicKey secret)) maxBits =
      if (form.value % order).toNat < searchReach maxBits then some (form.value % order).toNat
      else none := by
  have hne : order ≠ 0 := by omega
  have haddOrder := CryptoSuite.addOrderOf_basePoint Scalar hbase hne
  have hlow : 0 ≤ form.value % order := Int.emod_nonneg _ (by omega)
  have hhigh : form.value % order < order := Int.emod_lt_of_pos _ (by omega)
  have hscalar : (form.value : Scalar) = ((form.value % order).toNat : Scalar) :=
    calc (form.value : Scalar)
      _ = ((form.value % order : ℤ) : Scalar) := CharP.intCast_eq_intCast_mod Scalar order
      _ = (((form.value % order).toNat : ℤ) : Scalar) := by rw [Int.toNat_of_nonneg hlow]
      _ = ((form.value % order).toNat : Scalar) := Int.cast_natCast _
  rw [CryptoSuite.decrypt, HomomorphicForm.unmasked, hscalar, Nat.cast_smul_eq_nsmul]
  exact CryptoSuite.discreteLog_eq (by omega) (by omega)

/-- A discrete logarithm is found exactly when it is in range, and decryption returns exactly the
values in range, as long as the search covers nothing else: a number out of range has to be above
the table's size, and so has the residue of a value out of range. -/
theorem decryption_exact_iff :
    (∀ m maxBits : ℕ, m < 2 ^ 64 →
      (C.discreteLog (m • C.basePoint) maxBits = (if m < 2 ^ maxBits then some m else none) ↔
        m < 2 ^ maxBits ∨ BSGS_STEP ≤ m)) ∧
    ∀ (secret : SecretKey Scalar) (form : HomomorphicForm Scalar) (maxBits : ℕ),
      C.decrypt secret (form.ciphertext C (C.publicKey secret)) maxBits =
          (if 0 ≤ form.value ∧ form.value < 2 ^ maxBits then some form.value.toNat else none) ↔
        (0 ≤ form.value ∧ form.value < 2 ^ maxBits ∧ form.value < 2 ^ 64) ∨
        (¬ (0 ≤ form.value ∧ form.value < 2 ^ maxBits) ∧
          searchReach maxBits ≤ (form.value % order).toNat) := by
  have hne : order ≠ 0 := by omega
  have haddOrder := CryptoSuite.addOrderOf_basePoint Scalar hbase hne
  constructor
  · intro m maxBits hword
    rw [CryptoSuite.discreteLog_eq (by omega) (by omega)]
    by_cases hrange : m < 2 ^ maxBits
    · rw [if_pos hrange, if_pos (lt_searchReach_iff.mpr (.inr ⟨hword, hrange⟩))]
      exact iff_of_true rfl (.inl hrange)
    · rw [if_neg hrange]
      by_cases hsmall : m < BSGS_STEP
      · rw [if_pos (lt_searchReach_iff.mpr (.inl hsmall))]
        exact iff_of_false (Option.some_ne_none m) (by omega)
      · have hreach : ¬ m < searchReach maxBits := by
          rw [lt_searchReach_iff]
          rintro (hlow | ⟨-, hhigh⟩)
          · exact hsmall hlow
          · exact hrange hhigh
        rw [if_neg hreach]
        exact iff_of_true rfl (.inr (not_lt.mp hsmall))
  · intro secret form maxBits
    rw [decrypt_form horder hbase]
    by_cases hrange : 0 ≤ form.value ∧ form.value < 2 ^ maxBits
    · have hbits : form.value.toNat < 2 ^ maxBits := by
        rw [Int.toNat_lt hrange.1]
        exact_mod_cast hrange.2
      rw [if_pos hrange]
      by_cases hword : form.value < 2 ^ 64
      · -- a machine word in range is its own residue
        rw [Int.emod_eq_of_lt hrange.1 (by omega),
          if_pos (lt_searchReach_iff.mpr (.inr ⟨by omega, hbits⟩))]
        exact iff_of_true rfl (.inl ⟨hrange.1, hrange.2, hword⟩)
      · -- what the search finds is a machine word
        refine iff_of_false ?_ ?_
        · by_cases hreach : (form.value % order).toNat < searchReach maxBits
          · have hfound := lt_of_lt_of_le hreach (searchReach_le maxBits)
            rw [if_pos hreach, Option.some.injEq]
            omega
          · rw [if_neg hreach]
            exact (Option.some_ne_none _).symm
        · rintro (⟨-, -, hsmall⟩ | ⟨hout, -⟩)
          · exact hword hsmall
          · exact hout hrange
    · rw [if_neg hrange]
      by_cases hreach : (form.value % order).toNat < searchReach maxBits
      · rw [if_pos hreach]
        refine iff_of_false (Option.some_ne_none _) ?_
        rintro (⟨hpos, hlt, -⟩ | ⟨-, habove⟩)
        · exact hrange ⟨hpos, hlt⟩
        · exact absurd hreach (not_lt.mpr habove)
      · rw [if_neg hreach]
        exact iff_of_true rfl (.inr ⟨hrange, not_lt.mp hreach⟩)

end

/-- The sum of 500 and 100 less 300, under the secret key 5. -/
def samplePayments : HomomorphicForm primeSuite.Scalar :=
  .sub (.add (.encrypt 500 (7 : Residue)) (.mint 100)) (.mint 300)

theorem decryption_exact_prime :
    primeSuite.ground.discreteLog (300 • primeSuite.ground.basePoint) 20 = some 300 ∧
      primeSuite.decrypt ⟨(5 : Residue)⟩
        (samplePayments.ciphertext primeSuite.ground (primeSuite.publicKey ⟨(5 : Residue)⟩)) 20 =
        some 300 := by
  have hlarge : 2 ^ 64 < primeSuite.order := by
    show 2 ^ 64 < mersennePrime
    norm_num [mersennePrime]
  obtain ⟨hlogs, hciphertexts⟩ := @decryption_exact_iff primeSuite.ground primeSuite.Scalar _ _
    primeSuite.order _ hlarge primeSuite.basePoint_ne_zero
  have hvalue : samplePayments.value = 300 := rfl
  constructor
  · exact (hlogs 300 20 (by norm_num)).mpr (.inl (by norm_num))
  · have hfound := (hciphertexts ⟨(5 : Residue)⟩ samplePayments 20).mpr
      (.inl (by rw [hvalue]; norm_num))
    rw [hvalue] at hfound
    exact hfound

/-- A search for two bits finds the number 5. -/
theorem small_search_found :
    primeSuite.ground.discreteLog (5 • primeSuite.ground.basePoint) 2 = some 5 ∧ ¬ 5 < 2 ^ 2 := by
  refine ⟨CryptoSuite.discreteLog_found ProofSuite.order_above_word ?_, by norm_num⟩
  exact lt_searchReach_iff.mpr (.inl (by norm_num [BSGS_STEP]))

end Latebra.Crypto
