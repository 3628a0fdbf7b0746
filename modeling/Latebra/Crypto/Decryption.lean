import Latebra.Crypto.Suite

/-!
# Keys, encryption and discrete logarithms

A key encrypts a balance as `b·G + r·Y` beside `r·G`, so that decryption is left with `b·G` and has
to find `b`. `discreteLog` looks for it by baby steps and giant steps: a table of the first
`2 ^ 16` multiples of the base point, and strides of the table's size down from the point.

`searchReach` is what a search for so many bits covers, and `discreteLog_eq` says that it finds
exactly the factors below it, when the base point has an order above every machine word.
-/

set_option autoImplicit false
set_option relaxedAutoImplicit false

namespace Latebra.Crypto

open Foundation

/-- An account secret key. -/
structure SecretKey (Scalar : Type) where
  scalar : Scalar

/-- The factors stored in one baby-step table. -/
def BSGS_STEP : ℕ := 2 ^ 16

/-- The bound of a search for a number of so many bits. -/
def searchBound (maxBits : ℕ) : ℕ := if 64 ≤ maxBits then 2 ^ 64 - 1 else 2 ^ maxBits

/-- What a search for a number of so many bits covers. -/
def searchReach (maxBits : ℕ) : ℕ := max BSGS_STEP (2 ^ min 64 maxBits)

theorem searchBound_lt (maxBits : ℕ) : searchBound maxBits < 2 ^ 64 := by
  unfold searchBound
  split_ifs with hbits
  · norm_num
  · exact Nat.pow_lt_pow_right (by norm_num) (by omega)

theorem searchReach_le (maxBits : ℕ) : searchReach maxBits ≤ 2 ^ 64 :=
  max_le (by norm_num [BSGS_STEP]) (Nat.pow_le_pow_right (by norm_num) (min_le_left _ _))

theorem lt_searchReach_iff {m maxBits : ℕ} :
    m < searchReach maxBits ↔ m < BSGS_STEP ∨ (m < 2 ^ 64 ∧ m < 2 ^ maxBits) := by
  rw [searchReach, lt_max_iff]
  rcases le_total 64 maxBits with hbits | hbits
  · have hpow : (2 : ℕ) ^ 64 ≤ 2 ^ maxBits := Nat.pow_le_pow_right (by norm_num) hbits
    rw [min_eq_left hbits, and_iff_left_of_imp fun hm ↦ lt_of_lt_of_le hm hpow]
  · have hpow : (2 : ℕ) ^ maxBits ≤ 2 ^ 64 := Nat.pow_le_pow_right (by norm_num) hbits
    rw [min_eq_right hbits, and_iff_right_of_imp fun hm ↦ lt_of_lt_of_le hm hpow]

/-- The stride that holds a number is taken exactly when the search covers the number. -/
theorem stride_lt_searchBound {m : ℕ} (maxBits : ℕ) :
    m / BSGS_STEP * BSGS_STEP < searchBound maxBits ↔ m < searchReach maxBits := by
  unfold searchBound searchReach
  split_ifs with hbits
  · rw [min_eq_left hbits, max_eq_right (by norm_num [BSGS_STEP])]
    unfold BSGS_STEP
    omega
  · rw [min_eq_right (le_of_lt (not_le.mp hbits))]
    by_cases hsmall : maxBits < 16
    · have hpow : 2 ^ maxBits < BSGS_STEP := Nat.pow_lt_pow_right (by norm_num) hsmall
      have hpos : 0 < 2 ^ maxBits := Nat.pos_of_ne_zero (by positivity)
      rw [max_eq_left (le_of_lt hpow)]
      unfold BSGS_STEP at hpow ⊢
      omega
    · obtain ⟨extra, rfl⟩ := Nat.exists_eq_add_of_le (not_lt.mp hsmall)
      rw [pow_add, show (2 ^ 16 : ℕ) = BSGS_STEP from rfl,
        max_eq_right (Nat.le_mul_of_pos_right _ (by positivity)), Nat.mul_comm,
        Nat.mul_lt_mul_left (by norm_num [BSGS_STEP]),
        Nat.div_lt_iff_lt_mul (by norm_num [BSGS_STEP]), Nat.mul_comm]

namespace CryptoSuite

variable (C : CryptoSuite)

/-- The table of the first multiples of the base point, with the multiple that comes next. -/
def babyTable : ℕ → (Bytes32 → Option ℕ) × C.Point
  | 0 => (fun _ ↦ none, 0)
  | j + 1 =>
    let (table, acc) := babyTable j
    (Function.update table (C.compress acc) (some j), acc + C.basePoint)

/-- The giant steps from the `i`-th, as many as the fuel allows. -/
def giantSteps (table : Bytes32 → Option ℕ) (bound : ℕ) : ℕ → ℕ → C.Point → Option ℕ
  | 0, _, _ => none
  | fuel + 1, i, cur =>
    if min (i * BSGS_STEP) (2 ^ 64 - 1) < bound then
      match table (C.compress cur) with
      | some j => some (i * BSGS_STEP + j)
      | none => giantSteps table bound fuel (i + 1) (cur - BSGS_STEP • C.basePoint)
    else none

/-- The small number that a point is the multiple of. The search passes its bound before the fuel
is spent. -/
def discreteLog (point : C.Point) (maxBits : ℕ) : Option ℕ :=
  C.giantSteps (C.babyTable BSGS_STEP).1 (searchBound maxBits)
    (searchBound maxBits / BSGS_STEP + 2) 0 point

section Keys

variable {Scalar : Type} [Field Scalar] [Module Scalar C.Point]

/-- The public key of a secret one. -/
def publicKey (secret : SecretKey Scalar) : PublicKey C.Point := ⟨secret.scalar • C.basePoint⟩

/-- Encrypt with given randomness. -/
def encryptWithRandomness (key : PublicKey C.Point) (amount : UInt64) (r : Scalar) :
    Ciphertext C.Point :=
  ⟨(amount.toNat : Scalar) • C.basePoint + r • key.point, r • C.basePoint⟩

/-- Recover the balance of a ciphertext. -/
def decrypt (secret : SecretKey Scalar) (ct : Ciphertext C.Point) (maxBits : ℕ) : Option ℕ :=
  C.discreteLog (ct.c - secret.scalar • ct.d) maxBits

end Keys

variable {C}

theorem compress_injective : Function.Injective C.compress := by
  intro point point' heq
  have hread := congrArg C.decompress heq
  rw [C.decompress_compress, C.decompress_compress] at hread
  exact Option.some.inj hread

/-! ### The search -/

theorem babyTable_snd (n : ℕ) : (C.babyTable n).2 = n • C.basePoint := by
  induction n with
  | zero => exact (zero_nsmul _).symm
  | succ n ih =>
    show (C.babyTable n).2 + C.basePoint = (n + 1) • C.basePoint
    rw [ih, succ_nsmul]

theorem babyTable_succ (n : ℕ) : (C.babyTable (n + 1)).1 =
    Function.update (C.babyTable n).1 (C.compress (n • C.basePoint)) (some n) := by
  rw [← babyTable_snd]
  rfl

/-- The table holds factors of the points it is asked for. -/
theorem of_babyTable {n j : ℕ} {point : C.Point}
    (hfound : (C.babyTable n).1 (C.compress point) = some j) :
    j < n ∧ point = j • C.basePoint := by
  induction n with
  | zero => cases hfound
  | succ n ih =>
    rw [babyTable_succ, Function.update_apply] at hfound
    split_ifs at hfound with hlast
    · obtain rfl := Option.some.inj hfound
      exact ⟨Nat.lt_succ_self _, compress_injective hlast⟩
    · exact (ih hfound).imp_left Nat.lt_succ_of_lt

/-- What the giant steps find is a factor, in a stride they take, of the point they started
from. -/
theorem of_giantSteps {bound fuel i m : ℕ} {cur : C.Point} (hbound : bound < 2 ^ 64)
    (hfound : C.giantSteps (C.babyTable BSGS_STEP).1 bound fuel i cur = some m) :
    m / BSGS_STEP * BSGS_STEP < bound ∧
      cur + (i * BSGS_STEP) • C.basePoint = m • C.basePoint := by
  induction fuel generalizing i cur with
  | zero => cases hfound
  | succ fuel ih =>
    rw [giantSteps] at hfound
    split_ifs at hfound with hstep
    split at hfound
    · next j hj =>
      rw [← Option.some.inj hfound]
      obtain ⟨hlow, hpoint⟩ := of_babyTable hj
      constructor
      · unfold BSGS_STEP at hstep hlow ⊢
        omega
      · rw [hpoint, ← add_nsmul, Nat.add_comm]
    · obtain ⟨hm, hpoint⟩ := ih hfound
      refine ⟨hm, ?_⟩
      rw [← hpoint, Nat.succ_mul, add_nsmul]
      abel

theorem of_discreteLog {m maxBits : ℕ} {point : C.Point}
    (hfound : C.discreteLog point maxBits = some m) :
    m < searchReach maxBits ∧ point = m • C.basePoint := by
  obtain ⟨hm, hpoint⟩ := of_giantSteps (searchBound_lt maxBits) hfound
  rw [Nat.zero_mul, zero_nsmul, add_zero] at hpoint
  exact ⟨(stride_lt_searchBound maxBits).mp hm, hpoint⟩

section Search

variable (horder : 2 ^ 64 < addOrderOf C.basePoint)

theorem nsmul_base_inj {a b : ℕ} (ha : a < addOrderOf C.basePoint)
    (hb : b < addOrderOf C.basePoint) (heq : a • C.basePoint = b • C.basePoint) : a = b :=
  nsmul_injOn_Iio_addOrderOf ha hb heq

/-- The table finds every factor below its size. -/
theorem babyTable_found {n j : ℕ} (hn : n ≤ addOrderOf C.basePoint) (hj : j < n) :
    (C.babyTable n).1 (C.compress (j • C.basePoint)) = some j := by
  induction n with
  | zero => exact absurd hj (Nat.not_lt_zero j)
  | succ n ih =>
    rw [babyTable_succ, Function.update_apply]
    split_ifs with hlast
    · rw [nsmul_base_inj (hj.trans_le hn) (Nat.lt_of_succ_le hn) (compress_injective hlast)]
    · apply ih (Nat.le_of_succ_le hn)
      apply Nat.lt_of_le_of_ne (Nat.lt_succ_iff.mp hj)
      rintro rfl
      exact hlast rfl

include horder

/-- The giant steps reach a number below the bound of the search. -/
theorem giantSteps_found {bound fuel i m : ℕ} {cur : C.Point} (hm : m < 2 ^ 64)
    (hreach : m / BSGS_STEP * BSGS_STEP < bound) (hi : i * BSGS_STEP ≤ m)
    (hfuel : m / BSGS_STEP < i + fuel)
    (hcur : cur + (i * BSGS_STEP) • C.basePoint = m • C.basePoint) :
    C.giantSteps (C.babyTable BSGS_STEP).1 bound fuel i cur = some m := by
  have hcur' : cur = (m - i * BSGS_STEP) • C.basePoint := by
    rw [eq_sub_of_add_eq hcur, sub_nsmul _ hi]
    abel
  induction fuel generalizing i cur with
  | zero =>
    unfold BSGS_STEP at hi hfuel
    omega
  | succ fuel ih =>
    rw [giantSteps, if_pos (by unfold BSGS_STEP at hreach hi ⊢; omega)]
    by_cases hlast : m - i * BSGS_STEP < BSGS_STEP
    · rw [hcur', babyTable_found (by unfold BSGS_STEP; omega) hlast]
      show some (i * BSGS_STEP + (m - i * BSGS_STEP)) = some m
      rw [Nat.add_sub_cancel' hi]
    · have hmiss : (C.babyTable BSGS_STEP).1 (C.compress cur) = none := by
        rw [Option.eq_none_iff_forall_ne_some]
        intro j hj
        obtain ⟨hlow, hpoint⟩ := of_babyTable hj
        rw [hcur'] at hpoint
        have hsame := nsmul_base_inj (by omega) (by unfold BSGS_STEP at hlow; omega) hpoint
        omega
      have hnext : (i + 1) * BSGS_STEP ≤ m := by
        rw [Nat.succ_mul]
        omega
      have hcurNext : cur - BSGS_STEP • C.basePoint + ((i + 1) * BSGS_STEP) • C.basePoint =
          m • C.basePoint := by
        rw [← hcur, Nat.succ_mul, add_nsmul]
        abel
      rw [hmiss]
      apply ih hnext (by omega) hcurNext
      rw [eq_sub_of_add_eq hcurNext, sub_nsmul _ hnext]
      abel

/-- A search finds every number that it covers. -/
theorem discreteLog_found {m maxBits : ℕ} (hreach : m < searchReach maxBits) :
    C.discreteLog (m • C.basePoint) maxBits = some m := by
  have hstride := (stride_lt_searchBound maxBits).mpr hreach
  apply giantSteps_found horder (lt_of_lt_of_le hreach (searchReach_le maxBits)) hstride
  · rw [Nat.zero_mul]
    exact Nat.zero_le m
  · unfold BSGS_STEP at hstride ⊢
    omega
  · rw [Nat.zero_mul, zero_nsmul, add_zero]

/-- A search finds the numbers that it covers and no other. -/
theorem discreteLog_eq {m maxBits : ℕ} (hm : m < addOrderOf C.basePoint) :
    C.discreteLog (m • C.basePoint) maxBits =
      if m < searchReach maxBits then some m else none := by
  split_ifs with hreach
  · exact discreteLog_found horder hreach
  · rw [Option.eq_none_iff_forall_ne_some]
    intro found hfound
    have hcovered := of_discreteLog hfound
    have hword := lt_of_lt_of_le hcovered.1 (searchReach_le maxBits)
    rw [nsmul_base_inj hm (hword.trans horder) hcovered.2] at hreach
    exact hreach hcovered.1

end Search

/-! ### Scalars and ciphertexts -/

section Scalars

variable {Scalar : Type} [Field Scalar] [Module Scalar C.Point]

variable (Scalar) in
/-- The order of the base point is the number of scalars of the prime field. -/
theorem addOrderOf_basePoint (hbase : C.basePoint ≠ 0) {order : ℕ} (horder : order ≠ 0)
    [CharP Scalar order] : addOrderOf C.basePoint = order := by
  have hprime : order.Prime :=
    (CharP.char_is_prime_or_zero Scalar order).resolve_right horder
  have hfact : Fact order.Prime := ⟨hprime⟩
  have hcast : (order : Scalar) • C.basePoint = order • C.basePoint :=
    Nat.cast_smul_eq_nsmul Scalar order _
  refine addOrderOf_eq_prime ?_ hbase
  rw [← hcast, CharP.cast_eq_zero, zero_smul]

end Scalars

end CryptoSuite

end Latebra.Crypto
