import Latebra.Foundation.ByteCodec
import Mathlib.Data.Nat.Digits.Lemmas

/-!
# Positional notation with leading zeros

A string of digits in a base is a number together with how many zeros are written in front of it.
`positional` writes such a pair, `leadingZeros` and `beNumber` read it back (`positional_eq`), and
no two pairs have one notation (`positional_inj`). A byte string is the notation in base 256 of
its own leading zeros and big-endian value (`beNumber_bytes`), so a change of base that keeps both
loses nothing.

`exists_concat_of_pos` is the other end of the notation, the highest digit of a number written
lowest digit first.
-/

set_option autoImplicit false
set_option relaxedAutoImplicit false

namespace Latebra.Foundation

/-- The number with these digits, highest first. -/
def beNumber (base : ℕ) (digits : List ℕ) : ℕ :=
  digits.foldl (fun number digit ↦ base * number + digit) 0

/-- How many zeros a string of digits starts with. -/
def leadingZeros (digits : List ℕ) : ℕ := (digits.takeWhile (· == 0)).length

/-- A number in a base, highest digit first, after some zeros. -/
def positional (base zeros number : ℕ) : List ℕ :=
  List.replicate zeros 0 ++ (Nat.digits base number).reverse

theorem foldl_eq_ofDigits (base start : ℕ) (digits : List ℕ) :
    digits.foldl (fun number digit ↦ base * number + digit) start =
      Nat.ofDigits base (digits.reverse ++ [start]) := by
  induction digits generalizing start with
  | nil => simp
  | cons digit rest ih =>
    rw [List.foldl_cons, ih, List.reverse_cons, List.append_assoc, Nat.ofDigits_append,
      Nat.ofDigits_append]
    simp only [List.singleton_append, Nat.ofDigits_cons, Nat.ofDigits_nil]
    ring

/-- Horner's rule agrees with the sum of the digits' values. -/
theorem beNumber_eq_ofDigits (base : ℕ) (digits : List ℕ) :
    beNumber base digits = Nat.ofDigits base digits.reverse := by
  rw [beNumber, foldl_eq_ofDigits, Nat.ofDigits_append_zero]

theorem beNumber_cons_zero (base : ℕ) (digits : List ℕ) :
    beNumber base (0 :: digits) = beNumber base digits := by
  rw [beNumber, List.foldl_cons, Nat.mul_zero, Nat.add_zero, beNumber]

/-- A string of digits is the notation of its leading zeros and of its number. -/
theorem positional_eq {base : ℕ} (hbase : 1 < base) {digits : List ℕ}
    (hdigits : ∀ digit ∈ digits, digit < base) :
    positional base (leadingZeros digits) (beNumber base digits) = digits := by
  induction digits with
  | nil => simp [positional, leadingZeros, beNumber]
  | cons digit rest ih =>
    by_cases hzero : digit = 0
    · have hzeros : leadingZeros (0 :: rest) = leadingZeros rest + 1 := by simp [leadingZeros]
      have hrest := ih fun other hother ↦ hdigits other (List.mem_cons_of_mem _ hother)
      rw [hzero, beNumber_cons_zero, hzeros, positional, List.replicate_succ, List.cons_append]
      exact congrArg _ hrest
    · have hzeros : leadingZeros (digit :: rest) = 0 := by simp [leadingZeros, hzero]
      have hround : Nat.digits base (Nat.ofDigits base (digit :: rest).reverse) =
          (digit :: rest).reverse := by
        refine Nat.digits_ofDigits base hbase _ (fun other hother ↦ ?_) fun hne ↦ ?_
        · exact hdigits other (List.mem_reverse.mp hother)
        · simpa using hzero
      rw [beNumber_eq_ofDigits, positional, hzeros, hround, List.reverse_reverse,
        List.replicate_zero, List.nil_append]

theorem beNumber_positional (base zeros number : ℕ) :
    beNumber base (positional base zeros number) = number := by
  rw [beNumber_eq_ofDigits, positional, List.reverse_append, List.reverse_reverse,
    List.reverse_replicate, Nat.ofDigits_append_replicate_zero, Nat.ofDigits_digits]

/-- No two pairs of leading zeros and a number have one notation. -/
theorem positional_inj {base zeros number zeros' number' : ℕ}
    (hequal : positional base zeros number = positional base zeros' number') :
    zeros = zeros' ∧ number = number' := by
  have hnumber : number = number' := by
    rw [← beNumber_positional base zeros number, hequal, beNumber_positional]
  subst hnumber
  have hlength := congrArg List.length hequal
  simp only [positional, List.length_append, List.length_replicate] at hlength
  exact ⟨Nat.add_right_cancel hlength, rfl⟩

/-- The highest digit of a notation that starts with no zero is not zero. -/
theorem head?_reverse_digits (base number : ℕ) :
    (Nat.digits base number).reverse.head? ≠ some 0 := by
  intro hhead
  rw [List.head?_reverse] at hhead
  have hne : number ≠ 0 := by
    rintro rfl
    simp at hhead
  refine Nat.getLast_digit_ne_zero base hne ?_
  rw [List.getLast?_eq_some_getLast (Nat.digits_ne_nil_iff_ne_zero.mpr hne)] at hhead
  exact Option.some.inj hhead

/-- A number written lowest digit first ends in a digit that is not zero. -/
theorem exists_concat_of_pos (base : ℕ) {number : ℕ} (hpos : number ≠ 0) :
    ∃ low top, Nat.digits base number = low ++ [top] ∧ top ≠ 0 := by
  have hne := Nat.digits_ne_nil_iff_ne_zero (b := base).mpr hpos
  exact ⟨_, _, (List.dropLast_append_getLast hne).symm, Nat.getLast_digit_ne_zero base hpos⟩

/-! ### Byte strings -/

theorem leValue_eq_ofDigits (bytes : Bytes) :
    leValue bytes = Nat.ofDigits 256 (bytes.map UInt8.toNat) := by
  induction bytes with
  | nil => rfl
  | cons byte rest ih => rw [leValue, ih, List.map_cons, Nat.ofDigits_cons]

theorem leValue_append (a b : Bytes) :
    leValue (a ++ b) = leValue a + 256 ^ a.length * leValue b := by
  rw [leValue_eq_ofDigits, List.map_append, Nat.ofDigits_append, ← leValue_eq_ofDigits,
    ← leValue_eq_ofDigits, List.length_map]

/-- The big-endian value of a byte string is the number with its bytes as digits. -/
theorem beNumber_bytes (bytes : Bytes) : beNumber 256 (bytes.map UInt8.toNat) = beValue bytes := by
  rw [beNumber_eq_ofDigits, ← List.map_reverse, ← leValue_eq_ofDigits, beValue]

theorem map_toNat_injective : Function.Injective (List.map UInt8.toNat) :=
  List.map_injective_iff.mpr fun _ _ hequal ↦ UInt8.toNat_inj.mp hequal

/-- A byte string is determined by its leading zero bytes and its big-endian value. -/
theorem bytes_eq_of_beValue {a b : Bytes}
    (hzeros : leadingZeros (a.map UInt8.toNat) = leadingZeros (b.map UInt8.toNat))
    (hvalue : beValue a = beValue b) : a = b := by
  have hbytes (bytes : Bytes) : ∀ digit ∈ bytes.map UInt8.toNat, digit < 256 := by
    intro digit hdigit
    obtain ⟨byte, -, rfl⟩ := List.mem_map.mp hdigit
    exact byte.toNat_lt
  apply map_toNat_injective
  rw [← positional_eq (by norm_num : 1 < 256) (hbytes a),
    ← positional_eq (by norm_num : 1 < 256) (hbytes b), beNumber_bytes, beNumber_bytes, hzeros,
    hvalue]

end Latebra.Foundation
