import Mathlib

/-!
# Machine words

Checked, saturating and truncating arithmetic on 64-bit words, with a spec lemma in natural
numbers for each operation: an arithmetic side condition about words becomes one for `omega` once
the operations are replaced by their specs. `None` is the outcome of a checked operation that does
not fit.
-/

set_option autoImplicit false
set_option relaxedAutoImplicit false

namespace Latebra.Foundation

/-- The largest 64-bit word. -/
def maxU64 : UInt64 := UInt64.ofNat (2 ^ 64 - 1)

/-- Addition that fails on overflow. -/
def checkedAdd (a b : UInt64) : Option UInt64 :=
  if a.toNat + b.toNat < 2 ^ 64 then some (a + b) else none

/-- Addition that stops at the largest word. -/
def saturatingAdd (a b : UInt64) : UInt64 :=
  if a.toNat + b.toNat < 2 ^ 64 then a + b else maxU64

/-- Subtraction that fails below zero. -/
def checkedSub (a b : UInt64) : Option UInt64 :=
  if b.toNat ≤ a.toNat then some (a - b) else none

/-- The word of a number, when it fits. -/
def narrow64 (n : ℕ) : Option UInt64 :=
  if n < 2 ^ 64 then some (UInt64.ofNat n) else none

/-- A number of a 128-bit computation, when it fits. -/
def fits128 (n : ℕ) : Option ℕ := if n < 2 ^ 128 then some n else none

/-- Division that fails on a zero divisor. -/
def checkedDiv (n d : ℕ) : Option ℕ := if d = 0 then none else some (n / d)

/-- The sum of a list of words, which fails on overflow. -/
def checkedSum : List UInt64 → Option UInt64
  | [] => some 0
  | word :: rest => do checkedAdd word (← checkedSum rest)

theorem checkedAdd_eq_some {a b c : UInt64} :
    checkedAdd a b = some c ↔ c.toNat = a.toNat + b.toNat := by
  have hbound := c.toNat_lt
  have hsum : (a + b).toNat = (a.toNat + b.toNat) % 2 ^ 64 := UInt64.toNat_add a b
  unfold checkedAdd
  split
  · next hfits =>
    rw [Option.some.injEq, ← UInt64.toNat_inj, hsum, Nat.mod_eq_of_lt hfits, eq_comm]
  · next hover =>
    refine ⟨nofun, fun heq ↦ absurd ?_ hover⟩
    rw [← heq]
    exact hbound

theorem checkedAdd_eq_none {a b : UInt64} :
    checkedAdd a b = none ↔ 2 ^ 64 ≤ a.toNat + b.toNat := by
  unfold checkedAdd
  split <;> simp <;> omega

theorem toNat_saturatingAdd (a b : UInt64) :
    (saturatingAdd a b).toNat = min (a.toNat + b.toNat) (2 ^ 64 - 1) := by
  unfold saturatingAdd
  split
  · next hfits =>
    rw [UInt64.toNat_add, Nat.mod_eq_of_lt hfits]
    omega
  · next hover =>
    have hmax : maxU64.toNat = 2 ^ 64 - 1 := rfl
    rw [hmax]
    omega

theorem toNat_saturatingAdd_of_lt {a b : UInt64} (hfits : a.toNat + b.toNat < 2 ^ 64) :
    (saturatingAdd a b).toNat = a.toNat + b.toNat := by
  rw [toNat_saturatingAdd]
  omega

theorem saturatingAdd_zero (a : UInt64) : saturatingAdd a 0 = a := by
  have hlt := a.toNat_lt
  rw [← UInt64.toNat_inj, toNat_saturatingAdd]
  change min (a.toNat + 0) _ = a.toNat
  omega

theorem checkedSub_eq_some {a b c : UInt64} :
    checkedSub a b = some c ↔ c.toNat + b.toNat = a.toNat := by
  unfold checkedSub
  split
  · next hle =>
    rw [Option.some.injEq, ← UInt64.toNat_inj, UInt64.toNat_sub_of_le a b (UInt64.le_iff_toNat_le.mpr hle)]
    omega
  · next hover =>
    refine ⟨nofun, fun heq ↦ ?_⟩
    omega

theorem toNat_sub_of_toNat_le {a b : UInt64} (hle : b.toNat ≤ a.toNat) :
    (a - b).toNat = a.toNat - b.toNat := UInt64.toNat_sub_of_le a b (UInt64.le_iff_toNat_le.mpr hle)

theorem narrow64_eq_some {n : ℕ} {c : UInt64} : narrow64 n = some c ↔ c.toNat = n := by
  have hbound := c.toNat_lt
  unfold narrow64
  split
  · next hfits =>
    rw [Option.some.injEq, ← UInt64.toNat_inj, UInt64.toNat_ofNat_of_lt' hfits, eq_comm]
  · next hover => exact ⟨nofun, fun heq ↦ absurd (heq ▸ hbound) hover⟩

theorem fits128_eq_some {n m : ℕ} : fits128 n = some m ↔ n < 2 ^ 128 ∧ m = n := by
  unfold fits128
  split
  · next hfits => rw [Option.some.injEq, and_iff_right hfits, eq_comm]
  · next hover => exact ⟨nofun, fun heq ↦ absurd heq.1 hover⟩

theorem checkedDiv_eq_some {n d q : ℕ} : checkedDiv n d = some q ↔ d ≠ 0 ∧ q = n / d := by
  unfold checkedDiv
  split
  · next hzero => simp [hzero]
  · next hpos => simp [hpos, eq_comm]

theorem checkedSum_eq_some {words : List UInt64} {total : UInt64}
    (hsum : checkedSum words = some total) :
    total.toNat = (words.map UInt64.toNat).sum := by
  induction words generalizing total with
  | nil =>
    obtain rfl := Option.some.inj hsum
    rfl
  | cons word rest ih =>
    simp only [checkedSum, Option.bind_eq_bind, Option.bind_eq_some_iff] at hsum
    obtain ⟨subtotal, hrest, hadd⟩ := hsum
    rw [checkedAdd_eq_some.mp hadd, ih hrest, List.map_cons, List.sum_cons]

end Latebra.Foundation
