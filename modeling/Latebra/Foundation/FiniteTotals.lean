import Mathlib

/-!
# Totals of finitely supported quantities

`total f` is the sum of a quantity that is nonzero at finitely many places, such as the amounts
held by the accounts of a ledger. `total_update` is the bookkeeping rule: changing one entry moves
the total by exactly the change. It is stated with additions on both sides, so that it says the
same for natural numbers without subtraction.
-/

set_option autoImplicit false
set_option relaxedAutoImplicit false

namespace Latebra.Foundation

open Function

variable {α : Type}

/-- The sum of a quantity over all places. -/
noncomputable def total (f : α → ℕ) : ℕ := ∑ᶠ a, f a

theorem total_zero : total (fun _ : α ↦ 0) = 0 := finsum_zero

/-- Every entry is at most the total. -/
theorem le_total {f : α → ℕ} (hf : (support f).Finite) (a : α) : f a ≤ total f :=
  single_le_finsum a hf fun _ ↦ Nat.zero_le _

theorem finite_support_update [DecidableEq α] {β : Type} [Zero β] {f : α → β}
    (hf : (support f).Finite) (a : α) (value : β) : (support (update f a value)).Finite := by
  refine (hf.union (Set.finite_singleton a)).subset fun b hb ↦ ?_
  by_cases heq : b = a
  · exact .inr heq
  · exact .inl (by rwa [mem_support, update_of_ne heq] at hb)

/-- Changing one entry moves the total by exactly the change. -/
theorem total_update [DecidableEq α] {f : α → ℕ} (hf : (support f).Finite) (a : α) (value : ℕ) :
    total (update f a value) + f a = total f + value := by
  classical
  let places := insert a hf.toFinset
  have hplaces : support f ⊆ places := fun b hb ↦ by
    simp [places, mem_support.mp hb]
  have hupdated : support (update f a value) ⊆ places := by
    intro b hb
    by_cases heq : b = a
    · simp [places, heq]
    · rw [mem_support, update_of_ne heq] at hb
      exact hplaces hb
  have hmem : a ∈ places := Finset.mem_insert_self _ _
  rw [total, total, finsum_eq_sum_of_support_subset _ hplaces,
    finsum_eq_sum_of_support_subset _ hupdated, Finset.sum_update_of_mem hmem,
    ← Finset.sum_sdiff (Finset.singleton_subset_iff.mpr hmem) (f := f), Finset.sum_singleton]
  ring

end Latebra.Foundation
