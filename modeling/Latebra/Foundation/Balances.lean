import Mathlib

/-!
# Bookkeeping

What the parts of a system hold, as quantities of a commutative group: one quantity for each place,
finitely many of them nonzero. A step `Shifts` the quantities by a gain when what all places hold
together changes by exactly the gain. Shifts compose, and writing one place is a shift
(`Shifts.write`), so the books of a step that writes several places are kept write by write.
-/

set_option autoImplicit false
set_option relaxedAutoImplicit false

namespace Latebra.Foundation

open Function

variable {ι A : Type} [AddCommGroup A]

/-- What all places hold together. -/
noncomputable def holdings (f : ι → A) : A := ∑ᶠ i, f i

theorem holdings_zero : holdings (fun _ : ι ↦ (0 : A)) = 0 := finsum_zero

/-- A place is the only one that differs from zero. -/
theorem holdings_single [DecidableEq ι] (i : ι) (a : A) : holdings (update (fun _ ↦ 0) i a) = a := by
  rw [holdings, finsum_eq_single _ i fun j hne ↦ update_of_ne hne _ _, update_self]

/-- Writing one place changes the holdings by the difference. -/
theorem holdings_update [DecidableEq ι] {f : ι → A} (hf : (support f).Finite) (i : ι) (a : A) :
    holdings (update f i a) = holdings f + (a - f i) := by
  have hsplit : update f i a = fun j ↦ f j + update (fun _ ↦ (0 : A)) i (a - f i) j := by
    funext j
    by_cases hj : j = i
    · subst hj
      rw [update_self, update_self, add_sub_cancel]
    · rw [update_of_ne hj, update_of_ne hj, add_zero]
  have hsingle : (support (update (fun _ ↦ (0 : A)) i (a - f i))).Finite :=
    (Set.finite_singleton i).subset fun j hj ↦ by
      by_contra hne
      exact hj (update_of_ne hne _ _)
  rw [hsplit, holdings, finsum_add_distrib hf hsingle]
  exact congrArg (holdings f + ·) (holdings_single i (a - f i))

/-- A step changes the holdings by a gain. -/
structure Shifts (f g : ι → A) (gain : A) : Prop where
  finite : (support f).Finite → (support g).Finite
  holdings_eq : (support f).Finite → holdings g = holdings f + gain

namespace Shifts

variable {f g h : ι → A} {gain more : A}

theorem refl (f : ι → A) : Shifts f f 0 := ⟨id, fun _ ↦ (add_zero _).symm⟩

/-- A step that changes no place. -/
theorem of_eq (hsame : g = f) : Shifts f g 0 := by
  subst hsame
  exact refl g

theorem trans (hfirst : Shifts f g gain) (hsecond : Shifts g h more) : Shifts f h (gain + more) where
  finite hf := hsecond.finite (hfirst.finite hf)
  holdings_eq hf := by
    rw [hsecond.holdings_eq (hfirst.finite hf), hfirst.holdings_eq hf, add_assoc]

theorem gain_eq (hshift : Shifts f g gain) (heq : gain = more) : Shifts f g more := heq ▸ hshift

/-- Writing one place. -/
theorem write [DecidableEq ι] (f : ι → A) (i : ι) (a : A) : Shifts f (update f i a) (a - f i) where
  finite hf := (hf.union (Set.finite_singleton i)).subset fun j hj ↦ by
    by_cases heq : j = i
    · exact .inr heq
    · exact .inl (by rwa [mem_support, update_of_ne heq] at hj)
  holdings_eq hf := holdings_update hf i a

end Shifts

end Latebra.Foundation
