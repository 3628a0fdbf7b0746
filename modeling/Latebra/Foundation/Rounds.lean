import Mathlib

/-!
# Loops that may not end

A loop runs rounds on a state until a round stops with a result. `rounds` runs at most a given
number of them, so `Ends` says that the loop makes finitely many rounds. `Ends.of_measure` is the
rule for a loop that ends, with a measure that every round makes smaller, and `not_ends` the rule
for a loop that does not, with an invariant under which no round stops.
-/

set_option autoImplicit false
set_option relaxedAutoImplicit false

namespace Latebra.Foundation

variable {σ ρ : Type}

/-- Run a loop for at most `fuel` rounds. -/
def rounds (round : σ → ρ ⊕ σ) : ℕ → σ → Option ρ
  | 0, _ => none
  | fuel + 1, s =>
    match round s with
    | .inl result => some result
    | .inr s' => rounds round fuel s'

/-- The loop makes finitely many rounds. -/
def Ends (round : σ → ρ ⊕ σ) (s : σ) : Prop := ∃ fuel, (rounds round fuel s).isSome

namespace Ends

variable {round : σ → ρ ⊕ σ} {s s' : σ} {result : ρ}

theorem of_stop (hstop : round s = .inl result) : Ends round s := by
  refine ⟨1, ?_⟩
  rw [rounds, hstop]
  rfl

theorem of_next (hnext : round s = .inr s') (hends : Ends round s') : Ends round s := by
  obtain ⟨fuel, hfuel⟩ := hends
  refine ⟨fuel + 1, ?_⟩
  rw [rounds, hnext]
  exact hfuel

/-- A loop ends when every round that goes on keeps an invariant and makes a measure smaller. -/
theorem of_measure (invariant : σ → Prop) (measure : σ → ℕ)
    (hround : ∀ s s', invariant s → round s = .inr s' → invariant s' ∧ measure s' < measure s)
    (hs : invariant s) : Ends round s := by
  induction hmeasure : measure s using Nat.strong_induction_on generalizing s with
  | _ n ih =>
    cases hrun : round s with
    | inl result => exact of_stop hrun
    | inr s' =>
      obtain ⟨hs', hless⟩ := hround s s' hs hrun
      rw [hmeasure] at hless
      exact of_next hrun (ih (measure s') hless hs' rfl)

end Ends

/-- A loop does not end when an invariant makes every round go on. -/
theorem not_ends {round : σ → ρ ⊕ σ} {s : σ} (invariant : σ → Prop)
    (hround : ∀ s, invariant s → ∃ s', round s = .inr s' ∧ invariant s') (hs : invariant s) :
    ¬ Ends round s := by
  rintro ⟨fuel, hfuel⟩
  induction fuel generalizing s with
  | zero => exact absurd hfuel (by simp [rounds])
  | succ fuel ih =>
    obtain ⟨s', hnext, hs'⟩ := hround s hs
    rw [rounds, hnext] at hfuel
    exact ih hs' hfuel

end Latebra.Foundation
