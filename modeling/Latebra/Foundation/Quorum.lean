import Mathlib

/-!
# Weighted quorums

A quorum of a finite set of members holds strictly more than two thirds of their weight. Any two
quorums share members that hold strictly more than one third of it (`quorum_inter`): what is counted
in both is counted twice in a total of which only the whole is there.
-/

set_option autoImplicit false
set_option relaxedAutoImplicit false

namespace Latebra.Foundation

open Finset

variable {ι : Type*}

/-- The members of `Q` hold strictly more than two thirds of the weight of `members`. -/
def IsQuorum (members : Finset ι) (weight : ι → ℕ) (Q : Finset ι) : Prop :=
  Q ⊆ members ∧ 2 * ∑ i ∈ members, weight i < 3 * ∑ i ∈ Q, weight i

/-- Two quorums share strictly more than one third of the weight. -/
theorem quorum_inter [DecidableEq ι] {members : Finset ι} {weight : ι → ℕ} {A B : Finset ι}
    (hA : IsQuorum members weight A) (hB : IsQuorum members weight B) :
    ∑ i ∈ members, weight i < 3 * ∑ i ∈ A ∩ B, weight i := by
  have hunion : ∑ i ∈ A ∪ B, weight i ≤ ∑ i ∈ members, weight i :=
    sum_le_sum_of_subset (union_subset hA.1 hB.1)
  have htwice : ∑ i ∈ A ∪ B, weight i + ∑ i ∈ A ∩ B, weight i =
      ∑ i ∈ A, weight i + ∑ i ∈ B, weight i := sum_union_inter
  have hfirst := hA.2
  have hsecond := hB.2
  omega

end Latebra.Foundation
