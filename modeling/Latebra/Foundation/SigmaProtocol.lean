import Mathlib

/-!
# Proofs of linear relations

A Σ-protocol for a linear map `φ` proves knowledge of a witness `w` with `φ w = y`: the prover
announces `φ k`, is given a challenge `e`, and responds with `k + e • w`. The check is one linear
equation, so every honest response passes it (`accepts_respond`), and two responses to different
challenges on one announcement give the witness (`extract_opens`). A response chosen before its
announcement passes it too, which is how the branches of an OR-composition are filled.

The relations here have one or two bases. A value committed under two bases is an `Opening`, and
`Independent` says of a list of openings of zero that none of them relates the bases: the form in
which the independence of two elements of a cyclic group can be assumed.
-/

set_option autoImplicit false
set_option relaxedAutoImplicit false

namespace Latebra.Foundation

namespace SigmaProtocol

section LinearRelation

variable {F W X : Type*} [Field F] [AddCommGroup W] [Module F W] [AddCommGroup X] [Module F X]

/-- The check of the verifier. -/
def Accepts (φ : W →ₗ[F] X) (y a : X) (e : F) (z : W) : Prop := φ z = a + e • y

/-- The announcement that a challenge and a response belong to. -/
def announcement (φ : W →ₗ[F] X) (y : X) (e : F) (z : W) : X := φ z - e • y

/-- The response of a prover who knows the witness. -/
def respond (k w : W) (e : F) : W := k + e • w

/-- The witness in two responses to one announcement. -/
def extract (e e' : F) (z z' : W) : W := (e - e')⁻¹ • (z - z')

variable {φ : W →ₗ[F] X} {y a : X} {e e' : F} {k w z z' : W}

theorem accepts_iff_announcement : Accepts φ y a e z ↔ announcement φ y e z = a :=
  sub_eq_iff_eq_add.symm

/-- The honest response belongs to the announcement of the honest prover. -/
theorem announcement_respond (hw : φ w = y) : announcement φ y e (respond k w e) = φ k := by
  unfold announcement respond
  rw [map_add, map_smul, hw, add_sub_cancel_right]

/-- The honest response is accepted. -/
theorem accepts_respond (hw : φ w = y) : Accepts φ y (φ k) e (respond k w e) :=
  accepts_iff_announcement.mpr (announcement_respond hw)

/-- A response chosen first is accepted on the announcement made for it. -/
theorem accepts_announcement : Accepts φ y (announcement φ y e z) e z :=
  accepts_iff_announcement.mpr rfl

/-- Two responses to one announcement under different challenges give the witness. -/
theorem extract_opens (haccepts : Accepts φ y a e z) (haccepts' : Accepts φ y a e' z')
    (hne : e ≠ e') : φ (extract e e' z z') = y := by
  have hgap : e - e' ≠ 0 := sub_ne_zero.mpr hne
  have hdiff : φ z - φ z' = (e - e') • y := by
    rw [haccepts, haccepts', add_sub_add_left_eq_sub, sub_smul]
  unfold extract
  rw [map_smul, map_sub, hdiff, inv_smul_smul₀ hgap]

/-- What is extracted from two honest responses is the witness of the prover. -/
theorem extract_respond (hne : e ≠ e') : extract e e' (respond k w e) (respond k w e') = w := by
  have hgap : e - e' ≠ 0 := sub_ne_zero.mpr hne
  unfold extract respond
  rw [add_sub_add_left_eq_sub, ← sub_smul, inv_smul_smul₀ hgap]

end LinearRelation

section Bases

variable {F P : Type*} [Field F] [AddCommGroup P] [Module F P]

/-- The honest response under one base. -/
theorem announcement_respond_single {B y : P} {k w e : F} (hw : w • B = y) :
    (k + e * w) • B - e • y = k • B := by
  show announcement (LinearMap.toSpanSingleton F P B) y e (respond k w e) =
    LinearMap.toSpanSingleton F P B k
  exact announcement_respond hw

/-- The two scalars of a point under two bases. -/
abbrev Opening (F : Type*) : Type _ := F × F

/-- The point that an opening stands for. -/
def commit (A B : P) : Opening F →ₗ[F] P :=
  (LinearMap.toSpanSingleton F P A).coprod (LinearMap.toSpanSingleton F P B)

@[simp]
theorem commit_apply (A B : P) (o : Opening F) : commit A B o = o.1 • A + o.2 • B := rfl

/-- No relation between the bases is in this list. -/
def Independent (A B : P) (relations : List (Opening F)) : Prop :=
  ∀ o ∈ relations, commit A B o = 0 → o = 0

/-- Two openings of one point are equal when their difference is no relation between the bases. -/
theorem Independent.eq_of_commit_eq {A B : P} {relations : List (Opening F)} {o o' : Opening F}
    (hindependent : Independent A B relations) (hmem : o - o' ∈ relations)
    (hcommit : commit A B o = commit A B o') : o = o' := by
  apply sub_eq_zero.mp
  apply hindependent _ hmem
  rw [map_sub, hcommit, sub_self]

end Bases

end SigmaProtocol

end Latebra.Foundation
