import Latebra.State.ArmOutcomes

/-!
# Arithmetic of staking

What the release of matured unbonding entries and a penalty do to the amounts of a staking record:
a release moves the matured amounts out, and a penalty takes exactly its amount, bonded stake first.
A penalty leaves something of every stake of at least two units.
-/

set_option autoImplicit false
set_option relaxedAutoImplicit false

namespace Latebra.State

open Foundation Crypto Latebra.Types

/-- The sum of the amounts of a list of unbonding entries. -/
def unbondingTotal (entries : List (UInt64 × UInt64)) : ℕ :=
  (entries.map fun entry ↦ entry.1.toNat).sum

@[simp]
theorem unbondingTotal_nil : unbondingTotal [] = 0 := rfl

@[simp]
theorem unbondingTotal_cons (entry : UInt64 × UInt64) (rest : List (UInt64 × UInt64)) :
    unbondingTotal (entry :: rest) = entry.1.toNat + unbondingTotal rest := rfl

@[simp]
theorem unbondingTotal_append (first second : List (UInt64 × UInt64)) :
    unbondingTotal (first ++ second) = unbondingTotal first + unbondingTotal second := by
  simp [unbondingTotal]

theorem unbondingTotal_filter_add (entries : List (UInt64 × UInt64))
    (keep : UInt64 × UInt64 → Bool) :
    unbondingTotal (entries.filter keep) + unbondingTotal (entries.filter fun entry ↦ !keep entry) =
      unbondingTotal entries := by
  induction entries with
  | nil => rfl
  | cons entry rest ih =>
    cases hkeep : keep entry <;> simp [hkeep] <;> omega

theorem checkedSum_amounts {entries : List (UInt64 × UInt64)} {total : UInt64}
    (hsum : checkedSum (entries.map Prod.fst) = some total) :
    total.toNat = unbondingTotal entries := by
  rw [checkedSum_eq_some hsum, List.map_map]
  rfl

/-- Entries without an amount add nothing. -/
theorem unbondingTotal_filter_pos (entries : List (UInt64 × UInt64)) :
    unbondingTotal (entries.filter fun entry ↦ entry.1 > 0) = unbondingTotal entries := by
  induction entries with
  | nil => rfl
  | cons entry rest ih =>
    by_cases hpos : 0 < entry.1
    · simp [hpos, ih]
    · have hzero : entry.1.toNat = 0 := by
        rw [UInt64.lt_iff_toNat_lt, UInt64.toNat_zero] at hpos
        omega
      simp [hpos, ih, hzero]

/-- A release takes the matured entries out and leaves the others. -/
theorem releaseMatured_outcome {v after : Validator} {height released : UInt64}
    (hrelease : releaseMatured v height = some (released, after)) :
    after = { v with unbonding := v.unbonding.filter fun entry ↦ ¬ entry.2 ≤ height } ∧
      released.toNat + unbondingTotal after.unbonding = unbondingTotal v.unbonding := by
  obtain ⟨total, hsum, hlast⟩ := Option.bind_eq_some_iff.mp hrelease
  obtain ⟨rfl, rfl⟩ := Prod.mk.inj (Option.some.inj hlast)
  refine ⟨rfl, ?_⟩
  have hsplit := unbondingTotal_filter_add v.unbonding fun entry ↦ decide (entry.2 ≤ height)
  rw [checkedSum_amounts hsum, ← hsplit]
  simp only [decide_not]

theorem slashUnbonding_zero (entries : List (UInt64 × UInt64)) :
    slashUnbonding 0 entries = entries := by
  cases entries with
  | nil => rfl
  | cons entry rest => exact if_pos rfl

/-- An entry that the penalty covers is used up. -/
theorem slashUnbonding_of_le {remaining amount release : UInt64} {rest : List (UInt64 × UInt64)}
    (hle : amount ≤ remaining) :
    (slashUnbonding remaining ((amount, release) :: rest)).filter (fun entry ↦ entry.1 > 0) =
      (slashUnbonding (remaining - amount) rest).filter fun entry ↦ entry.1 > 0 := by
  rw [slashUnbonding]
  split
  · next hzero =>
    obtain rfl : amount = 0 := by
      rw [hzero, UInt64.le_iff_toNat_le, UInt64.toNat_zero] at hle
      exact UInt64.toNat_inj.mp (Nat.le_zero.mp hle)
    rw [hzero, UInt64.sub_zero, List.filter_cons_of_neg (by simp), slashUnbonding_zero]
  · have htake : (if remaining ≤ amount then remaining else amount) = amount := by
      split
      · next hge => exact UInt64.le_antisymm hge hle
      · rfl
    simp only [htake]
    rw [List.filter_cons_of_neg (by simp)]

/-- An entry that covers the penalty keeps the rest, and so do the entries behind. -/
theorem slashUnbonding_of_lt {remaining amount release : UInt64} {rest : List (UInt64 × UInt64)}
    (hlt : remaining.toNat < amount.toNat) :
    slashUnbonding remaining ((amount, release) :: rest) = (amount - remaining, release) :: rest := by
  rw [slashUnbonding]
  split
  · next hzero => rw [hzero, UInt64.sub_zero]
  · simp only [if_pos (UInt64.le_iff_toNat_le.mpr hlt.le), UInt64.sub_self, slashUnbonding_zero]

/-- A penalty on the unbonding entries takes exactly its amount. -/
theorem unbondingTotal_slashUnbonding (entries : List (UInt64 × UInt64)) (remaining : UInt64)
    (hcovered : remaining.toNat ≤ unbondingTotal entries) :
    unbondingTotal (slashUnbonding remaining entries) + remaining.toNat =
      unbondingTotal entries := by
  induction entries generalizing remaining with
  | nil =>
    rw [unbondingTotal_nil] at hcovered
    simp [slashUnbonding]
    omega
  | cons entry rest ih =>
    obtain ⟨amount, release⟩ := entry
    change remaining.toNat ≤ amount.toNat + unbondingTotal rest at hcovered
    unfold slashUnbonding
    split
    · next hzero => simp [hzero]
    · by_cases hle : remaining ≤ amount
      · have hsub := toNat_sub_of_toNat_le (UInt64.le_iff_toNat_le.mp hle)
        have hrest := ih 0 (by simp)
        have hle' := UInt64.le_iff_toNat_le.mp hle
        simp [hle] at hrest ⊢
        omega
      · have hlt : amount.toNat < remaining.toNat := by
          rw [UInt64.le_iff_toNat_le] at hle
          omega
        have hsub := toNat_sub_of_toNat_le hlt.le
        have hrest := ih (remaining - amount) (by omega)
        simp [hle]
        omega

/-- A penalty takes bonded stake first, and the rest from the unbonding entries. -/
theorem slashValidator_parts (v : Validator) (slashed : UInt64) :
    (slashValidator v slashed).staked.toNat = v.staked.toNat - slashed.toNat ∧
      ∃ rest : UInt64, rest.toNat = slashed.toNat - v.staked.toNat ∧
        (slashValidator v slashed).unbonding =
          (slashUnbonding rest v.unbonding).filter fun entry ↦ entry.1 > 0 := by
  unfold slashValidator
  by_cases hle : slashed ≤ v.staked
  · have hle' := UInt64.le_iff_toNat_le.mp hle
    rw [if_pos hle]
    refine ⟨toNat_sub_of_toNat_le hle', slashed - slashed, ?_, rfl⟩
    rw [UInt64.sub_self, UInt64.toNat_zero]
    omega
  · have hlt : v.staked.toNat < slashed.toNat := by
      rw [UInt64.le_iff_toNat_le] at hle
      omega
    rw [if_neg hle]
    refine ⟨?_, slashed - v.staked, toNat_sub_of_toNat_le hlt.le, rfl⟩
    show (v.staked - v.staked).toNat = _
    rw [UInt64.sub_self, UInt64.toNat_zero]
    omega

/-- A penalty takes exactly its amount off the whole stake. -/
theorem slashValidator_total {v : Validator} {slashed : UInt64}
    (hcovered : slashed.toNat ≤ v.staked.toNat + unbondingTotal v.unbonding) :
    (slashValidator v slashed).staked.toNat + unbondingTotal (slashValidator v slashed).unbonding +
      slashed.toNat = v.staked.toNat + unbondingTotal v.unbonding := by
  obtain ⟨hstaked, rest, hrest, hunbonding⟩ := slashValidator_parts v slashed
  have htaken := unbondingTotal_slashUnbonding v.unbonding rest (by omega)
  rw [hunbonding, unbondingTotal_filter_pos]
  omega

theorem toNat_slashAmount (total : UInt64) :
    (slashAmount total).toNat = max 1 (total.toNat / 10) := by
  have hbound := total.toNat_lt
  have hshare : (UInt64.ofNat (total.toNat * SLASH_FRACTION_BPS / 10000)).toNat =
      total.toNat / 10 := by
    have hquotient : total.toNat * SLASH_FRACTION_BPS / 10000 = total.toNat / 10 := by
      change total.toNat * 1000 / 10000 = total.toNat / 10
      omega
    have hfits : total.toNat / 10 < 2 ^ 64 := by omega
    rw [hquotient]
    exact UInt64.toNat_ofNat_of_lt' hfits
  simp only [slashAmount, UInt64.le_iff_toNat_le, hshare]
  split
  · next hle =>
    rw [UInt64.toNat_one] at hle ⊢
    omega
  · next hgt =>
    rw [UInt64.toNat_one] at hgt
    rw [hshare]
    omega

/-- A penalty never exceeds the stake that it is taken from. -/
theorem slashAmount_le {total : UInt64} (hpos : total ≠ 0) :
    (slashAmount total).toNat ≤ total.toNat := by
  have hne : total.toNat ≠ 0 := fun hzero ↦ hpos (UInt64.toNat_inj.mp hzero)
  rw [toNat_slashAmount]
  omega

end Latebra.State
