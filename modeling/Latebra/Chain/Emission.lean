import Latebra.Chain.Block

/-!
# The emission of LAT

The reward of a block halves from one era of `HALVING_INTERVAL` blocks to the next, down to nothing.
What the blocks up to a height have emitted is reported by a loop over the eras, `minedSupply`.
`minedSupply_eq` says that the loop computes the sum of the rewards, within its turns, and
`minted_le` that the sum is capped.
-/

set_option autoImplicit false
set_option relaxedAutoImplicit false

namespace Latebra.Chain

open Foundation

/-! ### The loop -/

/-- The turns of `minedSupply` from a height `h` on. It gives up when its turns run out, and panics
when the next height overflows. -/
def minedFrom (height : UInt64) : ℕ → UInt64 → ℕ → Option ℕ
  | 0, _, _ => none
  | turns + 1, h, total =>
    if height < h then some total
    else
      let reward := emission h
      if reward = 0 then some total
      else
        let era := h / HALVING_INTERVAL
        let eraEnd := (era + 1) * HALVING_INTERVAL
        (checkedAdd height 1).bind fun next ↦
          let upper := min eraEnd next
          minedFrom height turns upper (total + reward.toNat * (upper - h).toNat)

/-- The LAT emitted by mining from the first block to a height. -/
def minedSupply (height : UInt64) : Option ℕ := minedFrom height 64 1 0

/-- What the blocks below a height are rewarded with. The genesis block has no reward. -/
def minted (below : ℕ) : ℕ := ∑ k ∈ Finset.Ico 1 below, (emission (UInt64.ofNat k)).toNat

/-! ### Rewards -/

theorem toNat_emission (height : UInt64) :
    (emission height).toNat = 5000000 >>> (height.toNat / 131072) := by
  have hera : (height / HALVING_INTERVAL).toNat = height.toNat / 131072 := UInt64.toNat_div ..
  unfold emission
  dsimp only
  split
  · next hlate =>
    have hle : 64 ≤ height.toNat / 131072 := by
      rw [← hera]
      exact UInt64.le_iff_toNat_le.mp hlate
    rw [Nat.shiftRight_eq_div_pow, UInt64.toNat_zero, eq_comm, Nat.div_eq_zero_iff]
    exact .inr ((by norm_num : 5000000 < 2 ^ 64).trans_le (Nat.pow_le_pow_right two_pos hle))
  · next hearly =>
    have hlt : height.toNat / 131072 < 64 := by
      rw [← hera]
      exact UInt64.lt_iff_toNat_lt.mp (UInt64.not_le.mp hearly)
    rw [UInt64.toNat_shiftRight, hera, Nat.mod_eq_of_lt hlt]
    rfl

/-- From the twenty-third halving on there is nothing left to halve. -/
theorem era_lt_of_emission_ne {height : UInt64} (hreward : emission height ≠ 0) :
    height.toNat / 131072 < 23 := by
  by_contra hlate
  apply hreward
  apply UInt64.toNat_inj.mp
  rw [toNat_emission, Nat.shiftRight_eq_div_pow, UInt64.toNat_zero, Nat.div_eq_zero_iff]
  exact .inr ((by norm_num : 5000000 < 2 ^ 23).trans_le
    (Nat.pow_le_pow_right two_pos (Nat.not_lt.mp hlate)))

/-- The rewards of one era are the same. -/
theorem minted_add {low high : ℕ} (hpos : 1 ≤ low) (hle : low ≤ high) (hhigh : high ≤ 2 ^ 64)
    (hera : high ≤ (low / 131072 + 1) * 131072) :
    minted high = minted low + (5000000 >>> (low / 131072)) * (high - low) := by
  have hsame : ∀ k ∈ Finset.Ico low high,
      (emission (UInt64.ofNat k)).toNat = 5000000 >>> (low / 131072) := by
    intro k hk
    obtain ⟨hlow, hlt⟩ := Finset.mem_Ico.mp hk
    have hword : (UInt64.ofNat k).toNat = k := UInt64.toNat_ofNat_of_lt' (hlt.trans_le hhigh)
    have hdiv : k / 131072 = low / 131072 := by omega
    rw [toNat_emission, hword, hdiv]
  unfold minted
  rw [← Finset.sum_Ico_consecutive _ hpos hle, Finset.sum_congr rfl hsame, Finset.sum_const,
    Nat.card_Ico, smul_eq_mul, mul_comm]

/-- Nothing is minted once the reward is gone. -/
theorem minted_eq {low high : ℕ} (hpos : 1 ≤ low) (hle : low ≤ high) (hhigh : high ≤ 2 ^ 64)
    (hgone : 23 ≤ low / 131072) : minted high = minted low := by
  have hnone : ∀ k ∈ Finset.Ico low high, (emission (UInt64.ofNat k)).toNat = 0 := by
    intro k hk
    obtain ⟨hlow, hlt⟩ := Finset.mem_Ico.mp hk
    have hword : (UInt64.ofNat k).toNat = k := UInt64.toNat_ofNat_of_lt' (hlt.trans_le hhigh)
    by_contra hreward
    have hera := era_lt_of_emission_ne fun hzero ↦ hreward (congrArg UInt64.toNat hzero)
    rw [hword] at hera
    omega
  unfold minted
  rw [← Finset.sum_Ico_consecutive _ hpos hle, Finset.sum_eq_zero hnone, add_zero]

/-! ### What the loop computes -/

theorem toNat_min (a b : UInt64) : (min a b).toNat = min a.toNat b.toNat := by
  rw [UInt64.min_def, Nat.min_def]
  simp only [UInt64.le_iff_toNat_le]
  split <;> rfl

/-- The loop invariant: what is below `h` has been counted, and there is a turn left for every era
that still pays. -/
theorem minedFrom_eq {height : UInt64} (hfits : height.toNat + 1 < 2 ^ 64) {turns : ℕ} {h : UInt64}
    (hpos : 1 ≤ h.toNat) (hle : h.toNat ≤ height.toNat + 1) (hsome : 1 ≤ turns)
    (hturns : h.toNat = height.toNat + 1 ∨ 24 ≤ h.toNat / 131072 + turns) :
    minedFrom height turns h (minted h.toNat) = some (minted (height.toNat + 1)) := by
  induction turns generalizing h with
  | zero => exact absurd hsome (by omega)
  | succ turns ih =>
    unfold minedFrom
    by_cases hend : height < h
    · have hreached : h.toNat = height.toNat + 1 :=
        Nat.le_antisymm hle (UInt64.lt_iff_toNat_lt.mp hend)
      rw [if_pos hend, hreached]
    rw [if_neg hend]
    have hlow : h.toNat ≤ height.toNat := UInt64.le_iff_toNat_le.mp (UInt64.not_lt.mp hend)
    by_cases hreward : emission h = 0
    · have hgone : 23 ≤ h.toNat / 131072 := by
        by_contra hpays
        have hpaid := toNat_emission h
        rw [hreward] at hpaid
        interval_cases h.toNat / 131072 <;> simp at hpaid
      rw [if_pos hreward, minted_eq hpos hle hfits.le hgone]
    rw [if_neg hreward]
    have hera := era_lt_of_emission_ne hreward
    obtain ⟨next, hnext⟩ : ∃ next, checkedAdd height 1 = some next := by
      rw [← Option.ne_none_iff_exists', ne_eq, checkedAdd_eq_none]
      exact Nat.not_le.mpr hfits
    have hnextNat : next.toNat = height.toNat + 1 := checkedAdd_eq_some.mp hnext
    have hdiv : (h / HALVING_INTERVAL).toNat = h.toNat / 131072 := UInt64.toNat_div ..
    have heraEnd : ((h / HALVING_INTERVAL + 1) * HALVING_INTERVAL).toNat =
        (h.toNat / 131072 + 1) * 131072 := by
      rw [UInt64.toNat_mul, UInt64.toNat_add, hdiv]
      show (h.toNat / 131072 + 1) % 2 ^ 64 * 131072 % 2 ^ 64 = _
      omega
    obtain ⟨upper, hupper⟩ : ∃ upper, upper =
        min ((h / HALVING_INTERVAL + 1) * HALVING_INTERVAL) next := ⟨_, rfl⟩
    have hupperNat : upper.toNat = min ((h.toNat / 131072 + 1) * 131072) (height.toNat + 1) := by
      rw [hupper, toNat_min, heraEnd, hnextNat]
    have hgrows : h.toNat ≤ upper.toNat := by omega
    have hwidth : (upper - h).toNat = upper.toNat - h.toNat := toNat_sub_of_toNat_le hgrows
    have hcounted : minted h.toNat + (emission h).toNat * (upper - h).toNat =
        minted upper.toNat := by
      rw [minted_add hpos hgrows (by omega) (by omega), toNat_emission, hwidth]
    rw [hnext, Option.bind_some, ← hupper]
    show minedFrom height turns upper (minted h.toNat + _) = _
    rw [hcounted]
    apply ih <;> omega

/-- The loop over the eras computes the sum of the rewards, for every height whose successor fits a
word. At the last height it panics. -/
theorem minedSupply_eq (height : UInt64) :
    minedSupply height =
      if height.toNat + 1 < 2 ^ 64 then some (minted (height.toNat + 1)) else none := by
  split
  · next hfits =>
    have hstart : minted (1 : UInt64).toNat = 0 := rfl
    show minedFrom height 64 1 0 = _
    rw [← hstart]
    have hone : (1 : UInt64).toNat = 1 := rfl
    refine minedFrom_eq hfits hone.ge ?_ (by omega) (.inr ?_)
    · rw [hone]
      omega
    · rw [hone]
      norm_num
  · next hlast =>
    have hmax : height = maxU64 := by
      apply UInt64.toNat_inj.mp
      have hlt := height.toNat_lt
      have hword : maxU64.toNat = 2 ^ 64 - 1 := rfl
      omega
    rw [hmax]
    decide

/-- The first era mints its rewards less the one of the genesis block. -/
theorem minted_first : minted (1 * 131072) + 5000000 = 131072 * 5000000 := by
  have hnothing : minted 1 = 0 := by simp [minted]
  have hfirst : minted (1 * 131072) = minted 1 + (5000000 >>> (1 / 131072)) * (1 * 131072 - 1) := by
    apply minted_add <;> norm_num
  rw [hfirst, hnothing]
  norm_num

/-- What the first eras mint together, less the genesis block. -/
theorem minted_eras {eras : ℕ} (hpos : 1 ≤ eras) (hfits : eras * 131072 < 2 ^ 64) :
    minted (eras * 131072) + 5000000 =
      131072 * ((List.range eras).map fun era ↦ 5000000 >>> era).sum := by
  induction eras, hpos using Nat.le_induction with
  | base =>
    rw [minted_first, List.range_one, List.map_singleton, List.sum_singleton, Nat.shiftRight_zero]
  | succ eras hpos ih =>
    have hbefore := ih ((Nat.mul_le_mul_right _ eras.le_succ).trans_lt hfits)
    have hera : eras * 131072 / 131072 = eras := Nat.mul_div_cancel _ (by norm_num)
    have hnext : minted ((eras + 1) * 131072) = minted (eras * 131072) +
        (5000000 >>> (eras * 131072 / 131072)) * ((eras + 1) * 131072 - eras * 131072) := by
      clear hbefore ih
      apply minted_add <;> omega
    rw [hera, Nat.succ_mul, Nat.add_sub_cancel_left, ← Nat.succ_mul] at hnext
    have hsplit : ((List.range (eras + 1)).map fun era ↦ 5000000 >>> era).sum =
        ((List.range eras).map fun era ↦ 5000000 >>> era).sum + 5000000 >>> eras := by
      rw [List.range_succ, List.map_append, List.sum_append, List.map_singleton, List.sum_singleton]
    linarith only [hbefore, hnext, hsplit]

/-- The supply is capped: 131,072 rewards of each of the 23 eras that pay, less the one of the
genesis block. -/
theorem minted_le {below : ℕ} (hfits : below ≤ 2 ^ 64) : minted below ≤ 1310713951424 := by
  have hrewards : ((List.range 23).map fun era ↦ 5000000 >>> era).sum = 9999992 := by
    decide +kernel
  have hlast : 1 ≤ 23 * 131072 := by norm_num
  have hgone : 23 ≤ 23 * 131072 / 131072 := by norm_num
  have hall : minted (23 * 131072) + 5000000 =
      131072 * ((List.range 23).map fun era ↦ 5000000 >>> era).sum :=
    minted_eras (by norm_num) (by norm_num)
  rw [hrewards] at hall
  generalize 23 * 131072 = last at hall hlast hgone
  have hle : minted below ≤ minted last := by
    by_cases hearly : below ≤ last
    · exact Finset.sum_le_sum_of_subset (Finset.Ico_subset_Ico_right hearly)
    · exact (minted_eq hlast (Nat.le_of_not_le hearly) hfits hgone).le
  omega

end Latebra.Chain
