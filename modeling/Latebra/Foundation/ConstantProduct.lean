import Mathlib

/-!
# Constant-product pools

A pool holds two reserves against a supply of shares. A deposit adds to the reserves in proportion
and mints shares, a withdrawal burns shares and pays their part of the reserves, and a swap pays
from one reserve for an amount added to the other, less a fee. All amounts are natural numbers, and
every division rounds in favour of the pool: what a depositor pays is rounded up, what anyone is
paid or minted is rounded down.

`Reserves.ShareLe` is the order by what one share is worth. Deposits and withdrawals only go up in it
(`deposit_shareLe`, `withdraw_shareLe`), so nobody's claim falls (`RateLe.claim_le`) and the reserves
never fall below what they were at the same supply (`RateLe.reserve_le`). The invariant
`Backed`, that the square of the supply is at most the product of the reserves, goes up along the
order too (`ShareLe.backed`), and a swap keeps it because it never lowers the product
(`product_le_swap`).
-/

set_option autoImplicit false
set_option relaxedAutoImplicit false

namespace Latebra.Foundation

/-- A reserve `r` over a supply `s` is worth at most a reserve `r'` over a supply `s'`. -/
def RateLe (r s r' s' : ℕ) : Prop := r * s' ≤ r' * s

namespace RateLe

variable {r s r' s' r'' s'' : ℕ}

theorem refl (r s : ℕ) : RateLe r s r s := le_refl (r * s)

theorem trans (hfirst : RateLe r s r' s') (hnext : RateLe r' s' r'' s'') (hpos : 0 < s') :
    RateLe r s r'' s'' := by
  have hscaled : r * s'' * s' ≤ r'' * s * s' :=
    calc r * s'' * s' = r * s' * s'' := by ring
      _ ≤ r' * s * s'' := Nat.mul_le_mul_right s'' hfirst
      _ = r' * s'' * s := by ring
      _ ≤ r'' * s' * s := Nat.mul_le_mul_right s hnext
      _ = r'' * s * s' := by ring
  exact Nat.le_of_mul_le_mul_right hscaled hpos

/-- Paying the part of `burned` shares, rounded down, leaves each other share worth no less. -/
theorem withdraw (r s burned : ℕ) : RateLe r s (r - burned * r / s) (s - burned) := by
  have hfloor : burned * r / s * s ≤ burned * r := Nat.div_mul_le_self _ _
  change r * (s - burned) ≤ (r - burned * r / s) * s
  rw [Nat.mul_sub, Nat.sub_mul]
  refine Nat.sub_le_sub_left ?_ _
  rwa [mul_comm r burned]

/-- Minting shares for a deposit, rounded down, leaves each share worth no less. -/
theorem mint (added : ℕ) (r s : ℕ) : RateLe r s (r + added) (s + added * s / r) := by
  have hfloor : r * (added * s / r) ≤ added * s := Nat.mul_div_le _ _
  change r * (s + added * s / r) ≤ (r + added) * s
  calc r * (s + added * s / r) = r * s + r * (added * s / r) := Nat.mul_add _ _ _
    _ ≤ r * s + added * s := Nat.add_le_add_left hfloor _
    _ = (r + added) * s := (Nat.add_mul _ _ _).symm

/-- A withdrawal pays at most the reserve. -/
theorem withdraw_le {burned : ℕ} (hburned : burned ≤ s) : burned * r / s ≤ r :=
  Nat.div_le_of_le_mul (Nat.mul_le_mul_right r hburned)

/-- A withdrawal of less than all shares leaves something in the reserve. -/
theorem withdraw_pos {burned : ℕ} (hr : 0 < r) (hburned : burned < s) :
    0 < r - burned * r / s := by
  refine Nat.sub_pos_of_lt ?_
  rw [Nat.div_lt_iff_lt_mul (Nat.zero_lt_of_lt hburned), mul_comm r s]
  exact Nat.mul_lt_mul_of_pos_right hburned hr

end RateLe

/-- Division rounded up. -/
def ceilDiv (n d : ℕ) : ℕ := (n + (d - 1)) / d

theorem le_mul_ceilDiv {d : ℕ} (hd : 0 < d) (n : ℕ) : n ≤ d * ceilDiv n d := by
  have hquotient := Nat.div_add_mod (n + (d - 1)) d
  have hremainder := Nat.mod_lt (n + (d - 1)) hd
  unfold ceilDiv
  omega

/-- The two reserves of a pool and the supply of its shares. -/
structure Reserves where
  first : ℕ
  second : ℕ
  supply : ℕ

namespace Reserves

/-- A share of `R` is worth at most a share of `R'`, in each reserve. -/
structure ShareLe (R R' : Reserves) : Prop where
  first : RateLe R.first R.supply R'.first R'.supply
  second : RateLe R.second R.supply R'.second R'.supply

/-- The reserves back the supply. -/
def Backed (R : Reserves) : Prop := R.supply ^ 2 ≤ R.first * R.second

/-- The pool after a deposit of `added` to the first reserve. The second reserve is charged in
proportion, rounded up. -/
def deposit (R : Reserves) (added : ℕ) : Reserves :=
  ⟨R.first + added, R.second + ceilDiv (added * R.second) R.first,
    R.supply + added * R.supply / R.first⟩

/-- The pool after a withdrawal of `burned` shares. -/
def withdraw (R : Reserves) (burned : ℕ) : Reserves :=
  ⟨R.first - burned * R.first / R.supply, R.second - burned * R.second / R.supply,
    R.supply - burned⟩

variable {R R' R'' : Reserves}

theorem ShareLe.refl (R : Reserves) : R.ShareLe R := ⟨.refl _ _, .refl _ _⟩

theorem ShareLe.trans (hfirst : R.ShareLe R') (hnext : R'.ShareLe R'') (hpos : 0 < R'.supply) :
    R.ShareLe R'' :=
  ⟨hfirst.first.trans hnext.first hpos, hfirst.second.trans hnext.second hpos⟩

/-- Backing goes up with the worth of a share. -/
theorem ShareLe.backed (hle : R.ShareLe R') (hpos : 0 < R.supply) (hR : R.Backed) : R'.Backed := by
  have hproduct : R.first * R'.supply * (R.second * R'.supply) ≤
      R'.first * R.supply * (R'.second * R.supply) := Nat.mul_le_mul hle.first hle.second
  have hscaled : R'.supply ^ 2 * R.supply ^ 2 ≤ R'.first * R'.second * R.supply ^ 2 :=
    calc R'.supply ^ 2 * R.supply ^ 2 ≤ R'.supply ^ 2 * (R.first * R.second) :=
          Nat.mul_le_mul_left _ hR
      _ = R.first * R'.supply * (R.second * R'.supply) := by ring
      _ ≤ R'.first * R.supply * (R'.second * R.supply) := hproduct
      _ = R'.first * R'.second * R.supply ^ 2 := by ring
  exact Nat.le_of_mul_le_mul_right hscaled (pow_pos hpos 2)

theorem deposit_shareLe (hfirst : 0 < R.first) (added : ℕ) : R.ShareLe (R.deposit added) := by
  refine ⟨.mint added R.first R.supply, ?_⟩
  have hfloor : R.first * (added * R.supply / R.first) ≤ added * R.supply := Nat.mul_div_le _ _
  have hceil : added * R.second ≤ R.first * ceilDiv (added * R.second) R.first :=
    le_mul_ceilDiv hfirst _
  -- Minted shares are rounded down and the charge is rounded up, both over the first reserve.
  have hscaled : R.first * (R.second * (added * R.supply / R.first)) ≤
      R.first * (ceilDiv (added * R.second) R.first * R.supply) :=
    calc R.first * (R.second * (added * R.supply / R.first))
          = R.second * (R.first * (added * R.supply / R.first)) := by ring
      _ ≤ R.second * (added * R.supply) := Nat.mul_le_mul_left _ hfloor
      _ = added * R.second * R.supply := by ring
      _ ≤ R.first * ceilDiv (added * R.second) R.first * R.supply :=
          Nat.mul_le_mul_right _ hceil
      _ = R.first * (ceilDiv (added * R.second) R.first * R.supply) := by ring
  have hle := Nat.le_of_mul_le_mul_left hscaled hfirst
  change R.second * (R.supply + added * R.supply / R.first) ≤
    (R.second + ceilDiv (added * R.second) R.first) * R.supply
  rw [Nat.mul_add, Nat.add_mul]
  exact Nat.add_le_add_left hle _

theorem withdraw_shareLe (R : Reserves) (burned : ℕ) : R.ShareLe (R.withdraw burned) :=
  ⟨.withdraw R.first R.supply burned, .withdraw R.second R.supply burned⟩

/-- In a backed pool the shares that a deposit mints are at most the geometric mean of what it
pays. -/
theorem Backed.minted_sq_le (hR : R.Backed) (hfirst : 0 < R.first) (added : ℕ) :
    (added * R.supply / R.first) ^ 2 ≤ added * ceilDiv (added * R.second) R.first := by
  have hfloor : R.first * (added * R.supply / R.first) ≤ added * R.supply := Nat.mul_div_le _ _
  have hceil : added * R.second ≤ R.first * ceilDiv (added * R.second) R.first :=
    le_mul_ceilDiv hfirst _
  have hscaled : (added * R.supply / R.first) ^ 2 * R.first ^ 2 ≤
      added * ceilDiv (added * R.second) R.first * R.first ^ 2 :=
    calc (added * R.supply / R.first) ^ 2 * R.first ^ 2
          = (R.first * (added * R.supply / R.first)) ^ 2 := by ring
      _ ≤ (added * R.supply) ^ 2 := Nat.pow_le_pow_left hfloor 2
      _ = added ^ 2 * R.supply ^ 2 := by ring
      _ ≤ added ^ 2 * (R.first * R.second) := Nat.mul_le_mul_left _ hR
      _ = added * R.first * (added * R.second) := by ring
      _ ≤ added * R.first * (R.first * ceilDiv (added * R.second) R.first) :=
          Nat.mul_le_mul_left _ hceil
      _ = added * ceilDiv (added * R.second) R.first * R.first ^ 2 := by ring
  exact Nat.le_of_mul_le_mul_right hscaled (pow_pos hfirst 2)

end Reserves

/-! ### Swaps -/

/-- What a swap of `added` into the reserve `r` pays from the reserve `q`, when `kept` parts in
`scale` of the amount are priced and the rest is the fee. -/
def swapOut (kept scale r q added : ℕ) : ℕ := added * kept * q / (r * scale + added * kept)

section Swap

variable {kept scale r q added : ℕ}

theorem swapOut_lt (added : ℕ) (hr : 0 < r) (hq : 0 < q) (hscale : 0 < scale) :
    swapOut kept scale r q added < q := by
  have hdivisor : 0 < r * scale := Nat.mul_pos hr hscale
  unfold swapOut
  rw [Nat.div_lt_iff_lt_mul (by omega), mul_comm q]
  exact Nat.mul_lt_mul_of_pos_right (by omega) hq

/-- A swap never lowers the product of the reserves. -/
theorem product_le_swap (added : ℕ) (hr : 0 < r) (hq : 0 < q) (hscale : 0 < scale) (hkept : kept ≤ scale) :
    r * q ≤ (r + added) * (q - swapOut kept scale r q added) := by
  obtain ⟨out, hout⟩ : ∃ out, out = swapOut kept scale r q added := ⟨_, rfl⟩
  obtain ⟨left, hleft⟩ : ∃ left, q = out + left :=
    Nat.exists_eq_add_of_le (hout ▸ (swapOut_lt added hr hq hscale).le)
  have hfloor : out * (r * scale + added * kept) ≤ added * kept * q := by
    rw [hout]
    exact Nat.div_mul_le_self _ _
  -- What is paid for the first reserve is at most what is left of the second for the amount.
  have hpaid : out * r * scale ≤ added * left * scale :=
    calc out * r * scale ≤ added * kept * left := by
          rw [hleft] at hfloor
          nlinarith
      _ = added * left * kept := by ring
      _ ≤ added * left * scale := Nat.mul_le_mul_left _ hkept
  have hcovered : out * r ≤ added * left := Nat.le_of_mul_le_mul_right hpaid hscale
  rw [← hout, hleft, Nat.add_sub_cancel_left]
  calc r * (out + left) = out * r + r * left := by ring
    _ ≤ added * left + r * left := Nat.add_le_add_right hcovered _
    _ = (r + added) * left := by ring

end Swap

end Latebra.Foundation
