import Latebra.Foundation.ConstantProduct
import Latebra.Foundation.MachineWord

/-!
# The bonding-curve price reference

The constant-product curve that prices the launchpad trades. `applyBuy` and `applySell` answer
`none` when a trade is rejected; arithmetic that does not fit its type is a panic, so both return
an optional outcome of an optional fill.

`Bought` and `Sold` say in natural numbers what an accepted trade does. Both are exchanges of a
constant-product pool without a fee of its own: what the platform withholds of a buy never enters
the reserves, and what it withholds of a sell is part of the gross that leaves them. `Solvent` is
the invariant of a curve against the LAT that came in and went out, and `mul_le` the order that both
trades go up in.
-/

set_option autoImplicit false
set_option relaxedAutoImplicit false

namespace Latebra.Contracts

open Foundation

/-- Initial virtual LAT reserve. -/
def VLAT0 : UInt64 := 30 * 100000

/-- Initial virtual token reserve. -/
def VTOK0 : UInt64 := 1000000000

/-- Real LAT at which a curve graduates. -/
def GRADUATE_LAT : UInt64 := 500 * 100000

/-- One part in this many of a trade is the fee. -/
def FEE_DIVISOR : UInt64 := 100

/-- The largest trade. -/
def MAX_TRADE : UInt64 := 5000000000

/-- A curve: its virtual reserves, the LAT it holds, and whether it is closed. -/
structure Curve where
  vlat : UInt64
  vtok : UInt64
  realLat : UInt64
  graduated : Bool
deriving DecidableEq

/-- What a trade produced: `out` to the trader, `fee` withheld. -/
structure Fill where
  out : UInt64
  fee : UInt64
deriving DecidableEq

namespace Curve

/-- A fresh curve. -/
def default : Curve := ⟨VLAT0, VTOK0, 0, false⟩

/-- Buy for `amount` LAT. The outer option is a panic, the inner one a rejection. -/
def applyBuy (curve : Curve) (amount : UInt64) : Option (Option (Fill × Curve)) :=
  if curve.graduated ∨ amount = 0 ∨ amount > MAX_TRADE then some none
  else do
    let fee := amount / FEE_DIVISOR
    let net := amount - fee
    let denom ← checkedAdd curve.vlat net
    let quotient ← checkedDiv (curve.vtok.toNat * net.toNat) denom.toNat
    let tok := UInt64.ofNat quotient
    let vlat ← checkedAdd curve.vlat net
    let vtok ← checkedSub curve.vtok tok
    let realLat ← checkedAdd curve.realLat net
    let graduated := if realLat ≥ GRADUATE_LAT then true else curve.graduated
    return some (⟨tok, fee⟩, ⟨vlat, vtok, realLat, graduated⟩)

/-- Sell `amount` tokens of the `hold` that the seller has. -/
def applySell (curve : Curve) (amount hold : UInt64) : Option (Option (Fill × Curve)) :=
  if curve.graduated ∨ amount = 0 ∨ amount > MAX_TRADE ∨ amount > hold then some none
  else do
    let denom ← checkedAdd curve.vtok amount
    let quotient ← checkedDiv (curve.vlat.toNat * amount.toNat) denom.toNat
    let gross := UInt64.ofNat quotient
    let fee := gross / FEE_DIVISOR
    let vtok ← checkedAdd curve.vtok amount
    let vlat ← checkedSub curve.vlat gross
    let realLat := if gross ≤ curve.realLat then curve.realLat - gross else 0
    return some (⟨gross - fee, fee⟩, ⟨vlat, vtok, realLat, curve.graduated⟩)

/-- What an accepted buy does, in natural numbers. -/
structure Bought (curve curve' : Curve) (amount : ℕ) (fill : Fill) : Prop where
  amount_pos : 0 < amount
  fee_eq : fill.fee.toNat = amount / FEE_DIVISOR.toNat
  out_eq : fill.out.toNat =
    swapOut 1 1 curve.vlat.toNat curve.vtok.toNat (amount - fill.fee.toNat)
  vlat_eq : curve'.vlat.toNat = curve.vlat.toNat + (amount - fill.fee.toNat)
  vtok_eq : curve'.vtok.toNat + fill.out.toNat = curve.vtok.toNat
  realLat_eq : curve'.realLat.toNat = curve.realLat.toNat + (amount - fill.fee.toNat)
  graduated_iff : curve'.graduated = true ↔ GRADUATE_LAT.toNat ≤ curve'.realLat.toNat

/-- What an accepted sell does that the curve can pay, in natural numbers. -/
structure Sold (curve curve' : Curve) (amount : ℕ) (fill : Fill) : Prop where
  amount_pos : 0 < amount
  gross_eq : fill.out.toNat + fill.fee.toNat =
    swapOut 1 1 curve.vtok.toNat curve.vlat.toNat amount
  fee_eq : fill.fee.toNat = (fill.out.toNat + fill.fee.toNat) / FEE_DIVISOR.toNat
  vtok_eq : curve'.vtok.toNat = curve.vtok.toNat + amount
  vlat_eq : curve'.vlat.toNat + (fill.out.toNat + fill.fee.toNat) = curve.vlat.toNat
  realLat_eq : curve'.realLat.toNat + (fill.out.toNat + fill.fee.toNat) = curve.realLat.toNat
  graduated_eq : curve'.graduated = curve.graduated

/-- The fee of a trade is no more than the trade. -/
theorem toNat_fee_le (amount : UInt64) : (amount / FEE_DIVISOR).toNat ≤ amount.toNat := by
  rw [UInt64.toNat_div]
  exact Nat.div_le_self _ _

/-- The price of a trade is less than a word. -/
theorem toNat_price {reserve added : ℕ} {word : UInt64} :
    (UInt64.ofNat (word.toNat * added / (reserve + added))).toNat =
      swapOut 1 1 reserve word.toNat added := by
  have hle : word.toNat * added / (reserve + added) ≤ word.toNat :=
    Nat.div_le_of_le_mul (by nlinarith)
  rw [UInt64.toNat_ofNat_of_lt' (hle.trans_lt word.toNat_lt), swapOut, mul_one, mul_one,
    mul_comm word.toNat]

/-- What passes the guard of a trade. -/
theorem trade_guard {graduated : Bool} {amount : UInt64} {others : Prop}
    (hguard : ¬ (graduated = true ∨ amount = 0 ∨ others)) : graduated = false ∧ 0 < amount.toNat := by
  push Not at hguard
  refine ⟨eq_false_of_ne_true hguard.1, ?_⟩
  rw [Nat.pos_iff_ne_zero, ← UInt64.toNat_zero, UInt64.toNat_inj.ne]
  exact hguard.2.1

theorem applyBuy_bought {curve curve' : Curve} {amount : UInt64} {fill : Fill}
    (hbuy : curve.applyBuy amount = some (some (fill, curve'))) :
    curve.graduated = false ∧ curve.Bought curve' amount.toNat fill := by
  unfold applyBuy at hbuy
  split at hbuy
  · exact nomatch hbuy
  · next hguard =>
    obtain ⟨hopen, hpos⟩ := trade_guard hguard
    simp only [Option.bind_eq_bind, Option.bind_eq_some_iff, Option.pure_def, Option.some.injEq,
      Prod.mk.injEq] at hbuy
    obtain ⟨denom, hdenom, quotient, hquotient, vlat, hvlat, vtok, hvtok, realLat, hreal, rfl,
      rfl⟩ := hbuy
    rw [checkedAdd_eq_some, toNat_sub_of_toNat_le (toNat_fee_le amount)] at hdenom hvlat hreal
    rw [checkedDiv_eq_some, hdenom, toNat_sub_of_toNat_le (toNat_fee_le amount)] at hquotient
    rw [checkedSub_eq_some, hquotient.2] at hvtok
    refine ⟨hopen, hpos, UInt64.toNat_div _ _, ?_, hvlat, ?_, hreal, ?_⟩
    · rw [hquotient.2]
      exact toNat_price
    · rw [hquotient.2]
      exact hvtok
    · simp only [hopen, ge_iff_le, UInt64.le_iff_toNat_le, Bool.if_false_right]
      simp

/-- What an accepted sell is priced at, whether the curve can pay it or not. -/
theorem applySell_gross {curve curve' : Curve} {amount hold : UInt64} {fill : Fill}
    (hsell : curve.applySell amount hold = some (some (fill, curve'))) :
    fill.out.toNat + fill.fee.toNat =
      swapOut 1 1 curve.vtok.toNat curve.vlat.toNat amount.toNat := by
  unfold applySell at hsell
  split at hsell
  · exact nomatch hsell
  · simp only [Option.bind_eq_bind, Option.bind_eq_some_iff, Option.pure_def, Option.some.injEq,
      Prod.mk.injEq] at hsell
    obtain ⟨denom, hdenom, quotient, hquotient, vtok, -, vlat, -, rfl, -⟩ := hsell
    rw [checkedAdd_eq_some] at hdenom
    rw [checkedDiv_eq_some, hdenom] at hquotient
    rw [toNat_sub_of_toNat_le (toNat_fee_le _), Nat.sub_add_cancel (toNat_fee_le _), hquotient.2]
    exact toNat_price

/-- A sell that the curve can pay. -/
theorem applySell_sold {curve curve' : Curve} {amount hold : UInt64} {fill : Fill}
    (hsell : curve.applySell amount hold = some (some (fill, curve')))
    (hsolvent : fill.out.toNat + fill.fee.toNat ≤ curve.realLat.toNat) :
    curve.graduated = false ∧ amount.toNat ≤ hold.toNat ∧
      curve.Sold curve' amount.toNat fill := by
  have hgross := applySell_gross hsell
  unfold applySell at hsell
  split at hsell
  · exact nomatch hsell
  · next hguard =>
    obtain ⟨hopen, hpos⟩ := trade_guard hguard
    have hhold : ¬ amount > hold := fun hover ↦ hguard (Or.inr (Or.inr (Or.inr hover)))
    simp only [Option.bind_eq_bind, Option.bind_eq_some_iff, Option.pure_def, Option.some.injEq,
      Prod.mk.injEq] at hsell
    obtain ⟨denom, -, quotient, -, vtok, hvtok, vlat, hvlat, rfl, rfl⟩ := hsell
    have hsum : (UInt64.ofNat quotient - UInt64.ofNat quotient / FEE_DIVISOR).toNat +
        (UInt64.ofNat quotient / FEE_DIVISOR).toNat = (UInt64.ofNat quotient).toNat := by
      rw [toNat_sub_of_toNat_le (toNat_fee_le _)]
      exact Nat.sub_add_cancel (toNat_fee_le _)
    simp only [hsum] at hsolvent
    rw [checkedAdd_eq_some] at hvtok
    refine ⟨hopen, UInt64.le_iff_toNat_le.mp (UInt64.not_lt.mp hhold), hpos, hgross, ?_, hvtok, ?_,
      ?_, rfl⟩
    · rw [hsum]
      exact UInt64.toNat_div _ _
    · rw [hsum]
      exact checkedSub_eq_some.mp hvlat
    · simp only [hsum]
      rw [if_pos (UInt64.le_iff_toNat_le.mpr hsolvent), toNat_sub_of_toNat_le hsolvent]
      exact Nat.sub_add_cancel hsolvent

/-! ### The invariant of a curve -/

/-- A curve that took in `paidIn` LAT net of fees and let `paidOut` LAT out: it holds the
difference, prices it on top of the initial reserve, and has not fallen below the initial
product. -/
structure Solvent (curve : Curve) (paidIn paidOut : ℕ) : Prop where
  vlat_eq : curve.vlat.toNat = VLAT0.toNat + curve.realLat.toNat
  vtok_pos : 1 ≤ curve.vtok.toNat
  product : VLAT0.toNat * VTOK0.toNat ≤ curve.vlat.toNat * curve.vtok.toNat
  balance : curve.realLat.toNat + paidOut = paidIn
  graduated_iff : curve.graduated = true ↔ GRADUATE_LAT.toNat ≤ curve.realLat.toNat

variable {curve curve' : Curve} {amount paidIn paidOut : ℕ} {fill : Fill}

theorem solvent_default : default.Solvent 0 0 where
  vlat_eq := rfl
  vtok_pos := by decide
  product := le_rfl
  balance := rfl
  graduated_iff := by decide

theorem Solvent.vlat_pos (hcurve : curve.Solvent paidIn paidOut) : 0 < curve.vlat.toNat := by
  have hbase : 0 < VLAT0.toNat := by decide
  have hvlat := hcurve.vlat_eq
  omega

/-- A buy never lowers the product of the reserves. -/
theorem Bought.mul_le (hbought : curve.Bought curve' amount fill) (hvlat : 0 < curve.vlat.toNat)
    (hvtok : 0 < curve.vtok.toNat) :
    curve.vlat.toNat * curve.vtok.toNat ≤ curve'.vlat.toNat * curve'.vtok.toNat := by
  have hproduct := product_le_swap (amount - fill.fee.toNat) hvlat hvtok one_pos le_rfl
  rw [← hbought.out_eq, ← hbought.vlat_eq, ← hbought.vtok_eq, Nat.add_sub_cancel] at hproduct
  rwa [← hbought.vtok_eq]

/-- A sell never lowers the product of the reserves. -/
theorem Sold.mul_le (hsold : curve.Sold curve' amount fill) (hvlat : 0 < curve.vlat.toNat)
    (hvtok : 0 < curve.vtok.toNat) :
    curve.vlat.toNat * curve.vtok.toNat ≤ curve'.vlat.toNat * curve'.vtok.toNat := by
  have hproduct := product_le_swap amount hvtok hvlat one_pos le_rfl
  rw [← hsold.gross_eq, ← hsold.vtok_eq, ← hsold.vlat_eq, Nat.add_sub_cancel] at hproduct
  rwa [mul_comm curve'.vlat.toNat, ← hsold.vlat_eq, mul_comm _ curve.vtok.toNat]

/-- A buy keeps the curve solvent. -/
theorem Solvent.bought (hcurve : curve.Solvent paidIn paidOut)
    (hbought : curve.Bought curve' amount fill) :
    curve'.Solvent (paidIn + (amount - fill.fee.toNat)) paidOut where
  vlat_eq := by
    rw [hbought.vlat_eq, hbought.realLat_eq, hcurve.vlat_eq, Nat.add_assoc]
  vtok_pos := by
    have hleft : fill.out.toNat < curve.vtok.toNat := by
      rw [hbought.out_eq]
      exact swapOut_lt _ hcurve.vlat_pos hcurve.vtok_pos one_pos
    have hvtok := hbought.vtok_eq
    omega
  product := hcurve.product.trans (hbought.mul_le hcurve.vlat_pos hcurve.vtok_pos)
  balance := by
    have hbalance := hcurve.balance
    rw [hbought.realLat_eq]
    omega
  graduated_iff := hbought.graduated_iff

/-- A sell that the curve can pay keeps it solvent. -/
theorem Solvent.sold (hcurve : curve.Solvent paidIn paidOut)
    (hsold : curve.Sold curve' amount fill) (hopen : curve.graduated = false) :
    curve'.Solvent paidIn (paidOut + (fill.out.toNat + fill.fee.toNat)) where
  vlat_eq := by
    have hvlat := hsold.vlat_eq
    have hreal := hsold.realLat_eq
    have hbase := hcurve.vlat_eq
    omega
  vtok_pos := by
    rw [hsold.vtok_eq]
    exact hcurve.vtok_pos.trans (Nat.le_add_right _ _)
  product := hcurve.product.trans (hsold.mul_le hcurve.vlat_pos hcurve.vtok_pos)
  balance := by
    have hbalance := hcurve.balance
    have hreal := hsold.realLat_eq
    omega
  graduated_iff := by
    have hbefore := hcurve.graduated_iff
    have hreal := hsold.realLat_eq
    rw [hopen] at hbefore
    rw [hsold.graduated_eq, hopen]
    refine ⟨nofun, fun hreached ↦ hbefore.mpr ?_⟩
    omega

/-- The tokens that a curve can redeem: a sell is covered when it stays below this share of the
token reserve. -/
def Covers (curve : Curve) (amount : ℕ) : Prop :=
  amount * (VLAT0.toNat - 1) < (curve.realLat.toNat + 1) * curve.vtok.toNat

/-- The LAT of a solvent curve pays exactly the sells that it covers. -/
theorem Solvent.gross_le_iff (hcurve : curve.Solvent paidIn paidOut) (amount : ℕ) :
    swapOut 1 1 curve.vtok.toNat curve.vlat.toNat amount ≤ curve.realLat.toNat ↔
      curve.Covers amount := by
  have hdivisor : 0 < curve.vtok.toNat * 1 + amount * 1 := by
    have hvtok := hcurve.vtok_pos
    omega
  have hbase : VLAT0.toNat = (VLAT0.toNat - 1) + 1 := rfl
  unfold swapOut Covers
  rw [← Nat.lt_succ_iff, Nat.div_lt_iff_lt_mul hdivisor, hcurve.vlat_eq]
  generalize VLAT0.toNat - 1 = base at hbase
  rw [hbase, Nat.succ_eq_add_one]
  constructor
  · intro hlt
    nlinarith
  · intro hlt
    nlinarith

/-- Tokens that left the curve are redeemed, whoever holds them. -/
theorem Solvent.covers (hcurve : curve.Solvent paidIn paidOut) {amount : ℕ}
    (hissued : curve.vtok.toNat + amount ≤ VTOK0.toNat) : curve.Covers amount := by
  have hproduct := hcurve.product
  have hvtok := hcurve.vtok_pos
  have hbase : VLAT0.toNat = (VLAT0.toNat - 1) + 1 := rfl
  rw [hcurve.vlat_eq] at hproduct
  unfold Covers
  generalize VLAT0.toNat - 1 = base at hbase ⊢
  rw [hbase] at hproduct
  nlinarith

end Curve

end Latebra.Contracts
