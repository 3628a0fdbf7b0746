import Latebra.State.CurveTrades
import Latebra.State.Pools

/-!
# The refusal of an insolvent curve

A sell is refused when it would pay out more LAT than the curve holds. The curve can pay for every
token that left it, but the tokens that are offered need not have left it: the creator of a token
mints a supply of his own, which he reveals to his public balance and sells. `sell_covered_iff` says
exactly which sells the LAT of a reachable curve pays.
-/

set_option autoImplicit false
set_option relaxedAutoImplicit false

namespace Latebra.State

open Foundation Crypto Latebra.Types Contracts

variable {C : CryptoSuite}

namespace LedgerState

open Program

variable {s s' : LedgerState C}

/-- A sell that passes every check before it is priced. -/
structure Offered (s : LedgerState C) (tx : Transaction C) (token : UInt32) (trader : Bytes32)
    (amount nonce : UInt64) (sig : Bytes64) (acct : Account C) (c : CurvePool) : Prop where
  signed : SigOK C trader tx sig
  amount_ne : amount ≠ 0
  token_ne : token ≠ LAT_TOKEN
  created : s.token token ≠ none
  registered : s.account trader = some acct
  nonce_eq : nonce = acct.nonce
  opened : s.curve token = some c
  trading : c.graduated = false
  held : amount ≤ acct.pub token

/-- A priced sell is refused as insolvent if and only if its gross exceeds the LAT of the curve. -/
theorem curveSell_insolvent_iff (s : LedgerState C) {token : UInt32} (trader creator : Bytes32)
    {acct : Account C} {math after : Curve} {amount : UInt64} (minOut fee : UInt64) {fill : Fill}
    (hheld : amount ≤ acct.pub token)
    (hsell : math.applySell amount (acct.pub token) = some (some (fill, after))) :
    FailsWith handler (curveSell token trader creator acct math amount minOut fee) s
        .curveInsolvent ↔ math.realLat.toNat < fill.out.toNat + fill.fee.toNat := by
  have hfailure : FailsWith handler (curveSell token trader creator acct math amount minOut fee) s
      .curveInsolvent ↔ checkedAdd fill.out fill.fee = none ∨
        ∃ gross, checkedAdd fill.out fill.fee = some gross ∧ math.realLat < gross := by
    simp [curveSell, hsell, hheld]
  rw [hfailure]
  constructor
  · rintro (hover | ⟨gross, hgross, hlt⟩)
    · exact math.realLat.toNat_lt.trans_le (checkedAdd_eq_none.mp hover)
    · rw [← checkedAdd_eq_some.mp hgross]
      exact UInt64.lt_iff_toNat_lt.mp hlt
  · intro hlt
    cases hgross : checkedAdd fill.out fill.fee with
    | none => exact .inl rfl
    | some gross =>
      refine .inr ⟨gross, rfl, UInt64.lt_iff_toNat_lt.mpr ?_⟩
      rwa [checkedAdd_eq_some.mp hgross]

/-- An offered sell fails as its pricing does. -/
theorem Offered.insolvent_iff {token : UInt32} {trader : Bytes32}
    {amount minOut fee nonce height : UInt64} {sig : Bytes64} {acct : Account C} {c : CurvePool}
    (hoffer : s.Offered (.curveTrade token trader false amount minOut fee nonce sig) token trader
      amount nonce sig acct c) {fill : Fill} {after : Curve}
    (hsell : c.math.applySell amount (acct.pub token) = some (some (fill, after))) :
    FailsWith handler (applyInner (.curveTrade token trader false amount minOut fee nonce sig)
        height none) s .curveInsolvent ↔
      c.realLat.toNat < fill.out.toNat + fill.fee.toNat := by
  obtain ⟨tokenMeta, hmeta⟩ := Option.ne_none_iff_exists'.mp hoffer.created
  have hnonce := hoffer.nonce_eq
  subst hnonce
  have hsold := curveSell_insolvent_iff s trader tokenMeta.creator minOut fee hoffer.held hsell
  have hsig : ¬ FailsWith handler (checkSig trader (.curveTrade token trader false amount minOut fee
      acct.nonce sig) sig) s .curveInsolvent := by
    simp [checkSig]
  rw [← show c.math.realLat = c.realLat from rfl, ← hsold]
  simp [applyInner, applyCurveTrade, hsig, hoffer.signed, hoffer.amount_ne, hoffer.token_ne, hmeta,
    hoffer.registered, hoffer.opened, hoffer.trading, loadCurve]

end LedgerState

namespace Ledger

variable {L : Ledger C}

/-- The LAT of a curve pays exactly the sells that the curve covers, on every reachable ledger and
for every sell that passes the checks before it; any other is refused as insolvent. Every sell of
tokens that left the curve is covered. -/
theorem Reachable.sell_covered_iff (hL : L.Reachable) {token : UInt32} {trader : Bytes32}
    {amount minOut fee nonce : UInt64} {sig : Bytes64} {acct : Account C} {c : CurvePool}
    (hoffer : L.view.Offered (.curveTrade token trader false amount minOut fee nonce sig) token
      trader amount nonce sig acct c) {fill : Fill} {after : Curve}
    (hsell : c.math.applySell amount (acct.pub token) = some (some (fill, after)))
    (height : UInt64) :
    ((fill.out.toNat + fill.fee.toNat ≤ c.realLat.toNat ∧
        (L.applyAt (.curveTrade token trader false amount minOut fee nonce sig) height).1 ≠
          .err .curveInsolvent) ↔ c.math.Covers amount.toNat) ∧
      (c.vtok.toNat + amount.toNat ≤ VTOK0.toNat → c.math.Covers amount.toNat) := by
  obtain ⟨hformed, -⟩ := hL.view
  obtain ⟨trades, hrun⟩ := ReachesBy.curveRun hL token
  have hsolvent := hrun.solvent.1
  rw [LedgerState.priced, hoffer.opened] at hsolvent
  change c.math.Solvent _ _ at hsolvent
  have hcovers := hsolvent.gross_le_iff amount.toNat
  rw [← Curve.applySell_gross hsell] at hcovers
  refine ⟨?_, hsolvent.covers⟩
  rw [ne_eq, hformed.applyAt_err_iff, hoffer.insolvent_iff hsell, ← hcovers, not_lt]
  exact and_self_iff

/-! ### A supply that the curve did not sell -/

/-- A small buy on the curve of a token whose creator holds a supply of his own. -/
def curveOpened : Ledger clearSuite :=
  (tokenRevealed.applyAt (.curveTrade 1 5 true 1000 0 1000 1 5) 3).2

def openedCurve : CurvePool := ⟨1, 3000990, 999670109, 990, false⟩

theorem curveOpened_facts :
    (tokenRevealed.applyAt (.curveTrade 1 5 true 1000 0 1000 1 5) 3).1 = .ok () ∧
    curveOpened.view.curve 1 = some openedCurve ∧
    (curveOpened.view.token 1).isSome = true ∧
    (curveOpened.view.account 5).map Account.nonce = some 2 ∧
    (curveOpened.view.account 5).map (fun acct ↦ acct.pub 1) = some 1152921504607176867 ∧
    openedCurve.math.applySell 1000000000 1152921504607176867 =
      some (some (⟨1485735, 15007⟩, ⟨1500248, 1999670109, 0, false⟩)) ∧
    openedCurve.math.applySell 300000 1152921504607176867 =
      some (some (⟨891, 9⟩, ⟨3000090, 999970109, 90, false⟩)) ∧
    (curveOpened.applyAt (.curveTrade 1 5 false 1000000000 0 1000 2 5) 4).1 =
      .err .curveInsolvent := by
  decide +kernel

theorem reachable_curveOpened : curveOpened.Reachable := by
  obtain ⟨hbuy, -⟩ := curveOpened_facts
  have hstep : tokenRevealed.step (.applyAt (.curveTrade 1 5 true 1000 0 1000 1 5) 3) =
      some curveOpened := step_applyAt hbuy
  exact reachable_tokenRevealed.step (.applyAt (.curveTrade _ _ _ _ _ _ _ _) _) trivial hstep

theorem sigOK_clearSuite (tx : Transaction clearSuite) : SigOK clearSuite 5 tx 5 := by
  have hsig : (5 : Bytes64).extractLsb' 0 256 = (5 : BitVec 256) := by decide +kernel
  refine ⟨⟨(5 : BitVec 256)⟩, (5 : BitVec 256), rfl, congrArg some hsig, ?_⟩
  change decide ((5 : BitVec 256) = 5) = true
  exact decide_eq_true rfl

/-- Sells of the creator that pass every check before they are priced. -/
theorem offered_curveOpened (amount : UInt64) (hpos : amount ≠ 0)
    (hheld : amount ≤ 1152921504607176867) : ∃ acct : Account clearSuite,
      acct.pub 1 = 1152921504607176867 ∧
      curveOpened.view.Offered (.curveTrade 1 5 false amount 0 1000 2 5) 1 5 amount 2 5 acct
        openedCurve := by
  obtain ⟨-, hcurve, htoken, hnonce, hpub, -⟩ := curveOpened_facts
  obtain ⟨acct, hacct, hnext⟩ := Option.map_eq_some_iff.mp hnonce
  rw [hacct] at hpub
  have hpub : acct.pub 1 = 1152921504607176867 := Option.some.inj hpub
  refine ⟨acct, hpub, ⟨sigOK_clearSuite _, hpos, by decide, ?_, hacct, hnext.symm, hcurve,
    rfl, ?_⟩⟩
  · exact Option.isSome_iff_ne_none.mp htoken
  · rwa [hpub]

/-- The creator offers tokens that the curve never sold, and is refused as insolvent. -/
theorem sell_refused_insolvent :
    curveOpened.Reachable ∧ (∃ acct,
      curveOpened.view.Offered (.curveTrade 1 5 false 1000000000 0 1000 2 5) 1 5 1000000000 2 5 acct
        openedCurve ∧
      openedCurve.math.applySell 1000000000 (acct.pub 1) =
        some (some (⟨1485735, 15007⟩, ⟨1500248, 1999670109, 0, false⟩))) ∧
    openedCurve.realLat = 990 ∧
    (curveOpened.applyAt (.curveTrade 1 5 false 1000000000 0 1000 2 5) 4).1 =
      .err .curveInsolvent := by
  obtain ⟨-, -, -, -, -, hsell, -, hrefused⟩ := curveOpened_facts
  obtain ⟨acct, hpub, hoffer⟩ := offered_curveOpened 1000000000 (by decide) (by decide)
  exact ⟨reachable_curveOpened, ⟨acct, hoffer, hpub ▸ hsell⟩, rfl, hrefused⟩

/-- A part of the tokens that the curve sold is paid. -/
theorem sell_covered_curveOpened :
    (curveOpened.applyAt (.curveTrade 1 5 false 300000 0 1000 2 5) 4).1 ≠ .err .curveInsolvent := by
  obtain ⟨-, -, -, -, -, -, hsell, -⟩ := curveOpened_facts
  obtain ⟨acct, hpub, hoffer⟩ := offered_curveOpened 300000 (by decide) (by decide)
  obtain ⟨hexact, hissued⟩ :=
    Reachable.sell_covered_iff reachable_curveOpened hoffer (hpub ▸ hsell) 4
  exact (hexact.mpr (hissued (by decide))).2

end Ledger

end Latebra.State
