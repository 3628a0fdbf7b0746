import Latebra.State.Escrows

/-!
# Trades on a bonding curve

`CurveRun` is a run of the ledger with the trades that it filled on the curve of one token, in
between any other operations. `CurveRun.accounted` is the run lemma: the curve holds exactly what
the trades brought in, the product of its reserves only goes up, and the tokens that left it are the
tokens that were bought and not sold back. The round trip follows, because at the same token reserve
a higher product is a higher LAT reserve.
-/

set_option autoImplicit false
set_option relaxedAutoImplicit false

namespace Latebra.State

open Foundation Crypto Latebra.Types Contracts

variable {C : CryptoSuite}

/-- A trade that a curve filled. -/
structure CurveFill where
  trader : Bytes32
  isBuy : Bool
  amount : UInt64
  minerFee : UInt64
  fill : Fill
deriving DecidableEq

namespace CurveFill

/-- The LAT that the trade brought to the curve, net of the fee. -/
def paidIn (trade : CurveFill) : ℕ :=
  if trade.isBuy then trade.amount.toNat - trade.fill.fee.toNat else 0

/-- The LAT that the trade took from the curve, the creator's fee included. -/
def paidOut (trade : CurveFill) : ℕ :=
  if trade.isBuy then 0 else trade.fill.out.toNat + trade.fill.fee.toNat

/-- The tokens that the trade bought. -/
def bought (trade : CurveFill) : ℕ := if trade.isBuy then trade.fill.out.toNat else 0

/-- The tokens that the trade sold. -/
def sold (trade : CurveFill) : ℕ := if trade.isBuy then 0 else trade.amount.toNat

/-- The LAT that the trader was charged. -/
def charged (trade : CurveFill) : ℕ := if trade.isBuy then trade.amount.toNat else 0

/-- The LAT that the trader was paid. -/
def payout (trade : CurveFill) : ℕ := if trade.isBuy then 0 else trade.fill.out.toNat

/-- The sum of an amount over the trades of a run. -/
def sumOf (f : CurveFill → ℕ) (trades : List CurveFill) : ℕ := (trades.map f).sum

theorem sumOf_append (f : CurveFill → ℕ) (trades later : List CurveFill) :
    sumOf f (trades ++ later) = sumOf f trades + sumOf f later := by
  rw [sumOf, List.map_append, List.sum_append]
  rfl

@[simp]
theorem sumOf_nil (f : CurveFill → ℕ) : sumOf f [] = 0 := rfl

@[simp]
theorem sumOf_singleton (f : CurveFill → ℕ) (trade : CurveFill) : sumOf f [trade] = f trade := by
  simp [sumOf]

theorem sumOf_mono {f g : CurveFill → ℕ} (hle : ∀ trade, f trade ≤ g trade)
    (trades : List CurveFill) : sumOf f trades ≤ sumOf g trades :=
  List.sum_le_sum fun trade _ ↦ hle trade

theorem payout_le (trade : CurveFill) : trade.payout ≤ trade.paidOut := by
  unfold payout paidOut
  split
  · exact le_rfl
  · exact Nat.le_add_right _ _

theorem paidIn_le (trade : CurveFill) : trade.paidIn ≤ trade.charged := by
  unfold paidIn charged
  split
  · exact Nat.sub_le _ _
  · exact le_rfl

end CurveFill

namespace LedgerState

variable {s s' : LedgerState C}

/-- The curve that prices the next trade of a token: the one that is open, or a fresh one. -/
def priced (s : LedgerState C) (token : UInt32) : Curve :=
  ((s.curve token).getD (CurvePool.genesis token)).math

/-- What a trade on the curve of a token is filled with. -/
def quote (s : LedgerState C) (token : UInt32) : Transaction C → Option CurveFill
  | .curveTrade token' trader isBuy amount _ fee _ _ =>
    if token' = token then
      let filled := if isBuy then (s.priced token).applyBuy amount
        else (s.priced token).applySell amount (((s.account trader).getD Account.default).pub token)
      filled.join.map fun answer ↦ ⟨trader, isBuy, amount, fee, answer.1⟩
    else none
  | _ => none

/-- What a trade moves in the account of its trader, who is also paid the fee when he created the
token. -/
def Settles (s s' : LedgerState C) (token : UInt32) (creator : Bytes32)
    (trade : CurveFill) : Prop :=
  ∃ acct acct', s.account trade.trader = some acct ∧ s'.account trade.trader = some acct' ∧
    if trade.isBuy then
      acct'.pub token = saturatingAdd (acct.pub token) trade.fill.out ∧
        trade.amount.toNat + trade.minerFee.toNat ≤ (acct.pub LAT_TOKEN).toNat ∧
        acct'.pub LAT_TOKEN = saturatingAdd (acct.pub LAT_TOKEN - (trade.amount + trade.minerFee))
          (if creator = trade.trader then trade.fill.fee else 0)
    else
      (acct'.pub token).toNat + trade.amount.toNat = (acct.pub token).toNat ∧
        trade.minerFee ≤ acct.pub LAT_TOKEN ∧
        acct'.pub LAT_TOKEN =
          saturatingAdd (saturatingAdd (acct.pub LAT_TOKEN - trade.minerFee) trade.fill.out)
            (if creator = trade.trader then trade.fill.fee else 0)

theorem credited_curve (s : LedgerState C) (id : Bytes32) (token : UInt32) (amount : UInt64) :
    (s.credited id token amount).curve = s.curve := by
  unfold credited
  split <;> rfl

/-- The account of a trader after the creator of the token was paid. -/
theorem credited_account (s : LedgerState C) {id trader : Bytes32} {acct : Account C}
    (hacct : s.account trader = some acct) (token : UInt32) (amount : UInt64) :
    (s.credited id token amount).account trader =
      some (if id = trader then acct.setPublic token (saturatingAdd (acct.pub token) amount)
        else acct) ∨
    amount = 0 ∧ (s.credited id token amount).account trader = some acct := by
  unfold credited
  split
  · next hzero => exact .inr ⟨hzero, hacct⟩
  · refine .inl ?_
    by_cases hid : id = trader
    · subst hid
      simp [accountOr, hacct]
    · simp [hid, Ne.symm hid, hacct]

/-- The public balances of the trader after the creator of the token was paid in LAT. -/
theorem credited_pub (s : LedgerState C) (creator : Bytes32) {trader : Bytes32} {acct : Account C}
    (hacct : s.account trader = some acct) (fee : UInt64) :
    ∃ acct', (s.credited creator LAT_TOKEN fee).account trader = some acct' ∧
      acct'.pub LAT_TOKEN = saturatingAdd (acct.pub LAT_TOKEN) (if creator = trader then fee else 0) ∧
      ∀ token, token ≠ LAT_TOKEN → acct'.pub token = acct.pub token := by
  rcases s.credited_account hacct LAT_TOKEN fee with hpaid | ⟨rfl, hsame⟩
  · refine ⟨_, hpaid, ?_, ?_⟩
    · split
      · rw [Account.pub_setPublic, if_pos rfl]
      · rw [saturatingAdd_zero]
    · intro token htoken
      split
      · rw [Account.pub_setPublic, if_neg htoken]
      · rfl
  · refine ⟨acct, hsame, ?_, fun _ _ ↦ rfl⟩
    rw [ite_self, saturatingAdd_zero]

/-- What a successful trade does: the curve fills it, and its trader and the creator of the token
are settled. -/
def Fills (s s' : LedgerState C) (token : UInt32) (trade : CurveFill) : Prop :=
  ∃ tokenMeta after, s.token token = some tokenMeta ∧
    s'.curve = Function.update s.curve token (some (CurvePool.fromMath token after)) ∧
    (s.priced token).graduated = false ∧ s.Settles s' token tokenMeta.creator trade ∧
    if trade.isBuy then (s.priced token).Bought after trade.amount.toNat trade.fill
    else s.curve token ≠ none ∧
      trade.fill.out.toNat + trade.fill.fee.toNat ≤ (s.priced token).realLat.toNat ∧
      (s.priced token).Sold after trade.amount.toNat trade.fill

theorem curveBuy_fills {token : UInt32} {trader : Bytes32} {tokenMeta : TokenMeta}
    {acct : Account C} {amount minOut fee : UInt64} (htoken : token ≠ LAT_TOKEN)
    (hmeta : s.token token = some tokenMeta) (hacct : s.account trader = some acct)
    (hrun : Runs (curveBuy token trader tokenMeta.creator acct (s.priced token) amount minOut fee)
      s () s') :
    ∃ fill, (s.priced token).applyBuy amount = some (some fill) ∧
      s.Fills s' token ⟨trader, true, amount, fee, fill.1⟩ := by
  obtain ⟨fill, after, latDebit, paid, next, hbuy, hdebit, hcovered, rfl, rfl⟩ :=
    curveBuy_outcome hrun
  obtain ⟨hopen, hbought⟩ := Curve.applyBuy_bought hbuy
  obtain ⟨acct', hacct', hlat, hothers⟩ := credited_pub (s.setAccount trader
    (((acct.setPublic LAT_TOKEN (acct.pub LAT_TOKEN - latDebit)).setPublic token
      (saturatingAdd (acct.pub token) fill.out)).withNonce next))
    tokenMeta.creator (Function.update_self ..) fill.fee
  have hsum := checkedAdd_eq_some.mp hdebit
  have hword : amount + fee = latDebit := by
    rw [← UInt64.toNat_inj, UInt64.toNat_add, hsum]
    exact Nat.mod_eq_of_lt (hsum ▸ latDebit.toNat_lt)
  refine ⟨⟨fill, after⟩, hbuy, tokenMeta, after, hmeta, ?_, hopen, ⟨acct, acct', hacct, ?_, ?_⟩,
    hbought⟩
  · change Function.update (credited _ _ _ _).curve _ _ = _
    rw [credited_curve]
    rfl
  · simpa [htoken] using hacct'
  · refine ⟨?_, ?_, ?_⟩
    · simpa [htoken] using hothers token htoken
    · rw [← hsum]
      exact UInt64.le_iff_toNat_le.mp hcovered
    · simpa [htoken.symm, hword] using hlat

theorem curveSell_fills {token : UInt32} {trader : Bytes32} {tokenMeta : TokenMeta}
    {acct : Account C} {amount minOut fee : UInt64} (htoken : token ≠ LAT_TOKEN)
    (hmeta : s.token token = some tokenMeta) (hacct : s.account trader = some acct)
    (hcurve : s.curve token ≠ none)
    (hrun : Runs (curveSell token trader tokenMeta.creator acct (s.priced token) amount minOut fee)
      s () s') :
    ∃ fill, (s.priced token).applySell amount (acct.pub token) = some (some fill) ∧
      s.Fills s' token ⟨trader, false, amount, fee, fill.1⟩ := by
  obtain ⟨fill, after, gross, paid, sold, next, hsell, hgross, hsolvent, hheld, hcovered, rfl, rfl,
    rfl⟩ := curveSell_outcome hrun
  have hpays : fill.out.toNat + fill.fee.toNat ≤ (s.priced token).realLat.toNat := by
    rw [← checkedAdd_eq_some.mp hgross]
    exact UInt64.le_iff_toNat_le.mp hsolvent
  obtain ⟨hopen, hamount, hsold⟩ := Curve.applySell_sold hsell hpays
  obtain ⟨acct', hacct', hlat, hothers⟩ := credited_pub (s.setAccount trader
    ((((acct.setPublic LAT_TOKEN (acct.pub LAT_TOKEN - fee)).setPublic token
      (acct.pub token - amount)).setPublic LAT_TOKEN
        (saturatingAdd (acct.pub LAT_TOKEN - fee) fill.out)).withNonce next))
    tokenMeta.creator (Function.update_self ..) fill.fee
  refine ⟨⟨fill, after⟩, hsell, tokenMeta, after, hmeta, ?_, hopen, ⟨acct, acct', hacct, ?_, ?_⟩,
    hcurve, hpays, hsold⟩
  · change Function.update (credited _ _ _ _).curve _ _ = _
    rw [credited_curve]
    rfl
  · simpa [htoken.symm] using hacct'
  · refine ⟨?_, hcovered, ?_⟩
    · rw [hothers token htoken]
      simp only [Account.pub_withNonce, Account.pub_setPublic, if_neg htoken, if_true]
      rw [toNat_sub_of_toNat_le hamount]
      exact Nat.sub_add_cancel hamount
    · simpa using hlat

/-- A successful transaction either fills a trade on the curve of the token or leaves it alone. -/
theorem applyInner_curve {tx : Transaction C} {height : UInt64} (token : UInt32)
    (hrun : Runs (applyInner tx height none) s () s') :
    (s.quote token tx = none ∧ s'.curve token = s.curve token) ∨
      ∃ trade, s.quote token tx = some trade ∧ s.Fills s' token trade := by
  cases tx with
  | curveTrade token' trader isBuy amount minOut fee nonce sig =>
    obtain ⟨tokenMeta, acct, c, -, htoken, hmeta, hacct, -, hcurve, -, htrade⟩ :=
      applyCurveTrade_outcome hrun
    have hmath : s.priced token' = c.math := by
      rcases hcurve with hopen | ⟨hnone, -, rfl⟩ <;> simp [priced, *]
    rw [← hmath] at htrade
    have hfills : ∃ trade, s.quote token' (.curveTrade token' trader isBuy amount minOut fee nonce
        sig) = some trade ∧ s.Fills s' token' trade := by
      rcases htrade with ⟨rfl, hbuy⟩ | ⟨rfl, hsell⟩
      · obtain ⟨fill, hfill, hfills⟩ := curveBuy_fills htoken hmeta hacct hbuy
        exact ⟨_, by simp [quote, hfill], hfills⟩
      · have hopened : s.curve token' ≠ none := by
          rcases hcurve with hopen | ⟨-, hbuy, -⟩
          · simp [hopen]
          · exact absurd hbuy Bool.false_ne_true
        obtain ⟨fill, hfill, hfills⟩ := curveSell_fills htoken hmeta hacct hopened hsell
        exact ⟨_, by simp [quote, hacct, hfill], hfills⟩
    obtain ⟨trade, hquote, hfill⟩ := hfills
    by_cases hsame : token' = token
    · subst hsame
      exact .inr ⟨trade, hquote, hfill⟩
    · obtain ⟨_, after, -, hupdated, -⟩ := hfill
      refine .inl ⟨if_neg hsame, ?_⟩
      rw [hupdated, Function.update_of_ne (Ne.symm hsame)]
  | _ =>
    have hslice := hrun.slice_eq (show ¬ writesOf _ .curve by simp [writesOf])
    exact .inl ⟨rfl, congrFun (congrArg LedgerState.curve hslice :) token⟩

theorem performs_curve_eq {op : LedgerOp C} (hop : ∀ tx height, op ≠ .applyAt tx height)
    (hperforms : Ledger.Performs s s' op) : s'.curve = s.curve := by
  cases op with
  | applyAt tx height => exact absurd rfl (hop tx height)
  | register id =>
    obtain ⟨-, rfl⟩ := register_outcome hperforms
    rfl
  | creditPublic id token amount =>
    rw [creditPublic_outcome hperforms, credited_curve]
  | creditGenesis id amount =>
    obtain ⟨_, -, rfl⟩ := creditGenesis_outcome hperforms
    rfl
  | rewardMiner miner token amount =>
    rw [rewardMiner_outcome hperforms, rewarded]
    split <;> rfl
  | flush | clone =>
    obtain rfl := hperforms
    rfl
  | stateRoot =>
    obtain rfl := hperforms
    rfl

/-- The product of the reserves that price the next trade. -/
def curveProduct (s : LedgerState C) (token : UInt32) : ℕ :=
  (s.priced token).vlat.toNat * (s.priced token).vtok.toNat

variable {token : UInt32} {paidIn paidOut : ℕ} {trade : CurveFill}

theorem priced_of_update {c : Curve}
    (hcurve : s'.curve = Function.update s.curve token (some (CurvePool.fromMath token c))) :
    s'.priced token = c := by
  rw [priced, hcurve, Function.update_self]
  rfl

/-- What one trade preserves: the curve stays solvent, its product does not fall, and tokens leave
or enter it as they are bought and sold. -/
theorem Fills.accounted (hfills : s.Fills s' token trade)
    (hcurve : (s.priced token).Solvent paidIn paidOut) :
    (s'.priced token).Solvent (paidIn + trade.paidIn) (paidOut + trade.paidOut) ∧
      s.curveProduct token ≤ s'.curveProduct token ∧
      (s'.priced token).vtok.toNat + trade.bought = (s.priced token).vtok.toNat + trade.sold := by
  obtain ⟨tokenMeta, after, -, hafter, hopen, -, hprice⟩ := hfills
  unfold curveProduct CurveFill.paidIn CurveFill.paidOut CurveFill.bought CurveFill.sold
  rw [priced_of_update hafter]
  by_cases hbuy : trade.isBuy = true
  · simp only [if_pos hbuy] at hprice ⊢
    exact ⟨hcurve.bought hprice, hprice.mul_le hcurve.vlat_pos hcurve.vtok_pos, hprice.vtok_eq⟩
  · simp only [if_neg hbuy] at hprice ⊢
    obtain ⟨-, -, hsold⟩ := hprice
    exact ⟨hcurve.sold hsold hopen, hsold.mul_le hcurve.vlat_pos hcurve.vtok_pos, hsold.vtok_eq⟩

end LedgerState

namespace Ledger

variable {L L₁ L₂ M M' : Ledger C} {token : UInt32} {trades later : List CurveFill}

/-- The trade on the curve of a token that an operation fills. -/
def fillOf (L : Ledger C) (token : UInt32) : LedgerOp C → Option CurveFill
  | .applyAt tx height =>
    if (L.applyAt tx height).1 = .ok () then L.view.quote token tx else none
  | _ => none

theorem fillOf_of_quote {tx : Transaction C} {height : UInt64}
    (hquote : L.view.quote token tx = none) : L.fillOf token (.applyAt tx height) = none := by
  rw [fillOf, hquote, ite_self]

/-- A run from `start`, with the trades that were filled on the curve of a token in it. -/
inductive CurveRun (token : UInt32) (start : Ledger C) : List CurveFill → Ledger C → Prop where
  | refl : CurveRun token start [] start
  | step {trades : List CurveFill} {M M' : Ledger C} (op : LedgerOp C) :
    CurveRun token start trades M → M.step op = some M' →
      CurveRun token start (trades ++ (M.fillOf token op).toList) M'

theorem CurveRun.reaches (hrun : CurveRun token L₁ trades L₂) :
    ReachesBy (fun _ _ ↦ True) L₁ L₂ := by
  induction hrun with
  | refl => exact .refl
  | step op _ hstep ih => exact ih.step op trivial hstep

/-- Every run fills some list of trades. -/
theorem ReachesBy.curveRun {ok : Ledger C → LedgerOp C → Prop} (hrun : ReachesBy ok L₁ L₂)
    (token : UInt32) : ∃ trades, CurveRun token L₁ trades L₂ := by
  induction hrun with
  | refl => exact ⟨[], .refl⟩
  | step op _ _ hstep ih =>
    obtain ⟨trades, hbefore⟩ := ih
    exact ⟨_, hbefore.step op hstep⟩

/-- One operation fills a trade on the curve, or leaves the curve alone. -/
theorem Reachable.step_curve (hM : M.Reachable) {op : LedgerOp C} (hstep : M.step op = some M')
    (token : UInt32) :
    (M.fillOf token op = none ∧ M'.view.curve token = M.view.curve token) ∨
      ∃ trade, M.fillOf token op = some trade ∧ M.view.Fills M'.view token trade := by
  obtain ⟨hformed, hobjects⟩ := hM.view
  by_cases happly : ∃ tx height, op = .applyAt tx height
  · obtain ⟨tx, height, rfl⟩ := happly
    rcases houtcome : M.applyAt tx height with ⟨_ | e | _, N⟩
    · rw [Ledger.step, houtcome] at hstep
      obtain rfl := Option.some.inj hstep
      obtain ⟨-, -, s', hrun, hview⟩ := hM.runs_of_ok houtcome
      have hfill : M.fillOf token (.applyAt tx height) = M.view.quote token tx := by
        rw [fillOf, houtcome, if_pos rfl]
      rw [hfill, hview]
      have hcurve := LedgerState.applyInner_curve token hrun
      exact hcurve
    · rw [Ledger.step, houtcome] at hstep
      obtain rfl := Option.some.inj hstep
      obtain ⟨-, hclone⟩ := hformed.clone_applyAt_err hobjects.sharesBacked houtcome
      refine .inl ⟨?_, ?_⟩
      · rw [fillOf, houtcome, if_neg (by simp)]
      · rw [view_of_clone_eq hclone]
    · rw [Ledger.step, houtcome] at hstep
      exact absurd hstep (by simp [settled])
  · push Not at happly
    refine .inl ⟨?_, ?_⟩
    · cases op with
      | applyAt tx height => exact absurd rfl (happly tx height)
      | _ => rfl
    · obtain ⟨-, hperforms | hsame⟩ := hformed.performs hobjects.sharesBacked hstep
      · rw [LedgerState.performs_curve_eq happly hperforms]
      · rw [hsame]

/-- The run lemma: from a solvent curve on, a run leaves a solvent curve that holds what the trades
brought in. Its product does not fall, the tokens outside it are those that were bought and not sold
back, and a curve stays open. -/
theorem CurveRun.accounted (hrun : CurveRun token L₁ trades L₂) (hL₁ : L₁.Reachable)
    {paidIn paidOut : ℕ} (hcurve : (L₁.view.priced token).Solvent paidIn paidOut) :
    (L₂.view.priced token).Solvent (paidIn + CurveFill.sumOf CurveFill.paidIn trades)
        (paidOut + CurveFill.sumOf CurveFill.paidOut trades) ∧
      L₁.view.curveProduct token ≤ L₂.view.curveProduct token ∧
      (L₂.view.priced token).vtok.toNat + CurveFill.sumOf CurveFill.bought trades =
        (L₁.view.priced token).vtok.toNat + CurveFill.sumOf CurveFill.sold trades ∧
      (L₂.view.curve token = none → L₁.view.curve token = none ∧ trades = []) := by
  induction hrun with
  | refl => exact ⟨hcurve, le_rfl, rfl, fun hnone ↦ ⟨hnone, rfl⟩⟩
  | @step trades M M' op hbefore hstep ih =>
    obtain ⟨hsolvent, hproduct, htokens, hnone⟩ := ih
    have hM : M.Reachable := hbefore.reaches.reachable hL₁
    rcases hM.step_curve hstep token with ⟨hfill, hsame⟩ | ⟨trade, hfill, hfills⟩
    · have hpriced : M'.view.priced token = M.view.priced token := by
        rw [LedgerState.priced, hsame]
        rfl
      have hsameProduct : M'.view.curveProduct token = M.view.curveProduct token := by
        rw [LedgerState.curveProduct, hpriced]
        rfl
      rw [hfill, Option.toList_none, List.append_nil, hpriced, hsameProduct, hsame]
      exact ⟨hsolvent, hproduct, htokens, hnone⟩
    · obtain ⟨hsolvent', hproduct', htokens'⟩ := hfills.accounted hsolvent
      rw [hfill, Option.toList_some]
      simp only [CurveFill.sumOf_append, CurveFill.sumOf_singleton]
      refine ⟨by simpa only [Nat.add_assoc] using hsolvent', hproduct.trans hproduct', ?_, ?_⟩
      · omega
      · intro hclosed
        obtain ⟨_, after, -, hafter, -⟩ := hfills
        rw [hafter, Function.update_self] at hclosed
        exact absurd hclosed (Option.some_ne_none _)

/-- A run fills no trade on a graduated curve. -/
theorem CurveRun.graduated (hrun : CurveRun token L₁ trades L₂) (hL₁ : L₁.Reachable) {c : CurvePool}
    (hopen : L₁.view.curve token = some c) (hgraduated : c.graduated = true) :
    L₂.view.curve token = some c ∧ trades = [] := by
  induction hrun with
  | refl => exact ⟨hopen, rfl⟩
  | @step trades M M' op hbefore hstep ih =>
    obtain ⟨hsame, rfl⟩ := ih
    rcases (hbefore.reaches.reachable hL₁).step_curve hstep token with ⟨hfill, hkept⟩ |
      ⟨trade, -, _, after, -, -, hclosed, -⟩
    · rw [hfill]
      exact ⟨hkept.trans hsame, rfl⟩
    · have hpriced : (M.view.priced token).graduated = c.graduated := by
        rw [LedgerState.priced, hsame]
        rfl
      rw [hpriced, hgraduated] at hclosed
      exact absurd hclosed (by decide)

/-- Trades that sell back what they bought are not paid more than they were charged. -/
theorem CurveRun.payout_le_charged (hrun : CurveRun token L₁ trades L₂) (hL₁ : L₁.Reachable)
    {paidIn paidOut : ℕ} (hcurve : (L₁.view.priced token).Solvent paidIn paidOut)
    (hback : CurveFill.sumOf CurveFill.sold trades = CurveFill.sumOf CurveFill.bought trades) :
    CurveFill.sumOf CurveFill.payout trades ≤ CurveFill.sumOf CurveFill.charged trades := by
  obtain ⟨hafter, hproduct, htokens, -⟩ := hrun.accounted hL₁ hcurve
  have hvtok : (L₂.view.priced token).vtok.toNat = (L₁.view.priced token).vtok.toNat := by omega
  have hvlat : (L₁.view.priced token).vlat.toNat ≤ (L₂.view.priced token).vlat.toNat := by
    unfold LedgerState.curveProduct at hproduct
    rw [hvtok] at hproduct
    exact Nat.le_of_mul_le_mul_right hproduct hcurve.vtok_pos
  -- The LAT reserve is the LAT that the curve holds, which is what came in and did not go out.
  have hheld : CurveFill.sumOf CurveFill.paidOut trades ≤ CurveFill.sumOf CurveFill.paidIn trades := by
    have hbefore := hcurve.vlat_eq
    have hbalance := hcurve.balance
    have hvlat' := hafter.vlat_eq
    have hbalance' := hafter.balance
    omega
  calc CurveFill.sumOf CurveFill.payout trades
      ≤ CurveFill.sumOf CurveFill.paidOut trades := CurveFill.sumOf_mono CurveFill.payout_le trades
    _ ≤ CurveFill.sumOf CurveFill.paidIn trades := hheld
    _ ≤ CurveFill.sumOf CurveFill.charged trades := CurveFill.sumOf_mono CurveFill.paidIn_le trades

theorem CurveRun.reachable (hrun : CurveRun token new trades L) : L.Reachable :=
  hrun.reaches.reachable .refl

/-- The curve that prices the next trade is solvent against the trades of the run. -/
theorem CurveRun.solvent (hrun : CurveRun token new trades L) :
    (L.view.priced token).Solvent (CurveFill.sumOf CurveFill.paidIn trades)
        (CurveFill.sumOf CurveFill.paidOut trades) ∧
      (L.view.curve token = none → trades = []) := by
  have hfresh : ((new : Ledger C).view.priced token).Solvent 0 0 := by
    rw [view_new]
    exact Curve.solvent_default
  obtain ⟨hsolvent, -, -, hnone⟩ := hrun.accounted .refl hfresh
  rw [Nat.zero_add, Nat.zero_add] at hsolvent
  exact ⟨hsolvent, fun hclosed ↦ (hnone hclosed).2⟩

/-- The curve of a token over every run, with the trades on it in between any other operations. The
stored curve is solvent against the trades that were filled: it prices the LAT it holds on top of
the initial reserve, it holds what came in net of fees less what went out, and the product of its
reserves is at least the initial one. From then on the product does not fall, a graduated curve
stays as it is, and trades that sell back exactly what they bought are paid no more than they were
charged. Every trade moves in the trader's account what it is filled with, and a payout never
exceeds the LAT of the curve. A trade on which a reserve overflows is a panic and no step of a
run. -/
theorem CurveRun.curve_accounted (hrun : CurveRun token new trades L) :
    (∀ c, L.view.curve token = some c → c.math.Solvent (CurveFill.sumOf CurveFill.paidIn trades)
      (CurveFill.sumOf CurveFill.paidOut trades)) ∧
    (L.view.curve token = none → trades = []) ∧
    (∀ later L', CurveRun token L later L' →
      L.view.curveProduct token ≤ L'.view.curveProduct token ∧
      (∀ c, L.view.curve token = some c → ∃ c', L'.view.curve token = some c' ∧
        (c.graduated = true → c' = c ∧ later = [])) ∧
      (CurveFill.sumOf CurveFill.sold later = CurveFill.sumOf CurveFill.bought later →
        CurveFill.sumOf CurveFill.payout later ≤ CurveFill.sumOf CurveFill.charged later)) ∧
    ∀ op L' trade, L.step op = some L' → L.fillOf token op = some trade →
      L.view.Fills L'.view token trade := by
  have hL := hrun.reachable
  obtain ⟨hsolvent, hnone⟩ := hrun.solvent
  refine ⟨?_, hnone, ?_, ?_⟩
  · intro c hopen
    rw [LedgerState.priced, hopen] at hsolvent
    exact hsolvent
  · intro later L' hlater
    obtain ⟨-, hproduct, -, hclosed⟩ := hlater.accounted hL hsolvent
    refine ⟨hproduct, ?_, hlater.payout_le_charged hL hsolvent⟩
    intro c hopen
    cases hafter : L'.view.curve token with
    | none =>
      rw [(hclosed hafter).1] at hopen
      exact absurd hopen (Option.some_ne_none c).symm
    | some c' =>
      refine ⟨c', rfl, fun hgraduated ↦ ?_⟩
      obtain ⟨hsame, hlast⟩ := hlater.graduated hL hopen hgraduated
      rw [hafter] at hsame
      exact ⟨Option.some.inj hsame, hlast⟩
  · intro op L' trade hstep hfill
    rcases hL.step_curve hstep token with ⟨hquiet, -⟩ | ⟨trade', hfill', hfills⟩
    · rw [hquiet] at hfill
      exact absurd hfill (Option.some_ne_none trade).symm
    · obtain rfl := Option.some.inj (hfill'.symm.trans hfill)
      exact hfills

/-! ### A round trip -/

/-- A token that was created without a supply of its own. -/
def launched : Ledger freeSuite :=
  (payerFunded.applyAt (.createToken ['A', 'B', 'C'] 5 0 5) 1).2

def curveBought : Ledger freeSuite :=
  (launched.applyAt (.curveTrade 1 5 true 1000 0 1000 0 5) 2).2

def curveSold : Ledger freeSuite :=
  (curveBought.applyAt (.curveTrade 1 5 false 329891 0 1000 1 5) 3).2

def roundTrip : List CurveFill :=
  [⟨5, true, 1000, 1000, ⟨329891, 10⟩⟩, ⟨5, false, 329891, 1000, ⟨980, 9⟩⟩]

theorem roundTrip_facts :
    (new.register 5 : Outcome LedgerError Unit × Ledger freeSuite).1 = .ok () ∧
    (registered.creditPublic 5 LAT_TOKEN 100000).1 = .ok () ∧
    (payerFunded.applyAt (.createToken ['A', 'B', 'C'] 5 0 5) 1).1 = .ok () ∧
    (launched.applyAt (.curveTrade 1 5 true 1000 0 1000 0 5) 2).1 = .ok () ∧
    (curveBought.applyAt (.curveTrade 1 5 false 329891 0 1000 1 5) 3).1 = .ok () ∧
    launched.fillOf 1 (.applyAt (.curveTrade 1 5 true 1000 0 1000 0 5) 2) =
      some ⟨5, true, 1000, 1000, ⟨329891, 10⟩⟩ ∧
    curveBought.fillOf 1 (.applyAt (.curveTrade 1 5 false 329891 0 1000 1 5) 3) =
      some ⟨5, false, 329891, 1000, ⟨980, 9⟩⟩ ∧
    curveSold.view.curve 1 = some ⟨1, 3000001, 1000000000, 1, false⟩ := by
  decide +kernel

theorem curveRun_roundTrip : CurveRun 1 (new : Ledger freeSuite) roundTrip curveSold := by
  obtain ⟨hregister, hcredit, hcreate, hbuy, hsell, hbought, hsold, -⟩ := roundTrip_facts
  have hregistered : (new : Ledger freeSuite).step (.register 5) = some registered :=
    step_register hregister
  have hpaid : registered.step (.creditPublic 5 LAT_TOKEN 100000) = some payerFunded :=
    step_creditPublic hcredit
  have hfunded : CurveRun 1 (new : Ledger freeSuite) [] payerFunded :=
    (CurveRun.refl.step (.register 5) hregistered).step (.creditPublic _ _ _) hpaid
  have hquiet : payerFunded.fillOf 1 (.applyAt (.createToken ['A', 'B', 'C'] 5 0 5) 1) = none :=
    fillOf_of_quote rfl
  have hcreated : payerFunded.step (.applyAt (.createToken ['A', 'B', 'C'] 5 0 5) 1) =
      some launched := step_applyAt hcreate
  have hlaunched := hfunded.step _ hcreated
  rw [hquiet] at hlaunched
  have hbuys : launched.step (.applyAt (.curveTrade 1 5 true 1000 0 1000 0 5) 2) =
      some curveBought := step_applyAt hbuy
  have hfirst := hlaunched.step _ hbuys
  rw [hbought] at hfirst
  have hsells : curveBought.step (.applyAt (.curveTrade 1 5 false 329891 0 1000 1 5) 3) =
      some curveSold := step_applyAt hsell
  have hboth := hfirst.step _ hsells
  rw [hsold] at hboth
  exact hboth

/-- The LAT that rounding leaves in the curve. -/
theorem curve_accounted_roundTrip :
    (⟨3000001, 1000000000, 1, false⟩ : Curve).Solvent (CurveFill.sumOf CurveFill.paidIn roundTrip)
      (CurveFill.sumOf CurveFill.paidOut roundTrip) := by
  obtain ⟨-, -, -, -, -, -, -, hcurve⟩ := roundTrip_facts
  exact (CurveRun.curve_accounted curveRun_roundTrip).1 _ hcurve

end Ledger

end Latebra.State
