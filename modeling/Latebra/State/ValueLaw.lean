import Latebra.State.StakingRuns
import Latebra.State.ValueArms

/-!
# Value is conserved

A transaction takes its fee out of the ledger, and it issues value only where the protocol says so:
the supply of a token that it creates, the tokens that it buys on a curve less those that it sells, and
the part of a penalty that nobody is paid, which it burns (`LedgerState.issuedBy`). Next to the credits
of the node, these are all the sources of value. `value_conserved` states it for whole runs: what a
ledger is worth is what was issued, whatever moved between public and confidential balances, stakes,
pools, curves and escrows.
-/

set_option autoImplicit false
set_option relaxedAutoImplicit false

namespace Latebra.State

open Foundation Crypto Latebra.Types Contracts

variable {C : CryptoSuite}

/-! ### Fees and issues -/

/-- The fee that a transaction pays, and the token that it pays it in. -/
def paidFee : Transaction C → UInt32 × UInt64
  | .solventTransfer token xfer => (token, xfer.fee)
  | .unshield token _ _ xfer _ => (token, xfer.fee)
  | .anonTransfer token xfer => (token, xfer.fee)
  | .publicTransfer token _ _ _ fee _ _ => (token, fee)
  | .shield token _ _ _ fee _ _ => (token, fee)
  | .shieldStealth token _ _ _ _ fee _ _ => (token, fee)
  | .addLiquidity _ _ _ _ fee _ _ => (LAT_TOKEN, fee)
  | .removeLiquidity _ _ _ fee _ _ => (LAT_TOKEN, fee)
  | .swap _ _ _ _ _ fee _ _ => (LAT_TOKEN, fee)
  | .curveTrade _ _ _ _ _ fee _ _ => (LAT_TOKEN, fee)
  | .htlcLock _ _ _ _ _ _ fee _ _ => (LAT_TOKEN, fee)
  | .createToken _ _ _ _ => (LAT_TOKEN, FLAT_TX_FEE)
  | .deployContract _ _ _ => (LAT_TOKEN, FLAT_TX_FEE)
  | .callContract _ _ _ _ _ => (LAT_TOKEN, FLAT_TX_FEE)
  | _ => (LAT_TOKEN, 0)

/-- What a transaction pays of a token as its fee. -/
def feeIn (tx : Transaction C) (token : UInt32) : ℤ :=
  if token = (paidFee tx).1 then (paidFee tx).2.toNat else 0

namespace LedgerState

variable {secret : Bytes32 → ℤ} {token : UInt32} {s s' : LedgerState C}

/-- What a transaction issues of a token. -/
def issuedBy (s : LedgerState C) (tx : Transaction C) (token : UInt32) : ℤ :=
  match tx with
  | .createToken _ _ supply _ => if token = s.nextTokenId then (supply.toNat : ℤ) else 0
  | .curveTrade key _ _ _ _ _ _ _ =>
    if token = key then (s.quote key tx).elim 0 fun trade ↦ (trade.bought : ℤ) - trade.sold else 0
  | .slashEvidence id beneficiary _ _ _ _ _ =>
    if token = LAT_TOKEN then (s.slashingReward id beneficiary : ℤ) - s.penalty id else 0
  | _ => 0

/-- Native LAT has no pool. -/
theorem pool_lat_applyInner {tx : Transaction C} {height : UInt64} (hshares : s.SharesBacked)
    (hnone : s.pool LAT_TOKEN = none) (hrun : Runs (applyInner tx height none) s () s') :
    s'.pool LAT_TOKEN = none := by
  have hkept : ∀ {t : LedgerState C} {after : Pool}, t.pool = s.pool → after.token ≠ LAT_TOKEN →
      (t.setPool after).pool LAT_TOKEN = none := by
    intro t after hsame htoken
    rw [setPool_pool, hsame, Function.update_of_ne htoken.symm, hnone]
  have hpooled : ∀ {key : UInt32} {p : Pool}, s.pool key = some p → p.token ≠ LAT_TOKEN := by
    intro key p hpool hlat
    rw [hshares.keyed key p hpool] at hlat
    rw [hlat, hnone] at hpool
    exact Option.some_ne_none _ hpool.symm
  cases tx with
  | addLiquidity key provider latAmount tokAmount fee nonce sig =>
    obtain ⟨_, _, after, _, _, _, _, _, -, hkey, -, -, hplanned, -, -, -, -, -, rfl⟩ :=
      applyAddLiquidity_outcome hrun
    refine hkept rfl ?_
    rwa [token_of_deposit (hshares.keyed key) hplanned]
  | removeLiquidity key provider lpAmount fee nonce sig =>
    obtain ⟨_, _, _, p, after, _, _, _, -, -, -, hpool, -, -, -, htoken, -, -, -, -, rfl⟩ :=
      applyRemoveLiquidity_outcome hrun
    refine hkept rfl ?_
    rw [htoken]
    exact hpooled hpool
  | swap key trader latIn amountIn minOut fee nonce sig =>
    cases latIn with
    | true =>
      obtain ⟨_, _, p, _, _, _, _, _, -, -, -, hpool, -, -, -, -, -, rfl⟩ :=
        applySwap_outcome_latIn hrun
      refine hkept rfl ?_
      show p.token ≠ LAT_TOKEN
      exact hpooled hpool
    | false =>
      obtain ⟨_, _, _, p, _, _, _, _, _, -, -, -, hpool, -, -, -, -, -, -, rfl⟩ :=
        applySwap_outcome_tokIn hrun
      refine hkept rfl ?_
      show p.token ≠ LAT_TOKEN
      exact hpooled hpool
  | _ => rwa [Runs.pool_eq hrun (by simp [writesOf])]

theorem Reachable.pool_lat (hs : s.Reachable) : s.pool LAT_TOKEN = none := by
  induction hs with
  | new => rfl
  | @step s s' hbefore hstep ih =>
    cases hstep with
    | register id hrun =>
      obtain ⟨-, rfl⟩ := register_outcome hrun
      exact ih
    | creditPublic id token amount hrun =>
      rw [creditPublic_outcome hrun, credited]
      split <;> exact ih
    | rewardMiner miner token amount hrun =>
      rw [rewardMiner_outcome hrun, rewarded]
      split <;> exact ih
    | creditGenesis id amount hrun =>
      obtain ⟨_, -, rfl⟩ := creditGenesis_outcome hrun
      exact ih
    | apply tx height hrun =>
      have hnone := pool_lat_applyInner hbefore.sharesBacked ih hrun
      exact hnone
    | commit => exact ih

/-- A token with a pool is not LAT. -/
theorem Reachable.pooled_ne_lat (hs : s.Reachable) {key : UInt32} (hpool : s.pool key ≠ none) :
    key ≠ LAT_TOKEN := by
  rintro rfl
  exact hpool hs.pool_lat

/-! ### Steps -/

/-- A transaction that issues a known amount and pays a known fee. -/
theorem gains_priced {tx : Transaction C} {key : UInt32} {fee : UInt64} {issued : ℤ}
    (hissued : s.issuedBy tx token = issued) (hpaid : paidFee tx = (key, fee))
    (hgains : Gains secret token s s'
      (coins C ((if token = key then -(fee.toNat : ℤ) else 0) + issued))) :
    Gains secret token s s' (coins C (s.issuedBy tx token - feeIn tx token)) := by
  refine hgains.gain_eq (congrArg (coins C) ?_)
  rw [hissued, feeIn, hpaid]
  show _ = issued - if token = key then (fee.toNat : ℤ) else 0
  split_ifs <;> omega

/-- A transaction that issues nothing. -/
theorem gains_paid {tx : Transaction C} {key : UInt32} {fee : UInt64}
    (hissued : s.issuedBy tx token = 0) (hpaid : paidFee tx = (key, fee))
    (hgains : Gains secret token s s' (coins C (if token = key then -(fee.toNat : ℤ) else 0))) :
    Gains secret token s s' (coins C (s.issuedBy tx token - feeIn tx token)) := by
  refine gains_priced hissued hpaid ?_
  rwa [add_zero]

/-- A transaction that pays no fee. -/
theorem gains_free {tx : Transaction C} {issued : ℤ} (hissued : s.issuedBy tx token = issued)
    (hpaid : paidFee tx = (LAT_TOKEN, 0)) (hgains : Gains secret token s s' (coins C issued)) :
    Gains secret token s s' (coins C (s.issuedBy tx token - feeIn tx token)) := by
  refine gains_priced hissued hpaid ?_
  rwa [UInt64.toNat_zero, Nat.cast_zero, neg_zero, ite_self, zero_add]

theorem gains_nothing {tx : Transaction C} (hissued : s.issuedBy tx token = 0)
    (hpaid : paidFee tx = (LAT_TOKEN, 0)) (hgains : Gains secret token s s' 0) :
    Gains secret token s s' (coins C (s.issuedBy tx token - feeIn tx token)) := by
  refine gains_free hissued hpaid ?_
  rwa [coins_zero]

theorem gains_register {id : Bytes32} (hrun : Runs (LedgerM.register id) s () s') :
    Gains secret token s s' 0 := by
  obtain ⟨hnew, rfl⟩ := register_outcome hrun
  refine ((gains_setAccount s id Account.default).gain_eq ?_).of_places rfl rfl rfl rfl rfl
  rw [accountOr, hnew, Option.getD_none, sub_self]

theorem gains_creditGenesis {id : Bytes32} {amount : UInt64}
    (hrun : Runs (LedgerM.creditGenesis id amount) s () s') :
    Gains secret token s s'
      (coins C (if token = LAT_TOKEN then (amount.toNat : ℤ) else 0)) := by
  obtain ⟨acct, hacct, rfl⟩ := creditGenesis_outcome hrun
  refine (gains_account hacct _ ?_).of_places rfl rfl rfl rfl rfl
  rw [Account.worth_set, sealedValue_add, sealedValue_mint, add_sub_cancel_left]
  split_ifs <;> simp

/-- The step: a transaction takes its fee out of the ledger, and adds what it issues. -/
theorem gains_applyInner {tx : Transaction C} {height : UInt64} (hkeys : OpensKeys C secret)
    (hs : s.Reachable) (hroom : s.Roomy) (hroom' : s'.Roomy) (htruthful : Truthful tx)
    (hrun : Runs (applyInner tx height none) s () s') :
    Gains secret token s s' (coins C (s.issuedBy tx token - feeIn tx token)) := by
  have hshares := hs.sharesBacked
  have hopen : ∀ {key : UInt32}, s.pool key ≠ none → (s'.pool key).isSome := by
    intro key hpool
    have hkept := hs.poolsSound.step_open hshares (.apply tx height hrun)
      (Option.isSome_iff_ne_none.mpr hpool)
    exact hkept
  cases tx with
  | register id powNonce =>
    exact gains_nothing rfl rfl (gains_register hrun)
  | createToken ticker creator supply sig =>
    refine gains_priced rfl rfl ((gains_createToken hrun).gain_eq ?_)
    exact congrArg (coins C) (add_comm _ _)
  | solventTransfer key xfer => exact gains_paid rfl rfl (gains_solventTransfer hkeys htruthful hrun)
  | rollover id nonce sig =>
    exact gains_nothing rfl rfl (gains_rollover hrun)
  | deployContract deployer code sig => exact gains_paid rfl rfl (gains_deployContract hrun)
  | callContract addr caller input nonce sig => exact gains_paid rfl rfl (gains_callContract hrun)
  | publicTransfer key fromId toId amount fee nonce sig =>
    exact gains_paid rfl rfl (gains_publicTransfer hroom' hrun)
  | shield key fromId toId amount fee nonce sig => exact gains_paid rfl rfl (gains_shield hrun)
  | unshield key toId amount xfer sig =>
    exact gains_paid rfl rfl (gains_unshield hroom' hkeys htruthful hrun)
  | shieldStealth key fromId ephemeral oneTime amount fee nonce sig =>
    exact gains_paid rfl rfl (gains_shieldStealth hrun)
  | anonTransfer key xfer => exact gains_paid rfl rfl (gains_anonTransfer hkeys htruthful hrun)
  | stake id amount nonce sig =>
    exact gains_nothing rfl rfl (gains_stake hroom hrun)
  | unstake id amount nonce sig =>
    exact gains_nothing rfl rfl (gains_unstake hroom hrun)
  | slashEvidence id beneficiary voteHeight blockA sigA blockB sigB =>
    exact gains_free rfl rfl (gains_slashEvidence hroom hroom' hrun)
  | addLiquidity key provider latAmount tokAmount fee nonce sig =>
    exact gains_paid rfl rfl (gains_addLiquidity hshares hopen hrun)
  | removeLiquidity key provider lpAmount fee nonce sig =>
    obtain ⟨_, _, _, p, _, _, _, _, -, -, -, hpool, -⟩ := applyRemoveLiquidity_outcome hrun
    have hpooled : s.pool key ≠ none := by simp [hpool]
    exact gains_paid rfl rfl
      (gains_removeLiquidity (hs.pooled_ne_lat hpooled) hshares hroom' (hopen hpooled) hrun)
  | swap key trader latIn amountIn minOut fee nonce sig =>
    have hpooled : s.pool key ≠ none := by
      cases latIn with
      | true =>
        obtain ⟨_, _, p, _, _, _, _, _, -, -, -, hpool, -⟩ := applySwap_outcome_latIn hrun
        simp [hpool]
      | false =>
        obtain ⟨_, _, _, p, _, _, _, _, _, -, -, -, hpool, -⟩ := applySwap_outcome_tokIn hrun
        simp [hpool]
    exact gains_paid rfl rfl
      (gains_swap (hs.pooled_ne_lat hpooled) hshares hroom' (hopen hpooled) hrun)
  | curveTrade key trader isBuy amount minOut fee nonce sig =>
    obtain ⟨trade, hquote, hgains⟩ := gains_curveTrade hroom' hrun
    refine gains_priced ?_ rfl hgains
    show (if token = key then (s.quote key _).elim 0 _ else 0) = _
    rw [hquote]
    rfl
  | htlcLock key fromId toId amount hashlock expiry fee nonce sig =>
    exact gains_paid rfl rfl (gains_htlcLock hrun)
  | htlcClaim id preimage =>
    obtain ⟨lock, hlock, -, -, rfl⟩ := applyHtlcClaim_outcome hrun
    exact gains_nothing rfl rfl (gains_release hlock hroom')
  | htlcRefund id =>
    obtain ⟨lock, hlock, -, rfl⟩ := applyHtlcRefund_outcome hrun
    exact gains_nothing rfl rfl (gains_release hlock hroom')

/-- What an operation adds of a token when it succeeds. -/
def addedBy (s : LedgerState C) (op : LedgerOp C) (token : UInt32) : ℤ :=
  match op with
  | .applyAt tx _ => s.issuedBy tx token - feeIn tx token
  | .creditPublic _ key amount => if token = key then (amount.toNat : ℤ) else 0
  | .rewardMiner _ key amount => if token = key then (amount.toNat : ℤ) else 0
  | .creditGenesis _ amount => if token = LAT_TOKEN then (amount.toNat : ℤ) else 0
  | _ => 0

/-- The step for every operation. -/
theorem gains_performs {op : LedgerOp C} (hkeys : OpensKeys C secret) (hs : s.Reachable)
    (hroom : s.Roomy) (hroom' : s'.Roomy) (htruthful : ∀ tx height, op = .applyAt tx height →
      Truthful tx) (hop : Ledger.Performs s s' op) :
    Gains secret token s s' (coins C (s.addedBy op token)) := by
  cases op with
  | applyAt tx height =>
    obtain ⟨s₁, hrun, rfl⟩ := hop
    have hroom₁ : s₁.Roomy := hroom'.of_same rfl rfl
    have hgains : Gains secret token s s₁ (coins C (s.issuedBy tx token - feeIn tx token)) :=
      gains_applyInner hkeys hs hroom hroom₁ (htruthful tx height rfl) hrun
    exact hgains.of_places rfl rfl rfl rfl rfl
  | register id =>
    show Gains secret token s s' (coins C 0)
    rw [coins_zero]
    exact gains_register hop
  | creditPublic id key amount =>
    obtain rfl := creditPublic_outcome hop
    exact gains_credited s id key amount (hroom'.pub_lt id key)
  | rewardMiner miner key amount =>
    obtain rfl := rewardMiner_outcome hop
    exact gains_rewarded s miner key amount
  | creditGenesis id amount =>
    exact gains_creditGenesis hop
  | flush | clone =>
    obtain rfl := hop
    show Gains secret token s' s' (coins C 0)
    rw [coins_zero]
    exact .of_same rfl rfl rfl rfl rfl
  | stateRoot =>
    obtain rfl := hop
    show Gains secret token s _ (coins C 0)
    rw [coins_zero]
    exact .of_same rfl rfl rfl rfl rfl

end LedgerState

/-! ### Runs -/

namespace Ledger

variable {L L' : Ledger C}

/-- Whether an operation succeeds. -/
def Succeeds (L : Ledger C) : LedgerOp C → Prop
  | .applyAt tx height => (L.applyAt tx height).1 = .ok ()
  | .register id => (L.register id).1 = .ok ()
  | .creditPublic id token amount => (L.creditPublic id token amount).1 = .ok ()
  | .creditGenesis id amount => (L.creditGenesis id amount).1 = .ok ()
  | .rewardMiner miner token amount => (L.rewardMiner miner token amount).1 = .ok ()
  | .flush | .clone | .stateRoot => True

instance (L : Ledger C) : DecidablePred L.Succeeds := fun op ↦
  match op with
  | .applyAt tx height => inferInstanceAs (Decidable ((L.applyAt tx height).1 = .ok ()))
  | .register id => inferInstanceAs (Decidable ((L.register id).1 = .ok ()))
  | .creditPublic id token amount =>
    inferInstanceAs (Decidable ((L.creditPublic id token amount).1 = .ok ()))
  | .creditGenesis id amount => inferInstanceAs (Decidable ((L.creditGenesis id amount).1 = .ok ()))
  | .rewardMiner miner token amount =>
    inferInstanceAs (Decidable ((L.rewardMiner miner token amount).1 = .ok ()))
  | .flush | .clone | .stateRoot => inferInstanceAs (Decidable True)

/-- A program that succeeded ran on the objects, and one that failed left them as they were. -/
theorem WellFormed.settled_cases (hL : L.WellFormed) {program : LedgerM C Unit}
    (hclean : Program.FailsClean LedgerState.handler LedgerCommand.IsWrite False program L.view)
    (hrun : settled (program.run handler L) = some L') :
    ((program.run handler L).1 = .ok () → LedgerState.Runs program L.view () L'.view) ∧
      ((program.run handler L).1 ≠ .ok () → L'.view = L.view) := by
  obtain ⟨hsame, -, hview⟩ := run_view hL program
  have herr := fun e ↦ hL.clone_run_err hclean (e := e)
  rcases houtcome : program.run handler L with ⟨_ | e | _, M⟩
  · rw [houtcome] at hrun hsame hview
    obtain rfl := Option.some.inj hrun
    exact ⟨fun _ ↦ Prod.ext hsame.symm hview.symm, fun hfails ↦ absurd rfl hfails⟩
  · rw [houtcome] at hrun herr
    obtain rfl := Option.some.inj hrun
    refine ⟨fun hok ↦ ?_, fun _ ↦ view_of_clone_eq (herr e rfl)⟩
    exact nomatch hok
  · rw [houtcome] at hrun
    exact nomatch hrun

/-- An operation performs on the objects when it succeeds, and else leaves them as they were. -/
theorem Reachable.performs_cases (hL : L.Reachable) {op : LedgerOp C}
    (hstep : L.step op = some L') :
    (L.Succeeds op → Performs L.view L'.view op) ∧ (¬ L.Succeeds op → L'.view = L.view) := by
  obtain ⟨hformed, hobjects⟩ := hL.view
  cases op with
  | applyAt tx height =>
    rcases houtcome : L.applyAt tx height with ⟨_ | e | _, M⟩
    · rw [Ledger.step, houtcome] at hstep
      obtain rfl := Option.some.inj hstep
      exact ⟨fun _ ↦ (hformed.applyAt_ok houtcome).2,
        fun hfails ↦ absurd (congrArg Prod.fst houtcome) hfails⟩
    · rw [Ledger.step, houtcome] at hstep
      obtain rfl := Option.some.inj hstep
      refine ⟨fun hok ↦ ?_, fun _ ↦ ?_⟩
      · cases hok.symm.trans (congrArg Prod.fst houtcome)
      · exact view_of_clone_eq (hformed.clone_applyAt_err hobjects.sharesBacked houtcome).2
    · rw [Ledger.step, houtcome] at hstep
      cases hstep
  | register id => exact hformed.settled_cases ((register_checksFirst id).failsClean L.view) hstep
  | creditPublic id token amount =>
    exact hformed.settled_cases ((creditPublic_checksFirst id token amount).failsClean L.view) hstep
  | creditGenesis id amount =>
    exact hformed.settled_cases ((creditGenesis_checksFirst id amount).failsClean L.view) hstep
  | rewardMiner miner token amount =>
    exact hformed.settled_cases ((rewardMiner_checksFirst miner token amount).failsClean L.view) hstep
  | flush =>
    obtain rfl := Option.some.inj hstep
    exact ⟨fun _ ↦ hformed.flush.2, fun hfails ↦ absurd trivial hfails⟩
  | clone =>
    obtain rfl := Option.some.inj hstep
    exact ⟨fun _ ↦ rfl, fun hfails ↦ absurd trivial hfails⟩
  | stateRoot =>
    obtain ⟨⟨root, M⟩, hrun, rfl⟩ := Option.map_eq_some_iff.mp hstep
    exact ⟨fun _ ↦ hformed.view_stateRoot hrun, fun hfails ↦ absurd trivial hfails⟩

/-- What an operation adds of a token to a ledger. -/
def added (L : Ledger C) (op : LedgerOp C) (token : UInt32) : ℤ :=
  if L.Succeeds op then L.view.addedBy op token else 0

/-- The step on ledgers. -/
theorem Reachable.gains {secret : Bytes32 → ℤ} (hkeys : OpensKeys C secret) (hL : L.Reachable)
    (hroom : L.view.Roomy) (hroom' : L'.view.Roomy) {op : LedgerOp C}
    (htruthful : ∀ tx height, op = .applyAt tx height → L.Succeeds op → Truthful tx)
    (hstep : L.step op = some L') (token : UInt32) :
    LedgerState.Gains secret token L.view L'.view (coins C (L.added op token)) := by
  obtain ⟨hperforms, hsame⟩ := hL.performs_cases hstep
  unfold added
  by_cases hok : L.Succeeds op
  · rw [if_pos hok]
    exact LedgerState.gains_performs hkeys hL.view.2 hroom hroom'
      (fun tx height heq ↦ htruthful tx height heq hok) (hperforms hok)
  · rw [if_neg hok, hsame hok, coins_zero]
    exact .of_same rfl rfl rfl rfl rfl

end Ledger

/-- An empty ledger holds nothing. -/
theorem LedgerState.held_new (secret : Bytes32 → ℤ) (token : UInt32) :
    (LedgerState.new : LedgerState C).held secret token = fun _ ↦ 0 := by
  funext place
  cases place <;> rfl

/-- What a ledger gained since it was empty is what it is worth. -/
theorem LedgerState.Gains.worth_of_new {secret : Bytes32 → ℤ} {token : UInt32} {s : LedgerState C}
    {amount : C.Point} (hgains : Gains secret token .new s amount) :
    s.worth secret token = amount := by
  have hnew : (Function.support ((LedgerState.new : LedgerState C).held secret token)).Finite := by
    rw [held_new, Function.support_fun_zero]
    exact Set.finite_empty
  have htotal := hgains.holdings_eq hnew
  rw [held_new, holdings_zero, zero_add] at htotal
  exact htotal

namespace LedgerRun

variable {n : ℕ} {run : LedgerRun C n} {secret : Bytes32 → ℤ}

/-- The run lemma: what the first operations added is what their ledger is worth. -/
theorem gains (hkeys : OpensKeys C secret)
    (htruthful : ∀ j < n, ∀ tx height, run.op j = .applyAt tx height →
      (run.ledger j).Succeeds (run.op j) → Truthful tx)
    (hroom : ∀ j ≤ n, (run.state j).Roomy) (token : UInt32) {j : ℕ} (hj : j ≤ n) :
    LedgerState.Gains secret token .new (run.state j)
      (coins C (∑ k ∈ Finset.range j, (run.ledger k).added (run.op k) token)) := by
  induction j with
  | zero =>
    rw [Finset.range_zero, Finset.sum_empty, coins_zero, state, run.start, Ledger.view_new]
    exact .of_same rfl rfl rfl rfl rfl
  | succ j ih =>
    have hlt : j < n := hj
    rw [Finset.sum_range_succ, coins_add]
    exact (ih hlt.le).trans ((reachable hlt.le).gains hkeys (hroom j hlt.le) (hroom (j + 1) hj)
      (htruthful j hlt) (run.step j hlt) token)

end LedgerRun

/-- **Conservation of value.** In every run of a ledger, what the ledger is worth in a token is what
the operations of the run added: the credits, and the issues less the fees of the transactions that
succeeded. Nothing else creates or destroys value, whether it moves in the open, under encryption,
into a stake, a pool, a curve or an escrow. And when it is known what every place holds, these
numbers have the same sum, up to the order of the base point. -/
theorem value_conserved {n : ℕ} (run : LedgerRun C n) {secret : Bytes32 → ℤ}
    (hkeys : OpensKeys C secret)
    (htruthful : ∀ j < n, ∀ tx height, run.op j = .applyAt tx height →
      (run.ledger j).Succeeds (run.op j) → Truthful tx)
    (hroom : ∀ j ≤ n, (run.state j).Roomy) (token : UInt32) :
    (run.state n).worth secret token =
        coins C (∑ j ∈ Finset.range n, (run.ledger j).added (run.op j) token) ∧
      ∀ value : Place → ℤ, (Function.support value).Finite →
        (∀ place, (run.state n).held secret token place = coins C (value place)) →
          ∑ᶠ place, value place ≡
            ∑ j ∈ Finset.range n, (run.ledger j).added (run.op j) token
              [ZMOD addOrderOf C.basePoint] := by
  have hgains := (LedgerRun.gains hkeys htruthful hroom token le_rfl).worth_of_new
  refine ⟨hgains, fun value hfinite hopened ↦ ?_⟩
  have hsame := (LedgerState.worth_of_opened hfinite hopened).symm.trans hgains
  exact zsmul_eq_zsmul_iff_modEq.mp hsame

/-! ### A run with a pool -/

namespace Ledger

variable {L : Ledger C}

/-- A ledger that keeps records of the accounts of a list only is roomy if these are. -/
theorem roomy_of_records {keys : List RecordKey} (ids : List Bytes32)
    (hkeys : ∀ bytes ∈ L.objectRecords.map Prod.fst, ∃ key ∈ keys, bytes = key.bytes)
    (hids : ∀ id, .committed (.account id) ∈ keys ∨ .committed (.validator id) ∈ keys → id ∈ ids)
    (hroom : ∀ id ∈ ids, L.view.stakeHeld id < 2 ^ 63 ∧
      (L.view.accountOr id).publics.toList.all (·.2 ≤ 9223372036854775806)) : L.view.Roomy := by
  have hlisted : ∀ key, L.record key ≠ none → key ∈ keys := by
    intro key hrecord
    obtain ⟨other, hother, hsame⟩ := hkeys _ (mem_of_record hrecord)
    rwa [RecordKey.bytes_injective hsame]
  intro id token
  by_cases hid : id ∈ ids
  · obtain ⟨hstake, hpublics⟩ := hroom id hid
    have hheld : (if token = LAT_TOKEN then L.view.stakeHeld id else 0) ≤ L.view.stakeHeld id := by
      split_ifs <;> omega
    unfold LedgerState.openly
    cases hentry : (L.view.accountOr id).publics[token]? with
    | none =>
      rw [Account.pub, hentry, Option.getD_none, UInt64.toNat_zero]
      omega
    | some amount =>
      have hmem := (FMap.mem_toList _ _ _).mpr hentry
      have hfits : amount.toNat ≤ 9223372036854775806 :=
        UInt64.le_iff_toNat_le.mp (of_decide_eq_true (List.all_eq_true.mp hpublics _ hmem))
      rw [Account.pub, hentry, Option.getD_some]
      omega
  · have haccount : L.record (.committed (.account id)) = none := by
      by_contra hrecord
      exact hid (hids id (.inl (hlisted _ hrecord)))
    have hvalidator : L.record (.committed (.validator id)) = none := by
      by_contra hrecord
      exact hid (hids id (.inr (hlisted _ hrecord)))
    simp [LedgerState.openly, LedgerState.accountOr, LedgerState.stakeHeld, LedgerState.bonded,
      LedgerState.unbonding, LedgerState.validatorOr, view, LedgerState.ofRecords, haccount,
      hvalidator, Account.pub, Account.default, Validator.default]

/-- The ledgers on the way to the pool of a self-made token. -/
def poolLedger : ℕ → Ledger clearSuite
  | 0 => new
  | 1 => (new.register 5).2
  | 2 => traderFunded
  | 3 => tokenCreated
  | 4 => tokenRevealed
  | _ => pooled

def poolOps : List (LedgerOp clearSuite) :=
  [.register 5, .creditPublic 5 LAT_TOKEN 200000000,
    .applyAt (.createToken ['A', 'B', 'C'] 5 18446744073709551615 5) 1,
    .applyAt (.unshield 1 5 1152921504606846976 reveal 5) 2,
    .applyAt (.addLiquidity 1 5 1000000 1152921504606846976 1000 1 5) 3]

def poolKeys : List RecordKey :=
  [.committed (.account 5), .committed (.token 1), .committed (.pool 1), .committed (.lp 1 5),
    .committed .metaRecord, .ticker ['A', 'B', 'C']]

theorem poolLedger_facts :
    (∀ j < 6, ∀ bytes ∈ (poolLedger j).objectRecords.map Prod.fst, ∃ key ∈ poolKeys,
      bytes = key.bytes) ∧
    (∀ j < 6, (poolLedger j).view.stakeHeld 5 < 2 ^ 63) ∧
    (∀ j < 6, ((poolLedger j).view.accountOr 5).publics.toList.all (·.2 ≤ 9223372036854775806)) ∧
    ∑ j ∈ Finset.range 5, (poolLedger j).added (poolOps.getD j .clone) 1 = 18446744073709550615 ∧
    ∑ j ∈ Finset.range 5, (poolLedger j).added (poolOps.getD j .clone) LAT_TOKEN = 199998000 := by
  decide +kernel

end Ledger

/-- The run to the pool. -/
def poolRun : LedgerRun clearSuite 5 where
  ledger := Ledger.poolLedger
  op j := Ledger.poolOps.getD j .clone
  start := rfl
  step j hj := by
    obtain ⟨hregister, hcredit, hcreate, hreveal, hadd, -⟩ := Ledger.pooled_facts
    interval_cases j
    · exact Ledger.step_register hregister
    · exact Ledger.step_creditPublic hcredit
    · exact Ledger.step_applyAt hcreate
    · exact Ledger.step_applyAt hreveal
    · exact Ledger.step_applyAt hadd

/-- A word is a multiple of one. -/
theorem toNat_zsmul_one (word : BitVec 256) : (word.toNat : ℤ) • (1 : BitVec 256) = word := by
  rw [natCast_zsmul, nsmul_one]
  exact (BitVec.ofNat_toNat 256 word).trans (BitVec.setWidth_eq word)

theorem opensKeys_clearSuite : OpensKeys clearSuite fun id ↦ id.toNat :=
  fun key ↦ toNat_zsmul_one key.point

/-- Nothing blinds what the proof reveals. -/
theorem encrypts_reveal (key : PublicKey clearSuite.Point) :
    Encrypts (C := clearSuite) key Ledger.reveal.senderCiphertext 1152921504606846976 := by
  have hamount : (1152921504606846976 : BitVec 256) = 1152921504606846976 • (1 : BitVec 256) := by
    rw [nsmul_one]
    rfl
  exact ⟨0, hamount.trans (add_zero (M := BitVec 256) _).symm, rfl⟩

theorem value_conserved_pool :
    (poolRun.state 5).worth (fun id ↦ id.toNat) 1 = coins clearSuite 18446744073709550615 ∧
      (poolRun.state 5).worth (fun id ↦ id.toNat) LAT_TOKEN = coins clearSuite 199998000 := by
  obtain ⟨hkeys, hstake, hpublics, htoken, hlat⟩ := Ledger.poolLedger_facts
  have htruthful : ∀ j < 5, ∀ tx height, poolRun.op j = .applyAt tx height →
      (poolRun.ledger j).Succeeds (poolRun.op j) → Truthful tx := by
    intro j hj tx height hop _
    interval_cases j <;> cases hop
    · trivial
    · exact ⟨1152921504606846976, encrypts_reveal _, encrypts_reveal _⟩
    · trivial
  have hroom : ∀ j ≤ 5, (poolRun.state j).Roomy := by
    intro j hj
    have hlt : j < 6 := Nat.lt_succ_of_le hj
    refine Ledger.roomy_of_records [5] (hkeys j hlt) ?_ ?_
    · simp [Ledger.poolKeys]
    · intro id hid
      rw [List.mem_singleton.mp hid]
      exact ⟨hstake j hlt, hpublics j hlt⟩
  obtain ⟨hworth, -⟩ := value_conserved poolRun opensKeys_clearSuite htruthful hroom 1
  obtain ⟨hworth', -⟩ := value_conserved poolRun opensKeys_clearSuite htruthful hroom LAT_TOKEN
  rw [← htoken, ← hlat]
  exact ⟨hworth, hworth'⟩

end Latebra.State
