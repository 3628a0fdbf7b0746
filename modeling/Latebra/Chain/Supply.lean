import Latebra.Chain.BranchHistory
import Latebra.Chain.Emission
import Latebra.State.ValueLaw

/-!
# The supply of a chain

The ledger of a chain is worth what its genesis endowed, what the transactions of its active branch
issued, and what its blocks paid their miners beyond the fees that they collected. `supply_law`
states it for every chain that a node can have, whatever reorganizations it has been through. For
native LAT it bounds the supply: a transaction only ever burns LAT, so what the accounts of a chain
hold together is at most the premine and the rewards of the blocks, which the cap of `minted_le`
limits.
-/

set_option autoImplicit false
set_option relaxedAutoImplicit false

namespace Latebra.State.LedgerState

open Foundation Crypto Latebra.Types

variable {C : CryptoSuite} {secret : Bytes32 → ℤ} {token : UInt32} {s s₁ s' : LedgerState C}
  {amount more : ℤ}

/-! ### Payments out of nowhere -/

/-- Nobody holds less in the open afterwards, and when there is room for it the ledger has gained an
amount. -/
structure Pays (secret : Bytes32 → ℤ) (token : UInt32) (s s' : LedgerState C) (amount : ℤ) : Prop where
  grows : ∀ id key, s.openly id key ≤ s'.openly id key
  gains : s'.Roomy → Gains secret token s s' (coins C amount)

theorem Roomy.of_grows (hroom : s'.Roomy) (hgrows : ∀ id key, s.openly id key ≤ s'.openly id key) :
    s.Roomy :=
  fun id key ↦ (Nat.add_le_add_right (hgrows id key) 1).trans_lt (hroom id key)

theorem Pays.of_same (haccount : s'.account = s.account) (hpool : s'.pool = s.pool)
    (hcurve : s'.curve = s.curve) (hvalidator : s'.validator = s.validator)
    (hhtlc : s'.htlc = s.htlc) : Pays secret token s s' 0 where
  grows id key := by
    unfold openly accountOr stakeHeld bonded unbonding validatorOr
    rw [haccount, hvalidator]
  gains _ := by
    rw [coins_zero]
    exact .of_same haccount hpool hcurve hvalidator hhtlc

theorem Pays.trans (hfirst : Pays secret token s s₁ amount)
    (hsecond : Pays secret token s₁ s' more) : Pays secret token s s' (amount + more) where
  grows id key := (hfirst.grows id key).trans (hsecond.grows id key)
  gains hroom := by
    rw [coins_add]
    exact (hfirst.gains (hroom.of_grows hsecond.grows)).trans (hsecond.gains hroom)

/-- A write of an account that does not lower its public balances. -/
theorem openly_le_setAccount {id : Bytes32} {after : Account C}
    (hpub : ∀ key, ((s.accountOr id).pub key).toNat ≤ (after.pub key).toNat) (other : Bytes32)
    (key : UInt32) : s.openly other key ≤ (s.setAccount id after).openly other key := by
  refine Nat.add_le_add ?_ le_rfl
  rw [accountOr_setAccount]
  by_cases hother : other = id
  · rw [if_pos hother, hother]
    exact hpub key
  · rw [if_neg hother]

theorem openly_le_credited (s : LedgerState C) (id : Bytes32) (key : UInt32) (credit : UInt64)
    (other : Bytes32) (key' : UInt32) :
    s.openly other key' ≤ (s.credited id key credit).openly other key' := by
  have hvalidator : (s.credited id key credit).stakeHeld other = s.stakeHeld other := by
    unfold credited
    split <;> rfl
  unfold openly
  rw [hvalidator]
  exact Nat.add_le_add_right (pub_credited_le s id other key key' credit) _

/-- Every operation but a transaction pays what it adds. -/
theorem pays_performs {op : LedgerOp C} (hop : ∀ tx height, op ≠ .applyAt tx height)
    (hperforms : Ledger.Performs s s' op) : Pays secret token s s' (s.addedBy op token) := by
  cases op with
  | applyAt tx height => exact absurd rfl (hop tx height)
  | register id =>
    obtain ⟨hnew, hafter⟩ := register_outcome hperforms
    refine ⟨?_, fun _ ↦ ?_⟩
    · rw [hafter]
      apply openly_le_setAccount
      intro key
      rw [accountOr, hnew, Option.getD_none]
    · show Gains secret token s s' (coins C 0)
      rw [coins_zero]
      exact gains_register hperforms
  | creditPublic id key credit =>
    obtain rfl := creditPublic_outcome hperforms
    exact ⟨openly_le_credited s id key credit,
      fun hroom ↦ gains_credited s id key credit (hroom.pub_lt id key)⟩
  | rewardMiner miner key credit =>
    obtain rfl := rewardMiner_outcome hperforms
    refine ⟨?_, fun _ ↦ gains_rewarded s miner key credit⟩
    intro other key'
    unfold rewarded
    split
    · exact le_rfl
    · apply openly_le_setAccount
      intro key''
      rw [Account.pub_set]
  | creditGenesis id credit =>
    refine ⟨?_, fun _ ↦ gains_creditGenesis hperforms⟩
    obtain ⟨acct, hacct, rfl⟩ := creditGenesis_outcome hperforms
    apply openly_le_setAccount
    intro key
    rw [accountOr_of_some hacct, Account.pub_set]
  | flush | clone =>
    obtain rfl := hperforms
    exact .of_same rfl rfl rfl rfl rfl
  | stateRoot =>
    obtain rfl := hperforms
    exact .of_same rfl rfl rfl rfl rfl

/-- The amounts of a token in a list. -/
def amountIn (list : List (UInt32 × UInt64)) (token : UInt32) : ℤ :=
  (list.map fun entry ↦ if token = entry.1 then (entry.2.toNat : ℤ) else 0).sum

/-- Paying out a list. -/
theorem pays_forEach {list : List (UInt32 × UInt64)} {pay : UInt32 × UInt64 → LedgerM C Unit}
    (hpay : ∀ entry t t', Runs (pay entry) t () t' →
      Pays secret token t t' (if token = entry.1 then (entry.2.toNat : ℤ) else 0))
    (hrun : Runs (Program.forEach list pay) s () s') :
    Pays secret token s s' (amountIn list token) := by
  induction list generalizing s with
  | nil =>
    rw [Program.forEach_nil] at hrun
    obtain ⟨-, rfl⟩ := (Program.returns_pure ..).mp hrun
    exact .of_same rfl rfl rfl rfl rfl
  | cons entry rest ih =>
    rw [Program.forEach_cons] at hrun
    obtain ⟨_, s₁, hfirst, hrest⟩ := (Program.returns_bind ..).mp hrun
    exact (hpay entry s s₁ hfirst).trans (ih hrest)

/-! ### Transactions one after another -/

/-- The objects after a transaction. -/
def afterTx (s : LedgerState C) (tx : Transaction C) (height : UInt64) : LedgerState C :=
  ((LedgerM.applyTx height tx).run handler s).2

/-- The objects before, between and after the transactions of a list. -/
def statesThrough (height : UInt64) : List (Transaction C) → LedgerState C → List (LedgerState C)
  | [], s => [s]
  | tx :: rest, s => s :: statesThrough height rest (s.afterTx tx height)

/-- What the transactions of a list issue of a token. -/
def issuedThrough (height : UInt64) (token : UInt32) :
    List (Transaction C) → LedgerState C → ℤ
  | [], _ => 0
  | tx :: rest, s => s.issuedBy tx token + issuedThrough height token rest (s.afterTx tx height)

/-- What the transactions of a list pay of a token in fees. -/
def feesIn (txs : List (Transaction C)) (token : UInt32) : ℤ :=
  (txs.map fun tx ↦ feeIn tx token).sum

/-- A transaction burns LAT if it changes how much there is. -/
theorem issuedBy_lat_nonpos {tx : Transaction C} {height : UInt64} (hs : s.Reachable)
    (hrun : Runs (applyInner tx height none) s () s') :
    s.issuedBy tx LAT_TOKEN ≤ 0 := by
  cases tx with
  | createToken ticker creator supply sig =>
    have hstarted := hs.registry.started
    show (if LAT_TOKEN = s.nextTokenId then (supply.toNat : ℤ) else 0) ≤ 0
    rw [if_neg]
    intro heq
    rw [← heq] at hstarted
    exact absurd hstarted (lt_irrefl 0)
  | curveTrade key trader isBuy amount minOut fee nonce sig =>
    obtain ⟨_, _, _, -, hkey, -⟩ := applyCurveTrade_outcome hrun
    show (if LAT_TOKEN = key then _ else (0 : ℤ)) ≤ 0
    rw [if_neg hkey.symm]
  | slashEvidence id beneficiary voteHeight blockA sigA blockB sigB =>
    have hreward : s.slashingReward id beneficiary ≤ s.penalty id := by
      unfold slashingReward
      split
      · show s.penalty id * 500 / 10000 ≤ s.penalty id
        omega
      · exact Nat.zero_le _
    show (if LAT_TOKEN = LAT_TOKEN then (s.slashingReward id beneficiary : ℤ) - s.penalty id
      else 0) ≤ 0
    rw [if_pos rfl]
    omega
  | _ => exact le_rfl

section Transactions

variable {height : UInt64} {tx : Transaction C} {txs : List (Transaction C)}

theorem head_mem_statesThrough (s : LedgerState C) : s ∈ statesThrough height txs s := by
  cases txs with
  | nil => exact List.mem_singleton_self s
  | cons tx rest => exact List.mem_cons_self

/-- What the transactions of a list lead to, and what the ledger gains by them. -/
theorem gains_txs (hkeys : OpensKeys C secret) (hs : s.Reachable)
    (htruthful : ∀ tx ∈ txs, Truthful tx) (hroom : ∀ t ∈ statesThrough height txs s, t.Roomy)
    (hrun : Runs (Program.forEach txs (LedgerM.applyTx height)) s () s') :
    Gains secret token s s' (coins C (issuedThrough height token txs s - feesIn txs token)) ∧
      issuedThrough height LAT_TOKEN txs s ≤ 0 ∧ s'.Reachable := by
  induction txs generalizing s with
  | nil =>
    rw [Program.forEach_nil] at hrun
    obtain ⟨-, rfl⟩ := (Program.returns_pure ..).mp hrun
    refine ⟨?_, le_rfl, hs⟩
    show Gains secret token s' s' (coins C (0 - 0))
    rw [sub_zero, coins_zero]
    exact .of_same rfl rfl rfl rfl rfl
  | cons tx rest ih =>
    rw [Program.forEach_cons] at hrun
    obtain ⟨_, s₁, hfirst, hrest⟩ := (Program.returns_bind ..).mp hrun
    have hafter : s.afterTx tx height = s₁ := congrArg Prod.snd hfirst
    rw [List.forall_mem_cons] at htruthful
    rw [statesThrough, List.forall_mem_cons, hafter] at hroom
    obtain ⟨s₂, hinner, hmarked⟩ := runs_applyTx.mp hfirst
    have hroom₁ := hroom.2 s₁ (head_mem_statesThrough s₁)
    have hreach : s₁.Reachable := by
      rw [hmarked]
      exact hs.step (.apply tx height hinner)
    have hperforms : Ledger.Performs s s₁ (.applyAt tx height) := ⟨s₂, hinner, hmarked⟩
    have htrue : ∀ other height', LedgerOp.applyAt tx height = .applyAt other height' →
        Truthful other := by
      intro other height' heq
      injection heq with hsame
      rw [← hsame]
      exact htruthful.1
    have hstep : Gains secret token s s₁ (coins C (s.issuedBy tx token - feeIn tx token)) :=
      gains_performs hkeys hs hroom.1 hroom₁ htrue hperforms
    obtain ⟨hgains, hburns, hlast⟩ := ih hreach htruthful.2 hroom.2 hrest
    refine ⟨(hstep.trans hgains).gain_eq ?_, ?_, hlast⟩
    · rw [← coins_add, issuedThrough, hafter, feesIn, feesIn, List.map_cons, List.sum_cons]
      congr 1
      ring
    · rw [issuedThrough, hafter]
      have hnonpos := issuedBy_lat_nonpos hs hinner
      omega

end Transactions

end Latebra.State.LedgerState

namespace Latebra.Chain

open Foundation Crypto Latebra.Types State LedgerState

variable {S : ChainSuite} {secret : Bytes32 → ℤ} {token : UInt32}

/-! ### Blocks -/

/-- What a block adds to a ledger beside what its transactions issue: its reward, which the fees that
it collects are no part of. A block without a miner lets the fees go. -/
def Block.coinbase (block : Block S) (token : UInt32) : ℤ :=
  if block.header.miner = 0 then -feesIn block.txs token
  else if token = LAT_TOKEN then (emission block.header.height).toNat else 0

/-- The objects after a block. -/
def Block.after (block : Block S) (s : LedgerState S.toCryptoSuite) : LedgerState S.toCryptoSuite :=
  (block.program.run LedgerState.handler s).2

/-- The objects after the blocks of a branch. -/
def objectsAfter (start : LedgerState S.toCryptoSuite) :
    List (Block S) → LedgerState S.toCryptoSuite
  | [] => start
  | block :: below => block.after (objectsAfter start below)

/-- The objects on the way along a branch, from one transaction to the next. -/
def statesOn (start : LedgerState S.toCryptoSuite) :
    List (Block S) → List (LedgerState S.toCryptoSuite)
  | [] => [start]
  | block :: below =>
    objectsAfter start (block :: below) ::
      (statesThrough block.header.height block.txs (objectsAfter start below) ++ statesOn start below)

/-- What the transactions of a branch issue of a token. -/
def issuedOn (start : LedgerState S.toCryptoSuite) (token : UInt32) : List (Block S) → ℤ
  | [] => 0
  | block :: below =>
    issuedThrough block.header.height token block.txs (objectsAfter start below) +
      issuedOn start token below

section Blocks

variable {s s' : LedgerState S.toCryptoSuite} {miner : Bytes32} {height : UInt64}

/-- A fee is in one of the two kinds. -/
theorem feeIn_eq (tx : Transaction S.toCryptoSuite) :
    ((confidentialFee tx).elim 0 fun fee ↦ if token = fee.1 then (fee.2.toNat : ℤ) else 0) +
      ((publicFee tx).elim 0 fun fee ↦ if token = fee.1 then (fee.2.toNat : ℤ) else 0) =
        feeIn tx token := by
  have hpositive : ∀ (key : UInt32) (fee : UInt64),
      ((if fee > 0 then some (key, fee) else none).elim 0 fun fee ↦
        if token = fee.1 then (fee.2.toNat : ℤ) else 0) =
          if token = key then (fee.toNat : ℤ) else 0 := by
    intro key fee
    by_cases hfee : fee > 0
    · rw [if_pos hfee, Option.elim_some]
    · have hzero : fee.toNat = 0 := Nat.eq_zero_of_not_pos hfee
      rw [if_neg hfee, Option.elim_none, hzero]
      simp
  cases tx <;> simp [confidentialFee, publicFee, feeIn, paidFee, hpositive] <;> rfl

/-- The two lists of fees have every fee once. -/
theorem feesIn_eq (txs : List (Transaction S.toCryptoSuite)) :
    amountIn (txs.filterMap confidentialFee) token + amountIn (txs.filterMap publicFee) token =
      feesIn txs token := by
  induction txs with
  | nil => rfl
  | cons tx rest ih =>
    have hone : ∀ fee : Option (UInt32 × UInt64), ∀ others : List (UInt32 × UInt64),
        amountIn (fee.toList ++ others) token =
          (fee.elim 0 fun fee ↦ if token = fee.1 then (fee.2.toNat : ℤ) else 0) +
            amountIn others token := by
      intro fee others
      cases fee with
      | none => exact (zero_add _).symm
      | some fee => rfl
    have hsplit : ∀ fee : Transaction S.toCryptoSuite → Option (UInt32 × UInt64),
        (tx :: rest).filterMap fee = (fee tx).toList ++ rest.filterMap fee := by
      intro fee
      rw [List.filterMap_cons]
      cases fee tx <;> rfl
    rw [hsplit, hsplit, hone, hone, feesIn, List.map_cons, List.sum_cons, ← feeIn_eq tx]
    have hrest : amountIn (rest.filterMap confidentialFee) token +
        amountIn (rest.filterMap publicFee) token =
          (rest.map fun tx ↦ feeIn tx token).sum := ih
    rw [← hrest]
    ring

/-- The payment of the miner. -/
theorem pays_payMiner {block : Block S}
    (hrun : LedgerState.Runs (payMiner block.txs block.header.miner block.header.height) s () s') :
    Pays secret token s s' (block.coinbase token + feesIn block.txs token) := by
  unfold payMiner at hrun
  unfold Block.coinbase
  split at hrun
  · next hminer =>
    obtain ⟨-, rfl⟩ := (Program.returns_pure ..).mp hrun
    rw [if_pos hminer, neg_add_cancel]
    exact .of_same rfl rfl rfl rfl rfl
  · next hminer =>
    obtain ⟨_, s₂, hcoinbase, hfees⟩ := (Program.returns_bind ..).mp hrun
    obtain ⟨_, s₃, hconfidential, hpublic⟩ := (Program.returns_bind ..).mp hfees
    have hreward : Pays secret token s s₂
        (if token = LAT_TOKEN then ((emission block.header.height).toNat : ℤ) else 0) :=
      pays_performs (by simp) (show Ledger.Performs s s₂
        (.rewardMiner block.header.miner LAT_TOKEN (emission block.header.height)) from hcoinbase)
    have hfirst : Pays secret token s₂ s₃ (amountIn (block.txs.filterMap confidentialFee) token) :=
      pays_forEach (fun fee t t' hpay ↦ pays_performs (by simp)
        (show Ledger.Performs t t' (.rewardMiner block.header.miner fee.1 fee.2) from hpay))
        hconfidential
    have hsecond : Pays secret token s₃ s' (amountIn (block.txs.filterMap publicFee) token) :=
      pays_forEach (fun fee t t' hpay ↦ pays_performs (by simp)
        (show Ledger.Performs t t' (.creditPublic block.header.miner fee.1 fee.2) from hpay))
        hpublic
    rw [if_neg hminer, ← feesIn_eq, ← add_assoc]
    exact (hreward.trans hfirst).trans hsecond

/-- The step: what a block adds. -/
theorem gains_block {block : Block S} (hkeys : OpensKeys S.toCryptoSuite secret)
    (hs : s.Reachable) (htruthful : ∀ tx ∈ block.txs, Truthful tx)
    (hroom : ∀ t ∈ statesThrough block.header.height block.txs s, t.Roomy) (hroom' : s'.Roomy)
    (hrun : LedgerState.Runs block.program s () s') :
    Gains secret token s s' (coins S.toCryptoSuite
      (issuedThrough block.header.height token block.txs s + block.coinbase token)) ∧
      issuedThrough block.header.height LAT_TOKEN block.txs s ≤ 0 := by
  obtain ⟨_, s₁, htxs, hpay⟩ := (Program.returns_bind ..).mp hrun
  obtain ⟨hgains, hburns, -⟩ := gains_txs hkeys hs htruthful hroom htxs
  refine ⟨(hgains.trans ((pays_payMiner hpay).gains hroom')).gain_eq ?_, hburns⟩
  rw [← coins_add]
  congr 1
  ring

end Blocks

/-! ### Genesis -/

section Genesis

variable {L L' start : Ledger S.toCryptoSuite} {premine publicPremine : List (Bytes32 × UInt64)}

/-- The endowments of a genesis list. -/
def endowed (list : List (Bytes32 × UInt64)) : ℕ := (list.map fun entry ↦ entry.2.toNat).sum

theorem succeeds_of_orPanic {run : Transition LedgerError (Ledger S.toCryptoSuite)}
    (hrun : (Transition.orPanic run : Transition Empty _).after L = some L') :
    (run L).1 = .ok () := by
  unfold Transition.after Transition.orPanic at hrun
  rcases houtcome : run L with ⟨_ | _ | _, M⟩ <;> rw [houtcome] at hrun
  · cases hrun
  · cases hrun

/-- The endowment of an account: its registration, if it is new, and a credit. -/
theorem pays_endowed {id : Bytes32} {amount : ℤ}
    {credit : Transition LedgerError (Ledger S.toCryptoSuite)} (op : LedgerOp S.toCryptoSuite)
    (hop : ∀ tx height, op ≠ .applyAt tx height)
    (hadds : ∀ s : LedgerState S.toCryptoSuite, s.addedBy op token = amount)
    (hcredit : ∀ L : Ledger S.toCryptoSuite, L.step op = Ledger.settled (credit L))
    (hsucceeds : ∀ L : Ledger S.toCryptoSuite, (credit L).1 = .ok () → L.Succeeds op)
    (hL : L.Reachable)
    (hrun : (Transition.andThen
      (Transition.ignoreErr (fun state : Ledger S.toCryptoSuite ↦ state.register id))
      (Transition.orPanic credit) : Transition Empty _).after L = some L') :
    L'.Reachable ∧ Pays secret token L.view L'.view amount := by
  rw [Transition.after_andThen] at hrun
  obtain ⟨M, hregister, hlast⟩ := Option.bind_eq_some_iff.mp hrun
  have hfirst : L.step (.register id) = some M := settled_of_ignoreErr hregister
  have hsecond : M.step op = some L' := (hcredit M).trans (settled_of_orPanic hlast)
  have hM : M.Reachable := hL.step (.register id) trivial hfirst
  have hregistered : Pays secret token L.view M.view 0 := by
    obtain ⟨hperforms, hsame⟩ := hL.performs_cases hfirst
    by_cases hok : L.Succeeds (.register id)
    · exact pays_performs (by simp) (hperforms hok)
    · rw [hsame hok]
      exact .of_same rfl rfl rfl rfl rfl
  have hcredited : Pays secret token M.view L'.view amount := by
    rw [← hadds M.view]
    exact pays_performs hop
      ((hM.performs_cases hsecond).1 (hsucceeds M (succeeds_of_orPanic hlast)))
  refine ⟨hM.step op trivial hsecond, ?_⟩
  rw [← zero_add amount]
  exact hregistered.trans hcredited

theorem pays_each {step : Bytes32 × UInt64 → Transition Empty (Ledger S.toCryptoSuite)}
    {amount : Bytes32 × UInt64 → ℤ} {list : List (Bytes32 × UInt64)}
    (hstep : ∀ entry L L', L.Reachable → (step entry).after L = some L' →
      L'.Reachable ∧ Pays secret token L.view L'.view (amount entry))
    (hL : L.Reachable) (hrun : (Transition.each step list).after L = some L') :
    L'.Reachable ∧ Pays secret token L.view L'.view (list.map amount).sum := by
  induction list generalizing L with
  | nil =>
    obtain rfl := Option.some.inj hrun
    exact ⟨hL, .of_same rfl rfl rfl rfl rfl⟩
  | cons entry rest ih =>
    rw [Transition.each, Transition.after_andThen] at hrun
    obtain ⟨M, hfirst, hrest⟩ := Option.bind_eq_some_iff.mp hrun
    obtain ⟨hM, hpaid⟩ := hstep entry L M hL hfirst
    obtain ⟨hL', hpays⟩ := ih hM hrest
    exact ⟨hL', hpaid.trans hpays⟩

/-- What genesis endows of a token. -/
def premined (premine publicPremine : List (Bytes32 × UInt64)) (token : UInt32) : ℕ :=
  if token = LAT_TOKEN then endowed premine + endowed publicPremine else 0

theorem sum_endowed (list : List (Bytes32 × UInt64)) :
    (list.map fun entry ↦ if token = LAT_TOKEN then (entry.2.toNat : ℤ) else 0).sum =
      if token = LAT_TOKEN then (endowed list : ℤ) else 0 := by
  split
  · rw [endowed, Nat.cast_list_sum, List.map_map]
    rfl
  · rw [List.map_const', List.sum_replicate, smul_zero]

/-- The genesis ledger has what it was endowed with. -/
theorem gains_genesisState (hgenesis : Blockchain.genesisState premine publicPremine = some start)
    (hroom : start.view.Roomy) :
    Gains secret token .new start.view
      (coins S.toCryptoSuite (premined premine publicPremine token)) := by
  obtain ⟨L, hrun, rfl⟩ := Option.map_eq_some_iff.mp hgenesis
  rw [Transition.after_andThen] at hrun
  obtain ⟨M, hpremine, hpublic⟩ := Option.bind_eq_some_iff.mp hrun
  have hmid : M.Reachable ∧ Pays secret token Ledger.new.view M.view
      (premine.map fun entry ↦ if token = LAT_TOKEN then (entry.2.toNat : ℤ) else 0).sum :=
    pays_each (fun entry L L' hL hstep ↦ pays_endowed (.creditGenesis entry.1 entry.2) (by simp)
      (fun _ ↦ rfl) (fun _ ↦ rfl) (fun _ hok ↦ hok) hL hstep) .refl hpremine
  obtain ⟨hM, hfirst⟩ := hmid
  have hlast : L.Reachable ∧ Pays secret token M.view L.view
      (publicPremine.map fun entry ↦ if token = LAT_TOKEN then (entry.2.toNat : ℤ) else 0).sum :=
    pays_each (fun entry L L' hL hstep ↦ pays_endowed (.creditPublic entry.1 LAT_TOKEN entry.2)
      (by simp) (fun _ ↦ rfl) (fun _ ↦ rfl) (fun _ hok ↦ hok) hL hstep) hM hpublic
  obtain ⟨hL, hsecond⟩ := hlast
  have hflushed : L.flush.view = L.view := hL.view.1.flush.2
  rw [hflushed] at hroom ⊢
  have hpaid := (hfirst.trans hsecond).gains hroom
  rw [Ledger.view_new, sum_endowed, sum_endowed] at hpaid
  refine hpaid.gain_eq (congrArg (coins S.toCryptoSuite) ?_)
  unfold premined
  split_ifs <;> simp

end Genesis

/-! ### Chains -/

section Chains

variable {start L L' : Ledger S.toCryptoSuite} {branch : List (Block S)} {chain : Blockchain S}

/-- The run lemma: what the blocks of a branch lead to, and what the ledger gains by them. -/
theorem Replays.gains (hkeys : OpensKeys S.toCryptoSuite secret) (hstart : start.Reachable)
    (htruthful : ∀ entry ∈ branchEntries branch, Truthful entry.1)
    (hroom : ∀ s ∈ statesOn start.view branch, s.Roomy) (hreplay : Replays start branch L) :
    Gains secret token start.view L.view (coins S.toCryptoSuite
      (issuedOn start.view token branch + (branch.map fun block ↦ block.coinbase token).sum)) ∧
      issuedOn start.view LAT_TOKEN branch ≤ 0 ∧
      L.WellFormed ∧ L.view.Reachable ∧ L.view = objectsAfter start.view branch := by
  induction hreplay with
  | start =>
    refine ⟨?_, le_rfl, hstart.view.1, hstart.view.2, rfl⟩
    show Gains secret token start.view start.view (coins S.toCryptoSuite (0 + 0))
    rw [add_zero, coins_zero]
    exact .of_same rfl rfl rfl rfl rfl
  | @block below before after block _ hrun ih =>
    rw [statesOn, List.forall_mem_cons, List.forall_mem_append] at hroom
    obtain ⟨hlast, hthrough, hearlier⟩ := hroom
    have hentries : ∀ tx ∈ block.txs, Truthful tx := fun tx htx ↦
      htruthful (tx, block.header.height)
        (mem_branchEntries.mpr ⟨block, List.mem_cons_self, htx, rfl⟩)
    obtain ⟨hgains, hburns, hformed, hreach, hobjects⟩ := ih
      (fun entry hentry ↦ htruthful entry (List.mem_append_left _ hentry)) hearlier
    obtain ⟨houtcome, hafter, hview⟩ := Ledger.run_view hformed block.program
    rw [show block.program.run Ledger.handler before = (.ok (), after) from hrun]
      at houtcome hafter hview
    have hruns : LedgerState.Runs block.program before.view () after.view :=
      Prod.ext houtcome.symm hview.symm
    have hnext : after.view = objectsAfter start.view (block :: below) := by
      rw [objectsAfter, ← hobjects]
      exact hview
    rw [← hnext] at hlast
    rw [← hobjects] at hthrough
    obtain ⟨hblock, hburnt⟩ := gains_block hkeys hreach hentries hthrough hlast hruns
    refine ⟨(hgains.trans hblock).gain_eq ?_, ?_, hafter, reachable_blockProgram hreach hruns, hnext⟩
    · rw [← coins_add, issuedOn, ← hobjects, List.map_cons, List.sum_cons]
      congr 1
      ring
    · rw [issuedOn, ← hobjects]
      omega

theorem start_mem_statesOn (s : LedgerState S.toCryptoSuite) : s ∈ statesOn s branch := by
  induction branch with
  | nil => exact List.mem_singleton_self s
  | cons block below ih => exact List.mem_cons_of_mem _ (List.mem_append_right _ ih)

/-- The rewards of the blocks of a branch at their heights are at most what is minted up to its tip. -/
theorem sum_coinbase_le
    (hheights : ∀ (block : Block S) older, block :: older <:+ branch →
      block.header.height.toNat = older.length + 1) :
    (branch.map fun block ↦ block.coinbase LAT_TOKEN).sum ≤ minted (branch.length + 1) := by
  induction branch with
  | nil => simp [minted]
  | cons block below ih =>
    have hbelow := ih fun other older hsuffix ↦
      hheights other older (hsuffix.trans (List.suffix_cons block below))
    have hheight := hheights block below List.suffix_rfl
    have hword : UInt64.ofNat (below.length + 1) = block.header.height := by
      rw [← hheight, UInt64.ofNat_toNat]
    have hminted : minted (below.length + 1 + 1) =
        minted (below.length + 1) + (emission block.header.height).toNat := by
      rw [← hword]
      exact Finset.sum_Ico_succ_top (Nat.le_add_left 1 below.length) _
    have hreward : block.coinbase LAT_TOKEN ≤ (emission block.header.height).toNat := by
      unfold Block.coinbase
      split
      · have hfees : 0 ≤ feesIn block.txs LAT_TOKEN := by
          refine List.sum_nonneg ?_
          intro fee hfee
          obtain ⟨tx, -, rfl⟩ := List.mem_map.mp hfee
          unfold feeIn
          split <;> omega
        omega
      · rw [if_pos rfl]
    rw [List.map_cons, List.sum_cons, List.length_cons, hminted, Nat.cast_add]
    omega

variable {workers : ℕ} {premine publicPremine : List (Bytes32 × UInt64)} {difficulty : UInt64}

/-- **The supply of a chain.** However a chain came about, its ledger is worth what genesis endowed,
what the transactions of the active branch issued and what its blocks added. In native LAT that is at
most the premine and the rewards of the blocks up to the tip, so it is capped. -/
theorem supply_law
    (hreach : Blockchain.Reachable workers premine publicPremine difficulty chain)
    (hfollows : chain.Follows start branch) (hkeys : OpensKeys S.toCryptoSuite secret)
    (htruthful : ∀ entry ∈ branchEntries branch, Truthful entry.1)
    (hroom : ∀ s ∈ statesOn start.view branch, s.Roomy) :
    (∀ token, chain.activeState.view.worth secret token = coins S.toCryptoSuite
      (premined chain.premine chain.publicPremine token + (issuedOn start.view token branch +
        (branch.map fun block ↦ block.coinbase token).sum))) ∧
      premined chain.premine chain.publicPremine LAT_TOKEN +
          (issuedOn start.view LAT_TOKEN branch +
            (branch.map fun block ↦ block.coinbase LAT_TOKEN).sum) ≤
        (endowed chain.premine + endowed chain.publicPremine +
          minted (chain.activeHeight.toNat + 1) : ℤ) ∧
      minted (chain.activeHeight.toNat + 1) ≤ 1310713951424 := by
  obtain ⟨genesis, hgenesis, v, htracks⟩ := tracks_of_reachable hreach
  have hzero := genesisOf_height hgenesis
  have hstart : start.Reachable := reachableBy_genesisState (fun _ _ _ ↦ trivial) hfollows.genesis
  obtain ⟨L, hreplay, hagree⟩ := hfollows.replay
  have hheight : chain.activeHeight.toNat = branch.length := by
    have hlength := congrArg List.length (hfollows.path.symm.trans htracks.active)
    rw [Blockchain.pathOver, List.length_reverse, List.length_append, List.length_map,
      TreeRules.length_path, List.length_singleton] at hlength
    rw [htracks.height]
    exact (Nat.add_right_cancel hlength).symm
  have hlast := chain.activeHeight.toNat_lt
  have hruns : ∀ token, Gains secret token start.view L.view (coins S.toCryptoSuite
      (issuedOn start.view token branch + (branch.map fun block ↦ block.coinbase token).sum)) ∧
        issuedOn start.view LAT_TOKEN branch ≤ 0 := by
    intro token
    obtain ⟨hgains, hburns, -⟩ := hreplay.gains hkeys hstart htruthful hroom
    exact ⟨hgains, hburns⟩
  refine ⟨fun token ↦ ?_, ?_, minted_le hlast⟩
  · have hendowed : Gains secret token .new start.view (coins S.toCryptoSuite
        (premined chain.premine chain.publicPremine token)) :=
      gains_genesisState hfollows.genesis (hroom _ (start_mem_statesOn start.view))
    rw [hagree.symm.view_eq, coins_add]
    exact (hendowed.trans (hruns token).1).worth_of_new
  · have hburns := (hruns LAT_TOKEN).2
    have hpaid := sum_coinbase_le fun block older hsuffix ↦ (htracks.served hzero hfollows hsuffix).1
    have hpremined : premined chain.premine chain.publicPremine LAT_TOKEN =
        endowed chain.premine + endowed chain.publicPremine := if_pos rfl
    rw [hheight, hpremined, Nat.cast_add]
    omega

end Chains

/-! ### A block that pays its miner -/

/-- The first block over the genesis ledger of the staker: it bonds the stake, and the staker has
mined it. -/
def coinbaseBlock : Block rootlessSuite where
  header := ⟨(Blockchain.genesisHeader 0).id rootlessSuite, 1, GENESIS_TIMESTAMP,
    txRoot rootlessSuite stakeBlock.txs, 0, 5, 0⟩
  txs := stakeBlock.txs

/-- The ledger after its transaction. -/
def coinbaseStaked : Ledger rootlessSuite.toCryptoSuite :=
  ((LedgerM.applyTx 1 (.stake 5 100000000 0 5)).run Ledger.handler stakerGenesis).2

/-- The ledger after the block. -/
def coinbasePaid : Ledger rootlessSuite.toCryptoSuite :=
  (coinbaseBlock.program.run Ledger.handler stakerGenesis).2

/-- The records of the three ledgers. -/
def stakerKeys : List RecordKey :=
  [.committed (.account 5), .committed (.validator 5), .committed .metaRecord]

theorem coinbaseBlock_facts :
    (coinbaseBlock.program.run LedgerState.handler stakerObjects).1 = .ok () ∧
    (childNode (Blockchain.genesisNode rootlessSuite 0 1) coinbaseBlock).isSome ∧
    coinbaseBlock.id ≠ (Blockchain.genesisHeader 0).id rootlessSuite ∧
    (∀ L ∈ [stakerGenesis, coinbaseStaked, coinbasePaid], (∀ bytes ∈ L.objectRecords.map Prod.fst,
        ∃ key ∈ stakerKeys, bytes = key.bytes) ∧ L.view.stakeHeld 5 < 2 ^ 63 ∧
      (L.view.accountOr 5).publics.toList.all (·.2 ≤ 9223372036854775806)) := by
  decide +kernel

theorem opensKeys_rootlessSuite : OpensKeys rootlessSuite.toCryptoSuite fun id ↦ id.toNat :=
  fun key ↦ toNat_zsmul_one key.point

/-- The stake and the reward on the branch of a node. -/
theorem supply_law_coinbase : ∃ chain : Blockchain rootlessSuite,
    Blockchain.Reachable 1 [] stakerPremine 1 chain ∧
      chain.Follows stakerGenesis [coinbaseBlock] ∧
      branchEntries [coinbaseBlock] = [(.stake 5 100000000 0 5, 1)] ∧
      chain.activeState.view.worth (fun id ↦ id.toNat) LAT_TOKEN =
        coins rootlessSuite.toCryptoSuite 205000000 := by
  obtain ⟨hok, hchild, hother, hrecords⟩ := coinbaseBlock_facts
  obtain ⟨node, hnode⟩ := Option.isSome_iff_exists.mp hchild
  obtain ⟨chain, hreach, hfollows, hpremine, hpublic, -⟩ :=
    @exists_first _ 1 _ _ 1 (fun _ ↦ rfl) rootlessSuite_collisionFree _ genesisState_staker _ _ hnode
      rfl hother rfl rfl _ (LedgerState.runs_of_ok hok)
  have hroomy : ∀ L ∈ [stakerGenesis, coinbaseStaked, coinbasePaid], L.view.Roomy := by
    intro L hL
    obtain ⟨hkeys, hstake, hpublics⟩ := hrecords L hL
    refine Ledger.roomy_of_records [5] hkeys ?_ ?_
    · simp [stakerKeys]
    · intro id hid
      rw [List.mem_singleton.mp hid]
      exact ⟨hstake, hpublics⟩
  have hstart : stakerGenesis.Reachable :=
    reachableBy_genesisState (fun _ _ _ ↦ trivial) genesisState_staker
  have hstaked : coinbaseStaked.view = stakerGenesis.view.afterTx (.stake 5 100000000 0 5) 1 :=
    (Ledger.run_view hstart.view.1 _).2.2
  have hpaid : coinbasePaid.view = objectsAfter stakerGenesis.view [coinbaseBlock] :=
    (Ledger.run_view hstart.view.1 coinbaseBlock.program).2.2
  have hroom : ∀ s ∈ statesOn stakerGenesis.view [coinbaseBlock], s.Roomy := by
    have hstates : statesOn stakerGenesis.view [coinbaseBlock] =
        [coinbasePaid.view, stakerGenesis.view, coinbaseStaked.view, stakerGenesis.view] := by
      rw [hpaid, hstaked]
      rfl
    rw [hstates]
    simp only [List.forall_mem_cons] at hroomy ⊢
    obtain ⟨hgenesis, hbonded, hrewarded, hrest⟩ := hroomy
    exact ⟨hrewarded, hgenesis, hbonded, hgenesis, fun _ hmem ↦ absurd hmem List.not_mem_nil⟩
  have hentries : branchEntries [coinbaseBlock] = [(.stake 5 100000000 0 5, 1)] := rfl
  have htruthful : ∀ entry ∈ branchEntries [coinbaseBlock], Truthful entry.1 := by
    rw [hentries]
    intro entry hentry
    rw [List.mem_singleton.mp hentry]
    trivial
  obtain ⟨hworth, -⟩ := supply_law hreach hfollows opensKeys_rootlessSuite htruthful hroom
  refine ⟨chain, hreach, hfollows, hentries, (hworth LAT_TOKEN).trans (congrArg (coins _) ?_)⟩
  rw [hpremine, hpublic]
  rfl

end Latebra.Chain
