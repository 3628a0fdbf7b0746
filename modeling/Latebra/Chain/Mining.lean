import Latebra.Chain.ActiveLedger

/-!
# Mining

A miner filters its candidates by applying them one by one to a copy of its ledger (`selectValid`),
applies what is left to another copy, in parallel and with its own reward, for the state root to
commit, and searches a nonce (`mineWithReward`). A validator applies the block to a third copy.

The three meet in the program of the block: the selection runs it on the objects, candidate by
candidate (`Selects`), so mining succeeds with it and commits its root, and validation finds the same
root. A block on the active tip that is mined is also new to the tree, because a known child of the
tip would be heavier than the tip and just as final.
-/

set_option autoImplicit false
set_option relaxedAutoImplicit false

namespace Latebra.Chain

open Foundation Crypto Latebra.Types State

variable {S : ChainSuite}

/-- The candidates that pass the rules of a transaction and apply, one after the other, to a
ledger. There is no answer after a panic. -/
def selectFrom (height : UInt64) : List (Transaction S.toCryptoSuite) → Ledger S.toCryptoSuite →
    Option (List (Transaction S.toCryptoSuite))
  | [], _ => some []
  | tx :: rest, state =>
    match checkTx S tx with
    | .error _ => selectFrom height rest state
    | .ok _ =>
      match state.applyAt tx height with
      | (.ok _, state) => (selectFrom height rest state).map (tx :: ·)
      | (.err _, state) => selectFrom height rest state
      | (.panicked, _) => none

variable (S) in
/-- Count the nonce of a header up until the header meets a difficulty. -/
def searchNonce (difficulty : UInt64) : ℕ → BlockHeader → Option BlockHeader
  | 0, _ => none
  | fuel + 1, header =>
    if meetsDifficulty (header.id S) difficulty then some header
    else
      (checkedAdd header.nonce 1).bind fun nonce ↦
        searchNonce difficulty fuel { header with nonce := nonce }

namespace Blockchain

/-- The candidates that can be included in the next block on the active tip. -/
def selectValid (chain : Blockchain S) (txs : List (Transaction S.toCryptoSuite)) :
    Option (List (Transaction S.toCryptoSuite)) :=
  (checkedAdd chain.activeHeight 1).bind fun height ↦ selectFrom height txs chain.activeState.clone

/-- The difficulty of the next block on the active tip. -/
def difficulty (chain : Blockchain S) : Option UInt64 :=
  chain.tree[chain.activeTip]?.map TreeNode.childDifficulty

/-- Mine a block on the active tip for a miner. An error of the transactions is ignored, and a nonce
is counted up at most through all words. -/
def mineWithReward (chain : Blockchain S) (miner : Bytes32)
    (txs : List (Transaction S.toCryptoSuite)) (timestamp : UInt64) : Option (Block S) := do
  let difficulty ← chain.difficulty
  let height ← checkedAdd chain.activeHeight 1
  let post ← (Transition.ignoreErr (applyTxsAndReward chain.workers txs miner height) :
    Transition Empty (Ledger S.toCryptoSuite)).after chain.activeState.clone
  let answer ← post.stateRoot
  let header ← searchNonce S difficulty (2 ^ 64)
    { prevHash := chain.activeTip
      height := height
      timestamp := timestamp
      txRoot := txRoot S txs
      stateRoot := S.digestBytes answer.1
      miner := miner
      nonce := 0 }
  return ⟨header, txs⟩

end Blockchain

/-! ### Selection -/

/-- What becomes of each candidate of a selection, on the objects: it is kept when it passes the
rules and applies after those kept before it, and skipped when it breaks a rule or is refused. -/
inductive Selects (height : UInt64) : List (Transaction S.toCryptoSuite) →
    LedgerState S.toCryptoSuite → List (Transaction S.toCryptoSuite) →
      LedgerState S.toCryptoSuite → Prop
  | nil (s) : Selects height [] s [] s
  | keep {tx rest kept s s₁ s'} : checkTx S tx = .ok () →
      LedgerState.Runs (LedgerM.applyTx height tx) s () s₁ → Selects height rest s₁ kept s' →
        Selects height (tx :: rest) s (tx :: kept) s'
  | skipBroken {tx rest kept s s' e} : checkTx S tx = .error e → Selects height rest s kept s' →
      Selects height (tx :: rest) s kept s'
  | skipRefused {tx rest kept s s' e} : checkTx S tx = .ok () →
      Program.FailsWith LedgerState.handler (applyInner tx height none) s e →
        Selects height rest s kept s' → Selects height (tx :: rest) s kept s'

/-- No candidate panics where the selection tries it. -/
def Calm (height : UInt64) (txs : List (Transaction S.toCryptoSuite))
    (s : LedgerState S.toCryptoSuite) : Prop :=
  ∀ before tx after kept s', txs = before ++ tx :: after → Selects height before s kept s' →
    checkTx S tx = .ok () → ¬ Program.Panics LedgerState.handler (applyInner tx height none) s'

section Selection

variable {height : UInt64} {tx : Transaction S.toCryptoSuite}
  {txs rest kept : List (Transaction S.toCryptoSuite)} {L : Ledger S.toCryptoSuite}
  {s s₁ s' : LedgerState S.toCryptoSuite} {e : LedgerError}

/-- A selection passes the rules and runs on the objects. -/
theorem Selects.runs (h : Selects height txs s kept s') :
    (∀ tx ∈ kept, checkTx S tx = .ok ()) ∧
      LedgerState.Runs (Program.forEach kept (LedgerM.applyTx height)) s () s' := by
  induction h with
  | nil s => exact ⟨fun tx htx ↦ absurd htx List.not_mem_nil, (Program.returns_pure ..).mpr ⟨rfl, rfl⟩⟩
  | keep hcheck hfirst _ ih =>
    obtain ⟨hchecked, hruns⟩ := ih
    refine ⟨?_, ?_⟩
    · intro other hother
      rcases List.mem_cons.mp hother with rfl | hrest
      · exact hcheck
      · exact hchecked other hrest
    · rw [Program.forEach_cons]
      exact (Program.returns_bind ..).mpr ⟨(), _, hfirst, hruns⟩
  | skipBroken _ _ ih => exact ih
  | skipRefused _ _ _ ih => exact ih

/-- A candidate that applies is neither refused nor panics. -/
theorem outcome_of_runs (hruns : LedgerState.Runs (LedgerM.applyTx height tx) s () s₁) :
    ((applyInner tx height none).run LedgerState.handler s).1 = .ok () := by
  obtain ⟨s₂, hinner, -⟩ := LedgerState.runs_applyTx.mp hruns
  exact congrArg Prod.fst hinner

/-- What becomes of a candidate that breaks a rule. -/
theorem selects_cons_of_error {reason : ChainError} (hcheck : checkTx S tx = .error reason) :
    Selects height (tx :: rest) s kept s' ↔ Selects height rest s kept s' := by
  refine ⟨fun h ↦ ?_, .skipBroken hcheck⟩
  cases h with
  | keep hok => exact absurd (hcheck.symm.trans hok) (by simp)
  | skipBroken _ hrest => exact hrest
  | skipRefused hok => exact absurd (hcheck.symm.trans hok) (by simp)

/-- What becomes of a candidate that is refused. -/
theorem selects_cons_of_failsWith (hcheck : checkTx S tx = .ok ())
    (hfails : Program.FailsWith LedgerState.handler (applyInner tx height none) s e) :
    Selects height (tx :: rest) s kept s' ↔ Selects height rest s kept s' := by
  refine ⟨fun h ↦ ?_, .skipRefused hcheck hfails⟩
  cases h with
  | keep _ hruns => exact absurd (hfails.symm.trans (outcome_of_runs hruns)) (by simp)
  | skipBroken hbroken => exact absurd (hcheck.symm.trans hbroken) (by simp)
  | skipRefused _ _ hrest => exact hrest

/-- What becomes of a candidate that applies. -/
theorem selects_cons_of_runs (hcheck : checkTx S tx = .ok ())
    (hruns : LedgerState.Runs (LedgerM.applyTx height tx) s () s₁) :
    Selects height (tx :: rest) s kept s' ↔
      ∃ later, Selects height rest s₁ later s' ∧ tx :: later = kept := by
  refine ⟨fun h ↦ ?_, fun ⟨later, hlater, heq⟩ ↦ heq ▸ .keep hcheck hruns hlater⟩
  cases h with
  | keep _ hfirst hrest =>
    obtain rfl := (Prod.mk.inj (hruns.symm.trans hfirst)).2
    exact ⟨_, hrest, rfl⟩
  | skipBroken hbroken => exact absurd (hcheck.symm.trans hbroken) (by simp)
  | skipRefused _ hfails => exact absurd (hfails.symm.trans (outcome_of_runs hruns)) (by simp)

/-- A candidate that panics leaves no selection. -/
theorem not_selects_of_panics (hcheck : checkTx S tx = .ok ())
    (hpanics : Program.Panics LedgerState.handler (applyInner tx height none) s) :
    ¬ Selects height (tx :: rest) s kept s' := by
  intro h
  cases h with
  | keep _ hruns => exact absurd (hpanics.symm.trans (outcome_of_runs hruns)) (by simp)
  | skipBroken hbroken => exact absurd (hcheck.symm.trans hbroken) (by simp)
  | skipRefused _ hfails => exact absurd (hpanics.symm.trans hfails) (by simp)

/-- The three ways that a candidate can go on the objects. -/
theorem applyTx_cases (height : UInt64) (tx : Transaction S.toCryptoSuite)
    (s : LedgerState S.toCryptoSuite) :
    (∃ s₁, LedgerState.Runs (LedgerM.applyTx height tx) s () s₁) ∨
      (∃ e, Program.FailsWith LedgerState.handler (applyInner tx height none) s e) ∨
      Program.Panics LedgerState.handler (applyInner tx height none) s := by
  rcases hinner : (applyInner tx height none).run LedgerState.handler s with ⟨_ | e | _, s₂⟩
  · exact .inl ⟨_, LedgerState.runs_applyTx.mpr ⟨s₂, hinner, rfl⟩⟩
  · exact .inr (.inl ⟨e, congrArg Prod.fst hinner⟩)
  · exact .inr (.inr (congrArg Prod.fst hinner))

/-- Selecting in two parts. -/
theorem Selects.append {before after first later : List (Transaction S.toCryptoSuite)}
    (hfirst : Selects height before s first s₁) (hlater : Selects height after s₁ later s') :
    Selects height (before ++ after) s (first ++ later) s' := by
  induction hfirst with
  | nil => exact hlater
  | keep hcheck hruns _ ih => exact .keep hcheck hruns (ih hlater)
  | skipBroken hcheck _ ih => exact .skipBroken hcheck (ih hlater)
  | skipRefused hcheck hfails _ ih => exact .skipRefused hcheck hfails (ih hlater)

/-- What is selected of a list starts with what is selected of its start. -/
theorem Selects.exists_later {before after first : List (Transaction S.toCryptoSuite)}
    (hfirst : Selects height before s first s₁) (h : Selects height (before ++ after) s kept s') :
    ∃ later, Selects height after s₁ later s' := by
  induction hfirst generalizing kept with
  | nil => exact ⟨_, h⟩
  | keep hcheck hruns _ ih =>
    obtain ⟨later, hlater, -⟩ := (selects_cons_of_runs hcheck hruns).mp h
    exact ih hlater
  | skipBroken hcheck _ ih => exact ih ((selects_cons_of_error hcheck).mp h)
  | skipRefused hcheck hfails _ ih => exact ih ((selects_cons_of_failsWith hcheck hfails).mp h)

/-- Every candidate is kept or skipped exactly when none panics. -/
theorem exists_selects_iff :
    (∃ kept s', Selects height txs s kept s') ↔ Calm height txs s := by
  constructor
  · rintro ⟨kept, s', hselects⟩ before tx after first s₁ rfl hfirst hcheck hpanics
    obtain ⟨later, hlater⟩ := hfirst.exists_later hselects
    exact not_selects_of_panics hcheck hpanics hlater
  · intro hcalm
    induction txs generalizing s with
    | nil => exact ⟨[], s, .nil s⟩
    | cons tx rest ih =>
      -- a later candidate is tried where the selection of the whole list tries it
      have hrest : ∀ {first s₁}, Selects height [tx] s first s₁ → Calm height rest s₁ := by
        rintro first s₁ hfirst before other after later s₂ rfl hlater
        exact hcalm (tx :: before) other after _ s₂ rfl (hfirst.append hlater)
      cases hcheck : checkTx S tx with
      | error reason =>
        obtain ⟨kept, s', hkept⟩ := ih (hrest (.skipBroken hcheck (.nil s)))
        exact ⟨kept, s', .skipBroken hcheck hkept⟩
      | ok value =>
        rcases applyTx_cases height tx s with ⟨s₁, hruns⟩ | ⟨e, hfails⟩ | hpanics
        · obtain ⟨kept, s', hkept⟩ := ih (hrest (.keep hcheck hruns (.nil s₁)))
          exact ⟨tx :: kept, s', .keep hcheck hruns hkept⟩
        · obtain ⟨kept, s', hkept⟩ := ih (hrest (.skipRefused hcheck hfails (.nil s)))
          exact ⟨kept, s', .skipRefused hcheck hfails hkept⟩
        · exact absurd hpanics (hcalm [] tx rest [] s rfl (.nil s) hcheck)

/-- A transaction ends on a ledger as it does on the objects. -/
theorem outcome_applyAt (hL : L.WellFormed) (tx : Transaction S.toCryptoSuite) (height : UInt64) :
    (L.applyAt tx height).1 =
      ((applyInner tx height none).run LedgerState.handler L.view).1 := by
  obtain ⟨houtcome, -, -⟩ := Ledger.run_view hL (applyInner tx height none)
  rw [← houtcome, Ledger.applyAt, Ledger.applyAtWith]
  rcases (applyInner tx height none).run Ledger.handler L with ⟨_ | e | _, M⟩ <;> rfl

/-- The candidates are selected on a ledger as they are on its objects. -/
theorem selectFrom_eq_some (hL : L.WellFormed) (hobjects : L.view.Reachable) :
    selectFrom height txs L = some kept ↔ ∃ s', Selects height txs L.view kept s' := by
  induction txs generalizing L kept with
  | nil =>
    rw [selectFrom, Option.some.injEq]
    constructor
    · rintro rfl
      exact ⟨L.view, .nil _⟩
    · rintro ⟨s', h⟩
      cases h
      rfl
  | cons tx rest ih =>
    rw [selectFrom]
    cases hcheck : checkTx S tx with
    | error reason =>
      dsimp only
      rw [ih hL hobjects]
      exact exists_congr fun s' ↦ (selects_cons_of_error hcheck).symm
    | ok value =>
      have hends := outcome_applyAt hL tx height
      rcases houtcome : L.applyAt tx height with ⟨_ | e | _, M⟩
      · obtain ⟨hM, s₁, hinner, hview⟩ := hL.applyAt_ok houtcome
        have hMobjects : M.view.Reachable := by
          rw [hview]
          exact hobjects.step (.apply tx height hinner)
        have hfirst : LedgerState.Runs (LedgerM.applyTx height tx) L.view () M.view :=
          LedgerState.runs_applyTx.mpr ⟨s₁, hinner, hview⟩
        dsimp only
        simp only [Option.map_eq_some_iff, ih hM hMobjects, selects_cons_of_runs hcheck hfirst]
        exact ⟨fun ⟨later, ⟨s', hlater⟩, heq⟩ ↦ ⟨s', later, hlater, heq⟩,
          fun ⟨s', later, hlater, heq⟩ ↦ ⟨later, ⟨s', hlater⟩, heq⟩⟩
      · obtain ⟨hM, hclone⟩ := hL.clone_applyAt_err hobjects.sharesBacked houtcome
        have hview := Ledger.view_of_clone_eq hclone
        rw [houtcome] at hends
        dsimp only
        rw [ih hM (hview ▸ hobjects), hview]
        exact exists_congr fun s' ↦ (selects_cons_of_failsWith hcheck hends.symm).symm
      · rw [houtcome] at hends
        dsimp only
        refine ⟨fun hselect ↦ absurd hselect (by simp), ?_⟩
        rintro ⟨s', h⟩
        exact absurd h (not_selects_of_panics hcheck hends.symm)

end Selection

/-! ### The nonce -/

section Nonce

variable {difficulty : UInt64} {fuel : ℕ} {header found : BlockHeader}

/-- What a search finds meets the difficulty, and differs from its start in the nonce alone. -/
theorem searchNonce_eq_some (hfound : searchNonce S difficulty fuel header = some found) :
    meetsDifficulty (found.id S) difficulty = true ∧
      found = { header with nonce := found.nonce } := by
  induction fuel generalizing header with
  | zero => exact absurd hfound (by simp [searchNonce])
  | succ fuel ih =>
    rw [searchNonce] at hfound
    split at hfound
    · next hmeets =>
      obtain rfl := Option.some.inj hfound
      exact ⟨hmeets, rfl⟩
    · obtain ⟨nonce, -, hrest⟩ := Option.bind_eq_some_iff.mp hfound
      have hlater := ih hrest
      exact hlater

/-- A search over all words finds a nonce when there is one. -/
theorem searchNonce_isSome {nonce : UInt64}
    (hmeets : meetsDifficulty (({ header with nonce := nonce } : BlockHeader).id S) difficulty = true)
    (hle : header.nonce ≤ nonce) (hfuel : nonce.toNat < header.nonce.toNat + fuel) :
    (searchNonce S difficulty fuel header).isSome = true := by
  induction fuel generalizing header with
  | zero =>
    have hle' := UInt64.le_iff_toNat_le.mp hle
    omega
  | succ fuel ih =>
    rw [searchNonce]
    split
    · rfl
    · next hmisses =>
      have hle' := UInt64.le_iff_toNat_le.mp hle
      have hne : header.nonce.toNat ≠ nonce.toNat := by
        intro heq
        rw [← UInt64.toNat_inj.mp heq] at hmeets
        exact hmisses hmeets
      obtain ⟨next, hnext⟩ : ∃ next, checkedAdd header.nonce 1 = some next := by
        rw [← Option.isSome_iff_exists, Option.isSome_iff_ne_none, ne_eq, checkedAdd_eq_none]
        have hlt := nonce.toNat_lt
        have hone : (1 : UInt64).toNat = 1 := rfl
        omega
      have hsum : next.toNat = header.nonce.toNat + 1 := checkedAdd_eq_some.mp hnext
      rw [hnext, Option.bind_some]
      refine ih hmeets ?_ ?_
      · rw [UInt64.le_iff_toNat_le]
        change next.toNat ≤ nonce.toNat
        omega
      · change nonce.toNat < next.toNat + fuel
        omega

end Nonce

/-! ### Mined blocks -/

/-- What a mined block commits. -/
structure Mined (chain : Blockchain S) (miner : Bytes32)
    (txs : List (Transaction S.toCryptoSuite)) (block : Block S) : Prop where
  txs_eq : block.txs = txs
  miner_eq : block.header.miner = miner
  prevHash : block.header.prevHash = chain.activeTip
  height : checkedAdd chain.activeHeight 1 = some block.header.height
  txRoot_eq : block.header.txRoot = txRoot S block.txs
  work : ∃ difficulty, chain.difficulty = some difficulty ∧
    meetsDifficulty block.id difficulty = true
  root : ∃ post root post',
    (Transition.ignoreErr (applyTxsAndReward chain.workers txs miner block.header.height) :
      Transition Empty (Ledger S.toCryptoSuite)).after chain.activeState.clone = some post ∧
    post.stateRoot = some (root, post') ∧ S.digestBytes root = block.header.stateRoot

section Mining

variable {chain chain' : Blockchain S} {miner : Bytes32}
  {txs kept : List (Transaction S.toCryptoSuite)} {timestamp : UInt64} {block : Block S}

theorem mined_of_mineWithReward
    (hmined : chain.mineWithReward miner txs timestamp = some block) :
    Mined chain miner txs block := by
  simp only [Blockchain.mineWithReward, Option.bind_eq_bind, Option.bind_eq_some_iff,
    Option.pure_def, Option.some.injEq] at hmined
  obtain ⟨difficulty, hdifficulty, height, hheight, post, hpost, ⟨root, post'⟩, hroot, header, hfound,
    rfl⟩ := hmined
  obtain ⟨hmeets, hheader⟩ := searchNonce_eq_some hfound
  rw [hheader]
  rw [hheader] at hmeets
  exact ⟨rfl, rfl, rfl, hheight, rfl, ⟨difficulty, hdifficulty, hmeets⟩, post, root, post', hpost,
    hroot, rfl⟩

/-- Paying a miner is never refused. -/
theorem failsWith_payMiner {σ : Type} (handler : Handler (ledgerAlphabet S.toCryptoSuite) σ)
    (txs : List (Transaction S.toCryptoSuite)) (miner : Bytes32) (height : UInt64) (state : σ)
    (e : LedgerError) : ¬ Program.FailsWith handler (payMiner txs miner height) state e := by
  have hfees : ∀ state, ¬ Program.FailsWith handler
      (Program.forEach (txs.filterMap confidentialFee)
        (fun fee ↦ LedgerM.rewardMiner (C := S.toCryptoSuite) miner fee.1 fee.2)) state e :=
    Program.failsWith_forEach (by simp)
  have hpublic : ∀ state, ¬ Program.FailsWith handler
      (Program.forEach (txs.filterMap publicFee)
        (fun fee ↦ LedgerM.creditPublic (C := S.toCryptoSuite) miner fee.1 fee.2)) state e :=
    Program.failsWith_forEach (by simp)
  simp [payMiner, hfees, hpublic]

/-- A selection and the pay of its miner run as one block, when the pay does not panic. -/
theorem Selects.runs_block {height : UInt64} {s s' : LedgerState S.toCryptoSuite}
    (h : Selects height txs s kept s')
    (hpaid : ¬ Program.Panics LedgerState.handler (payMiner kept miner height) s') :
    ∃ s₁, LedgerState.Runs (blockProgram kept miner height) s () s₁ := by
  rcases houtcome : (payMiner kept miner height).run LedgerState.handler s' with ⟨_ | e | _, s₁⟩
  · exact ⟨s₁, (Program.returns_bind ..).mpr ⟨(), s', h.runs.2, houtcome⟩⟩
  · exact absurd (congrArg Prod.fst houtcome) (failsWith_payMiner _ _ _ _ _ e)
  · exact absurd (congrArg Prod.fst houtcome) hpaid

/-- Mining with a selection applies it, because the rewards are never refused. -/
theorem applied_of_settled {workers : ℕ} {height : UInt64} {L post : Ledger S.toCryptoSuite}
    (hL : L.WellFormed) {s' : LedgerState S.toCryptoSuite}
    (hruns : LedgerState.Runs (Program.forEach txs (LedgerM.applyTx height)) L.view () s')
    (hpost : (Transition.ignoreErr (applyTxsAndReward workers txs miner height) :
      Transition Empty (Ledger S.toCryptoSuite)).after L = some post) :
    (applyTxsAndReward workers txs miner height).after L = some post := by
  have hsequential : ∃ M, (Ledger.applySequential txs height).after L = some M := by
    obtain ⟨houtcome, -, -⟩ :=
      Ledger.run_view hL (Program.forEach txs (LedgerM.applyTx (C := S.toCryptoSuite) height))
    have hviewed : (Program.forEach txs (LedgerM.applyTx height)).run LedgerState.handler L.view =
        (.ok (), s') := hruns
    rw [hviewed] at houtcome
    rw [Ledger.applySequential_eq]
    exact ⟨_, Transition.after_eq_some.mpr (Prod.ext houtcome rfl)⟩
  obtain ⟨M, hM⟩ := hsequential
  obtain ⟨M', hM'⟩ : ∃ M', (Ledger.applyBlockParallel workers txs height).after L = some M' := by
    rcases Ledger.alike_applyBlockParallel workers txs height L L hL hL fun _ ↦ rfl with
      ⟨-, hnone⟩ | ⟨M', _, hM', -⟩
    · exact absurd (hnone.symm.trans hM) (by simp)
    · exact ⟨M', hM'⟩
  rw [Transition.after_eq_some] at hM'
  have hpaid : ∀ e, (rewardBlock txs miner height M').1 ≠ .err e := by
    intro e
    rw [rewardBlock_eq]
    exact failsWith_payMiner Ledger.handler txs miner height M' e
  rw [Transition.after_eq_some] at hpost ⊢
  unfold Transition.ignoreErr at hpost
  unfold applyTxsAndReward Transition.mapErr Transition.andThen at hpost ⊢
  rw [hM'] at hpost ⊢
  dsimp only at hpost ⊢
  rcases hreward : rewardBlock txs miner height M' with ⟨_ | e | _, N⟩
  · rw [hreward] at hpost
    obtain ⟨-, rfl⟩ := Prod.mk.inj hpost
    rfl
  · exact absurd (congrArg Prod.fst hreward) (hpaid e)
  · rw [hreward] at hpost
    exact absurd (congrArg Prod.fst hpost) (by simp)

/-- The active tip has a difficulty. -/
theorem Tracks.exists_difficulty {genesis : TreeNode} {v : (blockRules S genesis).View}
    (h : Tracks chain v) : ∃ difficulty, chain.difficulty = some difficulty := by
  have hknown : v.known chain.activeTip = some v.active := by
    rw [h.tip, h.formed.active]
  have hnode : chain.tree[chain.activeTip]? ≠ none := by
    rw [ne_eq, h.isSome_tree h.formed.toClosed, hknown]
    simp
  obtain ⟨node, hnode⟩ := Option.ne_none_iff_exists'.mp hnode
  exact ⟨node.childDifficulty, by rw [Blockchain.difficulty, hnode, Option.map_some]⟩

/-- A mined block is new to the tree, unless its id is that of another header. -/
theorem unknown_of_mined {genesis : TreeNode} {v : (blockRules S genesis).View}
    (h : Tracks chain v) (hzero : genesis.header.height = 0)
    (hmined : Mined chain miner txs block)
    (hfree : ∀ node, chain.tree[block.id]? = some node → node.header = block.header) :
    chain.tree[block.id]? = none := by
  by_contra hsome
  obtain ⟨node, hnode⟩ := Option.ne_none_iff_exists'.mp hsome
  obtain ⟨branch, hknown, hmark⟩ := h.node hnode
  have hheader := hfree node hnode
  cases branch with
  | nil =>
    obtain rfl : genesis = node := Option.some.inj hmark
    have hheight : block.header.height.toNat = chain.activeHeight.toNat + 1 :=
      checkedAdd_eq_some.mp hmined.height
    rw [← hheader, hzero] at hheight
    exact absurd hheight (Nat.succ_ne_zero _).symm
  | cons top rest =>
    obtain ⟨parent, -, hadmit⟩ := Option.bind_eq_some_iff.mp hmark
    have hsame := (admits_of_validate (childNode_eq_some.mp hadmit).2).header
    refine h.formed.parent_ne_tip hknown ?_
    change top.header.prevHash = _
    rw [← hsame, hheader, hmined.prevHash, h.tip]

theorem genesisOf_headerHeight {premine publicPremine : List (Bytes32 × UInt64)}
    {difficulty : UInt64} {genesis : TreeNode}
    (hgenesis : genesisOf S premine publicPremine difficulty = some genesis) :
    genesis.header.height = 0 := by
  obtain ⟨answer, -, rfl⟩ := Option.map_eq_some_iff.mp hgenesis
  rfl

theorem forM_checkTx_eq_ok (hchecked : ∀ tx ∈ txs, checkTx S tx = .ok ()) :
    txs.forM (checkTx S) = .ok () := by
  induction txs with
  | nil => rfl
  | cons tx rest ih =>
    change (checkTx S tx >>= fun _ ↦ rest.forM (checkTx S)) = .ok ()
    rw [hchecked tx List.mem_cons_self]
    exact ih fun other hother ↦ hchecked other (List.mem_cons_of_mem _ hother)

/-- A mined block passes the structural rules. -/
theorem admitted_of_mined {genesis : TreeNode} {v : (blockRules S genesis).View}
    (h : Tracks chain v) (hzero : genesis.height = 0) (hmined : Mined chain miner txs block)
    (hnew : chain.tree[block.id]? = none) (hcount : block.txs.length ≤ MAX_TXS_PER_BLOCK)
    (hchecked : ∀ tx ∈ block.txs, checkTx S tx = .ok ()) :
    ∃ node, chain.Admitted block node := by
  obtain ⟨difficulty, hdifficulty, hmeets⟩ := hmined.work
  obtain ⟨parent, hparent, rfl⟩ := Option.map_eq_some_iff.mp hdifficulty
  have hheight : parent.height = chain.activeHeight := by
    obtain ⟨branch, hknown, hmark⟩ := h.node hparent
    rw [h.tip, h.formed.active] at hknown
    obtain rfl := Option.some.inj hknown
    rw [← UInt64.toNat_inj, h.height, height_of_mark hzero hmark]
  have hvalid : ∃ node, Blockchain.validate parent block = .ok node := by
    unfold Blockchain.validate
    rw [hheight, hmined.height]
    simp only [ne_eq, not_true_eq_false, if_false, hmined.txRoot_eq, hmeets,
      forM_checkTx_eq_ok hchecked]
    exact ⟨_, rfl⟩
  obtain ⟨node, hnode⟩ := hvalid
  exact ⟨node, hnew, parent, by rw [hmined.prevHash, hparent],
    childNode_eq_some.mpr ⟨not_lt.mpr hcount, hnode⟩⟩

/-- Two machines compute the same state root of a block. -/
theorem applyBlockState_of_workers (hfree : S.toCryptoSuite.trie.CollisionFree) {workers : ℕ}
    (workers' : ℕ)
    {L post M : Ledger S.toCryptoSuite} {root : S.Digest} (hL : L.Grounded)
    (hpost : (applyTxsAndReward workers block.txs block.header.miner block.header.height).after L =
      some post) (hroot : post.stateRoot = some (root, M))
    (hcommits : S.digestBytes root = block.header.stateRoot)
    (hpaths : Set.InjOn (Ledger.trieKey S.toCryptoSuite) { key | key ∈ post.dirty }) :
    ∃ next, applyBlockState workers' block L = (.ok (), next) := by
  obtain ⟨hformed, hruns, htree⟩ := applied_spec hL.formed hpost
  obtain ⟨post', hpost'⟩ := applied_of_runs workers' hL.formed hruns
  obtain ⟨hformed', -, htree'⟩ := applied_spec hL.formed hpost'
  obtain ⟨content, hcontent⟩ := hL.stored hfree
  have hsame : SameObs Ledger.observe post' post := by
    rcases alike_applyTxsAndReward workers' block.txs block.header.miner block.header.height L L
      hL.formed hL.formed fun _ ↦ rfl with ⟨hnone, -⟩ | ⟨P, N, hP, hN, -, -, hPN⟩
    · exact absurd (hnone.symm.trans hpost') (by simp)
    rcases alike_applyTxsAndReward workers block.txs block.header.miner block.header.height L L
      hL.formed hL.formed fun _ ↦ rfl with ⟨hnone, -⟩ | ⟨Q, N', hQ, hN', -, -, hQN⟩
    · exact absurd (hnone.symm.trans hpost) (by simp)
    obtain rfl := Option.some.inj (hP.symm.trans hpost')
    obtain rfl := Option.some.inj (hQ.symm.trans hpost)
    obtain rfl := Option.some.inj (hN.symm.trans hN')
    exact fun i ↦ (hPN i).trans (hQN i).symm
  obtain ⟨N, M', _, hrootN, hrootM, -⟩ := Ledger.stateRoot_of_sameObs hformed' hformed hfree hsame
    hpaths (htree' ▸ hcontent) (htree ▸ hcontent)
  obtain ⟨rfl, -⟩ := Prod.mk.inj (Option.some.inj (hroot.symm.trans hrootM))
  exact ⟨N, applyBlockState_eq_ok.mpr ⟨post', M'.root, hpost', hrootN, hcommits⟩⟩

/-- A block that is mined with transactions that pass the rules and run on the objects is accepted,
on the machine that mined it and on any other. -/
theorem accepted_of_mined {premine publicPremine : List (Bytes32 × UInt64)}
    {difficulty height : UInt64} {genesis : TreeNode} {v : (blockRules S genesis).View}
    (htracks : Tracks chain v) (hgenesis : genesisOf S premine publicPremine difficulty = some genesis)
    (hgrounded : chain.activeState.clone.Grounded) {s' : LedgerState S.toCryptoSuite}
    (hchecked : ∀ tx ∈ kept, checkTx S tx = .ok ())
    (hruns : LedgerState.Runs (Program.forEach kept (LedgerM.applyTx height))
      chain.activeState.clone.view () s') (hcount : kept.length ≤ MAX_TXS_PER_BLOCK)
    (hheight : checkedAdd chain.activeHeight 1 = some height) (hmined : Mined chain miner kept block)
    (hfresh : ∀ node, chain.tree[block.id]? = some node → node.header = block.header) :
    (∃ chain', Blockchain.applyBlock block chain = (.ok (), chain') ∧
      chain'.activeTip = block.id) ∧
    ∀ workers', S.toCryptoSuite.trie.CollisionFree →
      (∀ post, (applyTxsAndReward chain.workers kept miner height).after
        chain.activeState.clone = some post →
          Set.InjOn (Ledger.trieKey S.toCryptoSuite) { key | key ∈ post.dirty }) →
      ∃ chain', Blockchain.applyBlock block { chain with workers := workers' } = (.ok (), chain') ∧
        chain'.activeTip = block.id := by
  obtain rfl := Option.some.inj (hheight.symm.trans hmined.height)
  have hnew := unknown_of_mined htracks (genesisOf_headerHeight hgenesis) hmined hfresh
  obtain ⟨node, hadmitted⟩ := admitted_of_mined htracks (genesisOf_height hgenesis) hmined hnew
    (hmined.txs_eq ▸ hcount) (hmined.txs_eq ▸ hchecked)
  obtain ⟨post, root, post', hsettled, hroot, hcommits⟩ := hmined.root
  have hpost := applied_of_settled hgrounded.formed hruns hsettled
  have hblock : (applyTxsAndReward chain.workers block.txs block.header.miner
      block.header.height).after chain.activeState.clone = some post := by
    rw [hmined.txs_eq, hmined.miner_eq]
    exact hpost
  refine ⟨⟨_, hadmitted.extends hmined.prevHash (applyBlockState_eq_ok.mpr
    ⟨post, root, hblock, hroot, hcommits⟩), rfl⟩, ?_⟩
  intro workers' hfree hpaths
  obtain ⟨next, hnext⟩ := applyBlockState_of_workers hfree workers' hgrounded hblock
    hroot hcommits (hpaths post hpost)
  have hadmitted' : Blockchain.Admitted { chain with workers := workers' } block node :=
    ⟨hadmitted.new, hadmitted.parent⟩
  exact ⟨_, hadmitted'.extends hmined.prevHash hnext, rfl⟩

/-- Mining returns a block when the block runs on the objects, the store is intact and some nonce
meets the difficulty. -/
theorem mineWithReward_isSome (timestamp : UInt64) (hL : chain.activeState.Grounded)
    (hfree : S.toCryptoSuite.trie.CollisionFree) {height difficulty : UInt64}
    (hheight : checkedAdd chain.activeHeight 1 = some height)
    (hdifficulty : chain.difficulty = some difficulty) {s' : LedgerState S.toCryptoSuite}
    (hruns : LedgerState.Runs (blockProgram txs miner height) chain.activeState.view () s')
    (hnonce : ∀ header : BlockHeader, ∃ nonce,
      meetsDifficulty (({ header with nonce := nonce } : BlockHeader).id S) difficulty = true) :
    ∃ post root post',
      (applyTxsAndReward chain.workers txs miner height).after chain.activeState.clone = some post ∧
      post.stateRoot = some (root, post') ∧ ∃ header, chain.mineWithReward miner txs timestamp =
        some ⟨header, txs⟩ ∧ searchNonce S difficulty (2 ^ 64)
          ⟨chain.activeTip, height, timestamp, txRoot S txs, S.digestBytes root, miner, 0⟩ =
            some header := by
  obtain ⟨post, hpost⟩ := applied_of_runs chain.workers hL.formed.clone hruns
  obtain ⟨hformed, -, htree⟩ := applied_spec hL.formed.clone hpost
  obtain ⟨content, hcontent⟩ := hL.clone.stored hfree
  obtain ⟨post', hroot, -⟩ := hformed.stateRoot_content hfree (htree ▸ hcontent)
  obtain ⟨nonce, hmeets⟩ := hnonce
    ⟨chain.activeTip, height, timestamp, txRoot S txs, S.digestBytes post'.root, miner, 0⟩
  have hsearch : (searchNonce S difficulty (2 ^ 64) ⟨chain.activeTip, height, timestamp,
      txRoot S txs, S.digestBytes post'.root, miner, 0⟩).isSome = true :=
    searchNonce_isSome hmeets UInt64.zero_le (by simpa using nonce.toNat_lt)
  obtain ⟨header, hheader⟩ := Option.isSome_iff_exists.mp hsearch
  have hsettled : (Transition.ignoreErr (applyTxsAndReward chain.workers txs miner height) :
      Transition Empty (Ledger S.toCryptoSuite)).after chain.activeState.clone = some post := by
    rw [Transition.after_eq_some] at hpost ⊢
    rw [Transition.ignoreErr, hpost]
  refine ⟨post, post'.root, post', hpost, hroot, header, ?_, hheader⟩
  simp only [Blockchain.mineWithReward, hdifficulty, hheight, hsettled, hroot, Option.bind_eq_bind,
    Option.bind_some]
  rw [hheader]
  rfl

/-- Miner and validator agree, on every chain that a node can have and for every list of candidates
and every miner. Selection returns exactly when no candidate panics where it is tried. It keeps the
candidates that pass the rules and apply after those kept before them, and skips the others. When it
keeps no more than a block may have, every block that is mined with them is accepted by the node and
becomes its active tip, and so it is by a node with the same chain on a machine with any number of
workers. Such a block is mined when its difficulty can be met and the pay of the miner does not
panic. The id of the block must not be that of another header, and the state roots of two machines
are compared under a hash without collisions. -/
theorem mined_accepted {workers : ℕ} {premine publicPremine : List (Bytes32 × UInt64)}
    {difficulty : UInt64}
    (hreach : Blockchain.Reachable workers premine publicPremine difficulty chain)
    (txs : List (Transaction S.toCryptoSuite)) (miner : Bytes32) (timestamp : UInt64) :
    ((∃ kept, chain.selectValid txs = some kept) ↔ ∃ height,
      checkedAdd chain.activeHeight 1 = some height ∧ Calm height txs chain.activeState.view) ∧
    ∀ kept, chain.selectValid txs = some kept → ∃ height s',
      checkedAdd chain.activeHeight 1 = some height ∧
      Selects height txs chain.activeState.view kept s' ∧
      (kept.length ≤ MAX_TXS_PER_BLOCK →
        (∀ block, chain.mineWithReward miner kept timestamp = some block →
          (∀ node, chain.tree[block.id]? = some node → node.header = block.header) →
          (∃ chain', Blockchain.applyBlock block chain = (.ok (), chain') ∧
            chain'.activeTip = block.id) ∧
          ∀ workers', S.toCryptoSuite.trie.CollisionFree →
            (∀ post, (applyTxsAndReward chain.workers kept miner height).after
              chain.activeState.clone = some post →
                Set.InjOn (Ledger.trieKey S.toCryptoSuite) { key | key ∈ post.dirty }) →
            ∃ chain', Blockchain.applyBlock block { chain with workers := workers' } =
              (.ok (), chain') ∧ chain'.activeTip = block.id) ∧
        (S.toCryptoSuite.trie.CollisionFree →
          ¬ Program.Panics LedgerState.handler (payMiner kept miner height) s' →
          (∀ target, chain.difficulty = some target → ∀ header : BlockHeader, ∃ nonce,
            meetsDifficulty (({ header with nonce := nonce } : BlockHeader).id S) target = true) →
          ∃ block, chain.mineWithReward miner kept timestamp = some block)) := by
  obtain ⟨genesis, hgenesis, v, htracks⟩ := tracks_of_reachable hreach
  have hL := grounded_of_reachable hreach
  have hgrounded := hL.clone
  have hselected : ∀ kept, chain.selectValid txs = some kept ↔ ∃ height,
      checkedAdd chain.activeHeight 1 = some height ∧
        ∃ s', Selects height txs chain.activeState.view kept s' := by
    intro kept
    rw [Blockchain.selectValid, Option.bind_eq_some_iff]
    exact exists_congr fun height ↦ and_congr_right' <|
      selectFrom_eq_some hgrounded.formed hgrounded.objects
  constructor
  · simp only [hselected, ← exists_selects_iff]
    exact ⟨fun ⟨kept, height, hheight, s', h⟩ ↦ ⟨height, hheight, kept, s', h⟩,
      fun ⟨height, hheight, kept, s', h⟩ ↦ ⟨kept, height, hheight, s', h⟩⟩
  · intro kept hselect
    obtain ⟨height, hheight, s', hselects⟩ := (hselected kept).mp hselect
    refine ⟨height, s', hheight, hselects, fun hcount ↦ ⟨?_, ?_⟩⟩
    · intro block hmine hfresh
      exact accepted_of_mined htracks hgenesis hgrounded hselects.runs.1 hselects.runs.2 hcount
        hheight (mined_of_mineWithReward hmine) hfresh
    · intro hfree hpaid hnonce
      obtain ⟨s₁, hruns⟩ := hselects.runs_block hpaid
      obtain ⟨target, htarget⟩ := htracks.exists_difficulty
      obtain ⟨-, -, -, -, -, header, hmine, -⟩ :=
        mineWithReward_isSome timestamp hL hfree hheight htarget hruns (hnonce target htarget)
      exact ⟨_, hmine⟩

end Mining

/-! ### A mined stake -/

/-- A transfer without a fee, a stake, and the stake again. -/
def stakeCandidates : List (Transaction rootlessSuite.toCryptoSuite) :=
  [.publicTransfer LAT_TOKEN 5 5 1 0 0 5, .stake 5 100000000 0 5, .stake 5 100000000 0 5]

/-- The first candidate breaks a rule, the second applies, and the third is refused after it. -/
theorem stakeCandidates_facts :
    checkTx rootlessSuite (.publicTransfer LAT_TOKEN 5 5 1 0 0 5) = .error .feeTooLow ∧
    checkTx rootlessSuite (.stake 5 100000000 0 5) = .ok () ∧
    ((LedgerM.applyTx 1 (.stake 5 100000000 0 5)).run LedgerState.handler stakerObjects).1 =
      .ok () ∧
    ((applyInner (.stake 5 100000000 0 5) 1 none).run LedgerState.handler
      ((LedgerM.applyTx 1 (.stake 5 100000000 0 5)).run LedgerState.handler stakerObjects).2).1 =
        .err .badNonce := by
  decide +kernel

theorem selects_stakeCandidates : ∃ s', Selects 1 stakeCandidates stakerObjects stakeBlock.txs s' := by
  obtain ⟨hbroken, hcheck, hok, hrefused⟩ := stakeCandidates_facts
  exact ⟨_, .skipBroken hbroken (.keep hcheck (LedgerState.runs_of_ok hok)
    (.skipRefused hcheck hrefused (.nil _)))⟩

theorem mined_accepted_stake : ∃ chain chain' : Blockchain rootlessSuite,
    chain.selectValid stakeCandidates = some stakeBlock.txs ∧
    chain.mineWithReward 0 stakeBlock.txs GENESIS_TIMESTAMP = some stakeBlock ∧
    Blockchain.applyBlock stakeBlock chain = (.ok (), chain') ∧
    chain'.activeTip = stakeBlock.id := by
  obtain ⟨A, next, hroot, -, -⟩ := stakeBlock_applies
  obtain ⟨hokBlock, -, -, -, hother⟩ := stakeBlock_facts
  obtain ⟨chain, hchain⟩ : ∃ chain, chain = Blockchain.atGenesis 1 [] stakerPremine 1 A.root A :=
    ⟨_, rfl⟩
  have hstart : Blockchain.genesisWithPublic 1 [] stakerPremine 1 = some chain := by
    rw [Blockchain.genesisWithPublic, genesisState_staker, Option.bind_some, hroot, hchain]
    rfl
  have hreach := Blockchain.Reachable.genesis hstart
  have hL := grounded_of_reachable hreach
  have hview : chain.activeState.view = stakerObjects := by
    have hgenesis : stakerGenesis.Reachable :=
      reachableBy_genesisState (fun _ _ _ ↦ trivial) genesisState_staker
    rw [hchain]
    exact hgenesis.view.1.view_stateRoot hroot
  have hruns : LedgerState.Runs (blockProgram stakeBlock.txs 0 1) chain.activeState.view ()
      ((blockProgram stakeBlock.txs 0 1).run LedgerState.handler stakerObjects).2 := by
    rw [hview]
    exact LedgerState.runs_of_ok hokBlock
  have hheight : checkedAdd chain.activeHeight 1 = some 1 := by
    rw [hchain]
    rfl
  have hdifficulty : chain.difficulty = some 1 := by
    rw [hchain]
    exact congrArg (Option.map TreeNode.childDifficulty) ((FMap.lookup_insert ..).trans (if_pos rfl))
  have hselect : chain.selectValid stakeCandidates = some stakeBlock.txs := by
    have hselects := selects_stakeCandidates
    rw [← hview] at hselects
    rw [Blockchain.selectValid, hheight, Option.bind_some]
    exact (selectFrom_eq_some hL.clone.formed hL.clone.objects).mpr hselects
  obtain ⟨post, root, post', hpost, hpostRoot, header, hmine, hfound⟩ :=
    mineWithReward_isSome GENESIS_TIMESTAMP hL rootlessSuite_collisionFree hheight
      hdifficulty hruns fun header ↦ ⟨0, rfl⟩
  have htip : chain.activeTip = (Blockchain.genesisHeader 0).id rootlessSuite := by
    rw [hchain]
    rfl
  have hblock : (⟨header, stakeBlock.txs⟩ : Block rootlessSuite) = stakeBlock := by
    have hfirst : some stakeBlock.header = some header := by
      rw [← hfound, htip]
      rfl
    rw [← Option.some.inj hfirst]
  rw [hblock] at hmine
  have hfresh : ∀ node, chain.tree[stakeBlock.id]? = some node →
      node.header = stakeBlock.header := by
    intro node hnode
    rw [hchain] at hnode
    exact absurd (((FMap.lookup_insert ..).trans (if_neg hother)).symm.trans hnode) (by simp)
  obtain ⟨-, hagree⟩ := mined_accepted hreach stakeCandidates 0 GENESIS_TIMESTAMP
  obtain ⟨_, _, -, -, haccepted⟩ := hagree _ hselect
  obtain ⟨⟨chain', hok, htip'⟩, -⟩ := (haccepted (by decide)).1 stakeBlock hmine hfresh
  exact ⟨chain, chain', hselect, hmine, hok, htip'⟩

end Latebra.Chain
