import Latebra.State.AccountCache

/-!
# Histories that cannot be told apart

What a ledger holds can be held in different ways: in the cache or not, in the overlay or below it.
A `Forgetting` form keeps what is held and forgets how, and no command can tell a ledger from its
form. Two ledgers with the same form are `Twins` in it, and twins stay twins with the same answers
and outcomes whatever happens to both (`blind_step`, `Twins.replay_effective`): transactions,
parallel blocks, credits, adopted records, state roots and flushes.

The clone of a ledger forgets the read cache. So two nodes with different cache histories compute
the same state (`account_cache_transparent`).
-/

set_option autoImplicit false
set_option relaxedAutoImplicit false

namespace Latebra.State.Ledger

open Foundation Crypto Latebra.Types

variable {C : CryptoSuite} {form : Ledger C → Ledger C} {L L' M : Ledger C}

/-- A form of a ledger that keeps what the ledger holds: commands, root computations and the raw
writes of a wave do the same on the form as on the ledger. -/
structure Forgetting (form : Ledger C → Ledger C) : Prop where
  exec : ∀ L : Ledger C, L.Mirrors → ∀ c,
    (handler.exec c L).map (fun answer ↦ (answer.1, form answer.2)) =
      (handler.exec c (form L)).map fun answer ↦ (answer.1, form answer.2)
  setLeaf : ∀ (L : Ledger C) key value,
    (L.setLeaf key value).map form = ((form L).setLeaf key value).map form
  mark : ∀ (L : Ledger C) key, form (L.mark key) = form ((form L).mark key)
  adopt : ∀ (L : Ledger C) id bytes,
    form (L.adoptAccountRecord id bytes) = form ((form L).adoptAccountRecord id bytes)
  settle : ∀ L : Ledger C, form { L with dirty := [] } = form { form L with dirty := [] }
  flush : ∀ L : Ledger C, form L.flush = form (form L).flush
  clone : ∀ L : Ledger C, form L.clone = form L
  dirty : ∀ L : Ledger C, (form L).dirty = L.dirty
  root : ∀ L : Ledger C, (form L).root = L.root
  nextTokenId : ∀ L : Ledger C, (form L).nextTokenId = L.nextTokenId
  accountRecord : ∀ (L : Ledger C) id, (form L).accountRecord id = L.accountRecord id

variable (form) in
/-- Two ledgers that hold the same, with caches that mirror the records. -/
structure Twins (L M : Ledger C) : Prop where
  same : form L = form M
  left : L.Mirrors
  right : M.Mirrors

theorem Twins.symm (htwins : Twins form L M) : Twins form M L :=
  ⟨htwins.same.symm, htwins.right, htwins.left⟩

theorem Twins.trans (hfirst : Twins form L L') (hsecond : Twins form L' M) : Twins form L M :=
  ⟨hfirst.same.trans hsecond.same, hfirst.left, hsecond.right⟩

/-- A ledger with another cache that mirrors the records. -/
theorem Forgetting.twins_of_clone_eq (hform : Forgetting form) (hclone : L.clone = M.clone)
    (hL : L.Mirrors) (hM : M.Mirrors) : Twins form L M :=
  ⟨by rw [← hform.clone L, hclone, hform.clone M], hL, hM⟩

section Twins

variable (hform : Forgetting form)
include hform

/-- Every command is answered alike by twins. -/
theorem answers_twins (c : LedgerCommand C) :
    Program.AnswersAlike (S := ledgerAlphabet C) handler handler (Twins form) c := by
  intro L M htwins
  have hL := hform.exec L htwins.left c
  rw [htwins.same, ← hform.exec M htwins.right c] at hL
  cases hexec : handler.exec c L with
  | none =>
    rw [hexec, Option.map_none] at hL
    exact .inl ⟨rfl, Option.map_eq_none_iff.mp hL.symm⟩
  | some answer =>
    rw [hexec, Option.map_some] at hL
    obtain ⟨answer', hexec', heq⟩ := Option.map_eq_some_iff.mp hL.symm
    obtain ⟨hreply, hsame⟩ := Prod.mk.inj heq
    refine .inr ⟨answer.1, answer.2, answer'.2, rfl, ?_, hsame.symm, htwins.left.exec hexec,
      htwins.right.exec hexec'⟩
    rw [hexec', ← hreply]

/-- Every program ends alike on twins. -/
theorem Twins.run (htwins : Twins form L M) {α : Type} (program : LedgerM C α) :
    (program.run handler L).1 = (program.run handler M).1 ∧
      Twins form (program.run handler L).2 (program.run handler M).2 :=
  Program.run_related program.uses_true (fun c _ ↦ answers_twins hform c) htwins

theorem Twins.mark (htwins : Twins form L M) (key : DirtyKey) :
    Twins form (L.mark key) (M.mark key) where
  same := by rw [hform.mark L, hform.mark M, htwins.same]
  left := htwins.left
  right := htwins.right

theorem Twins.markAll (htwins : Twins form L M) (keys : List DirtyKey) :
    Twins form (L.markAll keys) (M.markAll keys) := by
  induction keys generalizing L M with
  | nil => exact htwins
  | cons key rest ih => exact ih (htwins.mark hform key)

theorem Twins.nextTokenId (htwins : Twins form L M) : L.nextTokenId = M.nextTokenId := by
  rw [← hform.nextTokenId L, htwins.same, hform.nextTokenId]

theorem Twins.clone (htwins : Twins form L M) : Twins form L.clone M.clone where
  same := by rw [hform.clone, hform.clone, htwins.same]
  left := .of_clone L
  right := .of_clone M

theorem Twins.accountRecord (htwins : Twins form L M) (id : Bytes32) :
    L.accountRecord id = M.accountRecord id := by
  rw [← hform.accountRecord L, htwins.same, hform.accountRecord]

theorem Twins.adoptAccountRecord (htwins : Twins form L M) (id : Bytes32) (bytes : Bytes) :
    Twins form (L.adoptAccountRecord id bytes) (M.adoptAccountRecord id bytes) where
  same := by rw [hform.adopt L, hform.adopt M, htwins.same]
  left := htwins.left.adoptAccountRecord id bytes
  right := htwins.right.adoptAccountRecord id bytes

theorem Twins.adoptAll (htwins : Twins form L M) (records : List (Bytes32 × Bytes)) :
    Twins form (records.foldl (fun L entry ↦ L.adoptAccountRecord entry.1 entry.2) L)
      (records.foldl (fun L entry ↦ L.adoptAccountRecord entry.1 entry.2) M) := by
  induction records generalizing L M with
  | nil => exact htwins
  | cons entry rest ih => exact ih (htwins.adoptAccountRecord hform entry.1 entry.2)

end Twins

/-! ### Transitions -/

variable (form) in
/-- A transition that ends alike on twins. -/
abbrev Blind (transition : Transition LedgerError (Ledger C)) : Prop :=
  Transition.Alike (Twins form) transition transition

section Blind

variable (hform : Forgetting form)
include hform

theorem blind_run (program : LedgerM C Unit) : Blind form (program.run handler) :=
  fun _ _ htwins ↦ htwins.run hform program

theorem blind_applyAtWith (tx : Transaction C) (height : UInt64) (pre : Option (ProofPass C)) :
    Blind form fun L : Ledger C ↦ L.applyAtWith tx height pre := by
  intro L M htwins
  obtain ⟨houtcome, hends⟩ := htwins.run hform (applyInner tx height pre)
  rcases hL : (applyInner tx height pre).run handler L with ⟨_ | _ | _, L'⟩ <;>
    rcases hM : (applyInner tx height pre).run handler M with ⟨_ | _ | _, M'⟩ <;>
    simp only [hL, hM, reduceCtorEq, Outcome.err.injEq] at houtcome hends <;>
    simp only [applyAtWith, hL, hM, true_and]
  · rw [hends.nextTokenId hform]
    exact hends.markAll hform _
  · exact ⟨congrArg Outcome.err houtcome, hends⟩
  · exact hends

/-- A worker hands back the same records from twins. -/
theorem Twins.runChunk (htwins : Twins form L M) (height : UInt64) (chunk : List (LaneTx C))
    (touched : List Bytes32) :
    runChunk height L chunk touched = runChunk height M chunk touched := by
  induction chunk generalizing L M touched with
  | nil =>
    unfold Ledger.runChunk
    simp only [htwins.accountRecord hform]
  | cons entry rest ih =>
    obtain ⟨houtcome, hends⟩ := blind_applyAtWith hform entry.tx height none L M htwins
    rw [Ledger.runChunk, Ledger.runChunk]
    unfold applyAt
    rcases hL : L.applyAtWith entry.tx height none with ⟨_ | _ | _, L'⟩ <;>
      rcases hM : M.applyAtWith entry.tx height none with ⟨_ | _ | _, M'⟩ <;>
      simp only [hL, hM, reduceCtorEq, Outcome.err.injEq] at houtcome hends
    · exact ih hends _
    · rw [houtcome]
    · rfl

/-- The workers of a wave start from clones, and what they hand back is adopted by either twin. -/
theorem blind_executeWave (workers : ℕ) (height : UInt64) (wave : List (LaneTx C)) :
    Blind form (executeWave workers height wave) := by
  intro L M htwins
  unfold executeWave
  simp only [(htwins.clone hform).runChunk hform]
  split
  · exact Transition.Alike.each
      (fun (entry : LaneTx C) ↦ blind_applyAtWith hform entry.tx height none) L M htwins
  · split
    · exact ⟨rfl, htwins⟩
    · split
      · exact ⟨rfl, htwins⟩
      · exact ⟨rfl, htwins.adoptAll hform _⟩

theorem blind_applyBlockParallel (workers : ℕ) (txs : List (Transaction C)) (height : UInt64) :
    Blind form (applyBlockParallel workers txs height) := by
  intro L M htwins
  obtain ⟨houtcome, hends⟩ := htwins.run hform (preverifyConfidential txs)
  unfold applyBlockParallel
  rcases hL : (preverifyConfidential txs).run handler L with ⟨passes | _ | _, L'⟩ <;>
    rcases hM : (preverifyConfidential txs).run handler M with ⟨passes' | _ | _, M'⟩ <;>
    simp only [hL, hM, reduceCtorEq, Outcome.ok.injEq, Outcome.err.injEq] at houtcome hends
  · rw [houtcome]
    refine Transition.Alike.each (fun lane ↦ ?_) L' M' hends
    cases lane with
    | barrier tx index => exact blind_applyAtWith hform tx height _
    | run txs =>
      exact Transition.Alike.each fun wave ↦ blind_executeWave hform workers height _
  · exact ⟨congrArg Outcome.err houtcome, hends⟩
  · exact ⟨rfl, hends⟩

end Blind

/-! ### State roots -/

section Roots

variable (hform : Forgetting form)
include hform

theorem Twins.setLeaf (htwins : Twins form L M) (key : Bytes32) (value : Option Bytes) :
    (L.setLeaf key value = none ∧ M.setLeaf key value = none) ∨
      ∃ L' M', L.setLeaf key value = some L' ∧ M.setLeaf key value = some M' ∧
        Twins form L' M' := by
  have hsame := hform.setLeaf L key value
  rw [htwins.same, ← hform.setLeaf M key value] at hsame
  cases hL : L.setLeaf key value with
  | none =>
    rw [hL, Option.map_none] at hsame
    exact .inl ⟨rfl, Option.map_eq_none_iff.mp hsame.symm⟩
  | some L' =>
    rw [hL, Option.map_some] at hsame
    obtain ⟨M', hM, heq⟩ := Option.map_eq_some_iff.mp hsame.symm
    refine .inr ⟨L', M', rfl, hM, heq.symm, ?_, ?_⟩
    · rw [setLeaf_eq_withTrie hL]
      exact htwins.left
    · rw [setLeaf_eq_withTrie hM]
      exact htwins.right

theorem Twins.reconcile (htwins : Twins form L M) (keys : List DirtyKey) :
    (L.reconcile keys = none ∧ M.reconcile keys = none) ∨
      ∃ L' M', L.reconcile keys = some L' ∧ M.reconcile keys = some M' ∧ Twins form L' M' := by
  induction keys generalizing L M with
  | nil => exact .inr ⟨L, M, rfl, rfl, htwins⟩
  | cons key rest ih =>
    obtain ⟨houtcome, hends⟩ := htwins.run hform (leafValue key)
    rw [Ledger.reconcile, Ledger.reconcile]
    rcases hL : (leafValue key).run handler L with ⟨value | _ | _, L'⟩ <;>
      rcases hM : (leafValue key).run handler M with ⟨value' | _ | _, M'⟩ <;>
      simp only [hL, hM, reduceCtorEq, Outcome.ok.injEq] at houtcome hends
    · subst houtcome
      rcases hends.setLeaf hform (trieKey C key) value with
        ⟨hnone, hnone'⟩ | ⟨L₁, M₁, hsome, hsome', hafter⟩
      · left
        simp [hnone, hnone']
      · simp only [hsome, hsome', Option.bind_eq_bind, Option.bind_some]
        exact ih hafter
    · exact .inl ⟨rfl, rfl⟩
    · exact .inl ⟨rfl, rfl⟩

/-- The state root of twins is the same. -/
theorem Twins.stateRoot (htwins : Twins form L M) :
    (L.stateRoot = none ∧ M.stateRoot = none) ∨
      ∃ root L' M', L.stateRoot = some (root, L') ∧ M.stateRoot = some (root, M') ∧
        Twins form L' M' := by
  have hdirty : L.dirty = M.dirty := by rw [← hform.dirty L, htwins.same, hform.dirty]
  unfold Ledger.stateRoot
  rw [hdirty]
  split
  · have hroot : L.root = M.root := by rw [← hform.root L, htwins.same, hform.root]
    exact .inr ⟨M.root, L, M, by rw [hroot], rfl, htwins⟩
  · rcases htwins.reconcile hform M.dirty with ⟨hnone, hnone'⟩ | ⟨L', M', hsome, hsome', hafter⟩
    · rw [hnone, hnone']
      exact .inl ⟨rfl, rfl⟩
    · have hroot : L'.root = M'.root := by rw [← hform.root L', hafter.same, hform.root]
      refine .inr ⟨M'.root, { L' with dirty := [] }, { M' with dirty := [] }, ?_, ?_, ?_,
        hafter.left, hafter.right⟩
      · rw [hsome, ← hroot]
        rfl
      · rw [hsome']
        rfl
      · rw [hform.settle L', hform.settle M', hafter.same]

end Roots

/-! ### Histories -/

/-- What can happen to a ledger and to its cache. -/
inductive HistoryOp (C : CryptoSuite) where
  | apply (tx : Transaction C) (height : UInt64) (pre : Option (ProofPass C))
  | applyBlock (workers : ℕ) (txs : List (Transaction C)) (height : UInt64)
  | register (id : Bytes32)
  | creditPublic (id : Bytes32) (token : UInt32) (amount : UInt64)
  | creditGenesis (id : Bytes32) (amount : UInt64)
  | rewardMiner (miner : Bytes32) (token : UInt32) (amount : UInt64)
  | adopt (id : Bytes32) (bytes : Bytes)
  | stateRoot
  | flush
  | clone
  | query (id : Bytes32)
  | evict (id : Bytes32)

/-- The operations that do more than fill and empty the cache. -/
def HistoryOp.effective : HistoryOp C → Bool
  | .clone | .query _ | .evict _ => false
  | _ => true

/-- A read from outside. One of a corrupt record does not return, and caches nothing. -/
def queried (L : Ledger C) (id : Bytes32) : Ledger C := ((L.account id).map Prod.snd).getD L

def evicted (L : Ledger C) (id : Bytes32) : Ledger C := L.withCache (L.cache.erase id)

/-- One operation. A state root that cannot be computed stops the node. -/
def HistoryOp.step : HistoryOp C → Transition LedgerError (Ledger C)
  | .apply tx height pre, L => L.applyAtWith tx height pre
  | .applyBlock workers txs height, L => applyBlockParallel workers txs height L
  | .register id, L => L.register id
  | .creditPublic id token amount, L => L.creditPublic id token amount
  | .creditGenesis id amount, L => L.creditGenesis id amount
  | .rewardMiner miner token amount, L => L.rewardMiner miner token amount
  | .adopt id bytes, L => (.ok (), L.adoptAccountRecord id bytes)
  | .stateRoot, L =>
    match L.stateRoot with
    | some (_, L') => (.ok (), L')
    | none => (.panicked, L)
  | .flush, L => (.ok (), L.flush)
  | .clone, L => (.ok (), L.clone)
  | .query id, L => (.ok (), L.queried id)
  | .evict id, L => (.ok (), L.evicted id)

/-- A history of a ledger: how its effective operations end, and the ledger it ends with. A panic
stops the node. -/
def replay : List (HistoryOp C) → Ledger C → Option (List (Outcome LedgerError Unit) × Ledger C)
  | [], L => some ([], L)
  | op :: rest, L =>
    match op.step L with
    | (.panicked, _) => none
    | (outcome, L') => (replay rest L').map fun ends ↦
      (if op.effective then outcome :: ends.1 else ends.1, ends.2)

theorem Mirrors.queried (hL : L.Mirrors) (id : Bytes32) :
    (L.queried id).clone = L.clone ∧ (L.queried id).Mirrors := by
  unfold Ledger.queried
  cases hread : L.account id with
  | none => exact ⟨rfl, hL⟩
  | some answer => exact ⟨clone_of_account hread, hL.account hread⟩

theorem Mirrors.evicted (hL : L.Mirrors) (id : Bytes32) : (L.evicted id).Mirrors := by
  refine hL.mono (fun _ ↦ rfl) fun other a hcached ↦ ?_
  rw [show (L.evicted id).cache = L.cache.erase id from rfl, FMap.lookup_erase] at hcached
  split at hcached
  · exact absurd hcached (by simp)
  · exact hcached

theorem Mirrors.flush (hL : L.Mirrors) : L.flush.Mirrors := by
  apply hL.mono
  · intro id
    show L.objects.flush.get _ = L.objects.get _
    rw [← OverlayMap.lookup_merged, OverlayMap.merged_flush, OverlayMap.lookup_merged]
  · exact fun _ _ hcached ↦ hcached

/-- An operation that is not effective succeeds and moves nothing but the cache. -/
theorem Mirrors.step_of_not_effective (hL : L.Mirrors) {op : HistoryOp C}
    (hop : op.effective = false) :
    ∃ L', op.step L = (.ok (), L') ∧ L'.clone = L.clone ∧ L'.Mirrors := by
  cases op with
  | clone => exact ⟨L.clone, rfl, rfl, .of_clone L⟩
  | query id => exact ⟨L.queried id, rfl, hL.queried id⟩
  | evict id => exact ⟨L.evicted id, rfl, rfl, hL.evicted id⟩
  | _ => exact absurd hop (by simp [HistoryOp.effective])

variable (form L M) in
/-- Two histories both stop, or end with the same outcomes and with twins. -/
def EndAlike (first second : List (HistoryOp C)) : Prop :=
  (replay first L = none ∧ replay second M = none) ∨
    ∃ outcomes L' M', replay first L = some (outcomes, L') ∧
      replay second M = some (outcomes, M') ∧ Twins form L' M'

section Replay

variable (hform : Forgetting form)
include hform

/-- No operation tells twins apart. -/
theorem blind_step (op : HistoryOp C) : Blind form op.step := by
  by_cases hop : op.effective = true
  · cases op with
    | apply tx height pre => exact blind_applyAtWith hform tx height pre
    | applyBlock workers txs height => exact blind_applyBlockParallel hform workers txs height
    | register | creditPublic | creditGenesis | rewardMiner => exact blind_run hform _
    | adopt id bytes => exact fun L M htwins ↦ ⟨rfl, htwins.adoptAccountRecord hform id bytes⟩
    | stateRoot =>
      intro L M htwins
      rcases htwins.stateRoot hform with ⟨hnone, hnone'⟩ | ⟨root, L', M', hsome, hsome', hafter⟩
      · simpa only [HistoryOp.step, hnone, hnone', true_and] using htwins
      · simpa only [HistoryOp.step, hsome, hsome', true_and] using hafter
    | flush =>
      intro L M htwins
      refine ⟨rfl, ?_, htwins.left.flush, htwins.right.flush⟩
      show form L.flush = form M.flush
      rw [hform.flush L, hform.flush M, htwins.same]
    | _ => exact absurd hop (by simp [HistoryOp.effective])
  · intro L M htwins
    have hsilent := Bool.not_eq_true _ ▸ hop
    obtain ⟨L', hL, hcloneL, hL'⟩ := htwins.left.step_of_not_effective hsilent
    obtain ⟨M', hM, hcloneM, hM'⟩ := htwins.right.step_of_not_effective hsilent
    rw [hL, hM]
    refine ⟨rfl, ?_⟩
    exact (hform.twins_of_clone_eq hcloneL hL' htwins.left).trans
      (htwins.trans (hform.twins_of_clone_eq hcloneM.symm htwins.right hM'))

omit hform in
theorem replay_cons {op : HistoryOp C} {outcome : Outcome LedgerError Unit}
    (hstep : op.step L = (outcome, L')) (hlives : outcome ≠ .panicked) (rest : List (HistoryOp C)) :
    replay (op :: rest) L = (replay rest L').map fun ends ↦
      (if op.effective then outcome :: ends.1 else ends.1, ends.2) := by
  rw [replay, hstep]
  cases outcome with
  | panicked => exact absurd rfl hlives
  | _ => rfl

omit hform in
theorem replay_of_panicked {op : HistoryOp C} {rest : List (HistoryOp C)}
    (hstep : op.step L = (.panicked, L')) : replay (op :: rest) L = none := by
  rw [replay, hstep]

/-- A history ends like the history of its effective operations on a twin. -/
theorem Twins.replay_effective (htwins : Twins form L M) (ops : List (HistoryOp C)) :
    EndAlike form L M ops (ops.filter HistoryOp.effective) := by
  induction ops generalizing L M with
  | nil => exact .inr ⟨[], L, M, rfl, rfl, htwins⟩
  | cons op rest ih =>
    by_cases hop : op.effective = true
    · rw [List.filter_cons_of_pos hop]
      obtain ⟨houtcome, hends⟩ := blind_step hform op L M htwins
      rcases hL : op.step L with ⟨outcome, L'⟩
      rcases hM : op.step M with ⟨outcome', M'⟩
      rw [hL, hM] at houtcome hends
      obtain rfl : outcome = outcome' := houtcome
      by_cases hlives : outcome = .panicked
      · rw [hlives] at hL hM
        exact .inl ⟨replay_of_panicked hL, replay_of_panicked hM⟩
      · have hfirst := replay_cons hL hlives rest
        have hsecond := replay_cons hM hlives (rest.filter HistoryOp.effective)
        simp only [if_pos hop] at hfirst hsecond
        rcases ih hends with ⟨hnone, hnone'⟩ | ⟨outcomes, L₁, M₁, hsome, hsome', hafter⟩
        · left
          rw [hfirst, hsecond, hnone, hnone']
          exact ⟨rfl, rfl⟩
        · refine .inr ⟨outcome :: outcomes, L₁, M₁, ?_, ?_, hafter⟩
          · rw [hfirst, hsome, Option.map_some]
          · rw [hsecond, hsome', Option.map_some]
    · rw [List.filter_cons_of_neg hop]
      obtain ⟨L', hstep, hclone, hL'⟩ :=
        htwins.left.step_of_not_effective (Bool.not_eq_true _ ▸ hop)
      have hmap : replay (op :: rest) L = replay rest L' := by
        rw [replay_cons hstep (by simp) rest]
        simp only [if_neg hop, Prod.mk.eta, Option.map_id']
      rw [EndAlike, hmap]
      exact ih ((hform.twins_of_clone_eq hclone hL' htwins.left).trans htwins)

/-- Histories with the same effective operations end alike on twins. -/
theorem Twins.replay_of_effective_eq (htwins : Twins form L M) {first second : List (HistoryOp C)}
    (hsame : first.filter HistoryOp.effective = second.filter HistoryOp.effective) :
    EndAlike form L M first second := by
  have hfirst := htwins.replay_effective hform first
  have hsecond := (htwins.symm.trans htwins).replay_effective hform second
  rw [hsame] at hfirst
  rcases hfirst with ⟨hnone, hmid⟩ | ⟨outcomes, L', M', hsome, hmid, hafter⟩ <;>
    rcases hsecond with ⟨hnone', hmid'⟩ | ⟨outcomes', L'', M'', hsome', hmid', hafter'⟩
  · exact .inl ⟨hnone, hnone'⟩
  · rw [hmid'] at hmid
    exact absurd hmid (by simp)
  · rw [hmid'] at hmid
    exact absurd hmid (by simp)
  · rw [hmid'] at hmid
    obtain ⟨rfl, rfl⟩ := Prod.mk.inj (Option.some.inj hmid)
    exact .inr ⟨outcomes', L', L'', hsome, hsome', hafter.trans hafter'.symm⟩

end Replay

/-! ### The read cache -/

/-- The clone forgets the read cache. -/
theorem forgetting_clone : Forgetting (clone : Ledger C → Ledger C) where
  exec L hL c := hL.exec_clone c
  setLeaf L key value := by
    rw [setLeaf_clone, Option.map_map]
    rfl
  mark _ _ := rfl
  adopt _ _ _ := rfl
  settle _ := rfl
  flush _ := rfl
  clone _ := rfl
  dirty _ := rfl
  root _ := rfl
  nextTokenId _ := rfl
  accountRecord _ _ := rfl

theorem Mirrors.twins_clone (hL : L.Mirrors) : Twins clone L L.clone := ⟨rfl, hL, .of_clone L⟩

/-- The cache stays a mirror of the records over every history. -/
theorem mirrors_of_replay {start L : Ledger C} {ops : List (HistoryOp C)}
    {outcomes : List (Outcome LedgerError Unit)}
    (hreplay : replay ops start.clone = some (outcomes, L)) : L.Mirrors := by
  have htwins := (Mirrors.of_clone start).twins_clone
  rcases htwins.replay_effective forgetting_clone ops with
    ⟨hnone, -⟩ | ⟨_, L', M', hsome, -, hafter⟩
  · rw [hnone] at hreplay
    exact absurd hreplay (by simp)
  · rw [hsome] at hreplay
    obtain ⟨-, rfl⟩ := Prod.mk.inj (Option.some.inj hreplay)
    exact hafter.left

/-- The account cache never shows. An account reads back from its record exactly when four bytes can
count the entries of each of its maps. Over every history from an empty cache, a cached account is
what its record decodes to, every read and every program ends as it does when nothing is cached, and
a history with the same effective operations ends with the same outcomes and the same ledger. -/
theorem account_cache_transparent (C : CryptoSuite) :
    (∀ a : Account C, decodeAccount C (encodeAccount a) = some a ↔ a.Fits) ∧
      ∀ (start : Ledger C) (ops : List (HistoryOp C)) (outcomes : List (Outcome LedgerError Unit))
        (L : Ledger C), replay ops start.clone = some (outcomes, L) →
        (∀ id a, L.cache[id]? = some a →
          (L.accountRecord id).bind (decodeAccount C) = some a) ∧
        (∀ id, (L.account id).map Prod.fst = (L.clone.account id).map Prod.fst) ∧
        (∀ (α : Type) (program : LedgerM C α),
          (program.run handler L).1 = (program.run handler L.clone).1 ∧
            (program.run handler L).2.clone = (program.run handler L.clone).2.clone) ∧
        ∀ other, other.filter HistoryOp.effective = ops.filter HistoryOp.effective →
          ∃ M, replay other start.clone = some (outcomes, M) ∧ M.clone = L.clone := by
  refine ⟨decodeAccount_encodeAccount_iff, fun start ops outcomes L hreplay ↦ ?_⟩
  have hmirrors := mirrors_of_replay hreplay
  refine ⟨hmirrors, fun id ↦ ?_, fun α program ↦ ?_, fun other hother ↦ ?_⟩
  · have hread := congrArg (Option.map Prod.fst) (hmirrors.account_clone id)
    rw [Option.map_map, Option.map_map] at hread
    exact hread
  · obtain ⟨houtcome, hends⟩ := hmirrors.twins_clone.run forgetting_clone program
    exact ⟨houtcome, hends.same⟩
  · have htwins : Twins Ledger.clone start.clone start.clone :=
      ⟨rfl, .of_clone start, .of_clone start⟩
    rcases htwins.replay_of_effective_eq forgetting_clone hother with
      ⟨-, hnone⟩ | ⟨outcomes', M, L', hsome, hsome', hafter⟩
    · rw [hnone] at hreplay
      exact absurd hreplay (by simp)
    · rw [hsome'] at hreplay
      obtain ⟨rfl, rfl⟩ := Prod.mk.inj (Option.some.inj hreplay)
      exact ⟨M, hsome, hafter.same⟩

theorem account_cache_transparent_genesis :
    ∃ L M : Ledger freeSuite,
      replay [.register 1, .creditGenesis 1 5, .clone, .query 1] Ledger.new.clone =
        some ([.ok (), .ok ()], L) ∧
      replay [.register 1, .evict 1, .creditGenesis 1 5] Ledger.new.clone =
        some ([.ok (), .ok ()], M) ∧ M.clone = L.clone := by
  have hends : (replay [.register 1, .creditGenesis 1 5, .clone, .query 1]
      (Ledger.new : Ledger freeSuite).clone).map Prod.fst = some [.ok (), .ok ()] := by
    decide +kernel
  obtain ⟨⟨outcomes, L⟩, hL, rfl⟩ := Option.map_eq_some_iff.mp hends
  obtain ⟨M, hM, hclone⟩ := ((account_cache_transparent freeSuite).2 Ledger.new _ _ L hL).2.2.2
    [.register 1, .evict 1, .creditGenesis 1 5] rfl
  exact ⟨L, M, hL, hM, hclone⟩

end Latebra.State.Ledger

