import Latebra.Chain.ForkChoice

/-!
# The active ledger of a chain

However a chain came about, successful operations alone reach the objects of its active ledger, and
its store holds a trie (`Grounded`, `grounded_of_reachable`). So what is proved of the runs of a
ledger holds of the ledger of every chain, also after a reorganization has rebuilt it from genesis.
-/

set_option autoImplicit false
set_option relaxedAutoImplicit false

namespace Latebra.State

open Foundation Crypto Latebra.Types

variable {C : CryptoSuite}

namespace Ledger

variable {L L' : Ledger C}

/-- A ledger whose objects successful operations reach, over a stored trie. -/
structure Grounded (L : Ledger C) : Prop where
  formed : L.WellFormed
  objects : L.view.Reachable
  stored : C.trie.CollisionFree → ∃ content, C.trie.TrieAt L.tree content

theorem Reachable.grounded (hL : L.Reachable) : L.Grounded :=
  ⟨hL.view.1, hL.view.2, fun hfree ↦ (hL.sound hfree).stored⟩

theorem Grounded.clone (hL : L.Grounded) : L.clone.Grounded :=
  ⟨hL.formed.clone, hL.objects, hL.stored⟩

theorem Grounded.flush (hL : L.Grounded) : L.flush.Grounded := by
  refine ⟨hL.formed.flush.1, ?_, ?_⟩
  · rw [hL.formed.flush.2]
    exact hL.objects
  · rw [tree_flush]
    exact hL.stored

theorem Grounded.stateRoot (hL : L.Grounded) {root : C.Digest}
    (hrun : L.stateRoot = some (root, L')) : L'.Grounded := by
  refine ⟨(hL.formed.stateRoot hrun).2.1, ?_, ?_⟩
  · rw [hL.formed.view_stateRoot hrun]
    exact hL.objects.step (.commit L.view)
  · intro hfree
    obtain ⟨content, htree⟩ := hL.stored hfree
    obtain ⟨M, hrun', htree'⟩ := hL.formed.stateRoot_content hfree htree
    obtain ⟨-, rfl⟩ := Prod.mk.inj (Option.some.inj (hrun.symm.trans hrun'))
    exact ⟨_, htree'⟩

/-- A ledger that is moved onto a base is the one whose root was computed, to every reader. -/
theorem exists_of_rehome (hrun : L.rehome = some L') :
    ∃ root M, L.stateRoot = some (root, M) ∧ L'.record = M.record ∧ L'.view = M.view ∧
      L'.tree = M.tree ∧ L'.cache = ∅ := by
  obtain ⟨⟨root, M⟩, hroot, rfl⟩ := Option.map_eq_some_iff.mp hrun
  obtain ⟨N, hN⟩ : ∃ N : Ledger C, N = { withStore M.objects.merged M.nodes.get with
      nextTokenId := M.nextTokenId, root := M.root, dirty := M.dirty } := ⟨_, rfl⟩
  have hrecord : N.record = M.record := by
    funext key
    have hfound : (OverlayMap.new M.objects.merged).get key.bytes = M.objects.merged[key.bytes]? := by
      simp [OverlayMap.get, OverlayMap.new]
    rw [OverlayMap.lookup_merged] at hfound
    rw [record, record, ← hfound, hN]
    rfl
  refine ⟨root, M, hroot, ?_⟩
  show Ledger.record { withStore M.objects.merged M.nodes.get with
      nextTokenId := M.nextTokenId, root := M.root, dirty := M.dirty } = _ ∧ _
  rw [← hN]
  refine ⟨hrecord, ?_, ?_, ?_⟩
  · rw [view, hrecord, hN]
    rfl
  · have hnodes : (NodeOverlay.new M.nodes.get).get = M.nodes.get := by
      funext hash
      simp [NodeOverlay.new, NodeOverlay.get]
    rw [tree, tree, ← hnodes, hN]
    rfl
  · rw [hN]
    rfl

/-- A ledger over what another one has committed and not committed. -/
theorem Grounded.rehome (hL : L.Grounded) (hrun : L.rehome = some L') : L'.Grounded := by
  obtain ⟨root, M, hroot, hrecord, hview, htree, hcache⟩ := exists_of_rehome hrun
  have hM := hL.stateRoot hroot
  refine ⟨⟨?_, ?_⟩, ?_, ?_⟩
  · rw [hrecord]
    exact hM.formed.records
  · intro id a hcached
    rw [hcache] at hcached
    simp at hcached
  · rw [hview]
    exact hM.objects
  · rw [htree]
    exact hM.stored

end Ledger

end Latebra.State

namespace Latebra.Chain

open Foundation Crypto Latebra.Types State

section Blocks

variable {S : ChainSuite} {workers : ℕ} {txs : List (Transaction S.toCryptoSuite)}
  {miner : Bytes32} {height : UInt64} {L L' : Ledger S.toCryptoSuite}
  {s s' : LedgerState S.toCryptoSuite}

theorem reachable_applyTxs (hs : s.Reachable)
    (hrun : LedgerState.Runs (Program.forEach txs (LedgerM.applyTx height)) s () s') :
    s'.Reachable := by
  refine Program.Returns.forEach_induction LedgerState.Reachable ?_ hs hrun
  intro tx _ t t' ht hstep
  obtain ⟨t₁, hinner, rfl⟩ := LedgerState.runs_applyTx.mp hstep
  exact ht.step (.apply tx height hinner)

/-- The objects after a block are reached by its transactions and its rewards. -/
theorem reachable_blockProgram (hs : s.Reachable)
    (hrun : LedgerState.Runs (blockProgram txs miner height) s () s') : s'.Reachable := by
  obtain ⟨done, s₁, htxs, hpay⟩ := (Program.returns_bind ..).mp hrun
  have hs₁ := reachable_applyTxs hs htxs
  unfold payMiner at hpay
  split at hpay
  · obtain ⟨-, rfl⟩ := (Program.returns_pure ..).mp hpay
    exact hs₁
  · obtain ⟨_, s₂, hcoinbase, hfees⟩ := (Program.returns_bind ..).mp hpay
    obtain ⟨_, s₃, hconfidential, hpublic⟩ := (Program.returns_bind ..).mp hfees
    have hs₂ := hs₁.step (.rewardMiner _ _ _ hcoinbase)
    have hs₃ : s₃.Reachable := by
      refine Program.Returns.forEach_induction LedgerState.Reachable ?_ hs₂ hconfidential
      intro fee _ t t' ht hstep
      exact ht.step (.rewardMiner _ _ _ hstep)
    refine Program.Returns.forEach_induction LedgerState.Reachable ?_ hs₃ hpublic
    intro fee _ t t' ht hstep
    exact ht.step (.creditPublic _ _ _ hstep)

theorem grounded_applied (hL : L.Grounded)
    (hrun : (applyTxsAndReward workers txs miner height).after L = some L') : L'.Grounded := by
  obtain ⟨hformed, hruns, htree⟩ := applied_spec hL.formed hrun
  refine ⟨hformed, reachable_blockProgram hL.objects hruns, ?_⟩
  rw [htree]
  exact hL.stored

theorem grounded_applyBlockState {block : Block S} (hL : L.Grounded)
    (hrun : applyBlockState workers block L = (.ok (), L')) : L'.Grounded := by
  obtain ⟨M, root, hM, hroot, -⟩ := applyBlockState_eq_ok.mp hrun
  exact (grounded_applied hL hM).stateRoot hroot

theorem grounded_genesisState {premine publicPremine : List (Bytes32 × UInt64)}
    (hgenesis : Blockchain.genesisState premine publicPremine = some L) : L.Grounded :=
  Ledger.Reachable.grounded (reachableBy_genesisState (fun _ _ _ ↦ trivial) hgenesis)

end Blocks

section Chains

variable {S : ChainSuite} {workers : ℕ} {premine publicPremine : List (Bytes32 × UInt64)}
  {difficulty : UInt64} {chain chain' : Blockchain S} {L L' : Ledger S.toCryptoSuite}

theorem grounded_replay {path : List Bytes32} (hL : L.Grounded)
    (hrun : Transition.each chain.replayBlock path L = (.ok (), L')) : L'.Grounded := by
  induction path generalizing L with
  | nil =>
    obtain ⟨-, rfl⟩ := Prod.mk.inj hrun
    exact hL
  | cons id rest ih =>
    rw [← Transition.after_eq_some, Transition.each, Transition.after_andThen] at hrun
    obtain ⟨M, hfirst, hrest⟩ := Option.bind_eq_some_iff.mp hrun
    refine ih ?_ (Transition.after_eq_some.mp hrest)
    rw [Transition.after_eq_some] at hfirst
    unfold Blockchain.replayBlock at hfirst
    split at hfirst
    · obtain ⟨-, rfl⟩ := Prod.mk.inj hfirst
      exact hL
    · split at hfirst
      · exact absurd (Prod.mk.inj hfirst).1 (by simp)
      · split at hfirst
        · exact absurd (Prod.mk.inj hfirst).1 (by simp)
        · exact grounded_applyBlockState hL hfirst

/-- A ledger rebuilt from genesis. -/
theorem grounded_rebuildState {path : List Bytes32}
    (hrun : chain.rebuildState path = .ok L) : L.Grounded := by
  unfold Blockchain.rebuildState at hrun
  split at hrun
  · exact absurd hrun (by simp)
  · next start hgenesis =>
    split at hrun
    · next value last hreplay =>
      obtain rfl := Outcome.ok.inj hrun
      exact (grounded_replay (grounded_genesisState hgenesis) hreplay).flush
    · exact absurd hrun (by simp)
    · exact absurd hrun (by simp)

theorem grounded_rehomeState (hL : chain.activeState.Grounded)
    (hrun : chain.rehomeState = some chain') : chain'.activeState.Grounded := by
  unfold Blockchain.rehomeState at hrun
  split at hrun
  · obtain rfl := Option.some.inj hrun
    exact hL
  · obtain ⟨state, hstate, rfl⟩ := Option.map_eq_some_iff.mp hrun
    exact hL.rehome hstate

/-- Whatever a node accepts leaves its ledger grounded. -/
theorem grounded_accepts {block : Block S} (hL : chain.activeState.Grounded)
    (haccepts : chain.Accepts block chain') : chain'.activeState.Grounded := by
  cases haccepts with
  | known => exact hL
  | extend hadmitted htip hrun => exact (grounded_applyBlockState hL.clone hrun).flush
  | switch hadmitted htip hheavier hpath hrespects hrebuilt hmoved =>
    refine grounded_rehomeState ?_ hmoved
    exact grounded_rebuildState hrebuilt
  | aside => exact hL

/-- The ledger of every chain that a node can have is grounded. -/
theorem grounded_of_reachable
    (hreach : Blockchain.Reachable workers premine publicPremine difficulty chain) :
    chain.activeState.Grounded := by
  have hstart : ∀ {chain : Blockchain S},
      Blockchain.genesisWithPublic workers premine publicPremine difficulty = some chain →
        chain.activeState.Grounded := by
    intro chain hchain
    obtain ⟨state, hstate, hroot⟩ := Option.bind_eq_some_iff.mp hchain
    obtain ⟨answer, hanswer, rfl⟩ := Option.map_eq_some_iff.mp hroot
    exact (grounded_genesisState hstate).stateRoot hanswer
  induction hreach with
  | genesis hchain => exact hstart hchain
  | openNew hchain =>
    obtain ⟨start, hfirst, hrest⟩ := Option.bind_eq_some_iff.mp hchain
    obtain ⟨moved, hmoved, rfl⟩ := Option.map_eq_some_iff.mp hrest
    have hmemory := hstart hfirst
    have hmovedGrounded : moved.activeState.Grounded := by
      refine grounded_rehomeState ?_ hmoved
      exact hmemory
    exact hmovedGrounded
  | step _ hstep ih =>
    cases hstep with
    | applyOk block hrun => exact grounded_accepts ih (Blockchain.accepts_of_ok hrun)
    | applyErr block e hrun =>
      rw [Blockchain.eq_of_applyBlock_err hrun]
      exact ih
    | tryFinalize cert =>
      rcases Blockchain.tryFinalize_cases _ cert with hrefused | ⟨-, disk, hadopted⟩
      · rw [hrefused]
        exact ih
      · rw [hadopted]
        exact ih

end Chains

end Latebra.Chain
