import Latebra.State.Parallel
import Latebra.State.Reachability

/-!
# What no operation touches

The programs of a ledger write object records and flags in the overlay, and nothing else: the
committed records and the stored trie stay as they are, however an operation ends
(`backing_applyAtWith`, `keeps_backing_applyBlockParallel`). The trie moves when the state root is
computed, and it stays a stored trie (`WellFormed.stateRoot_content`). So every ledger that a node
reaches is `Sound`.
-/

set_option autoImplicit false
set_option relaxedAutoImplicit false

namespace Latebra.State.Ledger

open Foundation Crypto Latebra.Types

variable {C : CryptoSuite} {L L' : Ledger C}

/-! ### Operations -/

/-- The committed records, the nodes of the trie and its root. -/
def backing (L : Ledger C) : FMap Bytes Bytes × NodeOverlay C × C.Digest :=
  (L.objects.base, L.nodes, L.root)

theorem tree_of_backing_eq (hsame : L'.backing = L.backing) : L'.tree = L.tree :=
  congrArg (fun b : FMap Bytes Bytes × NodeOverlay C × C.Digest ↦ (b.2.1.get, b.2.2)) hsame

theorem backing_putValidator {id : Bytes32} {v : Validator} {reply : Unit}
    (hput : L.putValidator id v = some (reply, L')) : L'.backing = L.backing := by
  unfold putValidator at hput
  split at hput
  · rw [← (Prod.mk.inj (Option.some.inj hput)).2]
    rfl
  · split at hput
    · rw [← (Prod.mk.inj (Option.some.inj hput)).2]
      rfl
    · exact nomatch hput

/-- No command writes below the overlay. -/
theorem backing_exec {c : LedgerCommand C} {reply : c.Reply}
    (hexec : handler.exec c L = some (reply, L')) : L'.backing = L.backing := by
  by_cases hwrite : c.IsWrite
  · cases c with
    | putAccount id a =>
      obtain ⟨-, heq⟩ := Option.ite_none_right_eq_some.mp hexec
      rw [← (Prod.mk.inj (Option.some.inj heq)).2]
      rfl
    | putToken t =>
      obtain ⟨-, heq⟩ := Option.ite_none_right_eq_some.mp hexec
      rw [← (Prod.mk.inj (Option.some.inj heq)).2]
      rfl
    | putContract id contract =>
      obtain ⟨-, heq⟩ := Option.ite_none_right_eq_some.mp hexec
      rw [← (Prod.mk.inj (Option.some.inj heq)).2]
      rfl
    | putValidator id v => exact backing_putValidator hexec
    | putPool p =>
      rw [← (Prod.mk.inj (Option.some.inj hexec)).2]
      unfold putPool
      split <;> rfl
    | putLp token provider shares =>
      rw [← (Prod.mk.inj (Option.some.inj hexec)).2]
      unfold putLp
      split <;> rfl
    | setNextTokenId | insertNullifier | putCurve | putHtlc | deleteHtlc | mark =>
      rw [← (Prod.mk.inj (Option.some.inj hexec)).2]
      rfl
    | _ => exact absurd hwrite id
  · exact (congrArg backing (clone_of_not_isWrite hwrite hexec) :)

/-- No program writes below the overlay. -/
theorem backing_run {α : Type} (program : LedgerM C α) (L : Ledger C) :
    (program.run handler L).2.backing = L.backing :=
  (program.uses_true).preserving backing (fun _ _ _ _ _ hexec ↦ backing_exec hexec) L

theorem backing_markAll (L : Ledger C) (keys : List DirtyKey) :
    (L.markAll keys).backing = L.backing := by
  induction keys generalizing L with
  | nil => rfl
  | cons key rest ih => exact ih (L.mark key)

theorem backing_applyAtWith (L : Ledger C) (tx : Transaction C) (height : UInt64)
    (pre : Option (ProofPass C)) : (L.applyAtWith tx height pre).2.backing = L.backing := by
  have hrun := backing_run (applyInner tx height pre) L
  unfold applyAtWith
  rcases houtcome : (applyInner tx height pre).run handler L with ⟨_ | _ | _, L'⟩ <;>
    rw [houtcome] at hrun
  · exact (backing_markAll _ _).trans hrun
  · exact hrun
  · exact hrun

theorem backing_adoptAll (records : List (Bytes32 × Bytes)) (L : Ledger C) :
    (records.foldl (fun L entry ↦ L.adoptAccountRecord entry.1 entry.2) L).backing =
      L.backing := by
  induction records generalizing L with
  | nil => rfl
  | cons entry rest ih => exact ih (L.adoptAccountRecord entry.1 entry.2)

theorem keeps_backing_executeWave (workers : ℕ) (height : UInt64) (wave : List (LaneTx C)) :
    (executeWave workers height wave).Keeps backing := by
  intro L
  unfold executeWave
  dsimp only
  split
  · exact Transition.Keeps.each
      (fun (entry : LaneTx C) L ↦ backing_applyAtWith L entry.tx height none) L
  · split
    · rfl
    · split
      · rfl
      · exact backing_adoptAll _ L

/-- The transactions of a block are applied in the overlay. -/
theorem keeps_backing_applyBlockParallel (workers : ℕ) (txs : List (Transaction C))
    (height : UInt64) : (applyBlockParallel workers txs height).Keeps backing := by
  intro L
  have hrun := backing_run (preverifyConfidential txs) L
  unfold applyBlockParallel
  rcases houtcome : (preverifyConfidential txs).run handler L with ⟨preverified | _ | _, L'⟩ <;>
    rw [houtcome] at hrun
  · refine (Transition.Keeps.each (fun lane ↦ ?_) L').trans hrun
    cases lane with
    | barrier tx index => exact fun L ↦ backing_applyAtWith L tx height _
    | run txs =>
      exact Transition.Keeps.each fun wave ↦ keeps_backing_executeWave workers height _
  · exact hrun
  · exact hrun

theorem keeps_backing_applySequential (txs : List (Transaction C)) (height : UInt64) :
    (applySequential txs height).Keeps backing :=
  Transition.Keeps.each fun tx L ↦ backing_applyAtWith L tx height none

/-! ### The stored trie -/

theorem tree_settled {program : LedgerM C Unit}
    (hrun : settled (program.run handler L) = some L') : L'.tree = L.tree := by
  have hbacking := backing_run program L
  rcases houtcome : program.run handler L with ⟨_ | e | _, M⟩ <;> rw [houtcome] at hrun hbacking
  · exact Option.some.inj hrun ▸ tree_of_backing_eq hbacking
  · exact Option.some.inj hrun ▸ tree_of_backing_eq hbacking
  · exact nomatch hrun

theorem tree_applyAt {tx : Transaction C} {height : UInt64}
    (hrun : settled (L.applyAt tx height) = some L') : L'.tree = L.tree := by
  have hbacking := backing_applyAtWith L tx height none
  change (L.applyAt tx height).2.backing = L.backing at hbacking
  rcases houtcome : L.applyAt tx height with ⟨_ | e | _, M⟩ <;> rw [houtcome] at hrun hbacking
  · exact Option.some.inj hrun ▸ tree_of_backing_eq hbacking
  · exact Option.some.inj hrun ▸ tree_of_backing_eq hbacking
  · exact nomatch hrun

theorem tree_flush (L : Ledger C) : L.flush.tree = L.tree := by
  have hnodes : L.nodes.flush.get = L.nodes.get := by
    funext hash
    simp [NodeOverlay.flush, NodeOverlay.new, NodeOverlay.get]
  rw [tree, tree, ← hnodes]
  rfl

/-- Every operation leaves a stored trie stored. -/
theorem WellFormed.stored_step (hL : L.WellFormed) (hfree : C.trie.CollisionFree)
    {content : TrieScheme.Content Bytes32 Bytes} (htree : C.trie.TrieAt L.tree content)
    {op : LedgerOp C} (hstep : L.step op = some L') :
    ∃ content', C.trie.TrieAt L'.tree content' := by
  have hsame : L'.tree = L.tree → ∃ content, C.trie.TrieAt L'.tree content := by
    intro heq
    exact ⟨content, heq ▸ htree⟩
  cases op with
  | applyAt => exact hsame (tree_applyAt hstep)
  | register | creditPublic | creditGenesis | rewardMiner => exact hsame (tree_settled hstep)
  | flush =>
    obtain rfl := Option.some.inj hstep
    exact hsame (tree_flush L)
  | clone =>
    obtain rfl := Option.some.inj hstep
    exact hsame rfl
  | stateRoot =>
    obtain ⟨⟨root, M⟩, hrun, rfl⟩ := Option.map_eq_some_iff.mp hstep
    obtain ⟨M', hrun', htree'⟩ := hL.stateRoot_content hfree htree
    obtain ⟨-, rfl⟩ := Prod.mk.inj (Option.some.inj (hrun.symm.trans hrun'))
    exact ⟨_, htree'⟩

/-- Every ledger that a node reaches is sound. -/
theorem Reachable.sound (hfree : C.trie.CollisionFree) (hL : L.Reachable) : L.Sound := by
  refine ⟨hL.view.1, ?_⟩
  induction hL with
  | refl => exact ⟨_, TrieScheme.TrieAt.empty⟩
  | step op hbefore _ hstep ih =>
    obtain ⟨content, htree⟩ := ih
    exact (Reachable.view hbefore).1.stored_step hfree htree hstep

end Latebra.State.Ledger
