import Latebra.Chain.Blockchain
import Latebra.State.Backing

/-!
# Rejected blocks

A block is tried on a ledger that shares the base of its store with the active one, and a block that
would switch branches is in the tree while the ledger is rebuilt. `Blockchain.applyBlock_unchanged` says
that nothing of either is left when the block is rejected: no operation on a ledger but the commit of
an adopted block writes below the overlay (`keeps_bases_applyBlockState`), and the block is taken
out of the tree again.
-/

set_option autoImplicit false
set_option relaxedAutoImplicit false

namespace Latebra.State.Ledger

open Foundation Crypto Latebra.Types

variable {C : CryptoSuite}

/-- The committed part of the store of a ledger. -/
def bases (L : Ledger C) : FMap Bytes Bytes × TrieScheme.Nodes Bytes32 Bytes C.Digest :=
  (L.objects.base, L.nodes.base)

theorem withBaseOf_eq {L other : Ledger C} (hbases : other.bases = L.bases) :
    L.withBaseOf other = L := by
  obtain ⟨hobjects, hnodes⟩ := Prod.mk.inj hbases
  unfold withBaseOf
  rw [hobjects, hnodes]

theorem bases_of_backing_eq {L L' : Ledger C} (hsame : L'.backing = L.backing) :
    L'.bases = L.bases :=
  congrArg (fun b : FMap Bytes Bytes × NodeOverlay C × C.Digest ↦ (b.1, b.2.1.base)) hsame

theorem bases_run {α : Type} (program : LedgerM C α) (L : Ledger C) :
    (program.run handler L).2.bases = L.bases :=
  bases_of_backing_eq (backing_run program L)

theorem bases_reconcile {L L' : Ledger C} {keys : List DirtyKey}
    (hrun : L.reconcile keys = some L') : L'.bases = L.bases := by
  induction keys generalizing L with
  | nil =>
    obtain rfl := Option.some.inj hrun
    rfl
  | cons key rest ih =>
    have hread := bases_run (leafValue key) L
    unfold reconcile at hrun
    split at hrun
    · next value L₁ hvalue =>
      rw [hvalue] at hread
      obtain ⟨L₂, hset, hrest⟩ := Option.bind_eq_some_iff.mp hrun
      obtain ⟨written, -, rfl⟩ := Option.map_eq_some_iff.mp hset
      exact (ih hrest).trans hread
    · exact nomatch hrun

/-- The state root is computed in the overlay. -/
theorem bases_stateRoot {L L' : Ledger C} {root : C.Digest}
    (hrun : L.stateRoot = some (root, L')) : L'.bases = L.bases := by
  unfold stateRoot at hrun
  split at hrun
  · rw [← (Prod.mk.inj (Option.some.inj hrun)).2]
  · obtain ⟨L₁, hreconcile, heq⟩ := Option.bind_eq_some_iff.mp hrun
    rw [← (Prod.mk.inj (Option.some.inj heq)).2]
    have hbases := bases_reconcile hreconcile
    exact hbases

end Latebra.State.Ledger

namespace Latebra.Chain

open Foundation Crypto Latebra.Types State

variable {S : ChainSuite}

theorem keeps_bases_rewardBlock (txs : List (Transaction S.toCryptoSuite)) (miner : Bytes32)
    (height : UInt64) : (rewardBlock txs miner height).Keeps Ledger.bases := by
  unfold rewardBlock
  split
  · exact Transition.Keeps.skip
  · refine Transition.Keeps.andThen ?_ (Transition.Keeps.andThen ?_ ?_)
    · exact fun L ↦ Ledger.bases_run _ L
    · exact Transition.Keeps.each fun fee L ↦ Ledger.bases_run _ L
    · exact Transition.Keeps.each fun fee L ↦ Ledger.bases_run _ L

theorem keeps_bases_checkStateRoot (stateRoot : Bytes32) :
    (checkStateRoot (S := S) stateRoot).Keeps Ledger.bases := by
  intro L
  unfold checkStateRoot
  split
  · rfl
  · next hroot =>
    split <;> exact Ledger.bases_stateRoot hroot

/-- The transition of a block stays in the overlay, whether it succeeds or not. -/
theorem keeps_bases_applyBlockState (workers : ℕ) (block : Block S) :
    (applyBlockState workers block).Keeps Ledger.bases := by
  refine Transition.Keeps.andThen ?_ (keeps_bases_checkStateRoot _)
  refine Transition.Keeps.mapErr (Transition.Keeps.andThen ?_ ?_) _
  · exact fun L ↦ Ledger.bases_of_backing_eq (Ledger.keeps_backing_applyBlockParallel workers _ _ L)
  · exact keeps_bases_rewardBlock _ _ _

namespace Blockchain

variable {chain chain' : Blockchain S} {block : Block S} {node : TreeNode} {e : ChainError}

theorem extendTip_err (hrun : extendTip block node chain = (.err e, chain')) : chain' = chain := by
  have hbases := keeps_bases_applyBlockState chain.workers block chain.activeState.clone
  unfold extendTip at hrun
  split at hrun
  · next next hnext =>
    rw [hnext] at hbases
    have hsame : chain.activeState.withBaseOf next = chain.activeState :=
      Ledger.withBaseOf_eq hbases
    rw [← (Prod.mk.inj hrun).2, hsame]
  · exact nomatch (Prod.mk.inj hrun).1
  · exact nomatch (Prod.mk.inj hrun).1

theorem reorganize_err (hnew : chain.tree[block.id]? = none)
    (hrun : reorganize block node chain = (.err e, chain')) : chain' = chain := by
  have htree : (chain.tree.insert block.id node).erase block.id = chain.tree := by
    refine FMap.ext fun id ↦ ?_
    rw [FMap.lookup_erase, FMap.lookup_insert]
    split
    · next heq => rw [heq, hnew]
    · rfl
  unfold reorganize at hrun
  dsimp only at hrun
  split at hrun
  · split at hrun
    · split at hrun
      · exact nomatch (Prod.mk.inj hrun).1
      · exact nomatch (Prod.mk.inj hrun).1
    · rw [← (Prod.mk.inj hrun).2, htree]
    · exact nomatch (Prod.mk.inj hrun).1
  · exact nomatch (Prod.mk.inj hrun).1

/-- A rejected block leaves the chain exactly as it was. -/
theorem eq_of_applyBlock_err (hrun : applyBlock block chain = (.err e, chain')) :
    chain' = chain := by
  unfold applyBlock at hrun
  split at hrun
  · exact nomatch (Prod.mk.inj hrun).1
  next hnew =>
  split at hrun
  · exact (Prod.mk.inj hrun).2.symm
  split at hrun
  · exact (Prod.mk.inj hrun).2.symm
  split at hrun
  · exact (Prod.mk.inj hrun).2.symm
  · exact nomatch (Prod.mk.inj hrun).1
  split at hrun
  · exact extendTip_err hrun
  split at hrun
  · refine reorganize_err ?_ hrun
    simpa using hnew
  · exact nomatch (Prod.mk.inj hrun).1

/-- A block that is rejected leaves the chain exactly as it was, its durable store included, and a
block that is in the tree already is accepted and changes nothing. -/
theorem applyBlock_unchanged (chain : Blockchain S) (block : Block S) :
    (∀ e chain', applyBlock block chain = (.err e, chain') → chain' = chain) ∧
      (chain.tree.contains block.id → applyBlock block chain = (.ok (), chain)) := by
  constructor
  · intro e chain' hrun
    exact eq_of_applyBlock_err hrun
  · intro hknown
    unfold applyBlock
    rw [if_pos hknown]

/-! ### A branch that cannot be replayed -/

/-- The genesis block alone, without accounts. -/
def bareChain : Blockchain plainSuite := (genesisWithPublic 1 [] [] 1).get (by decide +kernel)

/-- A block that pays nobody. Without transactions it leaves the empty ledger as it is. -/
def bareBlock (prevHash : Bytes32) (height : UInt64)
    (txs : List (Transaction plainSuite.toCryptoSuite)) : Block plainSuite :=
  ⟨⟨prevHash, height, GENESIS_TIMESTAMP + 1000, txRoot plainSuite txs,
    bareChain.activeState.root.hash, 0, 0⟩, txs⟩

/-- A registration, then a stake of an account that is not registered. -/
def unpaidTxs : List (Transaction plainSuite.toCryptoSuite) :=
  [.register (49 <<< 240) 0, .stake 5 100000000 0 5]

def firstBlock : Block plainSuite := bareBlock bareChain.genesisId 1 []

/-- A rival of the first block. Its stake fails when it is replayed. -/
def rivalBlock : Block plainSuite := bareBlock bareChain.genesisId 1 unpaidTxs

/-- A node that follows the first block and keeps its rival aside. -/
def forkedChain : Blockchain plainSuite :=
  (applyBlock rivalBlock (applyBlock firstBlock bareChain).2).2

/-- A block that fails on the clone of the active ledger, and one that fails when its branch is
replayed, both leave the node as it was. -/
theorem applyBlock_unchanged_forked :
    applyBlock (bareBlock firstBlock.id 2 unpaidTxs) forkedChain =
      (.err (.ledger .senderNotRegistered), forkedChain) ∧
    applyBlock (bareBlock rivalBlock.id 2 []) forkedChain =
      (.err (.ledger .senderNotRegistered), forkedChain) := by
  have hrejected :
      (applyBlock (bareBlock firstBlock.id 2 unpaidTxs) forkedChain).1 =
        .err (.ledger .senderNotRegistered) ∧
      (applyBlock (bareBlock rivalBlock.id 2 []) forkedChain).1 =
        .err (.ledger .senderNotRegistered) := by
    decide +kernel
  have hkept {block : Block plainSuite} {e : ChainError}
      (hfails : (applyBlock block forkedChain).1 = .err e) :
      applyBlock block forkedChain = (.err e, forkedChain) := by
    rcases hrun : applyBlock block forkedChain with ⟨outcome, chain⟩
    rw [hrun] at hfails
    obtain rfl : outcome = .err e := hfails
    rw [(applyBlock_unchanged forkedChain block).1 e chain hrun]
  exact ⟨hkept hrejected.1, hkept hrejected.2⟩

end Blockchain

end Latebra.Chain
