import Latebra.Chain.ActiveLedger
import Latebra.Chain.Serving

/-!
# Blocks that extend a chain

A block on the tip of a running node extends its chain when it passes the structural rules and its
transactions run on the objects of the active ledger. In a suite where all state roots are alike
nothing else is asked of it (`Blockchain.applies_of_runs`), and the objects after it are those that
the transactions lead to. `Stands` follows a node that runs on blocks without transactions.
-/

set_option autoImplicit false
set_option relaxedAutoImplicit false

namespace Latebra.Chain

open Foundation Crypto Latebra.Types State

section Growth

variable {S : ChainSuite}

theorem nodeOver_pos (parent : TreeNode) (block : Block S) :
    1 ≤ (retarget parent.childDifficulty
      (block.header.timestamp - min block.header.timestamp parent.header.timestamp)).toNat :=
  retarget_pos _ _

/-- The node of a block over the node of its parent. -/
def nodeOver (parent : TreeNode) (block : Block S) : TreeNode where
  encoded := block.encode
  header := block.header
  height := block.header.height
  childDifficulty := retarget parent.childDifficulty
    (block.header.timestamp - min block.header.timestamp parent.header.timestamp)
  childDifficulty_pos := nodeOver_pos parent block
  cumWork := parent.cumWork + parent.childDifficulty.toNat

theorem encoded_nodeOver (parent : TreeNode) (block : Block S) :
    (nodeOver parent block).encoded = block.encode := rfl

/-- A block that passes each structural rule. -/
theorem childNode_eq {parent : TreeNode} {block : Block S}
    (hshort : block.txs.length ≤ MAX_TXS_PER_BLOCK)
    (hheight : checkedAdd parent.height 1 = some block.header.height)
    (hroot : block.header.txRoot = txRoot S block.txs)
    (hpow : meetsDifficulty block.id parent.childDifficulty)
    (hchecked : block.txs.forM (checkTx S) = .ok ()) :
    childNode parent block = some (nodeOver parent block) := by
  apply childNode_eq_some.mpr
  refine ⟨not_lt.mpr hshort, ?_⟩
  have hsame : ¬ block.header.height ≠ block.header.height := not_not.mpr rfl
  rw [Blockchain.validate, hheight]
  dsimp only
  rw [if_neg hsame, if_neg (not_not.mpr hroot), if_neg (not_not.mpr hpow), hchecked]
  rfl

/-- A block whose transactions run on the objects applies when all state roots are alike. -/
theorem Blockchain.applies_of_runs (hroots : ∀ root, S.digestBytes root = 0)
    (hfree : S.trie.CollisionFree) {chain : Blockchain S} {block : Block S}
    (hL : chain.activeState.Grounded) (hzero : block.header.stateRoot = 0)
    {s' : LedgerState S.toCryptoSuite}
    (hruns : LedgerState.Runs (blockProgram block.txs block.header.miner block.header.height)
      chain.activeState.view () s') :
    ∃ next, applyBlockState chain.workers block chain.activeState.clone = (.ok (), next) ∧
      next.flush.view = { s' with dirty := ∅ } := by
  obtain ⟨M, hM⟩ := applied_of_runs chain.workers hL.clone.formed hruns
  obtain ⟨hformed, hspec, -⟩ := applied_spec hL.clone.formed hM
  have hview : M.view = s' := (Prod.mk.inj (hspec.symm.trans hruns)).2
  obtain ⟨content, hstored⟩ := (grounded_applied hL.clone hM).stored hfree
  obtain ⟨next, hroot, -⟩ := hformed.stateRoot_content hfree hstored
  have hnext : next.WellFormed := ((grounded_applied hL.clone hM).stateRoot hroot).formed
  refine ⟨next, applyBlockState_eq_ok.mpr ⟨M, next.root, hM, hroot, ?_⟩, ?_⟩
  · exact (hroots _).trans hzero.symm
  · rw [hnext.flush.2, hformed.view_stateRoot hroot, hview]

section Runs

variable {workers : ℕ} {premine publicPremine : List (Bytes32 × UInt64)} {difficulty : UInt64}

/-- A chain starts on the objects of its genesis ledger. -/
theorem exists_genesis (hroots : ∀ root, S.digestBytes root = 0) (hfree : S.trie.CollisionFree)
    {G : Ledger S.toCryptoSuite} (hstate : Blockchain.genesisState premine publicPremine = some G) :
    ∃ chain : Blockchain S,
      Blockchain.genesisWithPublic workers premine publicPremine difficulty = some chain ∧
      chain.tree = (∅ : FMap Bytes32 TreeNode).insert ((Blockchain.genesisHeader 0).id S)
        (Blockchain.genesisNode S 0 difficulty) ∧
      chain.activeTip = (Blockchain.genesisHeader 0).id S ∧ chain.premine = premine ∧
      chain.publicPremine = publicPremine ∧
      chain.activeState.view = { G.view with dirty := ∅ } := by
  have hreach : G.Reachable := reachableBy_genesisState (fun _ _ _ ↦ trivial) hstate
  obtain ⟨hformed, content, htree⟩ := hreach.sound hfree
  obtain ⟨A, hroot, -⟩ := hformed.stateRoot_content hfree htree
  have hstart : Blockchain.genesisWithPublic workers premine publicPremine difficulty =
      some (Blockchain.atGenesis workers premine publicPremine difficulty A.root A) := by
    rw [Blockchain.genesisWithPublic, hstate, Option.bind_some, hroot]
    rfl
  refine ⟨_, hstart, ?_, ?_, rfl, rfl, hformed.view_stateRoot hroot⟩
  · rw [Blockchain.atGenesis, hroots]
    rfl
  · rw [Blockchain.atGenesis, hroots]
    rfl

/-- A durable chain over a new database starts on the objects of its genesis ledger. -/
theorem exists_openNew (hroots : ∀ root, S.digestBytes root = 0) (hfree : S.trie.CollisionFree)
    {G : Ledger S.toCryptoSuite} (hstate : Blockchain.genesisState premine publicPremine = some G) :
    ∃ chain : Blockchain S,
      Blockchain.openNew workers premine publicPremine difficulty = some chain ∧
      chain.tree = (∅ : FMap Bytes32 TreeNode).insert ((Blockchain.genesisHeader 0).id S)
        (Blockchain.genesisNode S 0 difficulty) ∧
      chain.activeTip = (Blockchain.genesisHeader 0).id S ∧
      chain.activeChain = [(Blockchain.genesisHeader 0).id S] ∧
      chain.activeState.view = { G.view with dirty := ∅ } := by
  have hreach : G.Reachable := reachableBy_genesisState (fun _ _ _ ↦ trivial) hstate
  obtain ⟨hformed, content, htree⟩ := hreach.sound hfree
  obtain ⟨A, hroot, -⟩ := hformed.stateRoot_content hfree htree
  have hview : A.view = { G.view with dirty := ∅ } := hformed.view_stateRoot hroot
  have hA : A.Grounded := hreach.grounded.stateRoot hroot
  obtain ⟨content', htree'⟩ := hA.stored hfree
  obtain ⟨B, hroot', -⟩ := hA.formed.stateRoot_content hfree htree'
  obtain ⟨moved, hmoved⟩ : ∃ moved, A.rehome = some moved :=
    ⟨_, by rw [Ledger.rehome, hroot', Option.map_some]⟩
  obtain ⟨_, M, hrootM, -, hviewM, -, -⟩ := Ledger.exists_of_rehome hmoved
  have hopened : Blockchain.openNew workers premine publicPremine difficulty =
      some (Blockchain.noteValidatorSet
        { Blockchain.atGenesis (S := S) workers premine publicPremine difficulty A.root A with
          activeState := moved
          disk := some { Disk.blank with
            stateAnchor := some (anchorBytes 0 ((Blockchain.genesisHeader 0).id S)) }
          recentSets := [] }) := by
    have hstart : Blockchain.genesisWithPublic workers premine publicPremine difficulty =
        some (Blockchain.atGenesis workers premine publicPremine difficulty A.root A) := by
      rw [Blockchain.genesisWithPublic, hstate, Option.bind_some, hroot]
      rfl
    rw [Blockchain.openNew, hstart, Option.bind_some, Blockchain.rehomeState]
    change (Option.map _ A.rehome).map _ = _
    rw [hmoved, Blockchain.atGenesis, hroots]
    rfl
  refine ⟨_, hopened, ?_, ?_, ?_, ?_⟩
  · rw [Blockchain.atGenesis, hroots]
    rfl
  · rw [Blockchain.atGenesis, hroots]
    rfl
  · rw [Blockchain.atGenesis, hroots]
    rfl
  · show moved.view = _
    rw [hviewM, hA.formed.view_stateRoot hrootM, hview]

/-- A reachable chain grows by a block that passes the structural rules on its tip and runs on its
objects. -/
theorem Blockchain.Reachable.grow (hroots : ∀ root, S.digestBytes root = 0)
    (hfree : S.trie.CollisionFree) {chain : Blockchain S}
    (hreach : Blockchain.Reachable workers premine publicPremine difficulty chain) {block : Block S}
    {parent node : TreeNode} (hparent : chain.tree[chain.activeTip]? = some parent)
    (hprev : block.header.prevHash = chain.activeTip) (hchild : childNode parent block = some node)
    (hnew : chain.tree[block.id]? = none) (hzero : block.header.stateRoot = 0)
    {s' : LedgerState S.toCryptoSuite}
    (hruns : LedgerState.Runs (blockProgram block.txs block.header.miner block.header.height)
      chain.activeState.view () s') :
    ∃ chain', Blockchain.Reachable workers premine publicPremine difficulty chain' ∧
      chain'.tree = chain.tree.insert block.id node ∧ chain'.activeTip = block.id ∧
      chain'.activeHeight = block.header.height ∧
      chain'.activeState.view = { s' with dirty := ∅ } := by
  have hadmitted : chain.Admitted block node := ⟨hnew, parent, hprev ▸ hparent, hchild⟩
  obtain ⟨next, hrun, hview⟩ :=
    Blockchain.applies_of_runs hroots hfree (grounded_of_reachable hreach) hzero hruns
  exact ⟨_, hreach.step (.applyOk block (hadmitted.extends hprev hrun)), rfl, rfl, rfl, hview⟩

end Runs

end Growth

/-! ### Blocks without transactions -/

section EmptyBlocks

variable {prevHash tip : Bytes32} {height timestamp : UInt64} {parent : TreeNode}
  {tree : FMap Bytes32 TreeNode} {path : List Bytes32} {chain : Blockchain rootlessSuite}

theorem childNode_emptyBlock (hheight : checkedAdd parent.height 1 = some height)
    (hpow : meetsDifficulty (emptyBlock prevHash height timestamp).id parent.childDifficulty) :
    childNode parent (emptyBlock prevHash height timestamp) =
      some (nodeOver parent (emptyBlock prevHash height timestamp)) :=
  childNode_eq (Nat.zero_le _) hheight rfl hpow rfl

theorem decode_emptyBlock :
    Block.decode (emptyBlock prevHash height timestamp).encode =
      some (emptyBlock prevHash height timestamp) :=
  Block.decode_encode ⟨Nat.two_pow_pos 32, fun _ hmem ↦ absurd hmem List.not_mem_nil⟩

theorem length_emptyBlock : (emptyBlock prevHash height timestamp).encode.length = 156 := by
  simp [Block.encode, BlockHeader.encode, emptyBlock]

/-- A node in memory that has run on empty blocks. -/
structure Stands (chain : Blockchain rootlessSuite) (tree : FMap Bytes32 TreeNode)
    (path : List Bytes32) (tip : Bytes32) (height : UInt64) : Prop where
  reach : Blockchain.Reachable 1 [] [] 1 chain
  tree : chain.tree = tree
  path : chain.activeChain = path
  tip : chain.activeTip = tip
  height : chain.activeHeight = height
  clean : chain.activeState.dirty = []
  unfinalized : chain.finalized = none

theorem Stands.admitted (h : Stands chain tree path tip height) {parent : TreeNode}
    {block : Block rootlessSuite} {node : TreeNode} (hnew : tree[block.id]? = none)
    (hparent : tree[block.header.prevHash]? = some parent)
    (hchild : childNode parent block = some node) : chain.Admitted block node := by
  refine ⟨?_, parent, ?_, hchild⟩
  · rw [h.tree, hnew]
  · rw [h.tree, hparent]

/-- An empty block on the tip extends the chain. -/
theorem Stands.extend (h : Stands chain tree path tip height) (next timestamp : UInt64)
    (hnext : checkedAdd parent.height 1 = some next) (hparent : tree[tip]? = some parent)
    (hnew : tree[(emptyBlock tip next timestamp).id]? = none)
    (hpow : meetsDifficulty (emptyBlock tip next timestamp).id parent.childDifficulty) :
    ∃ chain', Stands chain'
      (tree.insert (emptyBlock tip next timestamp).id
        (nodeOver parent (emptyBlock tip next timestamp)))
      (path ++ [(emptyBlock tip next timestamp).id]) (emptyBlock tip next timestamp).id next := by
  have hadmitted := h.admitted hnew hparent (childNode_emptyBlock hnext hpow)
  have hrun := hadmitted.extends h.tip.symm
    (applyBlockState_emptyBlock chain.workers (L := chain.activeState.clone) h.clean)
  refine ⟨_, h.reach.step (.applyOk _ hrun), ?_, ?_, rfl, rfl, h.clean, h.unfinalized⟩
  · change chain.tree.insert _ _ = _
    rw [h.tree]
  · change chain.activeChain ++ _ = _
    rw [h.path]

/-- An empty block elsewhere is kept aside when it has no more work than the active branch. -/
theorem Stands.aside (h : Stands chain tree path tip height) {active : TreeNode}
    (next timestamp : UInt64) (hnext : checkedAdd parent.height 1 = some next)
    (hparent : tree[prevHash]? = some parent)
    (hnew : tree[(emptyBlock prevHash next timestamp).id]? = none)
    (hpow : meetsDifficulty (emptyBlock prevHash next timestamp).id parent.childDifficulty)
    (hother : prevHash ≠ tip) (hactive : tree[tip]? = some active)
    (hlight : parent.cumWork + parent.childDifficulty.toNat ≤ active.cumWork) :
    chain.Idle (emptyBlock prevHash next timestamp) ∧
      ∃ chain', Stands chain'
        (tree.insert (emptyBlock prevHash next timestamp).id
          (nodeOver parent (emptyBlock prevHash next timestamp))) path tip height := by
  have hadmitted := h.admitted hnew hparent (childNode_emptyBlock hnext hpow)
  have hlight' : ¬ chain.activeWork <
      (nodeOver parent (emptyBlock prevHash next timestamp)).cumWork := by
    rw [Blockchain.activeWork, h.tree, h.tip, hactive]
    exact not_lt.mpr hlight
  have hother' : (emptyBlock prevHash next timestamp).header.prevHash ≠ chain.activeTip := by
    rw [h.tip]
    exact hother
  have hrun : Blockchain.applyBlock (emptyBlock prevHash next timestamp) chain =
      Blockchain.keepAside (emptyBlock prevHash next timestamp)
        (nodeOver parent (emptyBlock prevHash next timestamp)) chain := by
    rw [Blockchain.applyBlock_admitted hadmitted, if_neg hother', if_neg hlight']
  refine ⟨.aside hadmitted hother' fun hheavier ↦ absurd hheavier hlight', _,
    h.reach.step (.applyOk _ hrun), ?_, h.path, h.tip, h.height, h.clean, h.unfinalized⟩
  change chain.tree.insert _ _ = _
  rw [h.tree]

/-- The genesis block of a node that runs on empty blocks. -/
def emptyGenesis : TreeNode := Blockchain.genesisNode rootlessSuite 0 1

/-- The id of the genesis block. -/
def emptyGenesisId : Bytes32 := emptyGenesis.header.id rootlessSuite

theorem exists_stands_start : ∃ chain : Blockchain rootlessSuite,
    Stands chain ((∅ : FMap Bytes32 TreeNode).insert emptyGenesisId emptyGenesis) [emptyGenesisId]
      emptyGenesisId 0 := by
  have hstate : (Blockchain.genesisState (S := rootlessSuite) [] []) = some Ledger.new.flush := rfl
  have hreach : (Ledger.new.flush : Ledger rootlessSuite.toCryptoSuite).Reachable :=
    reachableBy_genesisState (fun _ _ _ ↦ trivial) hstate
  obtain ⟨hformed, content, htree⟩ := hreach.sound rootlessSuite_collisionFree
  obtain ⟨A, hroot, -⟩ := hformed.stateRoot_content rootlessSuite_collisionFree htree
  refine ⟨Blockchain.atGenesis 1 [] [] 1 A.root A, .genesis ?_, rfl, rfl, rfl, rfl, ?_, rfl⟩
  · rw [Blockchain.genesisWithPublic, hstate, Option.bind_some, hroot]
    rfl
  · exact stateRoot_clean hroot

end EmptyBlocks

end Latebra.Chain
