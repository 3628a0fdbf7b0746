import Latebra.Chain.BlockEffects
import Latebra.Foundation.HeaviestChain

/-!
# Fork choice and finality of a node

The tree of a node is a view of heaviest-branch fork choice (`Tracks`): every id in it has a branch
of blocks down to genesis, and the node of the id is what the structural rules make of that branch.
Whatever a node is given, blocks and certificates, is a move of its view (`Tracks.applyBlock`,
`Tracks.tryFinalize`), so what holds of moves holds of every chain that a node can have.

`finality_kept` is the finality of a running node.
-/

set_option autoImplicit false
set_option relaxedAutoImplicit false

namespace Latebra.Chain

open Foundation Crypto Latebra.Types State

/-! ### The structural rules -/

section Rules

variable {S : ChainSuite}

/-- What the structural rules say of a block that passes them. -/
structure Admits (parent : TreeNode) (block : Block S) (node : TreeNode) : Prop where
  height : node.height.toNat = parent.height.toNat + 1
  header : node.header = block.header
  encoded : node.encoded = block.encode
  headerHeight : block.header.height = node.height
  checked : ∀ tx ∈ block.txs, checkTx S tx = .ok ()
  cumWork : node.cumWork = parent.cumWork + parent.childDifficulty.toNat

theorem checkTx_of_forM {txs : List (Transaction S.toCryptoSuite)}
    (hrun : txs.forM (checkTx S) = .ok ()) : ∀ tx ∈ txs, checkTx S tx = .ok () := by
  induction txs with
  | nil =>
    intro tx htx
    exact absurd htx List.not_mem_nil
  | cons tx rest ih =>
    change (checkTx S tx >>= fun _ ↦ rest.forM (checkTx S)) = .ok () at hrun
    cases hfirst : checkTx S tx with
    | error e =>
      rw [hfirst] at hrun
      exact nomatch hrun
    | ok value =>
      rw [hfirst] at hrun
      intro other hother
      rcases List.mem_cons.mp hother with rfl | hrest
      · exact hfirst
      · exact ih hrun other hrest

theorem admits_of_validate {parent node : TreeNode} {block : Block S}
    (hvalid : Blockchain.validate parent block = .ok node) : Admits parent block node := by
  unfold Blockchain.validate at hvalid
  split at hvalid
  · exact nomatch hvalid
  next height hheight =>
  split at hvalid
  · exact nomatch hvalid
  next hsame =>
  split at hvalid
  · exact nomatch hvalid
  split at hvalid
  · exact nomatch hvalid
  split at hvalid
  · exact nomatch hvalid
  next hchecked =>
  obtain rfl := Outcome.ok.inj hvalid
  have hsum : height.toNat = parent.height.toNat + 1 := checkedAdd_eq_some.mp hheight
  have heq : block.header.height = height := not_not.mp hsame
  constructor
  · rw [← hsum, ← heq]
  · rfl
  · rfl
  · rfl
  · exact checkTx_of_forM hchecked
  · rfl

/-- The node of a block over the node of its parent, if the block passes the rules. -/
def childNode (parent : TreeNode) (block : Block S) : Option TreeNode :=
  if MAX_TXS_PER_BLOCK < block.txs.length then none
  else
    match Blockchain.validate parent block with
    | .ok node => some node
    | _ => none

theorem childNode_eq_some {parent node : TreeNode} {block : Block S} :
    childNode parent block = some node ↔
      ¬ MAX_TXS_PER_BLOCK < block.txs.length ∧ Blockchain.validate parent block = .ok node := by
  unfold childNode
  split
  · next hlong => simp [hlong]
  · next hshort =>
    cases Blockchain.validate parent block <;> simp [hshort]

variable (S) in
/-- The block tree over a genesis block. -/
def blockRules (genesis : TreeNode) : TreeRules (Block S) Bytes32 TreeNode where
  id := Block.id
  parent block := block.header.prevHash
  genesis := genesis.header.id S
  genesisMark := genesis
  child := childNode
  work := TreeNode.cumWork
  work_lt := by
    intro parent block node hadmit
    rw [(admits_of_validate (childNode_eq_some.mp hadmit).2).cumWork]
    exact Nat.lt_add_of_pos_right parent.childDifficulty_pos
  irrefl := by
    intro parent block node hadmit
    have hfirst := admits_of_validate (childNode_eq_some.mp hadmit).2
    by_contra hsome
    obtain ⟨node', hagain⟩ := Option.ne_none_iff_exists'.mp hsome
    have hsecond := admits_of_validate (childNode_eq_some.mp hagain).2
    have hheight := hsecond.height
    rw [← hsecond.headerHeight, ← hfirst.headerHeight] at hheight
    omega

variable {genesis : TreeNode}

/-- The height of a block is the length of its branch. -/
theorem height_of_mark (hzero : genesis.height = 0) {branch : List (Block S)} {node : TreeNode}
    (hmark : (blockRules S genesis).mark branch = some node) :
    node.height.toNat = branch.length := by
  induction branch generalizing node with
  | nil =>
    have hsame : genesis = node := Option.some.inj hmark
    rw [← hsame, hzero]
    rfl
  | cons block rest ih =>
    obtain ⟨parent, hparent, hadmit⟩ := Option.bind_eq_some_iff.mp hmark
    rw [(admits_of_validate (childNode_eq_some.mp hadmit).2).height, ih hparent, List.length_cons]

end Rules

/-! ### The tree of a node -/

/-- A chain whose tree has, for every known branch, what the rules make of it. -/
structure Holds {S : ChainSuite} {genesis : TreeNode} (chain : Blockchain S)
    (v : (blockRules S genesis).View) : Prop where
  genesisId : chain.genesisId = genesis.header.id S
  tree : ∀ id, chain.tree[id]? = (v.known id).bind (blockRules S genesis).mark

/-- A chain that keeps a view: its tree, its active branch and its finality watermark. -/
structure Tracks {S : ChainSuite} {genesis : TreeNode} (chain : Blockchain S)
    (v : (blockRules S genesis).View) : Prop extends Holds chain v where
  formed : v.WellFormed
  tip : chain.activeTip = (blockRules S genesis).tip v.active
  height : chain.activeHeight.toNat = v.active.length
  active : chain.activeChain = (blockRules S genesis).path v.active
  finalized : match chain.finalized with
    | none => v.finalized = []
    | some (height, id) =>
      height.toNat = v.finalized.length ∧ id = (blockRules S genesis).tip v.finalized

section Tree

variable {S : ChainSuite} {genesis : TreeNode} {chain : Blockchain S}
  {v : (blockRules S genesis).View}

theorem Holds.isSome_tree (h : Holds chain v) (hclosed : v.Closed) (id : Bytes32) :
    chain.tree[id]? = none ↔ v.known id = none := by
  rw [h.tree]
  cases hknown : v.known id with
  | none => simp
  | some branch =>
    have hmark := hclosed.marked hknown
    simpa using Option.isSome_iff_ne_none.mp hmark

theorem Holds.node (h : Holds chain v) {id : Bytes32} {node : TreeNode}
    (hnode : chain.tree[id]? = some node) :
    ∃ branch, v.known id = some branch ∧ (blockRules S genesis).mark branch = some node := by
  rw [h.tree] at hnode
  exact Option.bind_eq_some_iff.mp hnode

/-- The walk to genesis lists a known branch. -/
theorem Holds.walk_eq (h : Holds chain v) (hclosed : v.Closed) {branch : List (Block S)}
    (hknown : v.known ((blockRules S genesis).tip branch) = some branch) {fuel : ℕ}
    (hfuel : branch.length < fuel) :
    (chain.walk fuel ((blockRules S genesis).tip branch)).reverse =
      (blockRules S genesis).path branch := by
  obtain ⟨fuel, rfl⟩ := Nat.exists_eq_add_one_of_ne_zero (Nat.ne_zero_of_lt hfuel)
  induction branch generalizing fuel with
  | nil =>
    have hgenesis : (blockRules S genesis).tip [] = chain.genesisId := h.genesisId.symm
    rw [Blockchain.walk, if_pos hgenesis]
    rfl
  | cons block rest ih =>
    have hbelow := (hclosed.closed hknown).2
    have htip : block.header.prevHash = (blockRules S genesis).tip rest := hclosed.eq_tip hbelow
    have hother : (blockRules S genesis).tip (block :: rest) ≠ chain.genesisId := by
      intro heq
      rw [heq, h.genesisId] at hknown
      exact nomatch hclosed.root.symm.trans hknown
    obtain ⟨node, hmark⟩ := Option.isSome_iff_exists.mp (hclosed.marked hknown)
    have hnode : chain.tree[(blockRules S genesis).tip (block :: rest)]? = some node := by
      rw [h.tree, hknown]
      exact hmark
    obtain ⟨parent, -, hadmit⟩ := Option.bind_eq_some_iff.mp hmark
    have hheader := (admits_of_validate (childNode_eq_some.mp hadmit).2).header
    rw [List.length_cons] at hfuel
    obtain ⟨fuel, rfl⟩ := Nat.exists_eq_add_one_of_ne_zero
      (Nat.ne_zero_of_lt (Nat.lt_of_succ_lt_succ hfuel))
    rw [Blockchain.walk, if_neg hother, hnode]
    dsimp only
    rw [hheader, htip, List.reverse_cons]
    have hrest : v.known ((blockRules S genesis).tip rest) = some rest :=
      (congrArg v.known htip.symm).trans hbelow
    rw [ih hrest fuel (Nat.lt_of_succ_lt_succ hfuel)]
    rfl

theorem Holds.pathTo_eq (h : Holds chain v) (hclosed : v.Closed) (hzero : genesis.height = 0)
    {branch : List (Block S)} (hknown : v.known ((blockRules S genesis).tip branch) = some branch) :
    chain.pathTo ((blockRules S genesis).tip branch) = (blockRules S genesis).path branch := by
  obtain ⟨node, hmark⟩ := Option.isSome_iff_exists.mp (hclosed.marked hknown)
  have hnode : chain.tree[(blockRules S genesis).tip branch]? = some node := by
    rw [h.tree, hknown]
    exact hmark
  refine h.walk_eq hclosed hknown ?_
  rw [hnode, Option.map_some, Option.getD_some, height_of_mark hzero hmark]
  exact Nat.lt_succ_self _

/-- The tree with one more block. -/
theorem Holds.add (h : Holds chain v) {block : Block S} {branch : List (Block S)}
    {node : TreeNode} (hmark : (blockRules S genesis).mark (block :: branch) = some node)
    {chain' : Blockchain S} (hid : chain'.genesisId = chain.genesisId)
    (htree : chain'.tree = chain.tree.insert block.id node) :
    Holds chain' (v.add block branch) := by
  refine ⟨hid.trans h.genesisId, fun id ↦ ?_⟩
  rw [htree, FMap.lookup_insert]
  change _ = (Function.update v.known block.id (some (block :: branch)) id).bind _
  rw [Function.update_apply]
  split
  · exact hmark.symm
  · exact h.tree id

end Tree

/-! ### What a node does with a block -/

namespace Blockchain

variable {S : ChainSuite}

/-- The chain with one more block in its tree. -/
def grown (chain : Blockchain S) (block : Block S) (node : TreeNode) : Blockchain S :=
  { chain with tree := chain.tree.insert block.id node }

/-- A new block that passes the structural rules over its parent. -/
structure Admitted (chain : Blockchain S) (block : Block S) (node : TreeNode) : Prop where
  new : chain.tree[block.id]? = none
  parent : ∃ parent, chain.tree[block.header.prevHash]? = some parent ∧
    childNode parent block = some node

/-- The ways to accept a block. -/
inductive Accepts (chain : Blockchain S) (block : Block S) : Blockchain S → Prop where
  | known : chain.tree.contains block.id → Accepts chain block chain
  | extend {node : TreeNode} {next : Ledger S.toCryptoSuite} :
    chain.Admitted block node → block.header.prevHash = chain.activeTip →
      applyBlockState chain.workers block chain.activeState.clone = (.ok (), next) →
      Accepts chain block (chain.extended block node next)
  | switch {node : TreeNode} {path : List Bytes32} {state : Ledger S.toCryptoSuite}
      {chain' : Blockchain S} :
    chain.Admitted block node → block.header.prevHash ≠ chain.activeTip →
      chain.activeWork < node.cumWork → path = (chain.grown block node).pathTo block.id →
      chain.respectsFinality path → (chain.grown block node).rebuildState path = .ok state →
      ((chain.grown block node).switched block node path state).rehomeState = some chain' →
      Accepts chain block chain'
  | aside {node : TreeNode} :
    chain.Admitted block node → block.header.prevHash ≠ chain.activeTip →
      (chain.activeWork < node.cumWork →
        ¬ chain.respectsFinality ((chain.grown block node).pathTo block.id)) →
      Accepts chain block ((chain.grown block node).persist block node.encoded)

variable {chain chain' : Blockchain S} {block : Block S} {e : ChainError}

theorem extendTip_ok {node : TreeNode} (hrun : extendTip block node chain = (.ok (), chain')) :
    ∃ next, applyBlockState chain.workers block chain.activeState.clone = (.ok (), next) ∧
      chain' = chain.extended block node next := by
  unfold extendTip at hrun
  split at hrun
  · exact nomatch (Prod.mk.inj hrun).1
  · exact nomatch (Prod.mk.inj hrun).1
  · next next hnext => exact ⟨next, hnext, (Prod.mk.inj hrun).2.symm⟩

/-- What the code does with a new block that passes the structural rules. -/
theorem applyBlock_admitted {node : TreeNode} (hadmitted : chain.Admitted block node) :
    applyBlock block chain =
      if block.header.prevHash = chain.activeTip then extendTip block node chain
      else if chain.activeWork < node.cumWork then reorganize block node chain
      else keepAside block node chain := by
  obtain ⟨hnew, parent, hparent, hadmit⟩ := hadmitted
  obtain ⟨hshort, hvalid⟩ := childNode_eq_some.mp hadmit
  have hunknown : ¬ chain.tree.contains block.id := by simpa using hnew
  unfold applyBlock
  rw [if_neg hunknown, if_neg hshort, hparent]
  dsimp only
  rw [hvalid]

theorem recentSets_noteValidatorSet (chain : Blockchain S) :
    chain.noteValidatorSet.recentSets =
      (chain.recentSets ++ [(chain.activeHeight, chain.activeState.validatorSet)]).drop
        (chain.recentSets.length + 1 - FINALITY_SET_WINDOW) := by
  rw [noteValidatorSet, List.length_append, List.length_singleton]

/-- Extending the chain records the validator set of the ledger after the block. -/
theorem recentSets_extended (chain : Blockchain S) (block : Block S) (node : TreeNode)
    (next : Ledger S.toCryptoSuite) :
    (chain.extended block node next).recentSets =
      (chain.recentSets ++ [(block.header.height, next.validatorSet)]).drop
        (chain.recentSets.length + 1 - FINALITY_SET_WINDOW) :=
  recentSets_noteValidatorSet _

/-- A new block on the active tip whose transition succeeds extends the chain. -/
theorem Admitted.extends {node : TreeNode} {next : Ledger S.toCryptoSuite}
    (hadmitted : chain.Admitted block node) (htip : block.header.prevHash = chain.activeTip)
    (hrun : applyBlockState chain.workers block chain.activeState.clone = (.ok (), next)) :
    applyBlock block chain = (.ok (), chain.extended block node next) := by
  rw [applyBlock_admitted hadmitted, if_pos htip, extendTip, hrun]

/-- A block that is neither known nor admitted is not accepted. -/
theorem applyBlock_unadmitted (hnew : chain.tree[block.id]? = none)
    (hunadmitted : ∀ node, ¬ chain.Admitted block node) :
    applyBlock block chain ≠ (.ok (), chain') := by
  have hunknown : ¬ chain.tree.contains block.id := by simpa using hnew
  intro hrun
  unfold applyBlock at hrun
  rw [if_neg hunknown] at hrun
  split at hrun
  · exact nomatch (Prod.mk.inj hrun).1
  next hshort =>
  split at hrun
  · exact nomatch (Prod.mk.inj hrun).1
  next parent hparent =>
  split at hrun
  · exact nomatch (Prod.mk.inj hrun).1
  · exact nomatch (Prod.mk.inj hrun).1
  next node hvalid =>
  exact hunadmitted node ⟨hnew, parent, hparent, childNode_eq_some.mpr ⟨hshort, hvalid⟩⟩

theorem accepts_of_ok (hrun : applyBlock block chain = (.ok (), chain')) :
    chain.Accepts block chain' := by
  by_cases hknown : chain.tree.contains block.id
  · unfold applyBlock at hrun
    rw [if_pos hknown] at hrun
    rw [← (Prod.mk.inj hrun).2]
    exact .known hknown
  have hnew : chain.tree[block.id]? = none := by simpa using hknown
  by_cases hadmitted : ∃ node, chain.Admitted block node
  swap
  · exact absurd hrun (applyBlock_unadmitted hnew (not_exists.mp hadmitted))
  obtain ⟨node, hadmitted⟩ := hadmitted
  rw [applyBlock_admitted hadmitted] at hrun
  split at hrun
  · next htip =>
    obtain ⟨next, hnext, rfl⟩ := extendTip_ok hrun
    exact .extend hadmitted htip hnext
  next htip =>
  split at hrun
  · next hheavier =>
    unfold reorganize at hrun
    dsimp only at hrun
    split at hrun
    · next hfinal =>
      split at hrun
      · next state hstate =>
        split at hrun
        · exact nomatch (Prod.mk.inj hrun).1
        · next moved hmoved =>
          rw [← (Prod.mk.inj hrun).2]
          exact .switch hadmitted htip hheavier rfl hfinal hstate hmoved
      · exact nomatch (Prod.mk.inj hrun).1
      · exact nomatch (Prod.mk.inj hrun).1
    · next hfinal =>
      rw [← (Prod.mk.inj hrun).2]
      exact .aside hadmitted htip fun _ ↦ hfinal
  · next hlight =>
    rw [← (Prod.mk.inj hrun).2]
    exact .aside hadmitted htip fun hheavier ↦ absurd hheavier hlight

/-- The conditions on which a certificate is adopted. -/
structure Certifies (chain : Blockchain S) (cert : Certificate) : Prop where
  later : ∀ height id, chain.finalized = some (height, id) → height < cert.height
  entry : chain.activeChain[cert.height.toNat]? = some cert.blockId
  quorum : ∃ set, chain.validatorSetAt cert.height = some set ∧
    cert.verify S.toCryptoSuite set = true

/-- On these conditions it is adopted. -/
theorem Certifies.tryFinalize {cert : Certificate} (h : chain.Certifies cert) :
    ∃ chain', chain.tryFinalize cert = (true, chain') := by
  obtain ⟨set, hset, hquorum⟩ := h.quorum
  have hlater : ¬ (chain.finalized.any fun watermark ↦ cert.height ≤ watermark.1) = true := by
    cases hwatermark : chain.finalized with
    | none => simp
    | some watermark =>
      have hlt := h.later _ _ hwatermark
      simpa using hlt
  have hentry : ¬ chain.activeChain[cert.height.toNat]? ≠ some cert.blockId := not_not.mpr h.entry
  rw [Blockchain.tryFinalize, if_neg hlater, if_neg hentry, hset]
  dsimp only
  rw [if_pos hquorum]
  exact ⟨_, rfl⟩

/-- A certificate is adopted or changes nothing. -/
theorem tryFinalize_cases (chain : Blockchain S) (cert : Certificate) :
    chain.tryFinalize cert = (false, chain) ∨
      chain.Certifies cert ∧ ∃ disk, chain.tryFinalize cert =
        (true, { chain with finalized := some (cert.height, cert.blockId), disk := disk }) := by
  unfold tryFinalize
  split
  · exact .inl rfl
  next hlater =>
  split
  · exact .inl rfl
  next hentry =>
  split
  · exact .inl rfl
  next set hset =>
  split
  · next hquorum =>
    refine .inr ⟨⟨fun height id hwatermark ↦ ?_, not_not.mp hentry, set, hset, hquorum⟩, _, rfl⟩
    have hbelow : ¬ cert.height ≤ height := by simpa [hwatermark] using hlater
    exact UInt64.not_le.mp hbelow
  · exact .inl rfl

end Blockchain

/-! ### Moves of the view -/

section Moves

variable {S : ChainSuite} {genesis : TreeNode} {chain chain' : Blockchain S}
  {v : (blockRules S genesis).View} {block : Block S} {node : TreeNode}

/-- An admitted block goes on top of a known branch. -/
theorem Holds.admitted (h : Holds chain v) (hadmitted : chain.Admitted block node) :
    ∃ branch, v.known block.header.prevHash = some branch ∧
      (blockRules S genesis).mark (block :: branch) = some node := by
  obtain ⟨parent, hparent, hadmit⟩ := hadmitted.parent
  obtain ⟨branch, hknown, hmark⟩ := h.node hparent
  refine ⟨branch, hknown, ?_⟩
  rw [TreeRules.mark, hmark]
  exact hadmit

theorem weight_of_mark {branch : List (Block S)}
    (hmark : (blockRules S genesis).mark branch = some node) :
    (blockRules S genesis).weight branch = node.cumWork := by
  rw [TreeRules.weight, hmark]
  rfl

theorem Tracks.activeWork_eq (h : Tracks chain v) :
    chain.activeWork = (blockRules S genesis).weight v.active := by
  rw [Blockchain.activeWork, h.tree, h.tip, h.formed.active]
  rfl

theorem Tracks.unknown (h : Tracks chain v) (hnew : chain.tree[block.id]? = none) :
    v.known block.id = none :=
  (h.isSome_tree h.formed.toClosed _).mp hnew

/-- Every id on the way to a known block is known. -/
theorem Tracks.isSome_of_mem_path (h : Tracks chain v) {id : Bytes32} {branch : List (Block S)}
    (hknown : v.known id = some branch) {other : Bytes32}
    (hother : other ∈ (blockRules S genesis).path branch) : chain.tree[other]? ≠ none := by
  obtain ⟨height, hat⟩ := List.mem_iff_getElem?.mp hother
  obtain ⟨below, hbelow, -, rfl⟩ := TreeRules.path_getElem?_eq_some.mp hat
  have hsome := h.formed.suffix hknown hbelow
  rw [ne_eq, h.isSome_tree h.formed.toClosed, hsome]
  exact Option.some_ne_none below

/-- The path of a new branch has the finalized block exactly when the branch keeps the final
part. -/
theorem Tracks.respectsFinality_iff (h : Tracks chain v) {branch : List (Block S)}
    (hnew : v.known block.id = none) (hparent : v.known block.header.prevHash = some branch) :
    chain.respectsFinality ((blockRules S genesis).path (block :: branch)) ↔
      v.finalized <:+ block :: branch := by
  have hfinalized := h.finalized
  have hknown := h.formed.suffix h.formed.active h.formed.finalized
  unfold Blockchain.respectsFinality
  cases hwatermark : chain.finalized with
  | none =>
    rw [hwatermark] at hfinalized
    rw [hfinalized]
    exact iff_of_true rfl List.nil_suffix
  | some watermark =>
    rw [hwatermark] at hfinalized
    obtain ⟨hheight, hid⟩ := hfinalized
    dsimp only
    rw [decide_eq_true_iff, TreeRules.path_getElem?_eq_some]
    constructor
    · rintro ⟨below, hbelow, -, htip⟩
      rw [hid] at htip
      rcases List.suffix_cons_iff.mp hbelow with rfl | hrest
      · have hsome : v.known block.id = some v.finalized := (congrArg v.known htip).trans hknown
        exact nomatch hnew.symm.trans hsome
      · have hsame := h.formed.suffix hparent hrest
        rw [htip, hknown] at hsame
        rw [Option.some.inj hsame]
        exact hbelow
    · intro hsuffix
      exact ⟨v.finalized, hsuffix, hheight.symm, hid.symm⟩

theorem path_grown (h : Tracks chain v) (hzero : genesis.height = 0)
    (hadmitted : chain.Admitted block node) {branch : List (Block S)}
    (hparent : v.known block.header.prevHash = some branch)
    (hmark : (blockRules S genesis).mark (block :: branch) = some node) :
    (chain.grown block node).pathTo block.id = (blockRules S genesis).path (block :: branch) := by
  have hnew := h.unknown hadmitted.new
  have hgrown : Holds (chain.grown block node) (v.add block branch) := h.toHolds.add hmark rfl rfl
  have hsome : ((blockRules S genesis).mark (block :: branch)).isSome := by rw [hmark]; rfl
  have hknown : (v.add block branch).known ((blockRules S genesis).tip (block :: branch)) =
      some (block :: branch) := TreeRules.View.known_add_self
  exact hgrown.pathTo_eq (h.formed.add hnew hparent hsome) hzero hknown

theorem rehomeState_eq (hmoved : chain.rehomeState = some chain') :
    ∃ state disk, chain' = { chain with activeState := state, disk := disk } := by
  unfold Blockchain.rehomeState at hmoved
  split at hmoved
  · exact ⟨chain.activeState, chain.disk, (Option.some.inj hmoved).symm⟩
  · obtain ⟨state, -, rfl⟩ := Option.map_eq_some_iff.mp hmoved
    exact ⟨_, _, rfl⟩

/-- The chain after a block became its tip keeps the view after it. -/
theorem Tracks.adopt (h : Tracks chain v) (hzero : genesis.height = 0) (chain' : Blockchain S)
    (hadmitted : chain.Admitted block node) {branch : List (Block S)}
    (hparent : v.known block.header.prevHash = some branch)
    (hmark : (blockRules S genesis).mark (block :: branch) = some node)
    (hfinal : v.finalized <:+ block :: branch)
    (hheavier : (blockRules S genesis).weight v.active <
      (blockRules S genesis).weight (block :: branch))
    (hid : chain'.genesisId = chain.genesisId) (htree : chain'.tree = chain.tree.insert block.id node)
    (htip : chain'.activeTip = block.id) (hheight : chain'.activeHeight = block.header.height)
    (hactive : chain'.activeChain = (blockRules S genesis).path (block :: branch))
    (hfinalized : chain'.finalized = chain.finalized) :
    ∃ v', (blockRules S genesis).Moves v v' ∧ Tracks chain' v' ∧ v'.active = block :: branch ∧
      v'.finalized = v.finalized := by
  have hnew := h.unknown hadmitted.new
  have hsome : ((blockRules S genesis).mark (block :: branch)).isSome := by rw [hmark]; rfl
  have hmove : (blockRules S genesis).Moves v { v.add block branch with active := block :: branch } :=
    .adopt hnew hparent hsome hfinal hheavier
  have hholds := h.toHolds.add hmark hid htree
  obtain ⟨parent, -, hadmit⟩ := Option.bind_eq_some_iff.mp hmark
  have hadmits := admits_of_validate (childNode_eq_some.mp hadmit).2
  refine ⟨_, hmove, ?_, rfl, rfl⟩
  constructor
  · exact ⟨hholds.genesisId, hholds.tree⟩
  · exact hmove.wellFormed h.formed
  · exact htip
  · rw [hheight, hadmits.headerHeight, height_of_mark hzero hmark]
  · exact hactive
  · rw [hfinalized]
    exact h.finalized

/-- Whatever a node accepts is a move of its view. -/
theorem Tracks.accepts (h : Tracks chain v) (hzero : genesis.height = 0)
    (haccepts : chain.Accepts block chain') :
    ∃ v', (blockRules S genesis).Moves v v' ∧ Tracks chain' v' ∧ v'.finalized = v.finalized := by
  cases haccepts with
  | known => exact ⟨v, .ignore v, h, rfl⟩
  | @extend node next hadmitted htip hrun =>
    obtain ⟨branch, hparent, hmark⟩ := h.admitted hadmitted
    have hbranch : branch = v.active := by
      rw [htip, h.tip, h.formed.active] at hparent
      exact (Option.some.inj hparent).symm
    subst hbranch
    have hsome : ((blockRules S genesis).mark (block :: v.active)).isSome := by rw [hmark]; rfl
    have hactive : chain.activeChain ++ [block.id] =
        (blockRules S genesis).path (block :: v.active) := by
      rw [h.active]
      rfl
    obtain ⟨v', hmove, htracks, -, hfinal⟩ := h.adopt hzero (chain.extended block node next)
      hadmitted hparent hmark (h.formed.finalized.trans (List.suffix_cons block v.active))
      (TreeRules.weight_lt_cons hsome) rfl rfl rfl rfl hactive rfl
    exact ⟨v', hmove, htracks, hfinal⟩
  | @switch node path state _ hadmitted _ hheavier hpath hrespects hrebuilt hmoved =>
    obtain ⟨branch, hparent, hmark⟩ := h.admitted hadmitted
    rw [path_grown h hzero hadmitted hparent hmark] at hpath
    subst hpath
    have hfinal := (h.respectsFinality_iff (h.unknown hadmitted.new) hparent).mp hrespects
    rw [h.activeWork_eq, ← weight_of_mark hmark] at hheavier
    obtain ⟨state', disk', rfl⟩ := rehomeState_eq hmoved
    obtain ⟨v', hmove, htracks, -, hfinal'⟩ := h.adopt hzero
      { (chain.grown block node).switched block node
        ((blockRules S genesis).path (block :: branch)) state with
          activeState := state', disk := disk' }
      hadmitted hparent hmark hfinal hheavier rfl rfl rfl rfl rfl rfl
    exact ⟨v', hmove, htracks, hfinal'⟩
  | @aside node hadmitted _ hlight =>
    obtain ⟨branch, hparent, hmark⟩ := h.admitted hadmitted
    have hnew := h.unknown hadmitted.new
    have hsome : ((blockRules S genesis).mark (block :: branch)).isSome := by rw [hmark]; rfl
    have hmove : (blockRules S genesis).Moves v (v.add block branch) := by
      refine .keep hnew hparent hsome fun hfinal ↦ ?_
      rw [weight_of_mark hmark, ← h.activeWork_eq]
      by_contra hheavier
      refine hlight (not_le.mp hheavier) ?_
      rw [path_grown h hzero hadmitted hparent hmark]
      exact (h.respectsFinality_iff hnew hparent).mpr hfinal
    have hholds : Holds ((chain.grown block node).persist block node.encoded) (v.add block branch) :=
      h.toHolds.add hmark rfl rfl
    exact ⟨_, hmove, ⟨hholds, hmove.wellFormed h.formed, h.tip, h.height, h.active, h.finalized⟩,
      rfl⟩

/-- A certificate that is adopted is about a part of the active branch above the final part. -/
theorem Tracks.certified (h : Tracks chain v) {cert : Certificate}
    (hcertifies : chain.Certifies cert) :
    ∃ below, below <:+ v.active ∧ v.finalized <:+ below ∧ below.length = cert.height.toNat ∧
      (blockRules S genesis).tip below = cert.blockId := by
  have hentry := hcertifies.entry
  rw [h.active, TreeRules.path_getElem?_eq_some] at hentry
  obtain ⟨below, hbelow, hlength, htip⟩ := hentry
  refine ⟨below, hbelow, ?_, hlength, htip⟩
  refine List.suffix_of_suffix_length_le h.formed.finalized hbelow ?_
  have hfinalized := h.finalized
  cases hwatermark : chain.finalized with
  | none =>
    rw [hwatermark] at hfinalized
    rw [hfinalized]
    exact Nat.zero_le _
  | some watermark =>
    rw [hwatermark] at hfinalized
    rw [← hfinalized.1, hlength]
    exact (UInt64.lt_iff_toNat_lt.mp (hcertifies.later _ _ hwatermark)).le

/-- A certificate that a node adopts makes more of its active branch final. -/
theorem Tracks.tryFinalize (h : Tracks chain v) (cert : Certificate) :
    ∃ v', (blockRules S genesis).Moves v v' ∧ Tracks (chain.tryFinalize cert).2 v' := by
  rcases chain.tryFinalize_cases cert with hrefused | ⟨hcertifies, disk, hadopted⟩
  · rw [hrefused]
    exact ⟨v, .ignore v, h⟩
  · obtain ⟨below, hbelow, hgrown, hlength, htip⟩ := h.certified hcertifies
    have hmove : (blockRules S genesis).Moves v { v with finalized := below } :=
      .finalize hgrown hbelow
    rw [hadopted]
    exact ⟨_, hmove, ⟨h.genesisId, h.tree⟩, hmove.wellFormed h.formed, h.tip, h.height, h.active,
      hlength.symm, htip.symm⟩

end Moves

/-! ### Runs of a node -/

section Runs

variable {S : ChainSuite} {workers : ℕ} {premine publicPremine : List (Bytes32 × UInt64)}
  {difficulty : UInt64} {chain chain' : Blockchain S}

variable (S) in
/-- The genesis block of the genesis parameters. -/
def genesisOf (premine publicPremine : List (Bytes32 × UInt64)) (difficulty : UInt64) :
    Option TreeNode :=
  ((Blockchain.genesisState premine publicPremine).bind fun state ↦
    state.stateRoot (C := S.toCryptoSuite)).map fun answer ↦
      Blockchain.genesisNode S (S.digestBytes answer.1) difficulty

theorem genesisOf_height {genesis : TreeNode}
    (hgenesis : genesisOf S premine publicPremine difficulty = some genesis) :
    genesis.height = 0 := by
  obtain ⟨answer, -, rfl⟩ := Option.map_eq_some_iff.mp hgenesis
  rfl

/-- A chain of the genesis block alone tracks the view that knows genesis alone. -/
theorem tracks_start {genesis : TreeNode} (hid : chain.genesisId = genesis.header.id S)
    (htree : chain.tree = (∅ : FMap Bytes32 TreeNode).insert (genesis.header.id S) genesis)
    (htip : chain.activeTip = genesis.header.id S) (hheight : chain.activeHeight = 0)
    (hactive : chain.activeChain = [genesis.header.id S]) (hfinalized : chain.finalized = none) :
    Tracks chain (TreeRules.View.start (blockRules S genesis)) := by
  refine ⟨⟨hid, fun id ↦ ?_⟩, TreeRules.View.wellFormed_start, htip, ?_, hactive, ?_⟩
  · rw [htree, FMap.lookup_insert, FMap.lookup_empty]
    change _ = (Function.update (fun _ ↦ none) (genesis.header.id S) (some []) id).bind _
    rw [Function.update_apply]
    split <;> rfl
  · rw [hheight]
    rfl
  · rw [hfinalized]
    rfl

theorem tracks_genesisWithPublic
    (hchain : Blockchain.genesisWithPublic workers premine publicPremine difficulty = some chain) :
    ∃ genesis, genesisOf S premine publicPremine difficulty = some genesis ∧
      Tracks chain (TreeRules.View.start (blockRules S genesis)) := by
  obtain ⟨state, hstate, hroot⟩ := Option.bind_eq_some_iff.mp hchain
  obtain ⟨answer, hanswer, rfl⟩ := Option.map_eq_some_iff.mp hroot
  refine ⟨Blockchain.genesisNode S (S.digestBytes answer.1) difficulty, ?_, ?_⟩
  · rw [genesisOf, hstate, Option.bind_some, hanswer]
    rfl
  · exact tracks_start rfl rfl rfl rfl rfl rfl

theorem tracks_openNew
    (hchain : Blockchain.openNew workers premine publicPremine difficulty = some chain) :
    ∃ genesis, genesisOf S premine publicPremine difficulty = some genesis ∧
      Tracks chain (TreeRules.View.start (blockRules S genesis)) := by
  obtain ⟨start, hstart, hrest⟩ := Option.bind_eq_some_iff.mp hchain
  obtain ⟨moved, hmoved, rfl⟩ := Option.map_eq_some_iff.mp hrest
  obtain ⟨state, disk, rfl⟩ := rehomeState_eq hmoved
  obtain ⟨genesis, hgenesis, h⟩ := tracks_genesisWithPublic hstart
  exact ⟨genesis, hgenesis, ⟨h.genesisId, h.tree⟩, h.formed, h.tip, h.height, h.active, h.finalized⟩

/-- Every call of a running node is a move of its view. -/
theorem Tracks.step {genesis : TreeNode} {v : (blockRules S genesis).View} (h : Tracks chain v)
    (hzero : genesis.height = 0) (hstep : Blockchain.Step chain chain') :
    ∃ v', (blockRules S genesis).Moves v v' ∧ Tracks chain' v' := by
  cases hstep with
  | applyOk block hrun =>
    obtain ⟨v', hmove, h', -⟩ := h.accepts hzero (Blockchain.accepts_of_ok hrun)
    exact ⟨v', hmove, h'⟩
  | applyErr block e hrun =>
    rw [Blockchain.eq_of_applyBlock_err hrun]
    exact ⟨v, .ignore v, h⟩
  | tryFinalize cert => exact h.tryFinalize cert

/-- Every chain that a node can have tracks a view. -/
theorem tracks_of_reachable
    (hreach : Blockchain.Reachable workers premine publicPremine difficulty chain) :
    ∃ genesis, genesisOf S premine publicPremine difficulty = some genesis ∧
      ∃ v : (blockRules S genesis).View, Tracks chain v := by
  induction hreach with
  | genesis hchain =>
    obtain ⟨genesis, hgenesis, h⟩ := tracks_genesisWithPublic hchain
    exact ⟨genesis, hgenesis, _, h⟩
  | openNew hchain =>
    obtain ⟨genesis, hgenesis, h⟩ := tracks_openNew hchain
    exact ⟨genesis, hgenesis, _, h⟩
  | step _ hstep ih =>
    obtain ⟨genesis, hgenesis, v, h⟩ := ih
    obtain ⟨v', -, h'⟩ := h.step (genesisOf_height hgenesis) hstep
    exact ⟨genesis, hgenesis, v', h'⟩

/-- Over a run of a node, the final part of its branch only grows. -/
theorem Tracks.later {genesis : TreeNode} {v : (blockRules S genesis).View} (h : Tracks chain v)
    (hzero : genesis.height = 0) (hlater : Blockchain.Later chain chain') :
    ∃ v' : (blockRules S genesis).View, v.finalized <:+ v'.finalized ∧ Tracks chain' v' := by
  induction hlater with
  | refl => exact ⟨v, List.suffix_rfl, h⟩
  | tail _ hstep ih =>
    obtain ⟨v₁, hgrown, h₁⟩ := ih
    obtain ⟨v', hmove, h'⟩ := h₁.step hzero hstep
    exact ⟨v', hgrown.trans hmove.finalized, h'⟩

/-- No block touches the watermark. -/
theorem finalized_of_accepts {block : Block S} (haccepts : chain.Accepts block chain') :
    chain'.finalized = chain.finalized := by
  cases haccepts with
  | switch _ _ _ _ _ _ hmoved =>
    obtain ⟨state, disk, rfl⟩ := rehomeState_eq hmoved
    rfl
  | _ => rfl

/-- The watermark never falls. -/
theorem watermark_le (hlater : Blockchain.Later chain chain') {height : UInt64} {id : Bytes32}
    (hwatermark : chain.finalized = some (height, id)) :
    ∃ height' id', chain'.finalized = some (height', id') ∧ height ≤ height' := by
  induction hlater with
  | refl => exact ⟨height, id, hwatermark, UInt64.le_refl _⟩
  | tail _ hstep ih =>
    obtain ⟨height₁, id₁, hwatermark₁, hle⟩ := ih
    cases hstep with
    | applyOk block hrun =>
      have hsame := finalized_of_accepts (Blockchain.accepts_of_ok hrun)
      exact ⟨height₁, id₁, hsame.trans hwatermark₁, hle⟩
    | applyErr block e hrun =>
      rw [Blockchain.eq_of_applyBlock_err hrun]
      exact ⟨height₁, id₁, hwatermark₁, hle⟩
    | tryFinalize cert =>
      rcases Blockchain.tryFinalize_cases _ cert with hrefused | ⟨hcertifies, disk, hadopted⟩
      · rw [hrefused]
        exact ⟨height₁, id₁, hwatermark₁, hle⟩
      · rw [hadopted]
        have hlt := hcertifies.later _ _ hwatermark₁
        exact ⟨_, _, rfl, UInt64.le_of_lt (UInt64.lt_of_le_of_lt hle hlt)⟩

/-- Finality is never reverted by a running node. Once a certificate has been adopted, the certified
block stays on the active chain at its height, the watermark never falls again, and every certificate
that is adopted later is about a higher block that descends from it. -/
theorem finality_kept {chain₁ chain₂ : Blockchain S}
    (hreach : Blockchain.Reachable workers premine publicPremine difficulty chain)
    {cert : Certificate} (hadopted : chain.tryFinalize cert = (true, chain₁))
    (hlater : Blockchain.Later chain₁ chain₂) :
    chain₂.activeChain[cert.height.toNat]? = some cert.blockId ∧
      (∃ height id, chain₂.finalized = some (height, id) ∧ cert.height ≤ height ∧
        ∀ chain₃, Blockchain.Later chain₂ chain₃ →
          ∃ height' id', chain₃.finalized = some (height', id') ∧ height ≤ height') ∧
      ∀ cert' chain₃, chain₂.tryFinalize cert' = (true, chain₃) →
        cert.height < cert'.height ∧
          (chain₂.pathTo cert'.blockId)[cert.height.toNat]? = some cert.blockId := by
  obtain ⟨genesis, hgenesis, v₁, h₁⟩ := tracks_of_reachable (hreach.step (.tryFinalize chain cert))
  have hzero := genesisOf_height hgenesis
  have hwatermark : (chain.tryFinalize cert).2.finalized = some (cert.height, cert.blockId) := by
    rcases chain.tryFinalize_cases cert with hrefused | ⟨-, disk, haccepted⟩
    · exact nomatch (Prod.mk.inj (hadopted.symm.trans hrefused)).1
    · rw [haccepted]
  rw [hadopted] at h₁ hwatermark
  have hfinal := h₁.finalized
  rw [hwatermark] at hfinal
  obtain ⟨hlength, htip⟩ := hfinal
  obtain ⟨v₂, hgrown, h₂⟩ := h₁.later hzero hlater
  have hcertified : ∀ {branch}, v₂.finalized <:+ branch →
      ((blockRules S genesis).path branch)[cert.height.toNat]? = some cert.blockId := by
    intro branch hbranch
    exact TreeRules.path_getElem?_eq_some.mpr
      ⟨v₁.finalized, hgrown.trans hbranch, hlength.symm, htip.symm⟩
  obtain ⟨height, id, hwatermark₂, hlow⟩ := watermark_le hlater hwatermark
  refine ⟨?_, ⟨height, id, hwatermark₂, hlow, fun chain₃ hmore ↦ watermark_le hmore hwatermark₂⟩, ?_⟩
  · rw [h₂.active]
    exact hcertified h₂.formed.finalized
  · intro cert' chain₃ hadopted'
    rcases chain₂.tryFinalize_cases cert' with hrefused | ⟨hcertifies, -⟩
    · exact nomatch (Prod.mk.inj (hadopted'.symm.trans hrefused)).1
    obtain ⟨below, hbelow, hfinal', hlength', htip'⟩ := h₂.certified hcertifies
    refine ⟨UInt64.lt_of_le_of_lt hlow (hcertifies.later _ _ hwatermark₂), ?_⟩
    have hknown := h₂.formed.suffix h₂.formed.active hbelow
    rw [← htip', h₂.pathTo_eq h₂.formed.toClosed hzero hknown]
    exact hcertified hfinal'

end Runs

/-- Once the root is computed there is nothing left to reconcile. -/
theorem stateRoot_clean {C : CryptoSuite} {L L' : Ledger C} {root : C.Digest}
    (hroot : L.stateRoot = some (root, L')) : L'.dirty = [] := by
  unfold Ledger.stateRoot at hroot
  split at hroot
  · next hclean =>
    obtain ⟨-, rfl⟩ := Prod.mk.inj (Option.some.inj hroot)
    exact hclean
  · obtain ⟨M, -, hM⟩ := Option.bind_eq_some_iff.mp hroot
    obtain ⟨-, rfl⟩ := Prod.mk.inj (Option.some.inj hM)
    rfl

/-! ### A certified block -/

/-- A suite in which every state root has the same bytes. -/
def rootlessSuite : ChainSuite := { plainSuite with digestBytes := fun _ ↦ 0 }

/-- The stake of the only validator of the example. -/
def stakerPremine : List (Bytes32 × UInt64) := [(5, 200000000)]

/-- The genesis ledger over it. -/
def stakerGenesis : Ledger rootlessSuite.toCryptoSuite :=
  (Blockchain.genesisState [] stakerPremine).get (by decide +kernel)

/-- The first block bonds the stake. -/
def stakeBlock : Block rootlessSuite where
  header := ⟨(Blockchain.genesisHeader 0).id rootlessSuite, 1, GENESIS_TIMESTAMP,
    txRoot rootlessSuite [.stake 5 100000000 0 5], 0, 0, 0⟩
  txs := [.stake 5 100000000 0 5]

/-- The certificate of the first block. -/
def stakeCertificate : Certificate := ⟨stakeBlock.id, 1, [(5, 5)]⟩

theorem genesisState_staker :
    Blockchain.genesisState [] stakerPremine = some stakerGenesis :=
  (Option.some_get _).symm

theorem rootlessSuite_collisionFree : rootlessSuite.toCryptoSuite.trie.CollisionFree :=
  freeSuite_collisionFree

/-- The objects of the genesis ledger once its root has been computed. -/
def stakerObjects : LedgerState rootlessSuite.toCryptoSuite :=
  { stakerGenesis.view with dirty := ∅ }

/-- The block on the genesis objects, on the genesis ledger, and under the genesis block. -/
theorem stakeBlock_facts :
    ((blockProgram stakeBlock.txs 0 1).run LedgerState.handler stakerObjects).1 = .ok () ∧
    ((applyTxsAndReward 1 stakeBlock.txs 0 1).after stakerGenesis).isSome ∧
    ((applyTxsAndReward 1 stakeBlock.txs 0 1).after stakerGenesis).map
      (fun N ↦ (N.eligible, N.maxValidators)) =
        some ([(5, 100000000)], DEFAULT_MAX_VALIDATORS) ∧
    (childNode (Blockchain.genesisNode rootlessSuite 0 1) stakeBlock).isSome ∧
    stakeBlock.id ≠ (Blockchain.genesisHeader 0).id rootlessSuite := by
  decide +kernel

/-- The block is valid on the genesis ledger, and makes its signer the one validator. -/
theorem stakeBlock_applies :
    ∃ A next, stakerGenesis.stateRoot = some (A.root, A) ∧
      applyBlockState 1 stakeBlock A.clone = (.ok (), next) ∧
      next.validatorSet = [(5, 100000000)] := by
  obtain ⟨hokBlock, hsome, hcomputed, -⟩ := stakeBlock_facts
  have hreach : stakerGenesis.Reachable :=
    reachableBy_genesisState (fun _ _ _ ↦ trivial) genesisState_staker
  obtain ⟨hformed, content, htree⟩ := hreach.sound rootlessSuite_collisionFree
  obtain ⟨A, hroot, htreeA⟩ := hformed.stateRoot_content rootlessSuite_collisionFree htree
  have hA := hformed.agree_stateRoot hroot
  have hview : A.clone.view = stakerObjects := by
    change A.view = stakerObjects
    exact hformed.view_stateRoot hroot
  have hruns : LedgerState.Runs (blockProgram stakeBlock.txs 0 1) A.clone.view ()
      ((blockProgram stakeBlock.txs 0 1).run LedgerState.handler stakerObjects).2 := by
    rw [hview]
    exact LedgerState.runs_of_ok hokBlock
  obtain ⟨M, hM⟩ := applied_of_runs 1 hA.left.clone hruns
  obtain ⟨hformedM, -, htreeM⟩ := applied_spec hA.left.clone hM
  have htreeM' : rootlessSuite.trie.TrieAt M.tree _ := htreeM ▸ htreeA
  obtain ⟨next, hrootM, -⟩ := hformedM.stateRoot_content rootlessSuite_collisionFree htreeM'
  refine ⟨A, next, hroot, applyBlockState_eq_ok.mpr ⟨M, next.root, hM, hrootM, rfl⟩, ?_⟩
  -- The block on the genesis ledger itself, which can be evaluated.
  obtain ⟨N, hN⟩ : ∃ N, (applyTxsAndReward 1 stakeBlock.txs 0 1).after stakerGenesis = some N :=
    Option.isSome_iff_exists.mp hsome
  rw [hN] at hcomputed
  obtain ⟨heligible, hmax⟩ := Prod.mk.inj (Option.some.inj hcomputed)
  have hsame := (hformedM.agree_stateRoot hrootM).trans
    (applied_agree (hA.left.agree_clone.trans hA) hM hN)
  rw [validatorSet_eq_of_agree hsame, Ledger.validatorSet, heligible, hmax,
    List.mergeSort_singleton]
  rfl

/-- A node that has applied the block, with the node of the block in its tree. -/
theorem exists_staked_over : ∃ (chain : Blockchain rootlessSuite) (node : TreeNode),
    Blockchain.Reachable 1 [] stakerPremine 1 chain ∧
      childNode (Blockchain.genesisNode rootlessSuite 0 1) stakeBlock = some node ∧
      chain.tree = ((∅ : FMap Bytes32 TreeNode).insert ((Blockchain.genesisHeader 0).id rootlessSuite)
        (Blockchain.genesisNode rootlessSuite 0 1)).insert stakeBlock.id node ∧
      chain.activeChain = [(Blockchain.genesisHeader 0).id rootlessSuite, stakeBlock.id] ∧
      chain.activeTip = stakeBlock.id ∧ chain.activeState.dirty = [] ∧
      chain.validatorSetAt 1 = some [(5, 100000000)] ∧ chain.finalized = none := by
  obtain ⟨A, next, hroot, hrun, hset⟩ := stakeBlock_applies
  obtain ⟨-, -, -, hchild, hother⟩ := stakeBlock_facts
  obtain ⟨chain, hchain⟩ : ∃ chain, chain = Blockchain.atGenesis 1 [] stakerPremine 1 A.root A :=
    ⟨_, rfl⟩
  have hstart : Blockchain.genesisWithPublic 1 [] stakerPremine 1 = some chain := by
    rw [Blockchain.genesisWithPublic, genesisState_staker, Option.bind_some, hroot, hchain]
    rfl
  obtain ⟨node, hadmit⟩ : ∃ node,
      childNode (Blockchain.genesisNode rootlessSuite 0 1) stakeBlock = some node :=
    Option.isSome_iff_exists.mp hchild
  have hadmitted : chain.Admitted stakeBlock node := by
    subst hchain
    refine ⟨?_, Blockchain.genesisNode rootlessSuite 0 1, ?_, hadmit⟩
    · exact (FMap.lookup_insert ..).trans (if_neg hother)
    · exact (FMap.lookup_insert ..).trans (if_pos rfl)
  have hextended : Blockchain.applyBlock stakeBlock chain =
      (.ok (), chain.extended stakeBlock node next) := by
    refine hadmitted.extends ?_ ?_
    · rw [hchain]
      rfl
    · rw [hchain]
      exact hrun
  obtain ⟨_, _, -, hnext, -⟩ := applyBlockState_eq_ok.mp hrun
  have hclean : next.dirty = [] := stateRoot_clean hnext
  subst hchain
  refine ⟨_, node, (Blockchain.Reachable.genesis hstart).step (.applyOk stakeBlock hextended), hadmit,
    rfl, rfl, rfl, hclean, ?_, rfl⟩
  have hsets : ((Blockchain.atGenesis 1 [] stakerPremine 1 A.root A).extended stakeBlock node
      next).recentSets = [(0, A.validatorSet), (1, next.validatorSet)] := by
    rw [Blockchain.recentSets_extended, Blockchain.atGenesis,
      Blockchain.recentSets_noteValidatorSet]
    simp [FINALITY_SET_WINDOW, stakeBlock]
  rw [Blockchain.validatorSetAt, hsets, hset]
  rfl

/-- A node that has applied the block. -/
theorem exists_staked : ∃ chain : Blockchain rootlessSuite,
    Blockchain.Reachable 1 [] stakerPremine 1 chain ∧
      chain.activeChain[1]? = some stakeBlock.id ∧
      chain.validatorSetAt 1 = some [(5, 100000000)] ∧ chain.finalized = none := by
  obtain ⟨chain, node, hreach, -, -, hpath, -, -, hset, hfinal⟩ := exists_staked_over
  exact ⟨chain, hreach, by rw [hpath]; rfl, hset, hfinal⟩

/-! ### A block on top of it -/

/-- A block without transactions that pays nobody, in a suite where all state roots are alike. -/
def emptyBlock (prevHash : Bytes32) (height timestamp : UInt64) : Block rootlessSuite :=
  ⟨⟨prevHash, height, timestamp, txRoot rootlessSuite [], 0, 0, 0⟩, []⟩

/-- An empty block leaves a ledger with nothing to reconcile as it is. -/
theorem applyBlockState_emptyBlock {prevHash : Bytes32} {height timestamp : UInt64} (workers : ℕ)
    {L : Ledger rootlessSuite.toCryptoSuite}
    (hclean : L.dirty = []) :
    applyBlockState workers (emptyBlock prevHash height timestamp) L = (.ok (), L) := by
  have happlied : applyTxsAndReward workers [] 0 height L = (.ok (), L) := rfl
  have hchecked : checkStateRoot 0 L = (.ok (), L) := by
    rw [checkStateRoot, Ledger.stateRoot, if_pos hclean]
    rfl
  show (Transition.andThen (applyTxsAndReward workers [] 0 height) (checkStateRoot 0)) L = _
  rw [Transition.andThen, happlied]
  exact hchecked

/-- The second block. -/
def laterBlock : Block rootlessSuite := emptyBlock stakeBlock.id 2 GENESIS_TIMESTAMP

theorem laterBlock_facts :
    ((childNode (Blockchain.genesisNode rootlessSuite 0 1) stakeBlock).bind fun node ↦
      childNode node laterBlock).isSome ∧
    laterBlock.id ≠ stakeBlock.id ∧
    laterBlock.id ≠ (Blockchain.genesisHeader 0).id rootlessSuite := by
  decide +kernel

/-- The certified block stays when the next block comes. -/
theorem finality_kept_staked :
    ∃ chain chain₁ chain₂ : Blockchain rootlessSuite,
      chain.tryFinalize stakeCertificate = (true, chain₁) ∧
      Blockchain.applyBlock laterBlock chain₁ = (.ok (), chain₂) ∧
      chain₂.activeTip = laterBlock.id ∧ chain₂.activeChain[1]? = some stakeBlock.id ∧
      chain₂.finalized = some (1, stakeBlock.id) := by
  obtain ⟨chain, node, hreach, hnode, htree, hpath, htip, hclean, hset, hfinal⟩ := exists_staked_over
  obtain ⟨hchild, hother, hgenesis⟩ := laterBlock_facts
  rw [hnode, Option.bind_some] at hchild
  obtain ⟨child, hchild⟩ := Option.isSome_iff_exists.mp hchild
  have hcertifies : chain.Certifies stakeCertificate := by
    refine ⟨fun height id hwatermark ↦ ?_, by rw [hpath]; rfl, _, hset, by decide +kernel⟩
    exact nomatch hfinal.symm.trans hwatermark
  obtain ⟨chain₁, hadopted⟩ := hcertifies.tryFinalize
  rcases chain.tryFinalize_cases stakeCertificate with hrefused | ⟨-, disk, hcertified⟩
  · exact nomatch (Prod.mk.inj (hadopted.symm.trans hrefused)).1
  obtain rfl := (Prod.mk.inj (hadopted.symm.trans hcertified)).2
  have hadmitted : Blockchain.Admitted
      { chain with finalized := some (1, stakeBlock.id), disk := disk } laterBlock child := by
    refine ⟨?_, node, ?_, hchild⟩
    · show chain.tree[laterBlock.id]? = none
      rw [htree, FMap.lookup_insert, if_neg hother, FMap.lookup_insert, if_neg hgenesis]
      exact FMap.lookup_empty _
    · show chain.tree[stakeBlock.id]? = some node
      rw [htree, FMap.lookup_insert_self]
  have hextended := hadmitted.extends htip.symm
    (applyBlockState_emptyBlock chain.workers (L := chain.activeState.clone) hclean)
  have hlater : Blockchain.Later { chain with finalized := some (1, stakeBlock.id), disk := disk } _ :=
    .single (.applyOk laterBlock hextended)
  obtain ⟨hkept, -⟩ := finality_kept hreach hadopted hlater
  exact ⟨chain, _, _, hadopted, hextended, rfl, hkept, rfl⟩

end Latebra.Chain
