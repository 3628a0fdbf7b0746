import Latebra.Chain.Growth
import Latebra.Chain.Restarts

/-!
# The active branch and its ledger

A chain updates its active branch, its ledger and its recent validator sets in three different ways:
when a block extends the tip, when a branch is replayed from genesis, and when a ledger is moved onto
disk. `Follows` says that they always belong together: the ledger has the objects that the blocks of
the active branch lead to, one after the other from genesis, each recorded validator set is that of
the branch up to its height, and the root of the ledger is the one in the header of the tip.

`fork_choice_invariant` states this for every chain that a node can have, together with what the tree
says: parents are stored, heights and work add up along branches, and no branch that keeps the
finalized block has more work than the active one.
-/

set_option autoImplicit false
set_option relaxedAutoImplicit false

namespace Latebra.State.Ledger

open Foundation Crypto Latebra.Types

variable {C : CryptoSuite} {L L' M : Ledger C}

theorem objectArea_cases {i : Coord} (hi : i ∈ objectArea) :
    (∃ bytes, i = .record bytes) ∨ i = .nextTokenId ∨ i = .maxValidators := by
  cases i with
  | record bytes => exact .inl ⟨bytes, rfl⟩
  | flag key => exact absurd rfl (hi key)
  | nextTokenId => exact .inr (.inl rfl)
  | maxValidators => exact .inr (.inr rfl)

theorem WellFormed.agree_flush (hL : L.WellFormed) : AgreeOn objectArea L.flush L := by
  refine ⟨hL.flush.1, hL, fun i hi ↦ ?_⟩
  rcases objectArea_cases hi with ⟨bytes, rfl⟩ | rfl | rfl
  · exact congrArg Sum.inl (get_new_merged L.objects bytes)
  · rfl
  · rfl

/-- A ledger with the default cap has the same objects after it was moved. -/
theorem WellFormed.agree_rehome (hL : L.WellFormed) (hcap : L.maxValidators = DEFAULT_MAX_VALIDATORS)
    (hmove : L.rehome = some L') : AgreeOn objectArea L' L := by
  obtain ⟨⟨root, M⟩, hroot, hmoved⟩ := Option.map_eq_some_iff.mp hmove
  have hM := hL.agree_stateRoot hroot
  have hmax : M.maxValidators = L.maxValidators := Sum.inr.inj (hM.agree .maxValidators fun _ ↦ by simp)
  have hread := agreeOn_rehomed hM.left
  have hsame : L' = M.rehomed := hmoved.symm
  subst hsame
  refine AgreeOn.trans ⟨hread.left, hM.left, ?_⟩ hM
  intro i hi
  rcases objectArea_cases hi with ⟨bytes, rfl⟩ | rfl | rfl
  · exact congrArg Sum.inl (get_new_merged M.objects bytes)
  · rfl
  · exact congrArg Sum.inr (hcap.symm.trans hmax.symm)

end Latebra.State.Ledger

namespace Latebra.Chain

open Foundation Crypto Latebra.Types State

variable {S : ChainSuite} {workers : ℕ}

/-! ### Replays on objects -/

section Replays

variable {start L L' : Ledger S.toCryptoSuite} {branch : List (Block S)}

/-- What a block does to the objects of a ledger. -/
def Block.program (block : Block S) : LedgerM S.toCryptoSuite Unit :=
  blockProgram block.txs block.header.miner block.header.height

/-- The ledger that the blocks of a branch, its newest first, lead to. -/
inductive Replays (start : Ledger S.toCryptoSuite) :
    List (Block S) → Ledger S.toCryptoSuite → Prop where
  | start : Replays start [] start
  | block {branch : List (Block S)} {L L' : Ledger S.toCryptoSuite} (block : Block S) :
    Replays start branch L → Program.Returns Ledger.handler block.program L () L' →
      Replays start (block :: branch) L'

/-- A block that is applied runs on every ledger with the same objects. -/
theorem returns_of_applied {block : Block S} {M M' : Ledger S.toCryptoSuite}
    (hagree : Ledger.AgreeOn Ledger.objectArea L M)
    (hrun : (applyTxsAndReward workers block.txs block.header.miner block.header.height).after M =
      some M') :
    ∃ L', Program.Returns Ledger.handler block.program L () L' ∧
      Ledger.AgreeOn Ledger.objectArea L' M' := by
  obtain ⟨houtcome, hmid⟩ := Ledger.run_agree
    (block.program.uses_true.mono fun c _ ↦ Ledger.reads_subset_objectArea c) hagree
  rcases alike_applyTxsAndReward workers block.txs block.header.miner block.header.height M M
    hagree.right hagree.right fun _ ↦ rfl with ⟨hnone, -⟩ | ⟨M₁, M₂, hM₁, hM₂, hformed, -, hsame⟩
  · exact absurd (hnone.symm.trans hrun) (by simp)
  obtain rfl := Option.some.inj (hM₁.symm.trans hrun)
  rw [Transition.after_eq_some, Transition.ofProgram] at hM₂
  have hM₂ : block.program.run Ledger.handler M = (.ok (), M₂) := hM₂
  rw [hM₂] at houtcome hmid
  refine ⟨(block.program.run Ledger.handler L).2, Prod.ext houtcome rfl, hmid.left, hformed, ?_⟩
  intro i hi
  exact (hmid.agree i hi).trans (hsame i).symm

/-- A block transition on a ledger with the objects of a replay. -/
theorem Replays.applyBlockState (hreplay : Replays start branch L)
    {M M' : Ledger S.toCryptoSuite} (hagree : Ledger.AgreeOn Ledger.objectArea L M) {block : Block S}
    (hrun : applyBlockState workers block M = (.ok (), M')) :
    ∃ L', Replays start (block :: branch) L' ∧ Ledger.AgreeOn Ledger.objectArea L' M' ∧
      M'.dirty = [] ∧ S.digestBytes M'.root = block.header.stateRoot := by
  obtain ⟨N, root, happlied, hroot, hcommits⟩ := applyBlockState_eq_ok.mp hrun
  obtain ⟨L', hreturns, hafter⟩ := returns_of_applied hagree happlied
  obtain ⟨hvalue, -, hclone⟩ := hafter.right.stateRoot hroot
  refine ⟨L', .block block hreplay hreturns, ?_, (congrArg Ledger.dirty hclone :), ?_⟩
  · exact hafter.trans (hafter.right.agree_stateRoot hroot).symm
  · rw [← hvalue, hcommits]

theorem Replays.maxValidators_eq (hreplay : Replays start branch L) :
    L.maxValidators = start.maxValidators := by
  induction hreplay with
  | start => rfl
  | @block _ before after block _ hrun ih =>
    have hkept := Ledger.maxValidators_run block.program before
    rw [show block.program.run Ledger.handler before = (.ok (), after) from hrun] at hkept
    exact hkept.trans ih

end Replays

/-! ### What a chain keeps together -/

namespace Blockchain

variable {chain chain' : Blockchain S}

/-- The tree has a block, under its id. -/
def Stores (chain : Blockchain S) (block : Block S) : Prop :=
  ∃ node, chain.tree[block.id]? = some node ∧ node.encoded = block.encode ∧
    node.header = block.header

/-- The ids of a branch, its newest block first, from genesis on. -/
def pathOver (chain : Blockchain S) (branch : List (Block S)) : List Bytes32 :=
  (branch.map Block.id ++ [chain.genesisId]).reverse

/-- The ledger, the tip and the recent validator sets are those of the active branch. -/
structure Follows (chain : Blockchain S) (start : Ledger S.toCryptoSuite)
    (branch : List (Block S)) : Prop where
  genesis : genesisState chain.premine chain.publicPremine = some start
  path : chain.activeChain = chain.pathOver branch
  stored : ∀ block ∈ branch, chain.Stores block
  replay : ∃ L, Replays start branch L ∧ Ledger.AgreeOn Ledger.objectArea L chain.activeState
  sets : ∀ entry ∈ chain.recentSets, ∃ below L, below <:+ branch ∧ below.length = entry.1.toNat ∧
    Replays start below L ∧ L.validatorSet = entry.2
  clean : chain.activeState.dirty = []
  committed : ∃ node, chain.tree[chain.activeTip]? = some node ∧
    S.digestBytes chain.activeState.root = node.header.stateRoot

/-- A block stays in a growing tree. -/
theorem Stores.mono {block : Block S} (hstored : chain.Stores block)
    (htree : ∀ (id : Bytes32) (node : TreeNode), chain.tree[id]? = some node →
      chain'.tree[id]? = some node) :
    chain'.Stores block := by
  obtain ⟨node, hnode, hsame⟩ := hstored
  exact ⟨node, htree _ _ hnode, hsame⟩

/-- One more node in the tree hides no other. -/
theorem Admitted.tree_mono {block : Block S} {node : TreeNode} (hadmitted : chain.Admitted block node)
    {id : Bytes32} {other : TreeNode} (hother : chain.tree[id]? = some other) :
    (chain.tree.insert block.id node)[id]? = some other := by
  rw [FMap.lookup_insert]
  split
  · next heq =>
    rw [heq] at hother
    exact absurd (hadmitted.new.symm.trans hother) (by simp)
  · exact hother

/-- The set that a chain records next to those it keeps. -/
theorem mem_noteValidatorSet {entry : UInt64 × ValidatorSet}
    (hentry : entry ∈ chain.noteValidatorSet.recentSets) :
    entry ∈ chain.recentSets ∨ entry = (chain.activeHeight, chain.activeState.validatorSet) := by
  have hmem := List.mem_of_mem_drop hentry
  rw [List.mem_append, List.mem_singleton] at hmem
  exact hmem

/-- Replaying ids of stored blocks on a ledger with the objects of a replay. -/
theorem replays_each {start L M M' : Ledger S.toCryptoSuite} {branch : List (Block S)}
    {ids : List Bytes32} (hids : ∀ id ∈ ids, id ≠ chain.genesisId ∧
      ∃ block : Block S, block.id = id ∧ chain.Stores block)
    (hreplay : Replays start branch L) (hagree : Ledger.AgreeOn Ledger.objectArea L M)
    (hrun : Transition.each chain.replayBlock ids M = (.ok (), M')) :
    ∃ newer L', Replays start (newer ++ branch) L' ∧ Ledger.AgreeOn Ledger.objectArea L' M' ∧
      newer.map Block.id = ids.reverse ∧ (∀ block ∈ newer, chain.Stores block) ∧
      (newer = [] ∧ M' = M ∨ ∃ block older, newer = block :: older ∧ M'.dirty = [] ∧
        S.digestBytes M'.root = block.header.stateRoot) := by
  induction ids generalizing branch L M with
  | nil =>
    obtain ⟨-, rfl⟩ := Prod.mk.inj hrun
    exact ⟨[], L, hreplay, hagree, rfl, fun _ hmem ↦ absurd hmem List.not_mem_nil, .inl ⟨rfl, rfl⟩⟩
  | cons id rest ih =>
    obtain ⟨⟨hother, block, hid, node, hnode, hencoded, hheader⟩, hrest⟩ := List.forall_mem_cons.mp hids
    rw [hid] at hnode
    rw [← Transition.after_eq_some, Transition.each, Transition.after_andThen] at hrun
    obtain ⟨N, hfirst, hlater⟩ := Option.bind_eq_some_iff.mp hrun
    rw [Transition.after_eq_some, replayBlock, if_neg hother, hnode] at hfirst
    dsimp only at hfirst
    split at hfirst
    · exact absurd (Prod.mk.inj hfirst).1 (by simp)
    next decoded hdecode =>
    have hsame : decoded.encode = node.encoded := (Block.decode_eq_some.mp hdecode).2
    have hblock : decoded.header = block.header := Block.header_of_encode_eq (hsame.trans hencoded)
    have hdecoded : decoded.id = id := (congrArg (BlockHeader.id S) hblock).trans hid
    obtain ⟨L₁, hreplay₁, hagree₁, hclean, hroot⟩ := hreplay.applyBlockState hagree hfirst
    obtain ⟨newer, L', hreplay', hagree', hnewer, hstored, hend⟩ :=
      ih hrest hreplay₁ hagree₁ (Transition.after_eq_some.mp hlater)
    refine ⟨newer ++ [decoded], L', ?_, hagree', ?_, ?_, ?_⟩
    · rw [List.append_assoc]
      exact hreplay'
    · rw [List.map_append, hnewer, List.reverse_cons, List.map_singleton, hdecoded]
    · intro other hmem
      rcases List.mem_append.mp hmem with hmem | hmem
      · exact hstored other hmem
      · rw [List.mem_singleton.mp hmem]
        exact ⟨node, hdecoded ▸ hnode, hsame.symm, hheader.trans hblock.symm⟩
    · rcases hend with ⟨rfl, rfl⟩ | ⟨last, older, rfl, hend⟩
      · exact .inr ⟨decoded, [], rfl, hclean, hroot⟩
      · exact .inr ⟨last, older ++ [decoded], rfl, hend⟩

end Blockchain

/-! ### The blocks of the tree -/

section Tree

variable {genesis : TreeNode} {chain chain' : Blockchain S} {v : (blockRules S genesis).View}

theorem path_eq (branch : List (Block S)) : (blockRules S genesis).path branch =
    genesis.header.id S :: (branch.map Block.id).reverse := by
  induction branch with
  | nil => rfl
  | cons block rest ih =>
    show (blockRules S genesis).path rest ++ [block.id] = _
    rw [ih, List.map_cons, List.reverse_cons, List.cons_append]

/-- The tree has the blocks of every known branch, and none of them is the genesis block. -/
theorem Holds.stores (h : Holds chain v) (hclosed : v.Closed) {branch : List (Block S)}
    (hknown : v.known ((blockRules S genesis).tip branch) = some branch) :
    ∀ block ∈ branch, block.id ≠ chain.genesisId ∧ chain.Stores block := by
  induction branch with
  | nil => exact fun _ hmem ↦ absurd hmem List.not_mem_nil
  | cons block rest ih =>
    have hbelow := (hclosed.closed hknown).2
    have htip : block.header.prevHash = (blockRules S genesis).tip rest := hclosed.eq_tip hbelow
    rw [List.forall_mem_cons]
    constructor
    · have hid : v.known block.id = some (block :: rest) := hknown
      constructor
      · intro heq
        rw [heq, h.genesisId] at hid
        exact absurd (hclosed.root.symm.trans hid) (by simp)
      · obtain ⟨node, hmark⟩ := Option.isSome_iff_exists.mp (hclosed.marked hknown)
        obtain ⟨parent, -, hadmit⟩ := Option.bind_eq_some_iff.mp hmark
        have hadmits := admits_of_validate (childNode_eq_some.mp hadmit).2
        refine ⟨node, ?_, hadmits.encoded, hadmits.header⟩
        rw [h.tree, hid]
        exact hmark
    · exact ih (htip ▸ hbelow)

theorem Tracks.pathOver (h : Tracks chain v) : chain.activeChain = chain.pathOver v.active := by
  rw [h.active, path_eq, Blockchain.pathOver, List.reverse_append, List.reverse_singleton,
    List.singleton_append, h.genesisId]

/-! ### One call -/

variable {workers : ℕ} {premine publicPremine : List (Bytes32 × UInt64)} {difficulty : UInt64}
  {start : Ledger S.toCryptoSuite} {branch : List (Block S)}

/-- A block on the tip. -/
theorem Blockchain.Follows.extend (hfollows : chain.Follows start branch) {block : Block S}
    {node : TreeNode} {next : Ledger S.toCryptoSuite} (hadmitted : chain.Admitted block node)
    (hheight : branch.length + 1 = block.header.height.toNat)
    (hrun : applyBlockState chain.workers block chain.activeState.clone = (.ok (), next)) :
    (chain.extended block node next).Follows start (block :: branch) := by
  obtain ⟨L, hreplay, hagree⟩ := hfollows.replay
  obtain ⟨L', hreplay', hagree', hclean, hroot⟩ :=
    hreplay.applyBlockState (hagree.trans hagree.right.agree_clone.symm) hrun
  obtain ⟨parent, -, hadmit⟩ := hadmitted.parent
  have hadmits := admits_of_validate (childNode_eq_some.mp hadmit).2
  have htree : ∀ (id : Bytes32) (other : TreeNode), chain.tree[id]? = some other →
      (chain.extended block node next).tree[id]? = some other :=
    fun _ _ hother ↦ hadmitted.tree_mono hother
  have hnode : (chain.extended block node next).tree[block.id]? = some node :=
    FMap.lookup_insert_self _ _ _
  constructor
  · exact hfollows.genesis
  · show chain.activeChain ++ [block.id] = _
    rw [hfollows.path, Blockchain.pathOver, Blockchain.pathOver, List.map_cons, List.cons_append,
      List.reverse_cons]
    rfl
  · rw [List.forall_mem_cons]
    exact ⟨⟨node, hnode, hadmits.encoded, hadmits.header⟩,
      fun other hmem ↦ (hfollows.stored other hmem).mono htree⟩
  · exact ⟨L', hreplay', hagree'.trans hagree'.right.agree_flush.symm⟩
  · intro entry hentry
    rcases Blockchain.mem_noteValidatorSet hentry with hold | rfl
    · obtain ⟨below, M, hbelow, hlength, hM, hset⟩ := hfollows.sets entry hold
      exact ⟨below, M, hbelow.trans (List.suffix_cons block branch), hlength, hM, hset⟩
    · exact ⟨block :: branch, L', List.suffix_rfl, hheight, hreplay', validatorSet_eq_of_agree hagree'⟩
  · exact hclean
  · exact ⟨node, hnode, hroot.trans (congrArg BlockHeader.stateRoot hadmits.header.symm)⟩

theorem rehomeState_cases (hmoved : chain.rehomeState = some chain') :
    ∃ state disk, chain' = { chain with activeState := state, disk := disk } ∧
      (state = chain.activeState ∨ chain.activeState.rehome = some state) := by
  unfold Blockchain.rehomeState at hmoved
  split at hmoved
  · exact ⟨chain.activeState, chain.disk, (Option.some.inj hmoved).symm, .inl rfl⟩
  · obtain ⟨state, hstate, rfl⟩ := Option.map_eq_some_iff.mp hmoved
    exact ⟨_, _, rfl, .inr hstate⟩

/-- Moving the ledger of a chain onto disk. -/
theorem Blockchain.Follows.rehome (hfollows : chain.Follows start branch)
    (hstart : start.maxValidators = DEFAULT_MAX_VALIDATORS)
    (hmoved : chain.rehomeState = some chain') : chain'.Follows start branch := by
  obtain ⟨state, disk, rfl, hstate⟩ := rehomeState_cases hmoved
  rcases hstate with rfl | hstate
  · exact ⟨hfollows.genesis, hfollows.path, hfollows.stored, hfollows.replay, hfollows.sets,
      hfollows.clean, hfollows.committed⟩
  · obtain ⟨L, hreplay, hagree⟩ := hfollows.replay
    have hcap : chain.activeState.maxValidators = DEFAULT_MAX_VALIDATORS := by
      have hsame : L.maxValidators = chain.activeState.maxValidators :=
        Sum.inr.inj (hagree.agree .maxValidators fun _ ↦ by simp)
      rw [← hsame, hreplay.maxValidators_eq, hstart]
    have hkept := hagree.right.agree_rehome hcap hstate
    have hroot := Ledger.stateRoot_of_clean hfollows.clean
    obtain ⟨answer, hanswer, hmove⟩ := Option.map_eq_some_iff.mp hstate
    obtain rfl := Option.some.inj (hroot.symm.trans hanswer)
    refine ⟨hfollows.genesis, hfollows.path, hfollows.stored, ⟨L, hreplay, hagree.trans hkept.symm⟩,
      hfollows.sets, ?_, ?_⟩
    · rw [← hmove]
      exact hfollows.clean
    · rw [← hmove]
      exact hfollows.committed

/-- A switch to another branch, before the rebuilt ledger is moved. -/
theorem Tracks.follows_switched (h : Tracks chain v) (hzero : genesis.height = 0)
    (hfollows : chain.Follows start branch) {block : Block S} {node : TreeNode}
    {path : List Bytes32} {state : Ledger S.toCryptoSuite} (hadmitted : chain.Admitted block node)
    (hpath : path = (chain.grown block node).pathTo block.id)
    (hrebuilt : (chain.grown block node).rebuildState path = .ok state) :
    ∃ branch', ((chain.grown block node).switched block node path state).Follows start branch' := by
  obtain ⟨below, hparent, hmark⟩ := h.admitted hadmitted
  have hgrown : Holds (chain.grown block node) (v.add block below) := h.toHolds.add hmark rfl rfl
  have hsome : ((blockRules S genesis).mark (block :: below)).isSome := by
    rw [hmark]
    rfl
  have hclosed := h.formed.add (h.unknown hadmitted.new) hparent hsome
  have hstores : ∀ other ∈ block :: below, other.id ≠ (chain.grown block node).genesisId ∧
      (chain.grown block node).Stores other :=
    hgrown.stores hclosed TreeRules.View.known_add_self
  rw [path_grown h hzero hadmitted hparent hmark, path_eq, ← hgrown.genesisId] at hpath
  subst hpath
  -- the replay starts behind the genesis block
  unfold Blockchain.rebuildState at hrebuilt
  have hgenesis : Blockchain.genesisState (S := S) (chain.grown block node).premine
      (chain.grown block node).publicPremine = some start := hfollows.genesis
  rw [hgenesis] at hrebuilt
  dsimp only at hrebuilt
  split at hrebuilt
  · next value M hreplay =>
    obtain rfl := Outcome.ok.inj hrebuilt
    rw [← Transition.after_eq_some, Transition.each, Transition.after_andThen] at hreplay
    obtain ⟨N, hskipped, hlater⟩ := Option.bind_eq_some_iff.mp hreplay
    rw [Transition.after_eq_some, Blockchain.replayBlock, if_pos rfl] at hskipped
    obtain ⟨-, rfl⟩ := Prod.mk.inj hskipped
    have hids : ∀ id ∈ ((block :: below).map Block.id).reverse,
        id ≠ (chain.grown block node).genesisId ∧
          ∃ other : Block S, other.id = id ∧ (chain.grown block node).Stores other := by
      intro id hid
      obtain ⟨other, hother, rfl⟩ := List.mem_map.mp (List.mem_reverse.mp hid)
      exact ⟨(hstores other hother).1, other, rfl, (hstores other hother).2⟩
    have hformed := (grounded_genesisState hgenesis).formed
    obtain ⟨branch', L', hreplay', hagree, hblocks, hstored, hend⟩ := Blockchain.replays_each hids
      .start ⟨hformed, hformed, fun _ _ ↦ rfl⟩ (Transition.after_eq_some.mp hlater)
    rw [List.append_nil] at hreplay'
    rw [List.reverse_reverse] at hblocks
    obtain ⟨rfl, -⟩ | ⟨last, older, rfl, hclean, hroot⟩ := hend
    · exact absurd hblocks (by simp)
    have hlast : last.id = block.id := (List.cons.inj hblocks).1
    have hlength : (last :: older).length = node.height.toNat := by
      rw [height_of_mark hzero hmark, ← List.length_map Block.id, hblocks, List.length_map]
    obtain ⟨parent, -, hadmit⟩ := hadmitted.parent
    have hadmits := admits_of_validate (childNode_eq_some.mp hadmit).2
    have hflushed := hagree.trans hagree.right.agree_flush.symm
    refine ⟨last :: older, hgenesis, ?_, hstored, ⟨L', hreplay', hflushed⟩, ?_, hclean, ?_⟩
    · rw [Blockchain.pathOver, hblocks, List.reverse_append, List.reverse_singleton]
      rfl
    · intro entry hentry
      rcases Blockchain.mem_noteValidatorSet hentry with hold | rfl
      · exact absurd hold List.not_mem_nil
      · refine ⟨last :: older, L', List.suffix_rfl, ?_, hreplay', validatorSet_eq_of_agree hflushed⟩
        rw [hlength, ← hadmits.headerHeight]
    · obtain ⟨stored, hnode, -, hheader⟩ := hstored last List.mem_cons_self
      rw [hlast] at hnode
      exact ⟨stored, hnode, hroot.trans (congrArg BlockHeader.stateRoot hheader.symm)⟩
  · exact absurd hrebuilt (by simp)
  · exact absurd hrebuilt (by simp)

/-- Whatever a node accepts, its ledger follows its active branch. -/
theorem Tracks.follows (h : Tracks chain v) (hzero : genesis.height = 0)
    (hfollows : chain.Follows start branch) {block : Block S} (haccepts : chain.Accepts block chain') :
    ∃ branch', chain'.Follows start branch' := by
  have hcap : start.maxValidators = DEFAULT_MAX_VALIDATORS :=
    Ledger.Reachable.maxValidators_eq
      (reachableBy_genesisState (fun _ _ _ ↦ trivial) hfollows.genesis)
  cases haccepts with
  | known => exact ⟨branch, hfollows⟩
  | @extend node next hadmitted htip hrun =>
    obtain ⟨below, hparent, hmark⟩ := h.admitted hadmitted
    obtain ⟨parent, -, hadmit⟩ := hadmitted.parent
    have hadmits := admits_of_validate (childNode_eq_some.mp hadmit).2
    have hbelow : below = v.active := by
      rw [htip, h.tip, h.formed.active] at hparent
      exact (Option.some.inj hparent).symm
    have hlength : branch.length = v.active.length := by
      have hpath := hfollows.path.symm.trans h.pathOver
      rw [Blockchain.pathOver, Blockchain.pathOver, List.reverse_inj] at hpath
      have hcount := congrArg List.length hpath
      rw [List.length_append, List.length_append, List.length_map, List.length_map] at hcount
      exact Nat.add_right_cancel hcount
    refine ⟨_, hfollows.extend hadmitted ?_ hrun⟩
    rw [hadmits.headerHeight, height_of_mark hzero hmark, hbelow, List.length_cons, hlength]
  | @switch node path state _ hadmitted _ _ hpath _ hrebuilt hmoved =>
    obtain ⟨branch', hswitched⟩ := h.follows_switched hzero hfollows hadmitted hpath hrebuilt
    exact ⟨branch', hswitched.rehome hcap hmoved⟩
  | @aside node hadmitted _ _ =>
    have htree : ∀ (id : Bytes32) (other : TreeNode), chain.tree[id]? = some other →
        ((chain.grown block node).persist block node.encoded).tree[id]? = some other :=
      fun _ _ hother ↦ hadmitted.tree_mono hother
    obtain ⟨tip, htip, hroot⟩ := hfollows.committed
    exact ⟨branch, hfollows.genesis, hfollows.path,
      fun other hmem ↦ (hfollows.stored other hmem).mono htree, hfollows.replay, hfollows.sets,
      hfollows.clean, tip, htree _ _ htip, hroot⟩

/-- The chain of the genesis block alone. -/
theorem follows_atGenesis
    (hchain : Blockchain.genesisWithPublic workers premine publicPremine difficulty = some chain) :
    ∃ start, chain.Follows start [] := by
  obtain ⟨start, hstart, hrest⟩ := Option.bind_eq_some_iff.mp hchain
  obtain ⟨⟨root, state⟩, hroot, rfl⟩ := Option.map_eq_some_iff.mp hrest
  have hformed := (grounded_genesisState hstart).formed
  obtain ⟨hvalue, -, hclone⟩ := hformed.stateRoot hroot
  have hagree := (hformed.agree_stateRoot hroot).symm
  refine ⟨start, hstart, rfl, fun _ hmem ↦ absurd hmem List.not_mem_nil, ⟨start, .start, hagree⟩, ?_,
    (congrArg Ledger.dirty hclone :), ?_⟩
  · intro entry hentry
    rcases Blockchain.mem_noteValidatorSet hentry with hold | rfl
    · exact absurd hold List.not_mem_nil
    · exact ⟨[], start, List.nil_suffix, rfl, .start, validatorSet_eq_of_agree hagree⟩
  · exact ⟨Blockchain.genesisNode S (S.digestBytes root) difficulty, FMap.lookup_insert_self _ _ _,
      congrArg S.digestBytes hvalue.symm⟩

/-- A chain that starts and takes a block whose transactions run on the genesis objects, when all
state roots are alike. -/
theorem exists_first (hroots : ∀ root, S.digestBytes root = 0) (hfree : S.trie.CollisionFree)
    {G : Ledger S.toCryptoSuite} (hstate : Blockchain.genesisState premine publicPremine = some G)
    {block : Block S} {node : TreeNode}
    (hchild : childNode (Blockchain.genesisNode S 0 difficulty) block = some node)
    (hprev : block.header.prevHash = (Blockchain.genesisHeader 0).id S)
    (hother : block.id ≠ (Blockchain.genesisHeader 0).id S) (hzero : block.header.stateRoot = 0)
    (hheight : block.header.height = 1) {s' : LedgerState S.toCryptoSuite}
    (hruns : LedgerState.Runs block.program { G.view with dirty := ∅ } () s') :
    ∃ chain : Blockchain S, Blockchain.Reachable workers premine publicPremine difficulty chain ∧
      chain.Follows G [block] ∧ chain.premine = premine ∧ chain.publicPremine = publicPremine ∧
      chain.activeHeight = 1 ∧ chain.activeState.view = { s' with dirty := ∅ } := by
  obtain ⟨chain, hstart, htree, htip, hpremine, hpublic, hview⟩ :=
    @exists_genesis _ workers _ _ difficulty hroots hfree _ hstate
  have hreach := Blockchain.Reachable.genesis hstart
  have hadmitted : chain.Admitted block node := by
    refine ⟨?_, Blockchain.genesisNode S 0 difficulty, ?_, hchild⟩
    · rw [htree]
      exact (FMap.lookup_insert ..).trans (if_neg hother)
    · rw [htree, hprev, FMap.lookup_insert_self]
  rw [← hview] at hruns
  obtain ⟨next, hrun, hnext⟩ :=
    Blockchain.applies_of_runs hroots hfree (grounded_of_reachable hreach) hzero hruns
  obtain ⟨start, hfollows⟩ := follows_atGenesis hstart
  have hgenesis := hfollows.genesis
  rw [hpremine, hpublic] at hgenesis
  obtain rfl := Option.some.inj (hgenesis.symm.trans hstate)
  have hfirst : ([] : List (Block S)).length + 1 = block.header.height.toNat := by
    rw [hheight]
    rfl
  exact ⟨_, hreach.step (.applyOk block (hadmitted.extends (hprev.trans htip.symm) hrun)),
    hfollows.extend hadmitted hfirst hrun, hpremine, hpublic, hheight, hnext⟩

theorem follows_openNew
    (hchain : Blockchain.openNew workers premine publicPremine difficulty = some chain) :
    ∃ start, chain.Follows start [] := by
  obtain ⟨memory, hmemory, hrest⟩ := Option.bind_eq_some_iff.mp hchain
  obtain ⟨moved, hmoved, rfl⟩ := Option.map_eq_some_iff.mp hrest
  obtain ⟨start, hfollows⟩ := follows_atGenesis hmemory
  have hcap := Ledger.Reachable.maxValidators_eq
    (reachableBy_genesisState (fun _ _ _ ↦ trivial) hfollows.genesis)
  have hdisk : ({ memory with disk := some .blank } : Blockchain S).Follows start [] :=
    ⟨hfollows.genesis, hfollows.path, hfollows.stored, hfollows.replay, hfollows.sets,
      hfollows.clean, hfollows.committed⟩
  have hkept := hdisk.rehome hcap hmoved
  obtain ⟨state, disk, rfl, -⟩ := rehomeState_cases hmoved
  have hheight : memory.activeHeight = 0 := by
    obtain ⟨_, -, hroot⟩ := Option.bind_eq_some_iff.mp hmemory
    obtain ⟨_, -, rfl⟩ := Option.map_eq_some_iff.mp hroot
    rfl
  refine ⟨start, hkept.genesis, hkept.path, hkept.stored, hkept.replay, ?_, hkept.clean,
    hkept.committed⟩
  intro entry hentry
  obtain ⟨L, hreplay, hagree⟩ := hkept.replay
  rcases Blockchain.mem_noteValidatorSet hentry with hold | rfl
  · exact absurd hold List.not_mem_nil
  · refine ⟨[], L, List.nil_suffix, ?_, hreplay, validatorSet_eq_of_agree hagree⟩
    show 0 = memory.activeHeight.toNat
    rw [hheight]
    rfl

end Tree

/-! ### Every chain of a node -/

section Runs

variable {workers : ℕ} {premine publicPremine : List (Bytes32 × UInt64)} {difficulty : UInt64}
  {chain : Blockchain S}

theorem follows_of_reachable
    (hreach : Blockchain.Reachable workers premine publicPremine difficulty chain) :
    ∃ start branch, chain.Follows start branch := by
  induction hreach with
  | genesis hchain =>
    obtain ⟨start, hfollows⟩ := follows_atGenesis hchain
    exact ⟨start, [], hfollows⟩
  | openNew hchain =>
    obtain ⟨start, hfollows⟩ := follows_openNew hchain
    exact ⟨start, [], hfollows⟩
  | step hbefore hstep ih =>
    obtain ⟨start, branch, hfollows⟩ := ih
    obtain ⟨genesis, hgenesis, v, htracks⟩ := tracks_of_reachable hbefore
    cases hstep with
    | applyOk block hrun =>
      obtain ⟨branch', hfollows'⟩ :=
        htracks.follows (genesisOf_height hgenesis) hfollows (Blockchain.accepts_of_ok hrun)
      exact ⟨start, branch', hfollows'⟩
    | applyErr block e hrun =>
      rw [Blockchain.eq_of_applyBlock_err hrun]
      exact ⟨start, branch, hfollows⟩
    | tryFinalize cert =>
      rcases Blockchain.tryFinalize_cases _ cert with hrefused | ⟨-, disk, hadopted⟩
      · rw [hrefused]
        exact ⟨start, branch, hfollows⟩
      · rw [hadopted]
        exact ⟨start, branch, hfollows.genesis, hfollows.path, hfollows.stored, hfollows.replay,
          hfollows.sets, hfollows.clean, hfollows.committed⟩

/-- The tree of a chain: the active branch runs through it, and nothing in it that keeps the finalized
block is heavier. -/
structure Blockchain.Rooted (chain : Blockchain S) : Prop where
  active : chain.activeChain = chain.pathTo chain.activeTip
  heights : ∀ (height : ℕ) (id : Bytes32), chain.activeChain[height]? = some id →
    ∃ node, chain.tree[id]? = some node ∧ node.height.toNat = height
  parents : ∀ (id : Bytes32) (node : TreeNode), chain.tree[id]? = some node →
    id ≠ chain.genesisId → ∃ parent, chain.tree[node.header.prevHash]? = some parent ∧
      node.height.toNat = parent.height.toNat + 1 ∧
      node.cumWork = parent.cumWork + parent.childDifficulty.toNat
  heaviest : ∀ (id : Bytes32) (node : TreeNode), chain.tree[id]? = some node →
    chain.respectsFinality (chain.pathTo id) → node.cumWork ≤ chain.activeWork

theorem Tracks.rooted {genesis : TreeNode} {v : (blockRules S genesis).View} (h : Tracks chain v)
    (hzero : genesis.height = 0) : chain.Rooted := by
  have hclosed := h.formed.toClosed
  have hpath : ∀ {id : Bytes32} {branch : List (Block S)}, v.known id = some branch →
      id = (blockRules S genesis).tip branch ∧
        chain.pathTo id = (blockRules S genesis).path branch := by
    intro id branch hknown
    obtain rfl := hclosed.eq_tip hknown
    exact ⟨rfl, h.pathTo_eq hclosed hzero hknown⟩
  constructor
  · rw [h.active, h.tip]
    exact (hpath h.formed.active).2.symm
  · intro height id hat
    rw [h.active, TreeRules.path_getElem?_eq_some] at hat
    obtain ⟨below, hbelow, hlength, rfl⟩ := hat
    have hknown := h.formed.suffix h.formed.active hbelow
    obtain ⟨node, hmark⟩ := Option.isSome_iff_exists.mp (hclosed.marked hknown)
    refine ⟨node, ?_, (height_of_mark hzero hmark).trans hlength⟩
    rw [h.tree, hknown]
    exact hmark
  · intro id node hnode hother
    obtain ⟨branch, hknown, hmark⟩ := h.node hnode
    cases branch with
    | nil => exact absurd ((hclosed.rooted hknown).trans h.genesisId.symm) hother
    | cons block rest =>
      obtain ⟨parent, hparent, hadmit⟩ := Option.bind_eq_some_iff.mp hmark
      have hadmits := admits_of_validate (childNode_eq_some.mp hadmit).2
      refine ⟨parent, ?_, hadmits.height, hadmits.cumWork⟩
      have hbelow : v.known block.header.prevHash = some rest := (hclosed.closed hknown).2
      rw [hadmits.header, h.tree, hbelow]
      exact hparent
  · intro id node hnode hrespects
    obtain ⟨branch, hknown, hmark⟩ := h.node hnode
    rw [h.activeWork_eq, ← weight_of_mark hmark]
    apply h.formed.heaviest hknown
    rw [(hpath hknown).2] at hrespects
    have hfinalized := h.finalized
    unfold Blockchain.respectsFinality at hrespects
    cases hwatermark : chain.finalized with
    | none =>
      rw [hwatermark] at hfinalized
      rw [hfinalized]
      exact List.nil_suffix
    | some watermark =>
      rw [hwatermark] at hfinalized hrespects
      dsimp only at hrespects
      rw [decide_eq_true_iff, TreeRules.path_getElem?_eq_some] at hrespects
      obtain ⟨below, hbelow, -, htip⟩ := hrespects
      have hsame := h.formed.suffix hknown hbelow
      rw [htip, hfinalized.2, h.formed.suffix h.formed.active h.formed.finalized] at hsame
      rw [Option.some.inj hsame]
      exact hbelow

/-- The fork choice of every chain that a node can have. Its tree is rooted and its active branch the
heaviest that keeps the finalized block; its ledger has the objects that the blocks of the active
branch lead to from genesis and the root that the tip commits; and every recorded validator set is
the one after the block of its height. -/
theorem fork_choice_invariant
    (hreach : Blockchain.Reachable workers premine publicPremine difficulty chain) :
    chain.Rooted ∧ ∃ start branch, chain.Follows start branch := by
  obtain ⟨genesis, hgenesis, v, htracks⟩ := tracks_of_reachable hreach
  exact ⟨htracks.rooted (genesisOf_height hgenesis), follows_of_reachable hreach⟩

/-- A node that has applied a block. -/
theorem fork_choice_staked : ∃ chain : Blockchain rootlessSuite,
    chain.activeChain[1]? = some stakeBlock.id ∧
      chain.Rooted ∧ ∃ start branch, chain.Follows start branch := by
  obtain ⟨chain, hreach, hentry, -⟩ := exists_staked
  exact ⟨chain, hentry, fork_choice_invariant hreach⟩

end Runs

end Latebra.Chain
