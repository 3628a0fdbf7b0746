import Latebra.Chain.ForkChoice

/-!
# Catching up with a peer, block by block

A node catches up with a peer by asking for the peer's block at the height above its own tip
(`Blockchain.blockBytes`). The block extends the node's branch, makes it switch to the peer's, is
turned away, or leaves the active branch as it is: a block that is known, or that is kept aside
(`Blockchain.Idle`).

Once a pulled block has become the tip, the node is `Abreast` of the peer: its tip is the peer's
block at that height. From there on no pulled block is idle (`Abreast.not_idle`), since no block on
top of the tip is known before it is pulled.
-/

set_option autoImplicit false
set_option relaxedAutoImplicit false

namespace Latebra.Chain

open Foundation Crypto Latebra.Types State

namespace Block

variable {S : ChainSuite}

/-- The header is the front of the wire form. -/
theorem header_of_encode_eq {block block' : Block S} (hencode : block.encode = block'.encode) :
    block.header = block'.header := by
  have hread := BlockHeader.reads_encode block.header
    (leBytes 4 block.txs.length ++ block.txs.flatMap encodeTx)
  have hread' := BlockHeader.reads_encode block'.header
    (leBytes 4 block'.txs.length ++ block'.txs.flatMap encodeTx)
  change BlockHeader.read block.encode = _ at hread
  change BlockHeader.read block'.encode = _ at hread'
  rw [hencode, hread'] at hread
  exact (Prod.mk.inj (Option.some.inj hread)).1.symm

end Block

namespace Blockchain

variable {S : ChainSuite}

/-- Encoded block at a height of the active chain, with genesis at height zero. -/
def blockBytes (chain : Blockchain S) (height : UInt64) : Option Bytes :=
  chain.activeChain[height.toNat]?.bind fun id ↦ chain.tree[id]?.map TreeNode.encoded

/-- Height of a block on the active chain. -/
def activeHeightOf (chain : Blockchain S) (id : Bytes32) : Option UInt64 :=
  chain.tree[id]?.bind fun node ↦
    if chain.activeChain[node.height.toNat]? = some id then some node.height else none

/-- The active tip with the records of the state at it. A chain of genesis alone serves none. -/
def stateSyncPayload (chain : Blockchain S) :
    Option (UInt64 × Bytes32 × List (Bytes × Bytes)) :=
  if chain.activeHeight = 0 then none
  else some (chain.activeHeight, chain.activeTip, chain.activeState.objectRecords)

/-- A block that leaves the active branch as it is: one that is known, or one that is kept aside. -/
inductive Idle (chain : Blockchain S) (block : Block S) : Prop where
  | known : chain.tree.contains block.id → Idle chain block
  | aside {node : TreeNode} :
    chain.Admitted block node → block.header.prevHash ≠ chain.activeTip →
      (chain.activeWork < node.cumWork →
        ¬ chain.respectsFinality ((chain.grown block node).pathTo block.id)) →
      Idle chain block

variable {chain chain' : Blockchain S} {block : Block S}

/-- What is kept aside is known from then on, and the active branch is the same. -/
theorem Idle.applyBlock (hidle : chain.Idle block) :
    ∃ chain', Blockchain.applyBlock block chain = (.ok (), chain') ∧
      chain'.activeHeight = chain.activeHeight ∧ chain'.Idle block := by
  cases hidle with
  | known hknown =>
    refine ⟨chain, ?_, rfl, .known hknown⟩
    rw [Blockchain.applyBlock, if_pos hknown]
  | @aside node hadmitted hother hlight =>
    have hknown : ((chain.grown block node).persist block node.encoded).tree.contains block.id := by
      change (chain.tree.insert block.id node).contains block.id = true
      simp
    refine ⟨(chain.grown block node).persist block node.encoded, ?_, rfl, .known hknown⟩
    rw [applyBlock_admitted hadmitted, if_neg hother]
    by_cases hheavier : chain.activeWork < node.cumWork
    · have hrefused : ¬ (chain.grown block node).respectsFinality
          ((chain.grown block node).pathTo block.id) := hlight hheavier
      rw [if_pos hheavier]
      unfold reorganize
      exact if_neg hrefused
    · rw [if_neg hheavier]
      rfl

/-- The peer's next block can be read and is idle. -/
def Stalls (chain peer : Blockchain S) : Prop :=
  ∃ next bytes block, checkedAdd chain.activeHeight 1 = some next ∧
    peer.blockBytes next = some bytes ∧ Block.decode bytes = some block ∧ chain.Idle block

/-- An idle block that was pulled is the next one to be pulled again. -/
theorem Idle.stalls {peer : Blockchain S} {next : UInt64} {bytes : Bytes}
    (hidle : chain'.Idle block) (hheight : chain'.activeHeight = chain.activeHeight)
    (hnext : checkedAdd chain.activeHeight 1 = some next)
    (hbytes : peer.blockBytes next = some bytes) (hdecode : Block.decode bytes = some block) :
    chain'.Stalls peer := by
  rw [← hheight] at hnext
  exact ⟨next, bytes, block, hnext, hbytes, hdecode, hidle⟩

/-- The chain after a block became its tip. -/
structure Adopts (chain : Blockchain S) (block : Block S) (chain' : Blockchain S) : Prop where
  tip : chain'.activeTip = block.id
  height : chain'.activeHeight = block.header.height
  tree : ∃ node : TreeNode, node.header = block.header ∧
    chain'.tree = chain.tree.insert block.id node

theorem Admitted.header {node : TreeNode} (hadmitted : chain.Admitted block node) :
    node.header = block.header := by
  obtain ⟨parent, -, hadmit⟩ := hadmitted.parent
  exact (admits_of_validate (childNode_eq_some.mp hadmit).2).header

/-- A block that is accepted without being idle becomes the tip. -/
theorem adopts_of_ok (hactive : ¬ chain.Idle block)
    (hrun : Blockchain.applyBlock block chain = (.ok (), chain')) : chain.Adopts block chain' := by
  cases accepts_of_ok hrun with
  | known hknown => exact absurd (.known hknown) hactive
  | @extend node next hadmitted htip happlied =>
    exact ⟨rfl, rfl, node, hadmitted.header, rfl⟩
  | @switch node path state _ hadmitted _ _ _ _ _ hmoved =>
    obtain ⟨state', disk', rfl⟩ := rehomeState_eq hmoved
    exact ⟨rfl, rfl, node, hadmitted.header, rfl⟩
  | aside hadmitted hother hlight => exact absurd (.aside hadmitted hother hlight) hactive

/-- Two chains that have no two blocks of one id. -/
def ShareHeaders (chain peer : Blockchain S) : Prop :=
  ∀ (id : Bytes32) (node node' : TreeNode), chain.tree[id]? = some node → peer.tree[id]? = some node' →
    node.header = node'.header

/-- The tip of the node is the peer's block at its height. -/
structure Abreast (chain peer : Blockchain S) : Prop where
  entry : peer.activeChain[chain.activeHeight.toNat]? = some chain.activeTip

/-- A block that can be read from what the peer serves at a height. -/
structure Pulled (peer : Blockchain S) (height : ℕ) (block : Block S) : Prop where
  level : block.header.height.toNat = height
  entry : peer.activeChain[height]? = some block.id
  parent : peer.activeChain[height - 1]? = some block.header.prevHash
  tree : ∃ node : TreeNode, peer.tree[block.id]? = some node ∧ node.header = block.header
  other : block.id ≠ peer.genesisId

end Blockchain

/-! ### What a peer serves -/

section Served

variable {S : ChainSuite} {genesis : TreeNode} {chain chain' peer : Blockchain S}
  {v w : (blockRules S genesis).View} {block : Block S} {height : UInt64} {bytes : Bytes}

/-- The node of a known block has its header. -/
theorem Holds.header (h : Holds chain v) {id : Bytes32} {node : TreeNode} {rest : List (Block S)}
    (hknown : v.known id = some (block :: rest)) (hnode : chain.tree[id]? = some node) :
    node.header = block.header ∧ node.encoded = block.encode ∧
      block.header.height = node.height := by
  obtain ⟨branch, hbranch, hmark⟩ := h.node hnode
  rw [hknown] at hbranch
  obtain rfl := Option.some.inj hbranch
  obtain ⟨parent, -, hadmit⟩ := Option.bind_eq_some_iff.mp hmark
  have hadmits := admits_of_validate (childNode_eq_some.mp hadmit).2
  exact ⟨hadmits.header, hadmits.encoded, hadmits.headerHeight⟩

/-- No block above the tip is served. -/
theorem Tracks.le_of_blockBytes (h : Tracks peer w) (hbytes : peer.blockBytes height = some bytes) :
    height.toNat ≤ peer.activeHeight.toNat := by
  obtain ⟨id, hid, -⟩ := Option.bind_eq_some_iff.mp hbytes
  have hlow := (List.getElem?_eq_some_iff.mp hid).1
  rw [h.active, TreeRules.length_path] at hlow
  rw [h.height]
  omega

/-- What is served above genesis is on top of what is served one height below. -/
theorem Tracks.pulled (h : Tracks peer w) (hzero : genesis.height = 0)
    (hheight : 0 < height.toNat) (hbytes : peer.blockBytes height = some bytes)
    (hdecode : Block.decode bytes = some block) : peer.Pulled height.toNat block := by
  obtain ⟨id, hid, hserved⟩ := Option.bind_eq_some_iff.mp hbytes
  obtain ⟨node, hnode, rfl⟩ := Option.map_eq_some_iff.mp hserved
  have hentry := hid
  rw [h.active, TreeRules.path_getElem?_eq_some] at hid
  obtain ⟨branch, hbranch, hlength, rfl⟩ := hid
  cases branch with
  | nil => exact absurd hlength hheight.ne
  | cons served rest =>
    have hknown := h.formed.suffix h.formed.active hbranch
    obtain ⟨hheader, hencoded, hheaderHeight⟩ := h.header hknown hnode
    have hsame : block.header = served.header := by
      apply Block.header_of_encode_eq
      rw [(Block.decode_eq_some.mp hdecode).2, hencoded]
    have hid : block.id = (blockRules S genesis).tip (served :: rest) :=
      congrArg (BlockHeader.id S) hsame
    obtain ⟨branch, hmarked, hmark⟩ := h.node hnode
    rw [hknown] at hmarked
    obtain rfl := Option.some.inj hmarked
    have hparent := (h.formed.closed hknown).2
    have htip : served.header.prevHash = (blockRules S genesis).tip rest :=
      h.formed.eq_tip hparent
    refine ⟨?_, ?_, ?_, ⟨node, ?_, ?_⟩, ?_⟩
    · rw [hsame, hheaderHeight, height_of_mark hzero hmark, hlength]
    · rw [hid]
      exact hentry
    · rw [hsame, htip, h.active, TreeRules.path_getElem?_eq_some]
      refine ⟨rest, (List.suffix_cons served rest).trans hbranch, ?_, rfl⟩
      rw [← hlength, List.length_cons, Nat.add_sub_cancel]
    · rw [hid]
      exact hnode
    · rw [hheader, hsame]
    · intro hgenesis
      rw [h.genesisId, hid] at hgenesis
      rw [hgenesis] at hknown
      exact nomatch h.formed.root.symm.trans hknown

/-- A node that is abreast of its peer does not know the next block of the peer. -/
theorem Tracks.not_idle (h : Tracks chain v) (hgenesis : chain.genesisId = peer.genesisId)
    (hshare : chain.ShareHeaders peer) (habreast : chain.Abreast peer)
    (hpulled : peer.Pulled (chain.activeHeight.toNat + 1) block) : ¬ chain.Idle block := by
  have hparent : block.header.prevHash = chain.activeTip :=
    Option.some.inj (hpulled.parent.symm.trans habreast.entry)
  intro hidle
  cases hidle with
  | aside _ hother => exact hother hparent
  | known hknown =>
    obtain ⟨node, hnode⟩ : ∃ node, chain.tree[block.id]? = some node := by
      apply Option.isSome_iff_exists.mp
      simpa using hknown
    obtain ⟨node', hnode', hheader'⟩ := hpulled.tree
    have hheader := hshare _ _ _ hnode hnode'
    obtain ⟨branch, hbranch, -⟩ := h.node hnode
    cases branch with
    | nil =>
      have hroot := h.formed.rooted hbranch
      exact hpulled.other (hroot.trans (h.genesisId.symm.trans hgenesis))
    | cons below rest =>
      apply h.formed.parent_ne_tip hbranch
      have hbelow : below.header = block.header := by
        rw [← (h.header hbranch hnode).1, hheader, hheader']
      show below.header.prevHash = _
      rw [hbelow, hparent, h.tip]

/-- A node that makes a pulled block its tip is abreast of its peer. -/
theorem Blockchain.Adopts.abreast (hadopts : chain.Adopts block chain') {height : ℕ}
    (hpulled : peer.Pulled height block) : chain'.Abreast peer := by
  constructor
  rw [hadopts.height, hadopts.tip, hpulled.level]
  exact hpulled.entry

theorem Blockchain.Adopts.shareHeaders (hadopts : chain.Adopts block chain') {height : ℕ}
    (hpulled : peer.Pulled height block) (hshare : chain.ShareHeaders peer) :
    chain'.ShareHeaders peer := by
  obtain ⟨added, hadded, htree⟩ := hadopts.tree
  obtain ⟨served, hserved, hheader⟩ := hpulled.tree
  intro id node node' hnode hnode'
  rw [htree, FMap.lookup_insert] at hnode
  split at hnode
  · next hid =>
    obtain rfl := Option.some.inj hnode
    rw [hid, hserved] at hnode'
    rw [hadded, ← Option.some.inj hnode', hheader]
  · exact hshare id node node' hnode hnode'

/-! ### A node that pulls blocks -/

/-- A node and a peer over one genesis, with no two blocks of one id. -/
structure Syncing (genesis : TreeNode) (chain peer : Blockchain S) : Prop where
  zero : genesis.height = 0
  ours : ∃ v : (blockRules S genesis).View, Tracks chain v
  theirs : ∃ w : (blockRules S genesis).View, Tracks peer w
  shares : chain.ShareHeaders peer

namespace Syncing

variable {next : UInt64}

/-- The next height is above genesis. -/
theorem pulled (h : Syncing genesis chain peer) (hnext : checkedAdd chain.activeHeight 1 = some next)
    (hbytes : peer.blockBytes next = some bytes) (hdecode : Block.decode bytes = some block) :
    next.toNat = chain.activeHeight.toNat + 1 ∧
      peer.Pulled (chain.activeHeight.toNat + 1) block := by
  have hsum : next.toNat = chain.activeHeight.toNat + 1 := checkedAdd_eq_some.mp hnext
  obtain ⟨w, hw⟩ := h.theirs
  rw [← hsum]
  exact ⟨rfl, hw.pulled h.zero (by omega) hbytes hdecode⟩

theorem genesisId (h : Syncing genesis chain peer) : chain.genesisId = peer.genesisId := by
  obtain ⟨v, hv⟩ := h.ours
  obtain ⟨w, hw⟩ := h.theirs
  rw [hv.genesisId, hw.genesisId]

/-- A node that is abreast of its peer is not stalled. -/
theorem not_stalls (h : Syncing genesis chain peer) (habreast : chain.Abreast peer) :
    ¬ chain.Stalls peer := by
  rintro ⟨next, bytes, block, hnext, hbytes, hdecode, hidle⟩
  obtain ⟨v, hv⟩ := h.ours
  exact hv.not_idle h.genesisId h.shares habreast (h.pulled hnext hbytes hdecode).2 hidle

/-- A pulled block that is accepted without a stall is the new tip, one height up. -/
theorem step (h : Syncing genesis chain peer) (hstalls : ¬ chain.Stalls peer)
    (hnext : checkedAdd chain.activeHeight 1 = some next)
    (hbytes : peer.blockBytes next = some bytes) (hdecode : Block.decode bytes = some block)
    (hrun : Blockchain.applyBlock block chain = (.ok (), chain')) :
    Syncing genesis chain' peer ∧ ¬ chain'.Stalls peer ∧
      chain'.activeHeight.toNat = chain.activeHeight.toNat + 1 := by
  have hactive : ¬ chain.Idle block := fun hidle ↦
    hstalls ⟨next, bytes, block, hnext, hbytes, hdecode, hidle⟩
  have hadopts := Blockchain.adopts_of_ok hactive hrun
  have hpulled := (h.pulled hnext hbytes hdecode).2
  obtain ⟨v, hv⟩ := h.ours
  obtain ⟨v', -, hv', -⟩ := hv.accepts h.zero (Blockchain.accepts_of_ok hrun)
  have hsyncing : Syncing genesis chain' peer :=
    ⟨h.zero, ⟨v', hv'⟩, h.theirs, hadopts.shareHeaders hpulled h.shares⟩
  refine ⟨hsyncing, hsyncing.not_stalls (hadopts.abreast hpulled), ?_⟩
  rw [hadopts.height, hpulled.level]

end Syncing

end Served

end Latebra.Chain
