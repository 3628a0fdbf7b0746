import Latebra.Chain.Block
import Latebra.Chain.Finality

/-!
# The chain of one node

`Blockchain` is the block tree of a node with its active branch: the heaviest branch whose
transactions are valid, as far as finality allows. `applyBlock` adds a block to the tree. A block on
the active tip is applied to the ledger; a block that makes another branch the heaviest makes the
node rebuild its ledger along that branch; any other block is kept as it is, with its transactions
unchecked. `tryFinalize` adopts a certificate.

The ledger that a block is tried on shares the base of its store with the active ledger, and the
active ledger is returned over whatever base the attempt leaves. A durable chain keeps the base of
its active ledger on disk, with the block log and two anchors next to it. The model is that of an
archive node without snapshot files.

Every height on a branch adds less than `2 ^ 64` to the cumulative work, and there are no more than
`2 ^ 64` heights, so its 128 bits suffice; it is a natural number here.
-/

set_option autoImplicit false
set_option relaxedAutoImplicit false

namespace Latebra.State.Ledger

open Foundation Crypto

variable {C : CryptoSuite}

/-- The ledger over the base that another ledger has. -/
def withBaseOf (L other : Ledger C) : Ledger C :=
  { L with
    objects := { L.objects with base := other.objects.base }
    nodes := { L.nodes with base := other.nodes.base } }

/-- Move a ledger onto a base, in place of what the base held. -/
def rehome (L : Ledger C) : Option (Ledger C) :=
  L.stateRoot.map fun answer ↦
    { withStore answer.2.objects.merged answer.2.nodes.get with
      nextTokenId := answer.2.nextTokenId
      root := answer.2.root
      dirty := answer.2.dirty }

end Latebra.State.Ledger

namespace Latebra.Chain

open Foundation Crypto Latebra.Types State

/-- How many recent validator sets are kept. -/
def FINALITY_SET_WINDOW : ℕ := 64

/-- A block in the tree. -/
structure TreeNode where
  encoded : Bytes
  header : BlockHeader
  height : UInt64
  /-- The difficulty that the children of the block have to meet. -/
  childDifficulty : UInt64
  childDifficulty_pos : 0 < childDifficulty.toNat
  /-- The work from genesis on. -/
  cumWork : ℕ

/-- The block log of a durable chain, with its transaction index. -/
structure ChainStore where
  /-- The encoded blocks, by sequence number. -/
  blocks : FMap Bytes Bytes
  /-- The sequence number of a block. -/
  blockKeys : FMap Bytes32 Bytes
  /-- The block of a transaction, and its position in it. -/
  txIndex : FMap Bytes32 Bytes
  nextSeq : UInt64

/-- Append a block and index its transactions. -/
def ChainStore.append {S : ChainSuite} (store : ChainStore) (id : Bytes32) (encoded : Bytes)
    (txs : List (Transaction S.toCryptoSuite)) : ChainStore :=
  let seqKey := beBytes 8 store.nextSeq.toNat
  { blocks := store.blocks.insert seqKey encoded
    blockKeys := store.blockKeys.insert id seqKey
    txIndex := txs.zipIdx.foldl
      (fun index entry ↦ index.insert (txHash S entry.1) (bytesOf32 id ++ leBytes 4 entry.2))
      store.txIndex
    nextSeq := store.nextSeq + 1 }

/-- What a durable chain keeps on disk next to its ledger. -/
structure Disk where
  store : ChainStore
  /-- The block whose state the records on disk are. -/
  stateAnchor : Option Bytes
  /-- The finality watermark with its certificate. -/
  finalityAnchor : Option Bytes

/-- The disk of a new chain. -/
def Disk.blank : Disk := ⟨⟨∅, ∅, ∅, 0⟩, none, none⟩

/-- The boot anchor of a block. -/
def anchorBytes (height : UInt64) (blockId : Bytes32) : Bytes := u64Le height ++ bytesOf32 blockId

/-- The chain of a node. -/
structure Blockchain (S : ChainSuite) where
  /-- All known blocks by id. -/
  tree : FMap Bytes32 TreeNode
  genesisId : Bytes32
  premine : List (Bytes32 × UInt64)
  publicPremine : List (Bytes32 × UInt64)
  activeTip : Bytes32
  activeHeight : UInt64
  activeState : Ledger S.toCryptoSuite
  /-- The ids of the active branch, genesis first. -/
  activeChain : List Bytes32
  /-- None for a chain in memory. -/
  disk : Option Disk
  /-- The finality watermark. -/
  finalized : Option (UInt64 × Bytes32)
  /-- The validator sets of recent active blocks, newest last. -/
  recentSets : List (UInt64 × ValidatorSet)
  /-- The worker threads of the machine. -/
  workers : ℕ

namespace Blockchain

variable {S : ChainSuite}

/-! ### Genesis -/

/-- The ledger of the genesis block. -/
def genesisState (premine publicPremine : List (Bytes32 × UInt64)) :
    Option (Ledger S.toCryptoSuite) :=
  let register (id : Bytes32) : Transition Empty (Ledger S.toCryptoSuite) :=
    Transition.ignoreErr fun state ↦ state.register id
  let transition : Transition Empty (Ledger S.toCryptoSuite) :=
    Transition.andThen
      (Transition.each
        (fun entry ↦ (register entry.1).andThen
          (Transition.orPanic fun state ↦ state.creditGenesis entry.1 entry.2)) premine)
      (Transition.each
        (fun entry ↦ (register entry.1).andThen
          (Transition.orPanic fun state ↦ state.creditPublic entry.1 LAT_TOKEN entry.2))
        publicPremine)
  (transition.after Ledger.new).map Ledger.flush

/-- Record the validator set of the active block. -/
def noteValidatorSet (chain : Blockchain S) : Blockchain S :=
  let sets := chain.recentSets ++ [(chain.activeHeight, chain.activeState.validatorSet)]
  { chain with recentSets := sets.drop (sets.length - FINALITY_SET_WINDOW) }

/-- The header of the genesis block. -/
def genesisHeader (stateRoot : Bytes32) : BlockHeader :=
  ⟨0, 0, GENESIS_TIMESTAMP, 0, stateRoot, 0, 0⟩

variable (S) in
/-- The genesis block in the tree. -/
def genesisNode (stateRoot : Bytes32) (difficulty : UInt64) : TreeNode where
  encoded := (⟨genesisHeader stateRoot, []⟩ : Block S).encode
  header := genesisHeader stateRoot
  height := 0
  childDifficulty := max difficulty 1
  childDifficulty_pos := one_le_max difficulty
  cumWork := 0

/-- The chain of the genesis block alone. -/
def atGenesis (workers : ℕ) (premine publicPremine : List (Bytes32 × UInt64)) (difficulty : UInt64)
    (root : S.Digest) (state : Ledger S.toCryptoSuite) : Blockchain S :=
  let node := genesisNode S (S.digestBytes root) difficulty
  let gid := node.header.id S
  noteValidatorSet
    { tree := (∅ : FMap Bytes32 TreeNode).insert gid node
      genesisId := gid
      premine := premine
      publicPremine := publicPremine
      activeTip := gid
      activeHeight := 0
      activeState := state
      activeChain := [gid]
      disk := none
      finalized := none
      recentSets := []
      workers := workers }

/-- A chain in memory, from its genesis parameters. -/
def genesisWithPublic (workers : ℕ) (premine publicPremine : List (Bytes32 × UInt64))
    (difficulty : UInt64) : Option (Blockchain S) :=
  (genesisState premine publicPremine).bind fun state ↦
    state.stateRoot.map fun answer ↦
      atGenesis workers premine publicPremine difficulty answer.1 answer.2

/-- Move the active ledger onto the durable base, with the anchor of the tip. -/
def rehomeState (chain : Blockchain S) : Option (Blockchain S) :=
  match chain.disk with
  | none => some chain
  | some disk =>
    chain.activeState.rehome.map fun state ↦
      { chain with
        activeState := state
        disk := some
          { disk with stateAnchor := some (anchorBytes chain.activeHeight chain.activeTip) } }

/-- Open a durable chain over an empty database. -/
def openNew (workers : ℕ) (premine publicPremine : List (Bytes32 × UInt64)) (difficulty : UInt64) :
    Option (Blockchain S) :=
  (genesisWithPublic workers premine publicPremine difficulty).bind fun chain ↦
    (rehomeState { chain with disk := some .blank }).map fun chain ↦
      noteValidatorSet { chain with recentSets := [] }

/-! ### The tree -/

/-- Follow the parents of a block down to genesis. -/
def walk (chain : Blockchain S) : ℕ → Bytes32 → List Bytes32
  | 0, _ => []
  | fuel + 1, current =>
    if current = chain.genesisId then [current]
    else
      match chain.tree[current]? with
      | some node => current :: walk chain fuel node.header.prevHash
      | none => [current]

/-- Ids from genesis to a block, genesis first. The walk goes down one height with every step. -/
def pathTo (chain : Blockchain S) (id : Bytes32) : List Bytes32 :=
  let height := (chain.tree[id]?.map fun node ↦ node.height.toNat).getD 0
  (chain.walk (height + 1) id).reverse

/-- Replay one block of a path. -/
def replayBlock (chain : Blockchain S) (id : Bytes32) :
    Transition ChainError (Ledger S.toCryptoSuite) := fun state ↦
  if id = chain.genesisId then (.ok (), state)
  else
    match chain.tree[id]? with
    | none => (.err .orphanBlock, state)
    | some node =>
      match Block.decode node.encoded with
      | none => (.err .badTxRoot, state)
      | some block => applyBlockState chain.workers block state

/-- Rebuild the ledger by replaying a path, genesis first. -/
def rebuildState (chain : Blockchain S) (path : List Bytes32) :
    Outcome ChainError (Ledger S.toCryptoSuite) :=
  match genesisState chain.premine chain.publicPremine with
  | none => .panicked
  | some state =>
    match Transition.each chain.replayBlock path state with
    | (.ok _, state) => .ok state.flush
    | (.err e, _) => .err e
    | (.panicked, _) => .panicked

/-- Append a block to the block log. The store reports no failure. -/
def persist (chain : Blockchain S) (block : Block S) (encoded : Bytes) : Blockchain S :=
  { chain with
    disk := chain.disk.map fun disk ↦
      { disk with store := disk.store.append block.id encoded block.txs } }

/-! ### Blocks -/

/-- The structural and proof-of-work rules of a block against its parent, with the node that it
makes. -/
def validate (parent : TreeNode) (block : Block S) : Outcome ChainError TreeNode :=
  match checkedAdd parent.height 1 with
  | none => .panicked
  | some height =>
    if block.header.height ≠ height then .err .badHeight
    else if block.header.txRoot ≠ txRoot S block.txs then .err .badTxRoot
    else if ¬ meetsDifficulty block.id parent.childDifficulty then .err .badPow
    else
      match block.txs.forM (checkTx S) with
      | .error e => .err e
      | .ok _ =>
        .ok
          { encoded := block.encode
            header := block.header
            height := block.header.height
            childDifficulty := retarget parent.childDifficulty
              (block.header.timestamp - min block.header.timestamp parent.header.timestamp)
            childDifficulty_pos := retarget_pos _ _
            cumWork := parent.cumWork + parent.childDifficulty.toNat }

/-- Stage the boot anchor of the active block, for it to be committed with the ledger. -/
def stageAnchor (chain : Blockchain S) : Blockchain S :=
  { chain with
    disk := chain.disk.map fun disk ↦
      { disk with stateAnchor := some (anchorBytes chain.activeHeight chain.activeTip) } }

/-- The chain after a block on the active tip, with the ledger that the block leads to. -/
def extended (chain : Blockchain S) (block : Block S) (node : TreeNode)
    (next : Ledger S.toCryptoSuite) : Blockchain S :=
  let chain := chain.persist block node.encoded
  let chain := noteValidatorSet
    { chain with
      tree := chain.tree.insert block.id node
      activeState := next
      activeTip := block.id
      activeHeight := block.header.height
      activeChain := chain.activeChain ++ [block.id] }
  let chain := chain.stageAnchor
  { chain with activeState := chain.activeState.flush }

/-- A block on the active tip: apply it to the ledger. -/
def extendTip (block : Block S) (node : TreeNode) : Transition ChainError (Blockchain S) :=
  fun chain ↦
    match applyBlockState chain.workers block chain.activeState.clone with
    | (.err e, next) =>
      (.err e, { chain with activeState := chain.activeState.withBaseOf next })
    | (.panicked, next) =>
      (.panicked, { chain with activeState := chain.activeState.withBaseOf next })
    | (.ok _, next) => (.ok (), chain.extended block node next)

/-- Whether a path keeps the finalized block. -/
def respectsFinality (chain : Blockchain S) (path : List Bytes32) : Bool :=
  match chain.finalized with
  | none => true
  | some (height, id) => path[height.toNat]? = some id

/-- The chain after a switch to another branch, with the ledger rebuilt along it. The rebuilt ledger
has yet to be moved onto the durable base. -/
def switched (chain : Blockchain S) (block : Block S) (node : TreeNode) (path : List Bytes32)
    (state : Ledger S.toCryptoSuite) : Blockchain S :=
  let chain := chain.persist block node.encoded
  noteValidatorSet
    { chain with
      activeState := state
      activeTip := block.id
      activeHeight := block.header.height
      activeChain := path
      recentSets := [] }

/-- A block that makes another branch the heaviest: rebuild the ledger along it. -/
def reorganize (block : Block S) (node : TreeNode) : Transition ChainError (Blockchain S) :=
  fun chain ↦
    let chain := { chain with tree := chain.tree.insert block.id node }
    let path := chain.pathTo block.id
    if chain.respectsFinality path then
      match chain.rebuildState path with
      | .ok state =>
        match (chain.switched block node path state).rehomeState with
        | none => (.panicked, chain)
        | some chain => (.ok (), chain)
      | .err e => (.err e, { chain with tree := chain.tree.erase block.id })
      | .panicked => (.panicked, chain)
    else (.ok (), chain.persist block node.encoded)

/-- A block off the heaviest branch: keep it. -/
def keepAside (block : Block S) (node : TreeNode) : Transition ChainError (Blockchain S) :=
  fun chain ↦
    let chain := chain.persist block node.encoded
    (.ok (), { chain with tree := chain.tree.insert block.id node })

/-- Cumulative work of the active branch. -/
def activeWork (chain : Blockchain S) : ℕ :=
  (chain.tree[chain.activeTip]?.map TreeNode.cumWork).getD 0

/-- Add a block to the tree, reorganizing to the heaviest branch if that is now another one. -/
def applyBlock (block : Block S) : Transition ChainError (Blockchain S) := fun chain ↦
  if chain.tree.contains block.id then (.ok (), chain)
  else if MAX_TXS_PER_BLOCK < block.txs.length then (.err .tooManyTxs, chain)
  else
    match chain.tree[block.header.prevHash]? with
    | none => (.err .orphanBlock, chain)
    | some parent =>
      match validate parent block with
      | .err e => (.err e, chain)
      | .panicked => (.panicked, chain)
      | .ok node =>
        if block.header.prevHash = chain.activeTip then extendTip block node chain
        else if chain.activeWork < node.cumWork then reorganize block node chain
        else keepAside block node chain

/-! ### Finality -/

/-- The recorded validator set of an active height. -/
def validatorSetAt (chain : Blockchain S) (height : UInt64) : Option ValidatorSet :=
  (chain.recentSets.reverse.find? fun entry ↦ entry.1 = height).map Prod.snd

/-- Adopt a finality certificate. Says whether the watermark advanced. -/
def tryFinalize (chain : Blockchain S) (cert : Certificate) : Bool × Blockchain S :=
  if chain.finalized.any fun watermark ↦ cert.height ≤ watermark.1 then (false, chain)
  else if chain.activeChain[cert.height.toNat]? ≠ some cert.blockId then (false, chain)
  else
    match chain.validatorSetAt cert.height with
    | none => (false, chain)
    | some set =>
      if cert.verify S.toCryptoSuite set then
        (true,
          { chain with
            finalized := some (cert.height, cert.blockId)
            disk := chain.disk.map fun disk ↦
              { disk with
                finalityAnchor := some
                  (u64Le cert.height ++ bytesOf32 cert.blockId ++ cert.encode) } })
      else (false, chain)

/-- One call of a running node that returns. -/
inductive Step : Blockchain S → Blockchain S → Prop where
  | applyOk {chain chain' : Blockchain S} (block : Block S) :
    applyBlock block chain = (.ok (), chain') → Step chain chain'
  | applyErr {chain chain' : Blockchain S} (block : Block S) (e : ChainError) :
    applyBlock block chain = (.err e, chain') → Step chain chain'
  | tryFinalize (chain : Blockchain S) (cert : Certificate) :
    Step chain (chain.tryFinalize cert).2

/-- The chains of one running node, one after another. -/
abbrev Later : Blockchain S → Blockchain S → Prop := Relation.ReflTransGen Step

/-- The chains that a node can have, from its genesis parameters on, in memory or over a new
database. -/
inductive Reachable (workers : ℕ) (premine publicPremine : List (Bytes32 × UInt64))
    (difficulty : UInt64) : Blockchain S → Prop where
  | genesis {chain : Blockchain S} :
    genesisWithPublic workers premine publicPremine difficulty = some chain →
      Reachable workers premine publicPremine difficulty chain
  | openNew {chain : Blockchain S} :
    openNew workers premine publicPremine difficulty = some chain →
      Reachable workers premine publicPremine difficulty chain
  | step {chain chain' : Blockchain S} :
    Reachable workers premine publicPremine difficulty chain → Step chain chain' →
      Reachable workers premine publicPremine difficulty chain'

end Blockchain

end Latebra.Chain
