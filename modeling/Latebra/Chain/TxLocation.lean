import Latebra.Chain.Growth

/-!
# Where a transaction is

The block log of a durable chain says of a transaction which block has it, and at which position.
Every block that a node accepts is written into that index when it arrives, on the active branch or
off it, and a switch to another branch leaves the index as it is. So the index says of a transaction
where it last arrived (`Running.Indexed.located`).

A run of a node is followed together with the blocks that it has accepted. Over a step the index
keeps following the active branch when the block that arrives extends it; when the block is kept
aside and shares no transaction with the active branch; and when the block makes another branch the
active one and everything below it there last arrived on that branch (`Running.KeepsIndex`).
-/

set_option autoImplicit false
set_option relaxedAutoImplicit false

namespace Latebra.Chain

open Foundation Crypto Latebra.Types State

variable {S : ChainSuite}

/-! ### The transaction index -/

/-- Locate a transaction by its hash: the block that contains it, and its position there. -/
def ChainStore.txLocation (store : ChainStore) (hash : Bytes32) : Option (Bytes32 × UInt32) :=
  store.txIndex[hash]?.bind fun value ↦
    if value.length ≠ 36 then none
    else
      (bytes32Of (value.take 32)).bind fun id ↦
        (u32OfLe (value.drop 32)).map fun pos ↦ (id, pos)

/-- Locate a transaction on a durable chain. -/
def Blockchain.txLocation (chain : Blockchain S) (hash : Bytes32) : Option (Bytes32 × UInt32) :=
  chain.disk.bind fun disk ↦ disk.store.txLocation hash

/-- The hashes of the transactions of a block. -/
def Block.txHashes (block : Block S) : List Bytes32 := block.txs.map (txHash S)

theorem txLocation_of_entry {store : ChainStore} {hash id : Bytes32} {pos : ℕ}
    (hpos : pos < 2 ^ 32)
    (hentry : store.txIndex[hash]? = some (bytesOf32 id ++ leBytes 4 pos)) :
    store.txLocation hash = some (id, UInt32.ofNat pos) := by
  have hword : leBytes 4 pos = u32Le (UInt32.ofNat pos) := by
    rw [u32Le, UInt32.toNat_ofNat_of_lt' hpos]
  rw [ChainStore.txLocation, hentry, Option.bind_some, hword]
  simp

/-- What a block writes into the index. -/
def indexEntries (S : ChainSuite) (id : Bytes32) (txs : List (Transaction S.toCryptoSuite)) :
    List (Bytes32 × Bytes) :=
  txs.zipIdx.map fun entry ↦ (txHash S entry.1, bytesOf32 id ++ leBytes 4 entry.2)

theorem txIndex_append (store : ChainStore) (id : Bytes32) (encoded : Bytes)
    (txs : List (Transaction S.toCryptoSuite)) :
    (store.append id encoded txs).txIndex = (indexEntries S id txs).foldl
      (fun index entry ↦ index.insert entry.1 entry.2) store.txIndex := by
  rw [indexEntries, List.foldl_map]
  rfl

theorem keys_indexEntries (id : Bytes32) (txs : List (Transaction S.toCryptoSuite)) :
    (indexEntries S id txs).map Prod.fst = txs.map (txHash S) := by
  calc (indexEntries S id txs).map Prod.fst
      = (txs.zipIdx.map Prod.fst).map (txHash S) := by
        simp only [indexEntries, List.map_map, Function.comp_def]
    _ = txs.map (txHash S) := by rw [List.zipIdx_map_fst]

/-- A block that does not have a transaction leaves its entry as it is. -/
theorem txLocation_append_of_notMem (store : ChainStore) (encoded : Bytes) (block : Block S)
    {hash : Bytes32} (hother : hash ∉ block.txHashes) :
    (store.append block.id encoded block.txs).txLocation hash = store.txLocation hash := by
  have hkeys : hash ∉ (indexEntries S block.id block.txs).map Prod.fst := by
    rw [keys_indexEntries]
    exact hother
  rw [ChainStore.txLocation, txIndex_append, FMap.lookup_foldl_insert_of_notMem _ _ hkeys]
  rfl

/-- A block that has a transaction becomes its location. -/
theorem exists_txLocation_append (store : ChainStore) (encoded : Bytes) {block : Block S}
    (hshort : block.txs.length < 2 ^ 32) {hash : Bytes32} (hmem : hash ∈ block.txHashes) :
    ∃ (pos : UInt32) (tx : Transaction S.toCryptoSuite), block.txs[pos.toNat]? = some tx ∧
      txHash S tx = hash ∧
      (store.append block.id encoded block.txs).txLocation hash = some (block.id, pos) := by
  have hkeys : hash ∈ (indexEntries S block.id block.txs).map Prod.fst := by
    rw [keys_indexEntries]
    exact hmem
  obtain ⟨value, hentry, hlookup⟩ := FMap.exists_lookup_foldl_insert _ store.txIndex hkeys
  rw [← txIndex_append store block.id encoded] at hlookup
  obtain ⟨⟨tx, pos⟩, hat, hpair⟩ := List.mem_map.mp hentry
  obtain ⟨hhash, hvalue⟩ := Prod.mk.inj hpair
  have htx : block.txs[pos]? = some tx := List.mem_zipIdx_iff_getElem?.mp hat
  have hpos : pos < 2 ^ 32 := by
    have hlength := (List.getElem?_eq_some_iff.mp htx).1
    omega
  refine ⟨UInt32.ofNat pos, tx, ?_, hhash, ?_⟩
  · rw [UInt32.toNat_ofNat_of_lt' hpos]
    exact htx
  · apply txLocation_of_entry hpos
    rw [hlookup, ← hvalue]

/-! ### Where a transaction last arrived -/

/-- The block that last arrived with a transaction, in a list of blocks with the newest first. -/
def lastWith (log : List (Block S)) (hash : Bytes32) : Option (Block S) :=
  log.find? fun block ↦ hash ∈ block.txHashes

/-- A transaction last arrived with a block of a branch. -/
def ArrivedOn (log : List (Block S)) (path : List Bytes32) (hash : Bytes32) : Prop :=
  ∃ carrier, lastWith log hash = some carrier ∧ carrier.id ∈ path

/-- Every transaction of a branch last arrived with a block of the branch. -/
def Settled (log : List (Block S)) (path : List Bytes32) : Prop :=
  ∀ other ∈ log, other.id ∈ path → ∀ tx ∈ other.txs, ArrivedOn log path (txHash S tx)

section Arrivals

variable {log : List (Block S)} {path : List Bytes32} {block : Block S} {hash : Bytes32}

theorem lastWith_cons_of_mem (hmem : hash ∈ block.txHashes) :
    lastWith (block :: log) hash = some block :=
  List.find?_cons_of_pos (decide_eq_true hmem)

theorem lastWith_cons_of_notMem (hother : hash ∉ block.txHashes) :
    lastWith (block :: log) hash = lastWith log hash :=
  List.find?_cons_of_neg (by simpa using hother)

theorem mem_of_lastWith {carrier : Block S} (hlast : lastWith log hash = some carrier) :
    carrier ∈ log ∧ hash ∈ carrier.txHashes := by
  constructor
  · exact List.mem_of_find?_eq_some hlast
  · simpa using List.find?_some hlast

theorem arrivedOn_cons_of_mem (hmem : hash ∈ block.txHashes) :
    ArrivedOn (block :: log) path hash ↔ block.id ∈ path := by
  rw [ArrivedOn, lastWith_cons_of_mem hmem]
  constructor
  · rintro ⟨carrier, hsame, hon⟩
    rw [Option.some.inj hsame]
    exact hon
  · intro hon
    exact ⟨block, rfl, hon⟩

theorem arrivedOn_cons_of_notMem (hother : hash ∉ block.txHashes) :
    ArrivedOn (block :: log) path hash ↔ ArrivedOn log path hash := by
  rw [ArrivedOn, lastWith_cons_of_notMem hother, ArrivedOn]

/-- A block that is not known has an id that no block of the log has. -/
def Fresh (log : List (Block S)) (path : List Bytes32) (block : Block S) : Prop :=
  block.id ∉ path ∧ ∀ other ∈ log, other.id ≠ block.id

theorem ArrivedOn.append_of_fresh (hfresh : Fresh log path block) :
    ArrivedOn log (path ++ [block.id]) hash ↔ ArrivedOn log path hash := by
  constructor
  · rintro ⟨carrier, hlast, hon⟩
    refine ⟨carrier, hlast, ?_⟩
    rcases List.mem_append.mp hon with hbefore | hnew
    · exact hbefore
    · exact absurd (List.mem_singleton.mp hnew) (hfresh.2 carrier (mem_of_lastWith hlast).1)
  · rintro ⟨carrier, hlast, hon⟩
    exact ⟨carrier, hlast, List.mem_append_left _ hon⟩

/-- A branch that a new block joins is settled after it exactly when every transaction below the
block is in the block again or last arrived on the branch. -/
theorem settled_join_iff (hfresh : Fresh log path block) :
    Settled (block :: log) (path ++ [block.id]) ↔
      ∀ other ∈ log, other.id ∈ path → ∀ tx ∈ other.txs,
        txHash S tx ∈ block.txHashes ∨ ArrivedOn log path (txHash S tx) := by
  have hjoined : block.id ∈ path ++ [block.id] := List.mem_append_right _ List.mem_cons_self
  constructor
  · intro hsettled other hother hon tx htx
    by_cases hmem : txHash S tx ∈ block.txHashes
    · exact .inl hmem
    · apply Or.inr
      have harrived := hsettled other (List.mem_cons_of_mem _ hother) (List.mem_append_left _ hon)
        tx htx
      rw [arrivedOn_cons_of_notMem hmem] at harrived
      exact (ArrivedOn.append_of_fresh hfresh).mp harrived
  · intro hbelow other hother hon tx htx
    by_cases hmem : txHash S tx ∈ block.txHashes
    · exact (arrivedOn_cons_of_mem hmem).mpr hjoined
    rw [arrivedOn_cons_of_notMem hmem, ArrivedOn.append_of_fresh hfresh]
    rcases List.mem_cons.mp hother with rfl | hlogged
    · exact absurd (List.mem_map_of_mem htx) hmem
    · rcases List.mem_append.mp hon with hbefore | hnew
      · exact (hbelow other hlogged hbefore tx htx).resolve_left hmem
      · exact absurd (List.mem_singleton.mp hnew) (hfresh.2 other hlogged)

/-- A settled branch stays settled with a block on top. -/
theorem Settled.join (hsettled : Settled log path) (hfresh : Fresh log path block) :
    Settled (block :: log) (path ++ [block.id]) :=
  (settled_join_iff hfresh).mpr fun other hother hon tx htx ↦
    .inr (hsettled other hother hon tx htx)

/-- A settled branch stays settled next to a block off it exactly when they share no
transaction. -/
theorem Settled.aside_iff (hsettled : Settled log path) (hfresh : Fresh log path block) :
    Settled (block :: log) path ↔
      ∀ other ∈ log, other.id ∈ path → ∀ tx ∈ other.txs, txHash S tx ∉ block.txHashes := by
  constructor
  · intro hafter other hother hon tx htx hmem
    have harrived := hafter other (List.mem_cons_of_mem _ hother) hon tx htx
    exact hfresh.1 ((arrivedOn_cons_of_mem hmem).mp harrived)
  · intro hapart other hother hon tx htx
    rcases List.mem_cons.mp hother with rfl | hlogged
    · exact absurd hon hfresh.1
    · rw [arrivedOn_cons_of_notMem (hapart other hlogged hon tx htx)]
      exact hsettled other hlogged hon tx htx

end Arrivals

/-! ### What a call does to the index -/

/-- An admitted block has no more transactions than a position can count. -/
theorem Blockchain.Admitted.length_txs_lt {chain : Blockchain S} {block : Block S} {node : TreeNode}
    (hadmitted : chain.Admitted block node) : block.txs.length < 2 ^ 32 := by
  obtain ⟨parent, -, hchild⟩ := hadmitted.parent
  have hshort := not_lt.mp (childNode_eq_some.mp hchild).1
  calc block.txs.length
      ≤ MAX_TXS_PER_BLOCK := hshort
    _ < 2 ^ 32 := by decide

/-- The rules make one node of an admitted block. -/
theorem Blockchain.Admitted.unique {chain : Blockchain S} {block : Block S} {node other : TreeNode}
    (hadmitted : chain.Admitted block node) (hother : chain.Admitted block other) : node = other := by
  obtain ⟨parent, hparent, hchild⟩ := hadmitted.parent
  obtain ⟨parent', hparent', hchild'⟩ := hother.parent
  obtain rfl := Option.some.inj (hparent.symm.trans hparent')
  exact Option.some.inj (hchild.symm.trans hchild')

/-- Whether a block off the active tip makes its branch the active one. -/
def Blockchain.Prevails (chain : Blockchain S) (block : Block S) (node : TreeNode) : Prop :=
  chain.activeWork < node.cumWork ∧
    chain.respectsFinality (chain.pathTo block.header.prevHash ++ [block.id]) = true

/-- The block log and the active branch after a new block. -/
structure Blockchain.Arrives (chain : Blockchain S) (block : Block S) (path : List Bytes32)
    (chain' : Blockchain S) : Prop where
  tree : ∃ node, chain'.tree = chain.tree.insert block.id node
  genesisId : chain'.genesisId = chain.genesisId
  index : ∃ encoded, chain'.disk.map Disk.store =
    chain.disk.map fun disk ↦ disk.store.append block.id encoded block.txs
  path : chain'.activeChain = path

section Calls

variable {genesis : TreeNode} {chain chain' : Blockchain S} {v : (blockRules S genesis).View}
  {block : Block S} {node : TreeNode}

/-- The path to a new block is the path to its parent and the block. -/
theorem Tracks.pathTo_parent (h : Tracks chain v) (hzero : genesis.height = 0)
    {branch : List (Block S)} (hparent : v.known block.header.prevHash = some branch) :
    chain.pathTo block.header.prevHash = (blockRules S genesis).path branch := by
  have htip := h.formed.eq_tip hparent
  rw [htip]
  rw [htip] at hparent
  exact h.pathTo_eq h.formed.toClosed hzero hparent

theorem map_store_rehomeState (hmoved : chain.rehomeState = some chain') :
    chain'.disk.map Disk.store = chain.disk.map Disk.store := by
  unfold Blockchain.rehomeState at hmoved
  split at hmoved
  · rw [← Option.some.inj hmoved]
  · next disk hdisk =>
    obtain ⟨state, -, rfl⟩ := Option.map_eq_some_iff.mp hmoved
    rw [hdisk]
    rfl

theorem map_store_persist (chain : Blockchain S) (block : Block S) (encoded : Bytes) :
    (chain.persist block encoded).disk.map Disk.store =
      chain.disk.map fun disk ↦ disk.store.append block.id encoded block.txs :=
  Option.map_map ..

theorem map_store_tryFinalize (chain : Blockchain S) (cert : Certificate) :
    (chain.tryFinalize cert).2.disk.map Disk.store = chain.disk.map Disk.store := by
  unfold Blockchain.tryFinalize
  split
  · rfl
  split
  · rfl
  split
  · rfl
  split
  · exact Option.map_map ..
  · rfl

/-- The location of a transaction rests on the block log alone. -/
theorem txLocation_congr (hstore : chain'.disk.map Disk.store = chain.disk.map Disk.store)
    (hash : Bytes32) : chain'.txLocation hash = chain.txLocation hash := by
  have hbind : ∀ c : Blockchain S, c.txLocation hash =
      (c.disk.map Disk.store).bind fun store ↦ store.txLocation hash := by
    intro c
    rw [Option.bind_map]
    rfl
  rw [hbind, hbind, hstore]

/-- A new block that is accepted on the active tip joins the active branch. -/
theorem arrives_of_extend (next : Ledger S.toCryptoSuite) :
    chain.Arrives block (chain.activeChain ++ [block.id]) (chain.extended block node next) where
  tree := ⟨node, rfl⟩
  genesisId := rfl
  index := by
    refine ⟨node.encoded, ?_⟩
    rw [← map_store_persist]
    exact Option.map_map ..
  path := rfl

/-- A new block that is accepted off the active tip makes its branch the active one or is kept
aside. -/
theorem Tracks.arrives (h : Tracks chain v) (hzero : genesis.height = 0)
    (hadmitted : chain.Admitted block node) (htip : block.header.prevHash ≠ chain.activeTip)
    (haccepts : chain.Accepts block chain') :
    (chain.Prevails block node ∧
        chain.Arrives block (chain.pathTo block.header.prevHash ++ [block.id]) chain') ∨
      (¬ chain.Prevails block node ∧ chain.Arrives block chain.activeChain chain') := by
  obtain ⟨branch, hparent, hmark⟩ := h.admitted hadmitted
  have hpath : (chain.grown block node).pathTo block.id =
      chain.pathTo block.header.prevHash ++ [block.id] := by
    rw [path_grown h hzero hadmitted hparent hmark, h.pathTo_parent hzero hparent]
    rfl
  cases haccepts with
  | known hknown =>
    have hnew := hadmitted.new
    rw [Std.ExtTreeMap.contains_eq_isSome_getElem?, hnew] at hknown
    exact nomatch hknown
  | extend _ hextends => exact absurd hextends htip
  | switch hother _ hheavier hchosen hfinal _ hmoved =>
    obtain rfl := hadmitted.unique hother
    rw [hpath] at hchosen
    subst hchosen
    left
    refine ⟨⟨hheavier, hfinal⟩, ?_⟩
    obtain ⟨state', disk', hsettled⟩ := rehomeState_eq hmoved
    constructor
    · exact ⟨_, (congrArg Blockchain.tree hsettled :)⟩
    · exact (congrArg Blockchain.genesisId hsettled :)
    · refine ⟨node.encoded, ?_⟩
      rw [map_store_rehomeState hmoved]
      exact map_store_persist (chain.grown block _) block _
    · exact (congrArg Blockchain.activeChain hsettled :)
  | aside hother _ hlight =>
    obtain rfl := hadmitted.unique hother
    rw [hpath] at hlight
    right
    refine ⟨fun hprevails ↦ hlight hprevails.1 hprevails.2, ?_⟩
    constructor
    · exact ⟨_, rfl⟩
    · rfl
    · exact ⟨_, map_store_persist (chain.grown block _) block _⟩
    · rfl

end Calls

/-! ### Runs of a node with the blocks that it has accepted -/

/-- A node, with the blocks that it has accepted, newest first. -/
structure Running (S : ChainSuite) where
  chain : Blockchain S
  log : List (Block S)

/-- A call of a running node that returns. -/
inductive Call (S : ChainSuite) where
  | accepted (block : Block S)
  | refused (block : Block S) (e : ChainError)
  | certified (cert : Certificate)

namespace Running

/-- The node after it has accepted a block. A block that is known changes nothing. -/
def accept (node : Running S) (block : Block S) (chain' : Blockchain S) : Running S where
  chain := chain'
  log := if node.chain.tree.contains block.id then node.log else block :: node.log

/-- What a call does. -/
inductive Does (node : Running S) : Call S → Running S → Prop where
  | accepted {block : Block S} {chain' : Blockchain S} :
    Blockchain.applyBlock block node.chain = (.ok (), chain') →
      Does node (.accepted block) (node.accept block chain')
  | refused {block : Block S} {e : ChainError} {chain' : Blockchain S} :
    Blockchain.applyBlock block node.chain = (.err e, chain') →
      Does node (.refused block e) ⟨chain', node.log⟩
  | certified (cert : Certificate) :
    Does node (.certified cert) ⟨(node.chain.tryFinalize cert).2, node.log⟩

/-- The runs of a node: the calls with the node that each of them finds, and the node after them. -/
inductive Run (start : Running S) : List (Running S × Call S) → Running S → Prop where
  | start : Run start [] start
  | step {calls : List (Running S × Call S)} {call : Call S} {node node' : Running S} :
    Run start calls node → node.Does call node' → Run start (calls ++ [(node, call)]) node'

variable {node node' : Running S}

/-- The index follows the active branch: for every transaction of a block of the branch, its
location is a block of the branch that has it, with its position there. -/
def IndexFollows (node : Running S) : Prop :=
  ∀ block ∈ node.log, block.id ∈ node.chain.activeChain → ∀ tx ∈ block.txs,
    ∃ (carrier : Block S) (pos : UInt32), node.chain.txLocation (txHash S tx) =
        some (carrier.id, pos) ∧
      carrier ∈ node.log ∧ carrier.id ∈ node.chain.activeChain ∧
      carrier.txs[pos.toNat]? = some tx

/-- Whether accepting a block lets the index follow the active branch: a block off the active tip
that makes its branch the active one finds every transaction of that branch last arrived on it, but
for those that it has itself; one that is kept aside has no transaction of the active branch. -/
def KeepsIndexOn (node : Running S) (block : Block S) : Prop :=
  ∀ treeNode, node.chain.Admitted block treeNode →
    block.header.prevHash ≠ node.chain.activeTip →
      (node.chain.Prevails block treeNode →
        ∀ other ∈ node.log, other.id ∈ node.chain.pathTo block.header.prevHash →
          ∀ tx ∈ other.txs, txHash S tx ∈ block.txHashes ∨
            ArrivedOn node.log (node.chain.pathTo block.header.prevHash) (txHash S tx)) ∧
      (¬ node.chain.Prevails block treeNode →
        ∀ other ∈ node.log, other.id ∈ node.chain.activeChain →
          ∀ tx ∈ other.txs, txHash S tx ∉ block.txHashes)

/-- The calls that let the index follow the active branch. -/
def KeepsIndex (node : Running S) : Call S → Prop
  | .accepted block => node.KeepsIndexOn block
  | _ => True

/-- No two transactions that the node has accepted have one hash. -/
def Distinct (node : Running S) : Prop :=
  ∀ block ∈ node.log, ∀ other ∈ node.log, ∀ tx ∈ block.txs, ∀ tx' ∈ other.txs,
    txHash S tx = txHash S tx' → tx = tx'

/-- What holds of every node of a run over a new database. -/
structure Indexed (node : Running S) : Prop where
  tracks : ∃ genesis : TreeNode, genesis.height = 0 ∧
    ∃ v : (blockRules S genesis).View, Tracks node.chain v
  durable : node.chain.disk.isSome
  /-- The blocks of the log are the known ones, but for genesis. -/
  known : ∀ block ∈ node.log, node.chain.tree[block.id]? ≠ none
  logged : ∀ id, node.chain.tree[id]? ≠ none →
    id = node.chain.genesisId ∨ ∃ block ∈ node.log, block.id = id
  /-- The index has the block that a transaction last arrived with. -/
  index : ∀ hash,
    match lastWith node.log hash with
    | none => node.chain.txLocation hash = none
    | some carrier => ∃ (pos : UInt32) (tx : Transaction S.toCryptoSuite),
      carrier.txs[pos.toNat]? = some tx ∧ txHash S tx = hash ∧
        node.chain.txLocation hash = some (carrier.id, pos)

theorem Indexed.located (h : Indexed node) {hash : Bytes32} {carrier : Block S}
    (hlast : lastWith node.log hash = some carrier) :
    ∃ (pos : UInt32) (tx : Transaction S.toCryptoSuite), carrier.txs[pos.toNat]? = some tx ∧
      txHash S tx = hash ∧ node.chain.txLocation hash = some (carrier.id, pos) := by
  have hindex := h.index hash
  rw [hlast] at hindex
  exact hindex

/-- Every id of the active branch is known. -/
theorem Indexed.isSome_of_mem_activeChain (h : Indexed node) {id : Bytes32}
    (hmem : id ∈ node.chain.activeChain) : node.chain.tree[id]? ≠ none := by
  obtain ⟨genesis, -, v, htracks⟩ := h.tracks
  rw [htracks.active] at hmem
  exact htracks.isSome_of_mem_path htracks.formed.active hmem

/-- A transaction that the node has accepted is located at its last arrival. -/
theorem Indexed.arrivedOn_iff (h : Indexed node) (hdistinct : node.Distinct) {block : Block S}
    (hblock : block ∈ node.log) {tx : Transaction S.toCryptoSuite} (htx : tx ∈ block.txs)
    {path : List Bytes32} :
    ArrivedOn node.log path (txHash S tx) ↔
      ∃ (carrier : Block S) (pos : UInt32), node.chain.txLocation (txHash S tx) =
          some (carrier.id, pos) ∧
        carrier ∈ node.log ∧ carrier.id ∈ path ∧ carrier.txs[pos.toNat]? = some tx := by
  constructor
  · rintro ⟨carrier, hlast, hon⟩
    obtain ⟨pos, other, hat, hhash, hlocation⟩ := h.located hlast
    have hcarrier := (mem_of_lastWith hlast).1
    have hsame : other = tx :=
      hdistinct carrier hcarrier block hblock other (List.mem_of_getElem? hat) tx htx hhash
    rw [hsame] at hat
    exact ⟨carrier, pos, hlocation, hcarrier, hon, hat⟩
  · rintro ⟨carrier, pos, hlocation, -, hon, -⟩
    cases hlast : lastWith node.log (txHash S tx) with
    | none =>
      have hindex := h.index (txHash S tx)
      rw [hlast] at hindex
      exact nomatch hlocation.symm.trans hindex
    | some last =>
      obtain ⟨pos', other, -, -, hlocation'⟩ := h.located hlast
      have hid := (Prod.mk.inj (Option.some.inj (hlocation.symm.trans hlocation'))).1
      rw [hid] at hon
      exact ⟨last, hlast, hon⟩

/-- The index follows the active branch exactly when every transaction of the branch last arrived
on it. -/
theorem Indexed.follows_iff (h : Indexed node) (hdistinct : node.Distinct) :
    node.IndexFollows ↔ Settled node.log node.chain.activeChain := by
  constructor
  · intro hfollows block hblock hon tx htx
    exact (h.arrivedOn_iff hdistinct hblock htx).mpr (hfollows block hblock hon tx htx)
  · intro hsettled block hblock hon tx htx
    exact (h.arrivedOn_iff hdistinct hblock htx).mp (hsettled block hblock hon tx htx)

/-- What accepting a new block does. -/
theorem Indexed.arrives (h : Indexed node) {block : Block S} {chain' : Blockchain S}
    {treeNode : TreeNode} (hadmitted : node.chain.Admitted block treeNode)
    (haccepts : node.chain.Accepts block chain') :
    (block.header.prevHash = node.chain.activeTip ∧
        node.chain.Arrives block (node.chain.activeChain ++ [block.id]) chain') ∨
      (block.header.prevHash ≠ node.chain.activeTip ∧ node.chain.Prevails block treeNode ∧
        node.chain.Arrives block (node.chain.pathTo block.header.prevHash ++ [block.id]) chain') ∨
      (block.header.prevHash ≠ node.chain.activeTip ∧ ¬ node.chain.Prevails block treeNode ∧
        node.chain.Arrives block node.chain.activeChain chain') := by
  by_cases htip : block.header.prevHash = node.chain.activeTip
  · left
    refine ⟨htip, ?_⟩
    cases haccepts with
    | known hknown =>
      rw [Std.ExtTreeMap.contains_eq_isSome_getElem?, hadmitted.new] at hknown
      exact nomatch hknown
    | extend _ _ _ => exact arrives_of_extend _
    | switch _ hother => exact absurd htip hother
    | aside _ hother => exact absurd htip hother
  · right
    obtain ⟨genesis, hzero, v, htracks⟩ := h.tracks
    rcases htracks.arrives hzero hadmitted htip haccepts with ⟨hprevails, harrives⟩ | ⟨hlight, harrives⟩
    · exact .inl ⟨htip, hprevails, harrives⟩
    · exact .inr ⟨htip, hlight, harrives⟩

/-- The node with one more block in its log is indexed. -/
theorem Indexed.accept_new (h : Indexed node) {block : Block S} {chain' : Blockchain S}
    {treeNode : TreeNode} {path : List Bytes32}
    (hadmitted : node.chain.Admitted block treeNode) (haccepts : node.chain.Accepts block chain')
    (harrives : node.chain.Arrives block path chain') :
    Indexed ⟨chain', block :: node.log⟩ := by
  obtain ⟨encoded, hstore⟩ := harrives.index
  obtain ⟨grown, htree⟩ := harrives.tree
  have hlookup : ∀ id, chain'.tree[id]? =
      if id = block.id then some grown else node.chain.tree[id]? := by
    intro id
    rw [htree, FMap.lookup_insert]
  have hlocation : ∀ hash, ∃ disk, node.chain.disk = some disk ∧ chain'.txLocation hash =
      (disk.store.append block.id encoded block.txs).txLocation hash := by
    intro hash
    obtain ⟨disk, hdisk⟩ := Option.isSome_iff_exists.mp h.durable
    refine ⟨disk, hdisk, ?_⟩
    rw [hdisk] at hstore
    obtain ⟨disk', hdisk', hsame⟩ := Option.map_eq_some_iff.mp hstore
    rw [Blockchain.txLocation, hdisk']
    show disk'.store.txLocation hash = _
    rw [hsame]
  constructor
  · obtain ⟨genesis, hzero, v, htracks⟩ := h.tracks
    obtain ⟨v', -, htracks', -⟩ := htracks.accepts hzero haccepts
    exact ⟨genesis, hzero, v', htracks'⟩
  · have hsome := congrArg Option.isSome hstore
    rw [Option.isSome_map, Option.isSome_map] at hsome
    exact hsome.trans h.durable
  · intro other hother
    show chain'.tree[other.id]? ≠ none
    rw [hlookup]
    split
    · exact Option.some_ne_none grown
    · next hdiffers =>
      rcases List.mem_cons.mp hother with rfl | hlogged
      · exact absurd rfl hdiffers
      · exact h.known other hlogged
  · intro id hid
    change chain'.tree[id]? ≠ none at hid
    rw [hlookup] at hid
    split at hid
    · next hsame => exact .inr ⟨block, List.mem_cons_self, hsame.symm⟩
    · rcases h.logged id hid with hgenesis | ⟨other, hlogged, hother⟩
      · exact .inl (hgenesis.trans harrives.genesisId.symm)
      · exact .inr ⟨other, List.mem_cons_of_mem _ hlogged, hother⟩
  · intro hash
    obtain ⟨disk, hdisk, hafter⟩ := hlocation hash
    by_cases hmem : hash ∈ block.txHashes
    · rw [lastWith_cons_of_mem hmem]
      obtain ⟨pos, tx, hat, hhash, hlocated⟩ :=
        exists_txLocation_append disk.store encoded hadmitted.length_txs_lt hmem
      exact ⟨pos, tx, hat, hhash, hafter.trans hlocated⟩
    · rw [lastWith_cons_of_notMem hmem]
      have hbefore : chain'.txLocation hash = node.chain.txLocation hash := by
        rw [hafter, txLocation_append_of_notMem _ _ _ hmem, Blockchain.txLocation, hdisk]
        rfl
      show match lastWith node.log hash with
        | none => chain'.txLocation hash = none
        | some carrier => ∃ (pos : UInt32) (tx : Transaction S.toCryptoSuite),
          carrier.txs[pos.toNat]? = some tx ∧ txHash S tx = hash ∧
            chain'.txLocation hash = some (carrier.id, pos)
      rw [hbefore]
      exact h.index hash

/-- A new block is fresh to every branch of known ids. -/
theorem Indexed.fresh (h : Indexed node) {block : Block S} (hnew : node.chain.tree[block.id]? = none)
    {path : List Bytes32} (hpath : ∀ id ∈ path, node.chain.tree[id]? ≠ none) :
    Fresh node.log path block := by
  constructor
  · intro hmem
    exact hpath block.id hmem hnew
  · intro other hlogged hsame
    refine h.known other hlogged ?_
    rw [hsame]
    exact hnew

/-- A certificate leaves the block log and the tree as they are. -/
theorem Indexed.certified (h : Indexed node) (cert : Certificate) :
    Indexed ⟨(node.chain.tryFinalize cert).2, node.log⟩ := by
  have hstore := map_store_tryFinalize node.chain cert
  have htree : (node.chain.tryFinalize cert).2.tree = node.chain.tree ∧
      (node.chain.tryFinalize cert).2.genesisId = node.chain.genesisId := by
    rcases node.chain.tryFinalize_cases cert with hrefused | ⟨-, disk, hadopted⟩
    · rw [hrefused]
      exact ⟨rfl, rfl⟩
    · rw [hadopted]
      exact ⟨rfl, rfl⟩
  constructor
  · obtain ⟨genesis, hzero, v, htracks⟩ := h.tracks
    obtain ⟨v', -, htracks'⟩ := htracks.tryFinalize cert
    exact ⟨genesis, hzero, v', htracks'⟩
  · have hsome := congrArg Option.isSome hstore
    rw [Option.isSome_map, Option.isSome_map] at hsome
    exact hsome.trans h.durable
  · show ∀ block ∈ node.log, (node.chain.tryFinalize cert).2.tree[block.id]? ≠ none
    rw [htree.1]
    exact h.known
  · show ∀ id, (node.chain.tryFinalize cert).2.tree[id]? ≠ none → id = _ ∨ _
    rw [htree.1, htree.2]
    exact h.logged
  · intro hash
    have hindex := h.index hash
    rw [← txLocation_congr hstore hash] at hindex
    exact hindex

theorem accept_known {block : Block S} {chain' : Blockchain S}
    (hknown : node.chain.tree.contains block.id)
    (hrun : Blockchain.applyBlock block node.chain = (.ok (), chain')) :
    node.accept block chain' = node := by
  have hsame : chain' = node.chain := by
    unfold Blockchain.applyBlock at hrun
    rw [if_pos hknown] at hrun
    exact (Prod.mk.inj hrun).2.symm
  rw [accept, if_pos hknown, hsame]

/-- A call keeps a node indexed, and keeps the index following the active branch exactly when the
condition on it holds. -/
theorem Indexed.accept (h : Indexed node) {block : Block S} {chain' : Blockchain S}
    (hrun : Blockchain.applyBlock block node.chain = (.ok (), chain')) :
    Indexed (node.accept block chain') ∧
      ((node.accept block chain').Distinct → node.Distinct → node.IndexFollows →
        ((node.accept block chain').IndexFollows ↔ node.KeepsIndexOn block)) := by
  have haccepts := Blockchain.accepts_of_ok hrun
  by_cases hknown : node.chain.tree.contains block.id
  · rw [accept_known hknown hrun]
    refine ⟨h, fun _ _ hfollows ↦ iff_of_true hfollows fun treeNode hadmitted ↦ ?_⟩
    rw [Std.ExtTreeMap.contains_eq_isSome_getElem?, hadmitted.new] at hknown
    exact nomatch hknown
  have hnew : node.chain.tree[block.id]? = none := by simpa using hknown
  obtain ⟨treeNode, hadmitted⟩ : ∃ treeNode, node.chain.Admitted block treeNode := by
    by_contra hnone
    exact Blockchain.applyBlock_unadmitted hnew (not_exists.mp hnone) hrun
  have hsame : node.accept block chain' = ⟨chain', block :: node.log⟩ := by
    rw [Running.accept, if_neg hknown]
  have hactive := h.fresh hnew fun id hmem ↦ h.isSome_of_mem_activeChain hmem
  rw [hsame]
  rcases h.arrives hadmitted haccepts with ⟨htip, harrives⟩ | ⟨htip, hprevails, harrives⟩ |
    ⟨htip, hlight, harrives⟩
  · have hindexed := h.accept_new hadmitted haccepts harrives
    refine ⟨hindexed, fun hdistinct' hdistinct hfollows ↦ ?_⟩
    rw [hindexed.follows_iff hdistinct']
    rw [h.follows_iff hdistinct] at hfollows
    refine iff_of_true ?_ fun _ _ hother ↦ absurd htip hother
    show Settled (block :: node.log) chain'.activeChain
    rw [harrives.path]
    exact hfollows.join hactive
  · have hindexed := h.accept_new hadmitted haccepts harrives
    refine ⟨hindexed, fun hdistinct' _ _ ↦ ?_⟩
    rw [hindexed.follows_iff hdistinct']
    show Settled (block :: node.log) chain'.activeChain ↔ _
    have hbelow : Fresh node.log (node.chain.pathTo block.header.prevHash) block := by
      obtain ⟨genesis, hzero, v, htracks⟩ := h.tracks
      obtain ⟨branch, hparent, -⟩ := htracks.admitted hadmitted
      apply h.fresh hnew
      rw [htracks.pathTo_parent hzero hparent]
      exact fun id hmem ↦ htracks.isSome_of_mem_path hparent hmem
    rw [harrives.path, settled_join_iff hbelow]
    constructor
    · intro hcondition other hother _
      obtain rfl := hadmitted.unique hother
      exact ⟨fun _ ↦ hcondition, fun hlight ↦ absurd hprevails hlight⟩
    · intro hkeeps
      exact (hkeeps treeNode hadmitted htip).1 hprevails
  · have hindexed := h.accept_new hadmitted haccepts harrives
    refine ⟨hindexed, fun hdistinct' hdistinct hfollows ↦ ?_⟩
    rw [hindexed.follows_iff hdistinct']
    rw [h.follows_iff hdistinct] at hfollows
    show Settled (block :: node.log) chain'.activeChain ↔ _
    rw [harrives.path, hfollows.aside_iff hactive]
    constructor
    · intro hcondition other hother _
      obtain rfl := hadmitted.unique hother
      exact ⟨fun hprevails ↦ absurd hprevails hlight, fun _ ↦ hcondition⟩
    · intro hkeeps
      exact (hkeeps treeNode hadmitted htip).2 hlight

/-- A call only adds to the log. -/
theorem Does.log_subset {call : Call S} (hdoes : node.Does call node') : node.log ⊆ node'.log := by
  cases hdoes with
  | accepted hrun =>
    unfold accept
    split
    · exact List.Subset.refl _
    · exact List.subset_cons_self _ _
  | refused hrun => exact List.Subset.refl _
  | certified cert => exact List.Subset.refl _

theorem Distinct.of_subset (hdistinct : node'.Distinct) (hsubset : node.log ⊆ node'.log) :
    node.Distinct := fun block hblock other hother ↦
  hdistinct block (hsubset hblock) other (hsubset hother)

/-- A call keeps a node indexed. While the index follows the active branch, it does so after the
call exactly when the condition on the call holds. -/
theorem Indexed.does (h : Indexed node) {call : Call S} (hdoes : node.Does call node') :
    Indexed node' ∧ (node'.Distinct → node.IndexFollows →
      (node'.IndexFollows ↔ node.KeepsIndex call)) := by
  have hsubset := hdoes.log_subset
  cases hdoes with
  | accepted hrun =>
    obtain ⟨hindexed, hkeeps⟩ := h.accept hrun
    exact ⟨hindexed, fun hdistinct ↦ hkeeps hdistinct (hdistinct.of_subset hsubset)⟩
  | refused hrun =>
    rw [Blockchain.eq_of_applyBlock_err hrun]
    exact ⟨h, fun _ hfollows ↦ iff_of_true hfollows trivial⟩
  | certified cert =>
    have hindexed := h.certified cert
    refine ⟨hindexed, fun hdistinct hfollows ↦ iff_of_true ?_ trivial⟩
    rw [hindexed.follows_iff hdistinct]
    rw [h.follows_iff (hdistinct.of_subset hsubset)] at hfollows
    show Settled node.log (node.chain.tryFinalize cert).2.activeChain
    rcases node.chain.tryFinalize_cases cert with hrefused | ⟨-, disk, hadopted⟩
    · rw [hrefused]
      exact hfollows
    · rw [hadopted]
      exact hfollows

section Runs

variable {workers : ℕ} {premine publicPremine : List (Bytes32 × UInt64)} {difficulty : UInt64}
  {chain : Blockchain S} {calls : List (Running S × Call S)}

/-- A node over a new database is indexed. -/
theorem indexed_opened
    (hopen : Blockchain.openNew workers premine publicPremine difficulty = some chain) :
    Indexed ⟨chain, []⟩ := by
  obtain ⟨genesis, hgenesis, htracks⟩ := tracks_openNew hopen
  obtain ⟨start, hstart, hrest⟩ := Option.bind_eq_some_iff.mp hopen
  obtain ⟨moved, hmoved, rfl⟩ := Option.map_eq_some_iff.mp hrest
  have hstore : moved.disk.map Disk.store = some Disk.blank.store := map_store_rehomeState hmoved
  constructor
  · exact ⟨genesis, genesisOf_height hgenesis, _, htracks⟩
  · have hsome := congrArg Option.isSome hstore
    rw [Option.isSome_map] at hsome
    exact hsome
  · exact fun block hblock ↦ absurd hblock List.not_mem_nil
  · intro id hid
    obtain ⟨node, hnode⟩ := Option.ne_none_iff_exists'.mp hid
    obtain ⟨branch, hknown, -⟩ := htracks.node hnode
    left
    rw [(TreeRules.View.start_known hknown).1]
    exact htracks.genesisId.symm
  · intro hash
    show Blockchain.txLocation _ hash = none
    have hblank : ∀ c : Blockchain S, c.disk.map Disk.store = some Disk.blank.store →
        c.txLocation hash = none := by
      intro c hc
      obtain ⟨disk, hdisk, hsame⟩ := Option.map_eq_some_iff.mp hc
      rw [Blockchain.txLocation, hdisk, Option.bind_some, hsame]
      rfl
    exact hblank _ hstore

theorem Run.indexed
    (hopen : Blockchain.openNew workers premine publicPremine difficulty = some chain)
    (hrun : Run ⟨chain, []⟩ calls node) : Indexed node := by
  induction hrun with
  | start => exact indexed_opened hopen
  | step _ hdoes ih => exact (ih.does hdoes).1

/-- Over a run from a new database, the index follows the active branch all the way exactly when
every call lets it. -/
theorem txLocation_follows_iff
    (hopen : Blockchain.openNew workers premine publicPremine difficulty = some chain)
    (hrun : Run ⟨chain, []⟩ calls node) (hdistinct : node.Distinct) :
    ((∀ entry ∈ calls, entry.1.IndexFollows) ∧ node.IndexFollows) ↔
      ∀ entry ∈ calls, entry.1.KeepsIndex entry.2 := by
  induction hrun with
  | start =>
    refine iff_of_true ⟨fun _ hentry ↦ absurd hentry List.not_mem_nil, ?_⟩ fun _ hentry ↦
      absurd hentry List.not_mem_nil
    exact fun block hblock ↦ absurd hblock List.not_mem_nil
  | @step node node' calls call hbefore hdoes ih =>
    have hearlier := ih (hdistinct.of_subset hdoes.log_subset)
    have hstep := ((hbefore.indexed hopen).does hdoes).2 hdistinct
    simp only [List.mem_append, List.mem_singleton, or_imp, forall_and, forall_eq]
    constructor
    · rintro ⟨⟨hfollows, hnode⟩, hnode'⟩
      exact ⟨hearlier.mp ⟨hfollows, hnode⟩, (hstep hnode).mp hnode'⟩
    · rintro ⟨hkeeps, hcall⟩
      obtain ⟨hfollows, hnode⟩ := hearlier.mpr hkeeps
      exact ⟨⟨hfollows, hnode⟩, (hstep hnode).mpr hcall⟩

end Runs

end Running

/-! ### A transaction on two branches -/

/-- Another first block with the transaction of `stakeBlock`. -/
def rivalBlock : Block rootlessSuite where
  header := { stakeBlock.header with timestamp := GENESIS_TIMESTAMP + 1 }
  txs := stakeBlock.txs

theorem rivalBlock_facts :
    (childNode (Blockchain.genesisNode rootlessSuite 0 1) stakeBlock).map TreeNode.cumWork = some 1 ∧
    (childNode (Blockchain.genesisNode rootlessSuite 0 1) rivalBlock).map TreeNode.cumWork = some 1 ∧
    rivalBlock.id ≠ stakeBlock.id ∧
    rivalBlock.id ≠ (Blockchain.genesisHeader 0).id rootlessSuite := by
  decide +kernel

/-- A node is given the first block on the tip, and then its rival. -/
theorem exists_rival_run : ∃ (chain : Blockchain rootlessSuite)
    (calls : List (Running rootlessSuite × Call rootlessSuite)) (node : Running rootlessSuite),
    Blockchain.openNew 1 [] stakerPremine 1 = some chain ∧ Running.Run ⟨chain, []⟩ calls node ∧
    node.log = [rivalBlock, stakeBlock] ∧
    node.chain.activeChain = [(Blockchain.genesisHeader 0).id rootlessSuite, stakeBlock.id] := by
  obtain ⟨hokBlock, -, -, -, hother⟩ := stakeBlock_facts
  obtain ⟨hstake, hrival, hrivalOther, hrivalGenesis⟩ := rivalBlock_facts
  obtain ⟨stakeNode, hstakeNode, hstakeWork⟩ := Option.map_eq_some_iff.mp hstake
  obtain ⟨rivalNode, hrivalNode, hrivalWork⟩ := Option.map_eq_some_iff.mp hrival
  obtain ⟨chain, hopen, htree, htip, hpath, hview⟩ : ∃ chain : Blockchain rootlessSuite,
      Blockchain.openNew 1 [] stakerPremine 1 = some chain ∧ _ :=
    exists_openNew (fun _ ↦ rfl) rootlessSuite_collisionFree genesisState_staker
  have hgenesis : chain.tree[(Blockchain.genesisHeader 0).id rootlessSuite]? =
      some (Blockchain.genesisNode rootlessSuite 0 1) := by
    rw [htree]
    exact (FMap.lookup_insert ..).trans (if_pos rfl)
  have hadmitted : chain.Admitted stakeBlock stakeNode := by
    refine ⟨?_, Blockchain.genesisNode rootlessSuite 0 1, hgenesis, hstakeNode⟩
    rw [htree]
    exact (FMap.lookup_insert ..).trans (if_neg hother)
  have hruns : LedgerState.Runs (blockProgram stakeBlock.txs 0 1) chain.activeState.view ()
      ((blockProgram stakeBlock.txs 0 1).run LedgerState.handler stakerObjects).2 := by
    rw [hview]
    exact LedgerState.runs_of_ok hokBlock
  obtain ⟨next, happlied, -⟩ := Blockchain.applies_of_runs (fun _ ↦ rfl)
    rootlessSuite_collisionFree (grounded_of_reachable (.openNew hopen)) rfl hruns
  have hrun := hadmitted.extends htip.symm happlied
  obtain ⟨chain₁, hchain₁⟩ : ∃ chain₁, chain₁ = chain.extended stakeBlock stakeNode next := ⟨_, rfl⟩
  rw [← hchain₁] at hrun
  have htree₁ : ∀ id, chain₁.tree[id]? =
      if id = stakeBlock.id then some stakeNode else chain.tree[id]? := by
    intro id
    rw [hchain₁]
    exact FMap.lookup_insert ..
  have htip₁ : chain₁.activeTip = stakeBlock.id := by
    rw [hchain₁]
    rfl
  have hpath₁ : chain₁.activeChain =
      [(Blockchain.genesisHeader 0).id rootlessSuite, stakeBlock.id] := by
    rw [hchain₁]
    show chain.activeChain ++ [stakeBlock.id] = _
    rw [hpath]
    rfl
  have hadmitted₁ : chain₁.Admitted rivalBlock rivalNode := by
    refine ⟨?_, Blockchain.genesisNode rootlessSuite 0 1, ?_, hrivalNode⟩
    · rw [htree₁, if_neg hrivalOther, htree]
      exact (FMap.lookup_insert ..).trans (if_neg hrivalGenesis)
    · show chain₁.tree[(Blockchain.genesisHeader 0).id rootlessSuite]? = _
      rw [htree₁, if_neg hother.symm, hgenesis]
  have hrun₁ : Blockchain.applyBlock rivalBlock chain₁ =
      (.ok (), { chain₁.persist rivalBlock rivalNode.encoded with
        tree := chain₁.tree.insert rivalBlock.id rivalNode }) := by
    have hoff : rivalBlock.header.prevHash ≠ chain₁.activeTip := by
      rw [htip₁]
      exact hother.symm
    have hlight : ¬ chain₁.activeWork < rivalNode.cumWork := by
      rw [Blockchain.activeWork, htip₁, htree₁, if_pos rfl, Option.map_some, Option.getD_some,
        hstakeWork, hrivalWork]
      exact lt_irrefl 1
    rw [Blockchain.applyBlock_admitted hadmitted₁, if_neg hoff, if_neg hlight]
    rfl
  have hlog : ((Running.mk chain []).accept stakeBlock chain₁) = ⟨chain₁, [stakeBlock]⟩ := by
    have hnew : ¬ chain.tree.contains stakeBlock.id := by simpa using hadmitted.new
    rw [Running.accept, if_neg hnew]
  have hlog₁ : ∀ chain₂, (Running.mk chain₁ [stakeBlock]).accept rivalBlock chain₂ =
      ⟨chain₂, [rivalBlock, stakeBlock]⟩ := by
    intro chain₂
    have hnew : ¬ chain₁.tree.contains rivalBlock.id := by simpa using hadmitted₁.new
    rw [Running.accept, if_neg hnew]
  have hfirst : Running.Does ⟨chain, []⟩ (.accepted stakeBlock)
      ((Running.mk chain []).accept stakeBlock chain₁) := .accepted hrun
  rw [hlog] at hfirst
  have hsecond : Running.Does ⟨chain₁, [stakeBlock]⟩ (.accepted rivalBlock)
      ((Running.mk chain₁ [stakeBlock]).accept rivalBlock _) := .accepted hrun₁
  rw [hlog₁] at hsecond
  exact ⟨chain, _, _, hopen, (Running.Run.start.step hfirst).step hsecond, rfl, hpath₁⟩

theorem rival_distinct {node : Running rootlessSuite} (hlog : node.log = [rivalBlock, stakeBlock]) :
    node.Distinct := by
  have hone : ∀ block ∈ node.log, ∀ tx ∈ block.txs, tx = .stake 5 100000000 0 5 := by
    rw [hlog]
    intro block hblock tx htx
    have hsame : block.txs = [.stake 5 100000000 0 5] := by
      rcases List.mem_cons.mp hblock with rfl | hrest
      · rfl
      · rw [List.mem_singleton.mp hrest]
        rfl
    rw [hsame] at htx
    exact List.mem_singleton.mp htx
  intro block hblock other hother tx htx tx' htx' _
  rw [hone block hblock tx htx, hone other hother tx' htx']

theorem txLocation_follows_iff_rival :
    ∃ (calls : List (Running rootlessSuite × Call rootlessSuite)) (node : Running rootlessSuite),
      node.log = [rivalBlock, stakeBlock] ∧
      (((∀ entry ∈ calls, entry.1.IndexFollows) ∧ node.IndexFollows) ↔
        ∀ entry ∈ calls, entry.1.KeepsIndex entry.2) := by
  obtain ⟨chain, calls, node, hopen, hrun, hlog, -⟩ := exists_rival_run
  exact ⟨calls, node, hlog, Running.txLocation_follows_iff hopen hrun (rival_distinct hlog)⟩

/-- The block that is kept aside takes over the location of a transaction of the active branch. -/
theorem txLocation_off_branch : ∃ (chain : Blockchain rootlessSuite)
    (calls : List (Running rootlessSuite × Call rootlessSuite)) (node : Running rootlessSuite),
    Blockchain.openNew 1 [] stakerPremine 1 = some chain ∧ Running.Run ⟨chain, []⟩ calls node ∧
      node.log = [rivalBlock, stakeBlock] ∧ node.Distinct ∧
      stakeBlock.id ∈ node.chain.activeChain ∧ rivalBlock.id ∉ node.chain.activeChain ∧
      node.chain.txLocation (txHash rootlessSuite (.stake 5 100000000 0 5)) =
        some (rivalBlock.id, 0) ∧
      ¬ node.IndexFollows := by
  obtain ⟨-, -, hrivalOther, hrivalGenesis⟩ := rivalBlock_facts
  obtain ⟨chain, calls, node, hopen, hrun, hlog, hpath⟩ := exists_rival_run
  have hindexed := hrun.indexed hopen
  have hlast : lastWith node.log (txHash rootlessSuite (.stake 5 100000000 0 5)) =
      some rivalBlock := by
    rw [hlog]
    exact lastWith_cons_of_mem List.mem_cons_self
  have hoff : rivalBlock.id ∉ node.chain.activeChain := by
    rw [hpath, List.mem_cons, List.mem_singleton, not_or]
    exact ⟨hrivalGenesis, hrivalOther⟩
  have hon : stakeBlock.id ∈ node.chain.activeChain := by
    rw [hpath]
    simp
  refine ⟨chain, calls, node, hopen, hrun, hlog, rival_distinct hlog, hon, hoff, ?_, ?_⟩
  · obtain ⟨pos, tx, hat, -, hlocation⟩ := hindexed.located hlast
    have hpos : pos.toNat < 1 := (List.getElem?_eq_some_iff.mp hat).1
    have hzero : pos = 0 := UInt32.toNat_inj.mp (Nat.lt_one_iff.mp hpos)
    rw [hlocation, hzero]
  · intro hfollows
    rw [hindexed.follows_iff (rival_distinct hlog)] at hfollows
    have hstake : stakeBlock ∈ node.log := by
      rw [hlog]
      simp
    obtain ⟨carrier, hcarrier, hcarried⟩ := hfollows stakeBlock hstake hon _ List.mem_cons_self
    rw [hlast] at hcarrier
    rw [← Option.some.inj hcarrier] at hcarried
    exact hoff hcarried

end Latebra.Chain
