import Latebra.Chain.ActiveLedger
import Latebra.State.AccountProofs
import Latebra.State.Histories
import Latebra.Store.OverlayStore

/-!
# Moving a ledger onto another base

After a reorganization the rebuilt ledger is moved onto the durable base (`rehomeOnto`): one ordered
batch deletes what the base held and puts the records and the trie nodes of the ledger, and a fresh
ledger over the base takes over the next token id, the root and the flags.

The compact form of a ledger is what it holds in all layers together. Commands cannot tell a ledger
from it (`forgetting_compact`), so ledgers with one compact form answer alike and react alike. The
cap on the validator set is part of what a ledger holds, and the fresh ledger has the default: that
is all that a move can lose (`InService.rehome_preserves_iff`).
-/

set_option autoImplicit false
set_option relaxedAutoImplicit false

namespace Latebra.State.Ledger

open Foundation Crypto Latebra.Types

variable {C : CryptoSuite} {L L' M : Ledger C}

/-! ### What a ledger holds -/

/-- What a ledger holds in all layers together, with nothing cached. -/
def compact (L : Ledger C) : Ledger C :=
  { L with objects := .new L.objects.merged, nodes := .new L.nodes.get, cache := ∅ }

theorem get_new_merged (objects : OverlayMap Bytes Bytes) (key : Bytes) :
    (OverlayMap.new objects.merged).get key = objects.get key := by
  rw [← OverlayMap.lookup_merged, OverlayMap.merged_new, OverlayMap.lookup_merged]

theorem get_new_nodes (nodes : TrieScheme.Nodes Bytes32 Bytes C.Digest) :
    (NodeOverlay.new nodes : NodeOverlay C).get = nodes := by
  funext hash
  simp [NodeOverlay.new, NodeOverlay.get]

theorem record_compact (L : Ledger C) (key : RecordKey) : L.compact.record key = L.record key :=
  get_new_merged L.objects key.bytes

/-- Ledgers that hold the same have the same compact form. -/
theorem compact_eq (hobjects : L.objects.merged = M.objects.merged)
    (hnodes : L.nodes.get = M.nodes.get) (hroot : L.root = M.root) (hdirty : L.dirty = M.dirty)
    (hnext : L.nextTokenId = M.nextTokenId) (hcap : L.maxValidators = M.maxValidators) :
    L.compact = M.compact := by
  unfold compact
  rw [hobjects, hnodes, hroot, hdirty, hnext, hcap]

@[simp]
theorem compact_clone (L : Ledger C) : L.clone.compact = L.compact := rfl

@[simp]
theorem compact_compact (L : Ledger C) : L.compact.compact = L.compact :=
  compact_eq (OverlayMap.merged_new _) (get_new_nodes _) rfl rfl rfl rfl

@[simp]
theorem compact_putRecord (key : RecordKey) (body : Bytes) :
    (L.compact.putRecord key body).compact = (L.putRecord key body).compact := by
  refine compact_eq ?_ (get_new_nodes _) rfl rfl rfl rfl
  show ((OverlayMap.new L.objects.merged).put key.bytes body).merged =
    (L.objects.put key.bytes body).merged
  rw [OverlayMap.merged_put, OverlayMap.merged_put, OverlayMap.merged_new]

@[simp]
theorem compact_deleteRecord (key : RecordKey) :
    (L.compact.deleteRecord key).compact = (L.deleteRecord key).compact := by
  refine compact_eq ?_ (get_new_nodes _) rfl rfl rfl rfl
  show ((OverlayMap.new L.objects.merged).delete key.bytes).merged =
    (L.objects.delete key.bytes).merged
  rw [OverlayMap.merged_delete, OverlayMap.merged_delete, OverlayMap.merged_new]

@[simp]
theorem compact_cached (id : Bytes32) (a : Account C) : (L.cached id a).compact = L.compact := rfl

theorem decoded_compact {α : Type} (decode : Bytes → Option α) (key : RecordKey) :
    (L.decoded decode key).map (fun answer ↦ (answer.1, answer.2.compact)) =
      (L.compact.decoded decode key).map fun answer ↦ (answer.1, answer.2.compact) := by
  unfold decoded
  rw [record_compact]
  cases L.record key with
  | none => simp
  | some bytes => cases hdecode : decode bytes <;> simp [hdecode]

theorem compact_putRecord_congr (h : L.compact = M.compact) (key : RecordKey) (body : Bytes) :
    (L.putRecord key body).compact = (M.putRecord key body).compact := by
  rw [← compact_putRecord, h, compact_putRecord]

theorem compact_mark (key : DirtyKey) : (L.compact.mark key).compact = (L.mark key).compact :=
  compact_eq (OverlayMap.merged_new _) (get_new_nodes _) rfl rfl rfl rfl

theorem account_compact (hcache : L.cache = ∅) (id : Bytes32) :
    (L.account id).map (fun answer ↦ (answer.1, answer.2.compact)) =
      (L.compact.account id).map fun answer ↦ (answer.1, answer.2.compact) := by
  unfold account
  rw [hcache, show L.compact.cache = ∅ from rfl, FMap.lookup_empty, record_compact]
  cases L.record (.committed (.account id)) with
  | none => simp
  | some bytes => cases hdecode : decodeAccount C bytes <;> simp [hdecode]

theorem putAccount_compact (id : Bytes32) (a : Account C) :
    (L.putAccount id a).map (fun answer ↦ (answer.1, answer.2.compact)) =
      (L.compact.putAccount id a).map fun answer ↦ (answer.1, answer.2.compact) := by
  unfold putAccount
  split
  · simp
  · rfl

theorem putToken_compact (t : TokenMeta) :
    (L.putToken t).map (fun answer ↦ (answer.1, answer.2.compact)) =
      (L.compact.putToken t).map fun answer ↦ (answer.1, answer.2.compact) := by
  unfold putToken
  split
  · simp only [Option.map_some, Option.some.injEq, Prod.mk.injEq, true_and]
    apply compact_putRecord_congr
    apply compact_putRecord_congr
    exact (compact_putRecord _ _).symm
  · rfl

theorem putValidator_compact (id : Bytes32) (v : Validator) :
    (L.putValidator id v).map (fun answer ↦ (answer.1, answer.2.compact)) =
      (L.compact.putValidator id v).map fun answer ↦ (answer.1, answer.2.compact) := by
  unfold putValidator
  split
  · simp
  · split
    · simp
    · rfl

theorem putContract_compact (id : Bytes32) (c : Contract) :
    (L.putContract id c).map (fun answer ↦ (answer.1, answer.2.compact)) =
      (L.compact.putContract id c).map fun answer ↦ (answer.1, answer.2.compact) := by
  unfold putContract
  split
  · simp
  · rfl

theorem putPool_compact (p : Pool) : (L.compact.putPool p).compact = (L.putPool p).compact := by
  unfold putPool
  split <;> simp

theorem putLp_compact (token : UInt32) (provider : Bytes32) (shares : UInt64) :
    (L.compact.putLp token provider shares).compact = (L.putLp token provider shares).compact := by
  unfold putLp
  split <;> simp

/-- What a command that cannot fail replies and does, on a ledger and on its compact form. -/
theorem some_compact {α : Type} {reply reply' : α} (hreply : reply = reply')
    (hsame : M.compact = L.compact) :
    (some (reply, L)).map (fun answer ↦ (answer.1, answer.2.compact)) =
      (some (reply', M)).map fun answer ↦ (answer.1, answer.2.compact) := by
  rw [Option.map_some, Option.map_some, hreply, hsame]

/-- A command does and answers the same on what a ledger without a cache holds. -/
theorem exec_compact (hcache : L.cache = ∅) (c : LedgerCommand C) :
    (handler.exec c L).map (fun answer ↦ (answer.1, answer.2.compact)) =
      (handler.exec c L.compact).map fun answer ↦ (answer.1, answer.2.compact) := by
  have hrecord := record_compact L
  cases c with
  | account id => exact account_compact hcache id
  | putAccount id a => exact putAccount_compact id a
  | tokenById | contract | validator | pool | curve | htlc => exact decoded_compact _ _
  | putToken t => exact putToken_compact t
  | putValidator id v => exact putValidator_compact id v
  | putContract id c => exact putContract_compact id c
  | putPool p => exact some_compact rfl (putPool_compact p)
  | putLp token provider shares => exact some_compact rfl (putLp_compact token provider shares)
  | insertNullifier | putCurve | putHtlc => exact some_compact rfl (compact_putRecord _ _)
  | deleteHtlc => exact some_compact rfl (compact_deleteRecord _)
  | mark key => exact some_compact rfl (compact_mark key)
  | nextTokenId => exact some_compact rfl (compact_compact L)
  | setNextTokenId id =>
    exact some_compact rfl (compact_eq (OverlayMap.merged_new _) (get_new_nodes _) rfl rfl rfl rfl)
  | isRegistered id =>
    apply some_compact _ (compact_compact L)
    rw [hcache, hrecord]
    rfl
  | tickerTaken | hasContract | nullifierSeen =>
    apply some_compact _ (compact_compact L)
    rw [hrecord]
  | lpShares token provider =>
    apply some_compact _ (compact_compact L)
    rw [lpShares, lpShares, hrecord]

theorem setLeaf_compact (key : Bytes32) (value : Option Bytes) :
    (L.setLeaf key value).map compact = (L.compact.setLeaf key value).map compact := by
  have hwrites : L.compact.leafWrites key value = L.leafWrites key value := by
    unfold leafWrites
    rw [show L.compact.nodes.get = L.nodes.get from get_new_nodes _]
    rfl
  unfold setLeaf
  rw [hwrites, Option.map_map, Option.map_map]
  congr 1
  funext written
  refine compact_eq (OverlayMap.merged_new _).symm ?_ rfl rfl rfl rfl
  show (L.nodes.write written.2).get = (L.compact.nodes.write written.2).get
  rw [get_write, get_write, show L.compact.nodes.get = L.nodes.get from get_new_nodes _]

theorem Mirrors.exec_compact (hL : L.Mirrors) (c : LedgerCommand C) :
    (handler.exec c L).map (fun answer ↦ (answer.1, answer.2.compact)) =
      (handler.exec c L.compact).map fun answer ↦ (answer.1, answer.2.compact) := by
  have hcache := congrArg (Option.map fun answer : c.Reply × Ledger C ↦
    (answer.1, answer.2.compact)) (hL.exec_clone c)
  simp only [Option.map_map, Function.comp_def, compact_clone] at hcache
  have hclone := @Ledger.exec_compact C L.clone rfl c
  rw [compact_clone] at hclone
  exact hcache.trans hclone

theorem compact_adoptAccountRecord (id : Bytes32) (bytes : Bytes) :
    (L.adoptAccountRecord id bytes).compact = (L.compact.adoptAccountRecord id bytes).compact := by
  refine compact_eq ?_ (get_new_nodes _).symm rfl rfl rfl rfl
  show (L.objects.put _ bytes).merged = ((OverlayMap.new L.objects.merged).put _ bytes).merged
  rw [OverlayMap.merged_put, OverlayMap.merged_put, OverlayMap.merged_new]

theorem compact_flush : L.flush.compact = L.compact := by
  refine compact_eq ?_ ?_ rfl rfl rfl rfl
  · exact OverlayMap.merged_flush _
  · exact get_new_nodes _

theorem compact_settle (L : Ledger C) :
    ({ L with dirty := [] } : Ledger C).compact =
      ({ L.compact with dirty := [] } : Ledger C).compact := by
  apply compact_eq
  · exact (OverlayMap.merged_new _).symm
  · exact (get_new_nodes _).symm
  · rfl
  · rfl
  · rfl
  · rfl

/-- The compact form forgets the layers and the read cache. -/
theorem forgetting_compact : Forgetting (compact : Ledger C → Ledger C) where
  exec _ hL c := hL.exec_compact c
  setLeaf _ key value := setLeaf_compact key value
  mark _ key := (compact_mark key).symm
  adopt _ id bytes := compact_adoptAccountRecord id bytes
  settle L := compact_settle L
  flush L := by rw [compact_flush, compact_flush, compact_compact]
  clone := compact_clone
  dirty _ := rfl
  root _ := rfl
  nextTokenId _ := rfl
  accountRecord L _ := record_compact L _

/-! ### What a ledger answers -/

/-- Two ledgers answer every query alike: the records, what any program reads, the state root, the
account proofs and the validator set with its cap. -/
structure SameAnswers (L M : Ledger C) : Prop where
  records : L.objectRecords = M.objectRecords
  reads : ∀ {α : Type} (program : LedgerM C α),
    (program.run handler L).1 = (program.run handler M).1
  stateRoot : L.stateRoot.map Prod.fst = M.stateRoot.map Prod.fst
  accountProof : ∀ id, (L.accountProof id).map Prod.fst = (M.accountProof id).map Prod.fst
  maxValidators : L.maxValidators = M.maxValidators
  validatorSet : L.validatorSet = M.validatorSet

theorem Twins.objects_merged (htwins : Twins compact L M) :
    L.objects.merged = M.objects.merged := by
  have hobjects : (OverlayMap.new L.objects.merged) = .new M.objects.merged :=
    (congrArg Ledger.objects htwins.same :)
  rw [← OverlayMap.merged_new L.objects.merged, hobjects, OverlayMap.merged_new]

theorem Twins.nodes_get (htwins : Twins compact L M) : L.nodes.get = M.nodes.get := by
  have hnodes : (NodeOverlay.new L.nodes.get : NodeOverlay C) = .new M.nodes.get :=
    (congrArg Ledger.nodes htwins.same :)
  rw [← get_new_nodes L.nodes.get, hnodes, get_new_nodes]

theorem Twins.accountProof (htwins : Twins compact L M) (id : Bytes32) :
    (L.accountProof id).map Prod.fst = (M.accountProof id).map Prod.fst := by
  unfold Ledger.accountProof
  rcases answers_twins forgetting_compact (.account id) L M htwins with
    ⟨hL, hM⟩ | ⟨answer, L₁, M₁, hL, hM, hread⟩
  · rw [show L.account id = none from hL, show M.account id = none from hM]
  · rw [show L.account id = some (answer, L₁) from hL,
      show M.account id = some (answer, M₁) from hM]
    cases answer with
    | none => rfl
    | some acct =>
      simp only [Option.bind_eq_bind, Option.bind_some]
      rcases hread.stateRoot forgetting_compact with
        ⟨hnone, hnone'⟩ | ⟨root, L₂, M₂, hsome, hsome', hafter⟩
      · rw [hnone, hnone']
      · rw [hsome, hsome', Option.bind_some, Option.bind_some, hafter.nodes_get]
        simp only [Option.map_bind]
        rfl

/-- Ledgers that hold the same answer alike. -/
theorem Twins.sameAnswers (htwins : Twins compact L M) : SameAnswers L M where
  records := congrArg (fun objects : FMap Bytes Bytes ↦ objects.toList) htwins.objects_merged
  reads program := (htwins.run forgetting_compact program).1
  stateRoot := by
    rcases htwins.stateRoot forgetting_compact with
      ⟨hnone, hnone'⟩ | ⟨root, L', M', hsome, hsome', -⟩
    · rw [hnone, hnone']
    · rw [hsome, hsome']
      rfl
  accountProof id := htwins.accountProof id
  maxValidators := (congrArg Ledger.maxValidators htwins.same :)
  validatorSet := by
    have hcap : L.maxValidators = M.maxValidators := (congrArg Ledger.maxValidators htwins.same :)
    unfold validatorSet eligible scan
    rw [htwins.objects_merged, hcap]

/-! ### Onto a base -/

/-- A base store: its columns, and apart from them the nodes of the trie column. -/
structure BaseStore (C : CryptoSuite) where
  columns : Store.MemStore
  nodes : TrieScheme.Nodes Bytes32 Bytes C.Digest

/-- The mutations of the columns in one ordered batch: the records of the base go, those of the
ledger come, and the staged metadata is put. -/
def rehomeBatch (columns : Store.MemStore) (records : List (Bytes × Bytes))
    (staged : List (Bytes × Bytes)) : Store.WriteBatch :=
  (columns.scanPrefix .objects []).map (fun entry ↦ (.objects, entry.1, .delete)) ++
    records.map (fun entry ↦ (.objects, entry.1, .put entry.2)) ++
      staged.map fun entry ↦ (.metaData, entry.1, .put entry.2)

/-- The same of the trie column: the nodes that the base has go, then those of the ledger come. -/
def rehomeNodes (old new : TrieScheme.Nodes Bytes32 Bytes C.Digest) :
    TrieScheme.Nodes Bytes32 Bytes C.Digest := fun hash ↦
  (new hash).or (if (old hash).isSome then none else old hash)

/-- Move the committed state of a ledger onto a base, replacing whatever state the base held. -/
def rehomeOnto (L : Ledger C) (base : BaseStore C) (staged : List (Bytes × Bytes)) :
    Option (Ledger C × BaseStore C) :=
  L.stateRoot.map fun answer ↦
    let L := answer.2.flush
    let base : BaseStore C :=
      { columns := base.columns.write (rehomeBatch base.columns L.objectRecords staged)
        nodes := rehomeNodes base.nodes L.nodes.get }
    let fresh := withStore (base.columns.cols .objects) base.nodes
    ({ fresh with nextTokenId := L.nextTokenId, root := L.root, dirty := L.dirty }, base)

/-- Override the cap on the validator set. A cap of zero is a panic. -/
def setMaxValidators (L : Ledger C) (n : ℕ) : Option (Ledger C) :=
  if 0 < n then some { L with maxValidators := n } else none

theorem lookup_foldl_delete (entries : List (Bytes × Bytes)) (column : FMap Bytes Bytes)
    (key : Bytes) :
    (entries.foldl (fun column entry ↦ column.erase entry.1) column)[key]? =
      if key ∈ entries.map Prod.fst then none else column[key]? := by
  induction entries generalizing column with
  | nil => rfl
  | cons entry rest ih =>
    rw [List.foldl_cons, ih, FMap.lookup_erase, List.map_cons]
    by_cases hrest : key ∈ rest.map Prod.fst <;> by_cases hkey : key = entry.1 <;>
      simp [hrest, hkey]

/-- Deleting every key of a column leaves nothing. -/
theorem foldl_delete_all (column : FMap Bytes Bytes) :
    column.toList.foldl (fun column entry ↦ column.erase entry.1) column = ∅ := by
  refine FMap.ext fun key ↦ ?_
  rw [lookup_foldl_delete, FMap.lookup_empty]
  by_cases hkey : key ∈ column.toList.map Prod.fst
  · rw [if_pos hkey]
  · rw [if_neg hkey]
    by_contra hsome
    obtain ⟨value, hvalue⟩ := Option.ne_none_iff_exists'.mp hsome
    exact hkey (List.mem_map_of_mem ((FMap.mem_toList column key value).mpr hvalue))

/-- The batch replaces the records of the base. -/
theorem objects_rehomeBatch (columns : Store.MemStore) (records : FMap Bytes Bytes)
    (staged : List (Bytes × Bytes)) :
    (columns.write (rehomeBatch columns records.toList staged)).cols .objects = records := by
  have hfilter : (rehomeBatch columns records.toList staged).filter (fun op ↦ op.1 = .objects) =
      (columns.scanPrefix .objects []).map (fun entry ↦ (.objects, entry.1, .delete)) ++
        records.toList.map fun entry ↦ (.objects, entry.1, .put entry.2) := by
    rw [rehomeBatch, List.filter_append, List.filter_append]
    simp [List.filter_map, Function.comp_def]
  rw [Store.OverlayStore.cols_write, hfilter, List.foldl_append, List.foldl_map, List.foldl_map,
    Store.MemStore.scanPrefix, FMap.scanPrefix_nil]
  show records.toList.foldl (fun column entry ↦ column.insert entry.1 entry.2)
    ((columns.cols .objects).toList.foldl (fun column entry ↦ column.erase entry.1)
      (columns.cols .objects)) = records
  rw [foldl_delete_all]
  exact FMap.ofEntries_toList records

theorem rehomeNodes_eq (old new : TrieScheme.Nodes Bytes32 Bytes C.Digest) :
    rehomeNodes old new = new := by
  funext hash
  unfold rehomeNodes
  cases hold : old hash <;> simp

/-- The ledger over a base of its own, with what another one holds but its cap. -/
def rehomed (M : Ledger C) : Ledger C :=
  { withStore M.objects.merged M.nodes.get with
    nextTokenId := M.nextTokenId
    root := M.root
    dirty := M.dirty }

/-- Whatever the base held, it ends with the records and the nodes of the ledger, and the ledger
that is returned lives over them. -/
theorem rehomeOnto_eq {root : C.Digest} (hroot : L.stateRoot = some (root, M))
    (base : BaseStore C) (staged : List (Bytes × Bytes)) :
    L.rehomeOnto base staged = some (M.rehomed,
      ⟨base.columns.write (rehomeBatch base.columns M.objectRecords staged), M.nodes.get⟩) := by
  have hrecords : M.flush.objectRecords = M.objectRecords :=
    congrArg (fun objects : FMap Bytes Bytes ↦ objects.toList) (OverlayMap.merged_flush M.objects)
  have hnodes : M.flush.nodes.get = M.nodes.get := get_new_nodes M.nodes.get
  unfold rehomeOnto
  rw [hroot, Option.map_some]
  simp only [hrecords, hnodes, rehomeNodes_eq]
  rw [show M.objectRecords = M.objects.merged.toList from rfl, objects_rehomeBatch]
  rfl

/-- The move of a ledger that a chain makes is the move onto its base. -/
theorem rehome_eq_rehomeOnto (L : Ledger C) (base : BaseStore C) (staged : List (Bytes × Bytes)) :
    L.rehome = (L.rehomeOnto base staged).map Prod.fst := by
  cases hroot : L.stateRoot with
  | none => rw [rehome, rehomeOnto, hroot, Option.map_none, Option.map_none, Option.map_none]
  | some answer =>
    rw [rehomeOnto_eq hroot, rehome, hroot]
    rfl

/-! ### The ledgers of a node -/

/-- The ledgers that a node can come to hold, when it may override the cap at any time and move a
ledger onto any base. -/
inductive InService : Ledger C → Prop where
  | new : InService new
  | step {L L' : Ledger C} (op : LedgerOp C) : InService L → L.step op = some L' → InService L'
  | setMaxValidators {L L' : Ledger C} (n : ℕ) : InService L → L.setMaxValidators n = some L' →
    InService L'
  | rehome {L L' : Ledger C} (base base' : BaseStore C) (staged : List (Bytes × Bytes)) :
    InService L → L.rehomeOnto base staged = some (L', base') → InService L'

theorem Grounded.setMaxValidators (hL : L.Grounded) {n : ℕ}
    (hset : L.setMaxValidators n = some L') : L'.Grounded := by
  obtain ⟨-, heq⟩ := Option.ite_none_right_eq_some.mp hset
  rw [← Option.some.inj heq]
  exact ⟨⟨hL.formed.records, hL.formed.cache⟩, hL.objects, hL.stored⟩

theorem Grounded.step (hL : L.Grounded) {op : LedgerOp C} (hstep : L.step op = some L') :
    L'.Grounded := by
  obtain ⟨hformed, hobjects⟩ := hL.formed.step hL.objects.sharesBacked hstep
  refine ⟨hformed, ?_, fun hfree ↦ ?_⟩
  · rcases hobjects with hmoved | hsame
    · exact hL.objects.step hmoved
    · rw [hsame]
      exact hL.objects
  · obtain ⟨content, htree⟩ := hL.stored hfree
    exact hL.formed.stored_step hfree htree hstep

theorem InService.grounded (hL : L.InService) : L.Grounded := by
  induction hL with
  | new => exact Reachable.grounded .refl
  | step op _ hstep ih => exact ih.step hstep
  | setMaxValidators n _ hset ih => exact ih.setMaxValidators hset
  | rehome base base' staged _ hmove ih =>
    apply ih.rehome
    rw [rehome_eq_rehomeOnto _ base staged, hmove]
    rfl

/-! ### Reactions that no flag matters to -/

/-- What the programs of a ledger can read: the records and the next token id. -/
def readArea : Set Coord := { i | (∃ key, i = .record key) ∨ i = .nextTokenId }

theorem reads_subset_readArea (c : LedgerCommand C) : c.reads ⊆ readArea := by
  cases c <;> simp [LedgerCommand.reads, readArea]

theorem AgreeOn.run {α : Type} (h : AgreeOn readArea L M) (program : LedgerM C α) :
    (program.run handler L).1 = (program.run handler M).1 ∧
      AgreeOn readArea (program.run handler L).2 (program.run handler M).2 :=
  run_agree (program.uses_true.mono fun c _ ↦ reads_subset_readArea c) h

theorem AgreeOn.objects_merged (h : AgreeOn readArea L M) :
    L.objects.merged = M.objects.merged := by
  refine FMap.ext fun key ↦ ?_
  rw [OverlayMap.lookup_merged, OverlayMap.lookup_merged]
  exact Sum.inl.inj (h.agree (.record key) (.inl ⟨key, rfl⟩))

theorem AgreeOn.nextTokenId (h : AgreeOn readArea L M) : L.nextTokenId = M.nextTokenId :=
  UInt32.toNat_inj.mp (Sum.inr.inj (h.agree .nextTokenId (.inr rfl)))

/-- Ledgers with the same records and the same next token id. -/
theorem agreeOn_readArea (hL : L.WellFormed) (hM : M.WellFormed)
    (hobjects : L.objects.merged = M.objects.merged) (hnext : L.nextTokenId = M.nextTokenId) :
    AgreeOn readArea L M := by
  refine ⟨hL, hM, fun i hi ↦ ?_⟩
  rcases hi with ⟨key, rfl⟩ | rfl
  · show Sum.inl _ = Sum.inl _
    rw [← OverlayMap.lookup_merged, hobjects, OverlayMap.lookup_merged]
  · show Sum.inr _ = Sum.inr _
    rw [hnext]

theorem objects_markAll (L : Ledger C) (keys : List DirtyKey) :
    (L.markAll keys).objects = L.objects ∧ (L.markAll keys).nextTokenId = L.nextTokenId := by
  induction keys generalizing L with
  | nil => exact ⟨rfl, rfl⟩
  | cons key rest ih => exact ih (L.mark key)

/-- A transaction ends alike on ledgers with the same records and the same next token id. -/
theorem alike_applyAtWith (tx : Transaction C) (height : UInt64) (pre : Option (ProofPass C)) :
    Transition.Alike (AgreeOn readArea) (fun L : Ledger C ↦ L.applyAtWith tx height pre)
      (fun L : Ledger C ↦ L.applyAtWith tx height pre) := by
  intro L M hagree
  obtain ⟨houtcome, hends⟩ := hagree.run (applyInner tx height pre)
  rcases hL : (applyInner tx height pre).run handler L with ⟨_ | _ | _, L'⟩ <;>
    rcases hM : (applyInner tx height pre).run handler M with ⟨_ | _ | _, M'⟩ <;>
    simp only [hL, hM, reduceCtorEq, Outcome.err.injEq] at houtcome hends <;>
    simp only [applyAtWith, hL, hM, true_and]
  · rw [hends.nextTokenId]
    obtain ⟨hobjectsL, hnextL⟩ := objects_markAll L' (dirtyKeysFor M'.nextTokenId tx)
    obtain ⟨hobjectsM, hnextM⟩ := objects_markAll M' (dirtyKeysFor M'.nextTokenId tx)
    apply agreeOn_readArea (hends.left.markAll _).1 (hends.right.markAll _).1
    · rw [hobjectsL, hobjectsM, hends.objects_merged]
    · rw [hnextL, hnextM, hends.nextTokenId]
  · exact ⟨congrArg Outcome.err houtcome, hends⟩
  · exact hends

/-- Transactions at their heights, one after the other. -/
abbrev laterTxs (txs : List (Transaction C × UInt64)) : List (HistoryOp C) :=
  txs.map fun entry ↦ .apply entry.1 entry.2 none

/-- Later transactions end alike on ledgers with the same records and the same next token id, and
leave the same records. -/
theorem AgreeOn.replay (h : AgreeOn readArea L M) (txs : List (Transaction C × UInt64)) :
    (replay (laterTxs txs) L = none ∧ replay (laterTxs txs) M = none) ∨
      ∃ outcomes L' M', Ledger.replay (laterTxs txs) L = some (outcomes, L') ∧
        Ledger.replay (laterTxs txs) M = some (outcomes, M') ∧ AgreeOn readArea L' M' := by
  induction txs generalizing L M with
  | nil => exact .inr ⟨[], L, M, rfl, rfl, h⟩
  | cons entry rest ih =>
    obtain ⟨houtcome, hends⟩ := alike_applyAtWith entry.1 entry.2 none L M h
    rcases hL : L.applyAtWith entry.1 entry.2 none with ⟨outcome, L'⟩
    rcases hM : M.applyAtWith entry.1 entry.2 none with ⟨outcome', M'⟩
    simp only [hL, hM] at houtcome hends
    subst houtcome
    have hstepL : (HistoryOp.apply entry.1 entry.2 none).step L = (outcome, L') := hL
    have hstepM : (HistoryOp.apply entry.1 entry.2 none).step M = (outcome, M') := hM
    by_cases hlives : outcome = .panicked
    · rw [hlives] at hstepL hstepM
      exact .inl ⟨replay_of_panicked hstepL, replay_of_panicked hstepM⟩
    · have hfirst := replay_cons hstepL hlives (laterTxs rest)
      have hsecond := replay_cons hstepM hlives (laterTxs rest)
      rw [laterTxs, List.map_cons, hfirst, hsecond]
      rcases ih hends with ⟨hnone, hnone'⟩ | ⟨outcomes, L₁, M₁, hsome, hsome', hafter⟩
      · left
        rw [hnone, hnone']
        exact ⟨rfl, rfl⟩
      · refine .inr ⟨outcome :: outcomes, L₁, M₁, ?_, ?_, hafter⟩
        · rw [hsome]
          rfl
        · rw [hsome']
          rfl

/-! ### The move -/

theorem WellFormed.mirrors (hL : L.WellFormed) : L.Mirrors := hL.cache

theorem stateRoot_of_clean (hclean : L.dirty = []) : L.stateRoot = some (L.root, L) := by
  rw [stateRoot, if_pos hclean]

theorem accountProof_of_clean (hL : L.WellFormed) (hclean : L.dirty = []) (id : Bytes32) :
    (L.accountProof id).map Prod.fst = match L.view.account id with
      | none => some none
      | some acct => ((Store.Smt.fromRoot L.nodes.get L.root).prove (trieKey C (.account id))).map
          fun proof ↦ some ⟨accountLeafPreimage id acct, proof⟩ := by
  obtain ⟨L₁, hread, -⟩ := hL.account_eq id
  have hclone := clone_of_account hread
  have hdirty : L₁.dirty = [] := (congrArg Ledger.dirty hclone :).trans hclean
  have hnodes : L₁.nodes = L.nodes := (congrArg Ledger.nodes hclone :)
  have hroot : L₁.root = L.root := (congrArg Ledger.root hclone :)
  unfold Ledger.accountProof
  rw [hread]
  cases L.view.account id with
  | none => rfl
  | some acct =>
    simp only [Option.bind_eq_bind, Option.bind_some, stateRoot_of_clean hdirty, hnodes, hroot]
    cases (Store.Smt.fromRoot L.nodes.get L.root).prove (trieKey C (.account id)) <;> rfl

/-- Computing the state root changes no answer. -/
theorem WellFormed.sameAnswers_stateRoot (hL : L.WellFormed) {root : C.Digest}
    (hroot : L.stateRoot = some (root, M)) : SameAnswers M L := by
  obtain ⟨hrootM, hM, hclone⟩ := hL.stateRoot hroot
  have hobjects : M.objects = L.objects := (congrArg Ledger.objects hclone :)
  have hcap : M.maxValidators = L.maxValidators := (congrArg Ledger.maxValidators hclone :)
  have hclean : M.dirty = [] := (congrArg Ledger.dirty hclone :)
  have hagree : AgreeOn readArea M L :=
    agreeOn_readArea hM hL (by rw [hobjects]) (congrArg Ledger.nextTokenId hclone :)
  refine ⟨?_, fun program ↦ (hagree.run program).1, ?_, fun id ↦ ?_, hcap, ?_⟩
  · rw [objectRecords, objectRecords, hobjects]
  · rw [stateRoot_of_clean hclean, hroot, hrootM, Option.map_some]
  · rw [accountProof_of_clean hM hclean, hL.view_stateRoot hroot]
    obtain ⟨L₁, hread, -⟩ := hL.account_eq id
    have htwins : Twins Ledger.clone L₁ L :=
      ⟨clone_of_account hread, hL.mirrors.account hread, hL.mirrors⟩
    unfold Ledger.accountProof
    rw [hread]
    cases L.view.account id with
    | none => rfl
    | some acct =>
      rcases htwins.stateRoot forgetting_clone with ⟨-, hnone⟩ | ⟨_, L₂, M', hsome, hsome', hafter⟩
      · rw [hroot] at hnone
        exact absurd hnone (by simp)
      · rw [hroot] at hsome'
        obtain ⟨rfl, rfl⟩ := Prod.mk.inj (Option.some.inj hsome')
        have hnodes : L₂.nodes = M.nodes := (congrArg Ledger.nodes hafter.same :)
        simp only [Option.bind_eq_bind, Option.bind_some, hsome, hnodes, hrootM]
        cases (Store.Smt.fromRoot M.nodes.get M.root).prove (trieKey C (.account id)) <;> rfl
  · unfold validatorSet eligible scan
    rw [hobjects, hcap]

theorem SameAnswers.trans {N : Ledger C} (hfirst : SameAnswers L M) (hsecond : SameAnswers M N) :
    SameAnswers L N where
  records := hfirst.records.trans hsecond.records
  reads program := (hfirst.reads program).trans (hsecond.reads program)
  stateRoot := hfirst.stateRoot.trans hsecond.stateRoot
  accountProof id := (hfirst.accountProof id).trans (hsecond.accountProof id)
  maxValidators := hfirst.maxValidators.trans hsecond.maxValidators
  validatorSet := hfirst.validatorSet.trans hsecond.validatorSet

/-- Two ledgers react alike: whatever happens to both, both stop, or the outcomes are the same and
so are the answers afterwards. -/
def ReactAlike (L M : Ledger C) : Prop :=
  ∀ ops : List (HistoryOp C), (replay ops L = none ∧ replay ops M = none) ∨
    ∃ outcomes L' M', replay ops L = some (outcomes, L') ∧ replay ops M = some (outcomes, M') ∧
      SameAnswers L' M'

theorem Twins.reactAlike (htwins : Twins compact L M) : ReactAlike L M := by
  intro ops
  rcases htwins.replay_of_effective_eq forgetting_compact (Eq.refl (ops.filter HistoryOp.effective))
    with hstop | ⟨outcomes, L', M', hsome, hsome', hafter⟩
  · exact .inl hstop
  · exact .inr ⟨outcomes, L', M', hsome, hsome', hafter.sameAnswers⟩

/-- The moved ledger is a twin of the one it was moved from exactly when the cap was the default. -/
theorem twins_rehomed (hM : M.Mirrors) (hcap : M.maxValidators = DEFAULT_MAX_VALIDATORS) :
    Twins compact M.rehomed M where
  same := compact_eq (OverlayMap.merged_new _) (get_new_nodes _) rfl rfl rfl hcap.symm
  left := .of_clone M.rehomed
  right := hM

theorem agreeOn_rehomed (hM : M.WellFormed) : AgreeOn readArea M.rehomed M := by
  have hrecord : M.rehomed.record = M.record := by
    funext key
    exact get_new_merged M.objects key.bytes
  refine agreeOn_readArea ⟨?_, ?_⟩ hM (OverlayMap.merged_new _) rfl
  · rw [hrecord]
    exact hM.records
  · intro id a hcached
    rw [show M.rehomed.cache[id]? = none from FMap.lookup_empty id] at hcached
    exact absurd hcached (by simp)

/-- A move onto a base succeeds on every ledger of a node, and whatever the base held, it ends with
exactly the records of the ledger and the nodes of its trie. Every later transaction has the same
outcome and leaves the same records as without the move. The moved ledger answers every query as the
ledger did, and reacts to everything as the ledger with its state root computed, exactly when the
cap on the validator set was the default. -/
theorem InService.rehome_preserves_iff (hfree : C.trie.CollisionFree) (hL : L.InService)
    (base : BaseStore C) (staged : List (Bytes × Bytes)) :
    ∃ root M L' base', L.stateRoot = some (root, M) ∧
      L.rehomeOnto base staged = some (L', base') ∧
      base'.columns.cols .objects = L.objects.merged ∧ base'.nodes = M.nodes.get ∧
      (∀ txs : List (Transaction C × UInt64),
        (replay (laterTxs txs) L' = none ∧ replay (laterTxs txs) L = none) ∨
          ∃ outcomes L₁ L₂, replay (laterTxs txs) L' = some (outcomes, L₁) ∧
            replay (laterTxs txs) L = some (outcomes, L₂) ∧
            L₁.objectRecords = L₂.objectRecords ∧ L₁.nextTokenId = L₂.nextTokenId) ∧
      (SameAnswers L' L ∧ ReactAlike L' M ↔ L.maxValidators = DEFAULT_MAX_VALIDATORS) := by
  obtain ⟨hformed, -, hstored⟩ := hL.grounded
  obtain ⟨content, htree⟩ := hstored hfree
  obtain ⟨M, hroot, -⟩ := hformed.stateRoot_content hfree htree
  obtain ⟨-, hM, hclone⟩ := hformed.stateRoot hroot
  have hobjects : M.objects = L.objects := (congrArg Ledger.objects hclone :)
  have hcap : M.maxValidators = L.maxValidators := (congrArg Ledger.maxValidators hclone :)
  have hnext : M.nextTokenId = L.nextTokenId := (congrArg Ledger.nextTokenId hclone :)
  refine ⟨M.root, M, _, _, hroot, rehomeOnto_eq hroot base staged, ?_, rfl, fun txs ↦ ?_, ?_⟩
  · rw [← hobjects]
    exact objects_rehomeBatch base.columns M.objects.merged staged
  · have hagree := agreeOn_rehomed hM
    have hsame : AgreeOn readArea M.rehomed L := by
      apply agreeOn_readArea hagree.left hformed
      · rw [hagree.objects_merged, hobjects]
      · rw [hagree.nextTokenId, hnext]
    rcases hsame.replay txs with hstop | ⟨outcomes, L₁, L₂, hsome, hsome', hafter⟩
    · exact .inl hstop
    · refine .inr ⟨outcomes, L₁, L₂, hsome, hsome', ?_, hafter.nextTokenId⟩
      rw [objectRecords, objectRecords, hafter.objects_merged]
  · constructor
    · intro hpreserved
      exact hpreserved.1.maxValidators.symm
    · intro hdefault
      have htwins := twins_rehomed hM.mirrors (hcap.trans hdefault)
      exact ⟨htwins.sameAnswers.trans (hformed.sameAnswers_stateRoot hroot), htwins.reactAlike⟩

theorem InService.of_reachableBy {ok : Ledger C → LedgerOp C → Prop} (hreach : ReachableBy ok L) :
    L.InService := by
  induction hreach with
  | refl => exact .new
  | step op _ _ hstep ih => exact .step op ih hstep

/-- A base with a record and a trie node of a ledger that was there before. -/
def staleBase : BaseStore freeSuite where
  columns := Store.MemStore.new.applyOp (.objects, (RecordKey.committed (.account 7)).bytes, .put [1])
  nodes
    | .leaf key value => if key = 7 then some (.leaf key value) else none
    | _ => none

theorem staked_moved_facts :
    staked.maxValidators = DEFAULT_MAX_VALIDATORS ∧
    (staleBase.columns.get .objects (RecordKey.committed (.account 7)).bytes).isSome ∧
    staked.objects.merged[(RecordKey.committed (.account 7)).bytes]? = none := by
  decide +kernel

/-- A ledger with a stake, moved onto a base that held another ledger. -/
theorem rehome_preserves_staked :
    ∃ (root : freeSuite.Digest) (M L' : Ledger freeSuite) (base' : BaseStore freeSuite),
      staked.stateRoot = some (root, M) ∧
        staked.rehomeOnto staleBase [] = some (L', base') ∧
        (staleBase.columns.get .objects (RecordKey.committed (.account 7)).bytes).isSome ∧
        base'.columns.get .objects (RecordKey.committed (.account 7)).bytes = none ∧
        SameAnswers L' staked ∧ ReactAlike L' M := by
  obtain ⟨hcap, hheld, hgone⟩ := staked_moved_facts
  obtain ⟨root, M, L', base', hroot, hmove, hobjects, -, -, hiff⟩ :=
    InService.rehome_preserves_iff freeSuite_collisionFree (.of_reachableBy reachable_staked)
      staleBase []
  refine ⟨root, M, L', base', hroot, hmove, hheld, ?_, hiff.mpr hcap⟩
  rw [Store.MemStore.get, hobjects, hgone]

/-- A chain that sets its cap to 2 has a cap of 64 after its ledger was moved. -/
theorem rehome_drops_cap :
    ∃ (L L' : Ledger freeSuite) (base' : BaseStore freeSuite),
      L.InService ∧ L.rehomeOnto ⟨.new, fun _ ↦ none⟩ [] = some (L', base') ∧
        L.maxValidators = 2 ∧ L'.maxValidators = 64 ∧ ¬ SameAnswers L' L := by
  have hservice : InService ({ new with maxValidators := 2 } : Ledger freeSuite) :=
    .setMaxValidators 2 .new rfl
  obtain ⟨hformed, -, hstored⟩ := hservice.grounded
  obtain ⟨content, htree⟩ := hstored freeSuite_collisionFree
  obtain ⟨M, hroot, -⟩ := hformed.stateRoot_content freeSuite_collisionFree htree
  refine ⟨_, M.rehomed, _, hservice, rehomeOnto_eq hroot _ _, rfl, rfl, fun hsame ↦ ?_⟩
  exact absurd (show 64 = 2 from hsame.maxValidators) (by decide)

end Latebra.State.Ledger
