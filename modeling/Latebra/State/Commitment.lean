import Latebra.State.Footprint
import Latebra.State.LedgerRefinement

/-!
# The state commitment

`LedgerState.leaf` is the leaf that an entry of the ledger has in the commitment, and
`LedgerState.content` the content of the whole trie: one leaf for each object and one for the next
token id. `Ledger.UpToDate` is what holds between two root computations: outside the dirty set, the
stored trie has the current leaves.

Reconciling changes nothing but the trie and the read cache (`WellFormed.reconcile`), needs no more of the
ledger than its objects and its trie (`stateRoot_eq_of_clone_eq`), and on a ledger that is up to
date it succeeds, with the root of the trie from scratch (`UpToDate.stateRoot`), in whatever order
the changed entries are visited.
-/

set_option autoImplicit false
set_option relaxedAutoImplicit false

namespace Latebra.State

open Foundation Crypto Latebra.Types Contracts

variable {C : CryptoSuite}

namespace LedgerState

/-- The leaf of one state entry; none when the entry does not exist. -/
def leaf (s : LedgerState C) : DirtyKey → Option Bytes
  | .account id => (s.account id).map (Ledger.accountLeafPreimage id)
  | .token id => (s.token id).map Ledger.tokenLeafPreimage
  | .contract id => (s.contract id).map (Ledger.contractLeafPreimage id)
  | .nullifier nf => if s.nullifier nf then some [1] else none
  | .validator id => (s.validator id).map (Ledger.validatorLeafPreimage id)
  | .pool token => (s.pool token).map Ledger.poolLeafPreimage
  | .curve token => (s.curve token).map Ledger.curveLeafPreimage
  | .lp token provider =>
    if s.lp token provider > 0 then
      some (Ledger.lpLeafPreimage token provider (s.lp token provider))
    else none
  | .htlc id => (s.htlc id).map (Ledger.htlcLeafPreimage id)
  | .metaRecord => some (u32Le s.nextTokenId)

/-- The content of the commitment trie: one leaf for each object, and the meta leaf. -/
noncomputable def content (s : LedgerState C) : TrieScheme.Content Bytes32 Bytes :=
  TrieScheme.contentOf (Ledger.trieKey C) s.leaf

/-- The root of the commitment trie built from scratch. -/
noncomputable def commitment (s : LedgerState C) : C.Digest :=
  C.trie.contentRoot C.trie.keyBits s.content

/-- No two entries that exist or are flagged share a trie path. -/
def PathsDistinct (s : LedgerState C) : Prop :=
  Set.InjOn (Ledger.trieKey C) { key | s.leaf key ≠ none ∨ key ∈ s.dirty }

/-- The flags are no part of what is committed. -/
theorem leaf_withDirty (s : LedgerState C) (dirty : Set DirtyKey) :
    ({ s with dirty := dirty } : LedgerState C).leaf = s.leaf := by
  funext key
  cases key <;> rfl

/-- The content of the trie has exactly the leaves of the state. -/
theorem PathsDistinct.content_eq_some {s : LedgerState C} (hpaths : s.PathsDistinct)
    {path : Bytes32} {value : Bytes} :
    s.content path = some value ↔ ∃ key, Ledger.trieKey C key = path ∧ s.leaf key = some value := by
  refine ⟨TrieScheme.exists_of_contentOf_eq_some, ?_⟩
  rintro ⟨key, rfl, hleaf⟩
  have hpresent : s.leaf key ≠ none := by simp [hleaf]
  rw [content, TrieScheme.contentOf_path hpaths (fun _ ↦ .inl) (.inl hpresent), hleaf]

/-- A content with the leaves of a list of entries set, one after the other. -/
def reconciled (s : LedgerState C) (keys : List DirtyKey)
    (content : TrieScheme.Content Bytes32 Bytes) : TrieScheme.Content Bytes32 Bytes :=
  keys.foldl (fun content key ↦ Function.update content (Ledger.trieKey C key) (s.leaf key)) content

theorem reconciled_of_notMem (s : LedgerState C) {keys : List DirtyKey}
    {content : TrieScheme.Content Bytes32 Bytes} {path : Bytes32}
    (hpath : ∀ key ∈ keys, Ledger.trieKey C key ≠ path) :
    s.reconciled keys content path = content path := by
  induction keys generalizing content with
  | nil => rfl
  | cons key rest ih =>
    have hfirst := hpath key List.mem_cons_self
    rw [reconciled, List.foldl_cons]
    refine (ih fun later hlater ↦ hpath later (List.mem_cons_of_mem _ hlater)).trans ?_
    exact Function.update_of_ne hfirst.symm _ _

theorem reconciled_of_mem (s : LedgerState C) {keys : List DirtyKey}
    (hpath : Set.InjOn (Ledger.trieKey C) { key | key ∈ keys })
    {content : TrieScheme.Content Bytes32 Bytes} {key : DirtyKey} (hkey : key ∈ keys) :
    s.reconciled keys content (Ledger.trieKey C key) = s.leaf key := by
  induction keys generalizing content with
  | nil => exact absurd hkey List.not_mem_nil
  | cons first rest ih =>
    have hrest : Set.InjOn (Ledger.trieKey C) { key | key ∈ rest } :=
      hpath.mono fun key hkey ↦ List.mem_cons_of_mem _ hkey
    rw [reconciled, List.foldl_cons]
    by_cases hlater : key ∈ rest
    · exact ih hrest hlater
    · obtain rfl : key = first := (List.mem_cons.mp hkey).resolve_right hlater
      refine (s.reconciled_of_notMem fun other hother heq ↦ ?_).trans (Function.update_self ..)
      have hsame := hpath (List.mem_cons_of_mem _ hother) List.mem_cons_self heq
      exact hlater (hsame ▸ hother)

/-- The order of the entries does not matter as long as they have paths of their own. -/
theorem reconciled_congr (s : LedgerState C) {keys keys' : List DirtyKey}
    (hpath : Set.InjOn (Ledger.trieKey C) { key | key ∈ keys })
    (hsame : ∀ key, key ∈ keys ↔ key ∈ keys') (content : TrieScheme.Content Bytes32 Bytes) :
    s.reconciled keys content = s.reconciled keys' content := by
  have hpath' : Set.InjOn (Ledger.trieKey C) { key | key ∈ keys' } :=
    hpath.mono fun key hkey ↦ (hsame key).mpr hkey
  funext path
  by_cases hknown : ∃ key ∈ keys, Ledger.trieKey C key = path
  · obtain ⟨key, hkey, rfl⟩ := hknown
    rw [s.reconciled_of_mem hpath hkey, s.reconciled_of_mem hpath' ((hsame key).mp hkey)]
  · have hnone : ∀ key ∈ keys, Ledger.trieKey C key ≠ path :=
      fun key hkey heq ↦ hknown ⟨key, hkey, heq⟩
    rw [s.reconciled_of_notMem hnone,
      s.reconciled_of_notMem fun key hkey ↦ hnone key ((hsame key).mpr hkey)]

theorem run_leafValue (s : LedgerState C) (key : DirtyKey) :
    (Ledger.leafValue key).run handler s = (.ok (s.leaf key), s) := by
  cases key <;> rfl

end LedgerState

namespace Ledger

variable {L L' : Ledger C}

/-! ### Reads -/

theorem eq_of_decoded {α : Type} {decode : Bytes → Option α} {key : RecordKey} {reply : Option α}
    (hread : L.decoded decode key = some (reply, L')) : L' = L := by
  unfold decoded at hread
  split at hread
  · exact (Prod.mk.inj (Option.some.inj hread)).2.symm
  · obtain ⟨_, -, hanswer⟩ := Option.map_eq_some_iff.mp hread
    exact (Prod.mk.inj hanswer).2.symm

theorem clone_of_account {id : Bytes32} {reply : Option (Account C)}
    (hread : L.account id = some (reply, L')) : L'.clone = L.clone := by
  unfold account at hread
  split at hread
  · rw [← (Prod.mk.inj (Option.some.inj hread)).2]
  · split at hread
    · rw [← (Prod.mk.inj (Option.some.inj hread)).2]
    · obtain ⟨a, -, hanswer⟩ := Option.map_eq_some_iff.mp hread
      rw [← (Prod.mk.inj hanswer).2]
      rfl

/-- A read moves nothing but the read cache. -/
theorem clone_of_not_isWrite {c : LedgerCommand C} (hread : ¬ c.IsWrite) {reply : c.Reply}
    (hexec : handler.exec c L = some (reply, L')) : L'.clone = L.clone := by
  cases c with
  | account => exact clone_of_account hexec
  | tokenById | contract | validator | pool | curve | htlc => rw [eq_of_decoded hexec]
  | isRegistered | nextTokenId | tickerTaken | hasContract | nullifierSeen | lpShares =>
    rw [← (Prod.mk.inj (Option.some.inj hexec)).2]
  | _ => exact absurd trivial hread

theorem leafValue_reads (key : DirtyKey) :
    (leafValue key : LedgerM C _).Uses fun c : LedgerCommand C ↦ ¬ c.IsWrite := by
  cases key <;> exact ⟨not_false, fun _ ↦ trivial⟩

/-- The leaf that the code computes is the leaf of the objects. -/
theorem WellFormed.run_leafValue (hL : L.WellFormed) (key : DirtyKey) :
    ∃ L', (leafValue key).run handler L = (.ok (L.view.leaf key), L') ∧ L'.WellFormed ∧
      L'.clone = L.clone := by
  obtain ⟨hvalue, hformed, -⟩ := run_view hL (leafValue key)
  rw [LedgerState.run_leafValue] at hvalue
  have hclone := (leafValue_reads key).preserving clone
    (fun c hread _ _ _ hexec ↦ clone_of_not_isWrite hread hexec) L
  exact ⟨_, Prod.ext hvalue rfl, hformed, hclone⟩

/-! ### The trie -/

/-- The stored trie: its nodes and its root. -/
def tree (L : Ledger C) : TrieScheme.Nodes Bytes32 Bytes C.Digest × C.Digest :=
  (L.nodes.get, L.root)

/-- The ledger with another trie. -/
def withTrie (L : Ledger C) (nodes : NodeOverlay C) (root : C.Digest) : Ledger C :=
  { L with nodes := nodes, root := root }

theorem WellFormed.withTrie (hL : L.WellFormed) (nodes : NodeOverlay C) (root : C.Digest) :
    (L.withTrie nodes root).WellFormed :=
  ⟨hL.records, hL.cache⟩

theorem get_write (nodes : NodeOverlay C) (batch : TrieScheme.Batch Bytes32 Bytes C.Digest) :
    (nodes.write batch).get = TrieScheme.write nodes.get batch := by
  unfold NodeOverlay.write NodeOverlay.get TrieScheme.write
  induction batch generalizing nodes with
  | nil => rfl
  | cons entry rest ih =>
    rw [List.foldl_cons, List.foldl_cons]
    refine (ih { nodes with top := Function.update nodes.top entry.1 (some entry.2) }).trans ?_
    congr 1
    funext hash
    by_cases hsame : hash = entry.1 <;> simp [hsame]

theorem setLeaf_eq_withTrie {key : Bytes32} {value : Option Bytes}
    (hset : L.setLeaf key value = some L') : L' = L.withTrie L'.nodes L'.root := by
  obtain ⟨written, -, rfl⟩ := Option.map_eq_some_iff.mp hset
  rfl

theorem setLeaf_clone (key : Bytes32) (value : Option Bytes) :
    L.clone.setLeaf key value = (L.setLeaf key value).map clone := by
  rw [setLeaf, setLeaf, Option.map_map]
  rfl

/-- Setting a leaf of a stored trie succeeds and leads to the trie of the changed content. -/
theorem setLeaf_tree (hfree : C.trie.CollisionFree) {content : TrieScheme.Content Bytes32 Bytes}
    (htree : C.trie.TrieAt L.tree content) (key : Bytes32) (value : Option Bytes) :
    ∃ L', L.setLeaf key value = some L' ∧
      C.trie.TrieAt L'.tree (Function.update content key value) := by
  have hwrites : ∃ written, L.leafWrites key value = some written ∧
      C.trie.TrieAt (TrieScheme.write L.nodes.get written.2, written.1)
        (Function.update content key value) := by
    cases value with
    | some v =>
      obtain ⟨tree', hupdate, htree'⟩ := htree.update hfree key v
      obtain ⟨written, hupsert, hwritten⟩ := Option.bind_eq_some_iff.mp hupdate
      exact ⟨written, hupsert, Option.some.inj hwritten ▸ htree'⟩
    | none =>
      obtain ⟨tree', hremove, htree'⟩ := htree.remove hfree key
      obtain ⟨written, hdelete, hwritten⟩ := Option.bind_eq_some_iff.mp hremove
      exact ⟨written, hdelete, Option.some.inj hwritten ▸ htree'⟩
  obtain ⟨written, hwritten, htree'⟩ := hwrites
  refine ⟨_, by rw [setLeaf, hwritten]; rfl, ?_⟩
  rwa [tree, get_write]

section SameClone

variable {L₁ L₂ : Ledger C} (hclone : L₁.clone = L₂.clone)
include hclone

/-- Ledgers with the same clone differ in the read cache only. -/
theorem view_of_clone_eq : L₁.view = L₂.view := (congrArg view hclone :)

theorem tree_of_clone_eq : L₁.tree = L₂.tree := (congrArg tree hclone :)

theorem dirty_of_clone_eq : L₁.dirty = L₂.dirty := (congrArg Ledger.dirty hclone :)

theorem root_of_clone_eq : L₁.root = L₂.root := (congrArg Ledger.root hclone :)

end SameClone

/-! ### Reconciling -/

theorem reconcile_cons (hL : L.WellFormed) (key : DirtyKey) (rest : List DirtyKey) :
    ∃ L₁ : Ledger C, L₁.WellFormed ∧ L₁.clone = L.clone ∧ L.reconcile (key :: rest) =
      (L₁.setLeaf (trieKey C key) (L.view.leaf key)).bind fun L₂ ↦ L₂.reconcile rest := by
  obtain ⟨L₁, hvalue, hformed, hclone⟩ := hL.run_leafValue key
  refine ⟨L₁, hformed, hclone, ?_⟩
  rw [reconcile, hvalue]
  rfl

/-- Reconciling changes nothing but the trie and the read cache. -/
theorem WellFormed.reconcile (hL : L.WellFormed) {keys : List DirtyKey}
    (hrun : L.reconcile keys = some L') :
    L'.WellFormed ∧ L'.clone = L.clone.withTrie L'.nodes L'.root := by
  induction keys generalizing L with
  | nil =>
    obtain rfl := Option.some.inj hrun
    exact ⟨hL, rfl⟩
  | cons key rest ih =>
    obtain ⟨L₁, hformed, hclone, hstep⟩ := reconcile_cons hL key rest
    rw [hstep] at hrun
    obtain ⟨L₂, hset, hrest⟩ := Option.bind_eq_some_iff.mp hrun
    have htrie := setLeaf_eq_withTrie hset
    have hformed₂ : L₂.WellFormed := by
      rw [htrie]
      exact hformed.withTrie _ _
    obtain ⟨hformed', hclone'⟩ := ih hformed₂ hrest
    refine ⟨hformed', ?_⟩
    rw [hclone', htrie]
    exact (congrArg (fun M : Ledger C ↦ M.withTrie L'.nodes L'.root) hclone :)

/-- Reconciling needs no more of a ledger than its objects and its trie. -/
theorem reconcile_clone {L₁ L₂ : Ledger C} (h₁ : L₁.WellFormed) (h₂ : L₂.WellFormed)
    (hclone : L₁.clone = L₂.clone) (keys : List DirtyKey) :
    (L₁.reconcile keys).map clone = (L₂.reconcile keys).map clone := by
  induction keys generalizing L₁ L₂ with
  | nil => exact congrArg some hclone
  | cons key rest ih =>
    obtain ⟨M₁, hformed₁, hM₁, hstep₁⟩ := reconcile_cons h₁ key rest
    obtain ⟨M₂, hformed₂, hM₂, hstep₂⟩ := reconcile_cons h₂ key rest
    have hview := view_of_clone_eq hclone
    have hset : (M₁.setLeaf (trieKey C key) (L₁.view.leaf key)).map clone =
        (M₂.setLeaf (trieKey C key) (L₁.view.leaf key)).map clone := by
      rw [← setLeaf_clone, ← setLeaf_clone, hM₁, hM₂, hclone]
    rw [hstep₁, hstep₂, ← hview]
    cases hset₁ : M₁.setLeaf (trieKey C key) (L₁.view.leaf key) with
    | none =>
      rw [hset₁] at hset
      rw [Option.map_eq_none_iff.mp hset.symm]
    | some N₁ =>
      rw [hset₁] at hset
      obtain ⟨N₂, hset₂, hN⟩ := Option.map_eq_some_iff.mp hset.symm
      rw [hset₂]
      refine ih ?_ ?_ hN.symm
      · rw [setLeaf_eq_withTrie hset₁]
        exact hformed₁.withTrie _ _
      · rw [setLeaf_eq_withTrie hset₂]
        exact hformed₂.withTrie _ _

/-- On a stored trie reconciling succeeds, and sets the leaves of the given entries. -/
theorem WellFormed.reconcile_content (hL : L.WellFormed) (hfree : C.trie.CollisionFree)
    {content : TrieScheme.Content Bytes32 Bytes} (htree : C.trie.TrieAt L.tree content)
    (keys : List DirtyKey) :
    ∃ L', L.reconcile keys = some L' ∧
      C.trie.TrieAt L'.tree (L.view.reconciled keys content) := by
  induction keys generalizing L content with
  | nil => exact ⟨L, rfl, htree⟩
  | cons key rest ih =>
    obtain ⟨L₁, hformed, hclone, hstep⟩ := reconcile_cons hL key rest
    rw [← tree_of_clone_eq hclone] at htree
    obtain ⟨L₂, hset, htree₂⟩ := setLeaf_tree hfree htree (trieKey C key) (L.view.leaf key)
    have htrie := setLeaf_eq_withTrie hset
    have hview : L₂.view = L.view := by
      rw [htrie]
      exact (view_of_clone_eq hclone :)
    have hformed₂ : L₂.WellFormed := by
      rw [htrie]
      exact hformed.withTrie _ _
    obtain ⟨L', hrest, htree'⟩ := ih hformed₂ htree₂
    rw [hview] at htree'
    refine ⟨L', ?_, htree'⟩
    rw [hstep, hset]
    exact hrest

/-- On a stored trie reconciling succeeds, and replaces the leaves of the given entries. -/
theorem WellFormed.reconcile_tree (hL : L.WellFormed) (hfree : C.trie.CollisionFree)
    {indices : Set DirtyKey} (hpath : Set.InjOn (trieKey C) indices)
    {stored : DirtyKey → Option Bytes} (hstored : ∀ key, stored key ≠ none → key ∈ indices)
    (hleaf : ∀ key, L.view.leaf key ≠ none → key ∈ indices)
    (htree : C.trie.TrieAt L.tree (TrieScheme.contentOf (trieKey C) stored)) {keys : List DirtyKey}
    (hkeys : ∀ key ∈ keys, key ∈ indices) :
    ∃ L', L.reconcile keys = some L' ∧ C.trie.TrieAt L'.tree
      (TrieScheme.contentOf (trieKey C)
        fun key ↦ if key ∈ keys then L.view.leaf key else stored key) := by
  induction keys generalizing L stored with
  | nil =>
    refine ⟨L, rfl, ?_⟩
    simpa using htree
  | cons key rest ih =>
    obtain ⟨L₁, hformed, hclone, hstep⟩ := reconcile_cons hL key rest
    have htree₁ := tree_of_clone_eq hclone
    have hkey := hkeys key List.mem_cons_self
    rw [← htree₁] at htree
    obtain ⟨L₂, hset, htree₂⟩ := setLeaf_tree hfree htree (trieKey C key) (L.view.leaf key)
    have htrie := setLeaf_eq_withTrie hset
    have hview : L₂.view = L.view := by
      rw [htrie]
      exact (view_of_clone_eq hclone :)
    have hformed₂ : L₂.WellFormed := by
      rw [htrie]
      exact hformed.withTrie _ _
    rw [← TrieScheme.contentOf_update hpath hstored hkey] at htree₂
    have hstored₂ : ∀ other, Function.update stored key (L.view.leaf key) other ≠ none →
        other ∈ indices := by
      intro other hother
      by_cases hsame : other = key
      · rwa [hsame]
      · rw [Function.update_of_ne hsame] at hother
        exact hstored other hother
    obtain ⟨L', hrest, htree'⟩ := ih hformed₂ hstored₂ (by rwa [hview]) htree₂
      fun other hother ↦ hkeys other (List.mem_cons_of_mem _ hother)
    refine ⟨L', ?_, ?_⟩
    · rw [hstep, hset]
      exact hrest
    · convert htree' using 2
      funext other
      by_cases hrest : other ∈ rest <;> by_cases hsame : other = key <;>
        simp [hrest, hsame, hview]

/-! ### The state root -/

/-- The state root changes nothing but the trie, the read cache and the flags. -/
theorem WellFormed.stateRoot (hL : L.WellFormed) {root : C.Digest}
    (hrun : L.stateRoot = some (root, L')) :
    root = L'.root ∧ L'.WellFormed ∧
      L'.clone = { L.clone.withTrie L'.nodes L'.root with dirty := [] } := by
  unfold Ledger.stateRoot at hrun
  split at hrun
  · next hclean =>
    obtain ⟨rfl, rfl⟩ := Prod.mk.inj (Option.some.inj hrun)
    refine ⟨rfl, hL, ?_⟩
    rw [← hclean]
    rfl
  · obtain ⟨L₁, hreconcile, hlast⟩ := Option.bind_eq_some_iff.mp hrun
    obtain ⟨rfl, rfl⟩ := Prod.mk.inj (Option.some.inj hlast)
    obtain ⟨hformed, hclone⟩ := hL.reconcile hreconcile
    exact ⟨rfl, ⟨hformed.records, hformed.cache⟩,
      congrArg (fun M : Ledger C ↦ { M with dirty := [] }) hclone⟩

theorem WellFormed.view_stateRoot (hL : L.WellFormed) {root : C.Digest}
    (hrun : L.stateRoot = some (root, L')) : L'.view = { L.view with dirty := ∅ } := by
  obtain ⟨-, -, hclone⟩ := hL.stateRoot hrun
  refine (congrArg view hclone).trans ?_
  ext1 <;> first | rfl | simp [view, LedgerState.ofRecords]

/-- The root is a function of the objects and the trie. -/
theorem stateRoot_eq_of_clone_eq {L₁ L₂ : Ledger C} (h₁ : L₁.WellFormed) (h₂ : L₂.WellFormed)
    (hclone : L₁.clone = L₂.clone) :
    L₁.stateRoot.map Prod.fst = L₂.stateRoot.map Prod.fst := by
  have hdirty := dirty_of_clone_eq hclone
  have hreconcile := reconcile_clone h₁ h₂ hclone L₁.dirty
  unfold Ledger.stateRoot
  rw [← hdirty]
  split
  · exact congrArg some (root_of_clone_eq hclone)
  · cases hrun₁ : L₁.reconcile L₁.dirty with
    | none =>
      rw [hrun₁] at hreconcile
      rw [Option.map_eq_none_iff.mp hreconcile.symm]
    | some M₁ =>
      rw [hrun₁] at hreconcile
      obtain ⟨M₂, hrun₂, hM⟩ := Option.map_eq_some_iff.mp hreconcile.symm
      rw [hrun₂]
      exact congrArg some (root_of_clone_eq hM.symm)

/-- On a stored trie the state root succeeds, and replaces the leaves of the flagged entries. -/
theorem WellFormed.stateRoot_tree (hL : L.WellFormed) (hfree : C.trie.CollisionFree)
    {indices : Set DirtyKey} (hpath : Set.InjOn (trieKey C) indices)
    {stored : DirtyKey → Option Bytes} (hstored : ∀ key, stored key ≠ none → key ∈ indices)
    (hleaf : ∀ key, L.view.leaf key ≠ none → key ∈ indices)
    (hdirty : ∀ key ∈ L.dirty, key ∈ indices)
    (htree : C.trie.TrieAt L.tree (TrieScheme.contentOf (trieKey C) stored)) :
    ∃ L', L.stateRoot = some (L'.root, L') ∧ C.trie.TrieAt L'.tree
      (TrieScheme.contentOf (trieKey C)
        fun key ↦ if key ∈ L.dirty then L.view.leaf key else stored key) := by
  obtain ⟨L', hrun, htree'⟩ := hL.reconcile_tree hfree hpath hstored hleaf htree hdirty
  by_cases hclean : L.dirty = []
  · rw [hclean] at hrun
    obtain rfl := Option.some.inj hrun
    exact ⟨L, by rw [Ledger.stateRoot, if_pos hclean], htree'⟩
  · refine ⟨{ L' with dirty := [] }, ?_, htree'⟩
    rw [Ledger.stateRoot, if_neg hclean, hrun]
    rfl

/-- On a stored trie the state root succeeds, and sets the leaves of the flagged entries. -/
theorem WellFormed.stateRoot_content (hL : L.WellFormed) (hfree : C.trie.CollisionFree)
    {content : TrieScheme.Content Bytes32 Bytes} (htree : C.trie.TrieAt L.tree content) :
    ∃ L', L.stateRoot = some (L'.root, L') ∧
      C.trie.TrieAt L'.tree (L.view.reconciled L.dirty content) := by
  obtain ⟨L', hrun, htree'⟩ := hL.reconcile_content hfree htree L.dirty
  by_cases hclean : L.dirty = []
  · rw [hclean] at hrun
    obtain rfl := Option.some.inj hrun
    exact ⟨L, by rw [Ledger.stateRoot, if_pos hclean], htree'⟩
  · refine ⟨{ L' with dirty := [] }, ?_, htree'⟩
    rw [Ledger.stateRoot, if_neg hclean, hrun]
    rfl

/-- A well-formed ledger with a stored trie. -/
structure Sound (L : Ledger C) : Prop where
  formed : L.WellFormed
  stored : ∃ content, C.trie.TrieAt L.tree content

/-- Outside the dirty set the stored trie has the current leaves. -/
def UpToDate (L : Ledger C) : Prop :=
  ∃ stored : DirtyKey → Option Bytes,
    C.trie.TrieAt L.tree (TrieScheme.contentOf (trieKey C) stored) ∧
      ∀ key, key ∉ L.view.dirty → stored key = L.view.leaf key

/-- On a ledger that is up to date, the state root is the root of the trie from scratch, and
computing it leaves the ledger up to date. -/
theorem UpToDate.stateRoot (hdate : L.UpToDate) (hL : L.WellFormed) (hfree : C.trie.CollisionFree)
    (hpaths : L.view.PathsDistinct) :
    ∃ L', L.stateRoot = some (L.view.commitment, L') ∧
      C.trie.TrieAt L'.tree L.view.content := by
  obtain ⟨stored, htree, hstored⟩ := hdate
  have hknown : ∀ key, stored key ≠ none → L.view.leaf key ≠ none ∨ key ∈ L.view.dirty := by
    intro key hkey
    by_cases hdirty : key ∈ L.view.dirty
    · exact .inr hdirty
    · rw [hstored key hdirty] at hkey
      exact .inl hkey
  obtain ⟨L', hrun, htree'⟩ := hL.stateRoot_tree hfree hpaths hknown (fun _ ↦ .inl)
    (fun _ ↦ .inr) htree
  have hcontent : (fun key ↦ if key ∈ L.dirty then L.view.leaf key else stored key) =
      L.view.leaf := by
    funext key
    split
    · rfl
    · next hdirty => exact hstored key hdirty
  rw [hcontent] at htree'
  have hroot : L'.root = L.view.commitment := htree'.root_eq
  exact ⟨L', hroot ▸ hrun, htree'⟩

end Ledger

end Latebra.State
