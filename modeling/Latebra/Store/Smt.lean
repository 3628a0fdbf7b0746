import Latebra.Foundation.MerklePruning
import Latebra.Crypto.FreeSuite

/-!
# The authenticated state trie

`Smt` is the sparse Merkle tree of the store: paths of 256 bits, bit 0 the most significant bit of
byte 0, under the hashes of a suite. A call fails where the code panics on a node that is not
stored. The nodes that a call writes reach the store in one batch at its end, so what it reads on
its way are the nodes before it.

`StoreHistory` describes the stores that calls and prunes can lead to, with the roots that were
handed out on the way. `run_spec` says that the tree is a map with a canonical root,
`Smt.Holds.proofs_exact` that its proofs are complete and sound, and `prune_keeps` that pruning loses nothing of a retained
tree.
-/

set_option autoImplicit false
set_option relaxedAutoImplicit false

namespace Latebra.Store

open Foundation Crypto TrieScheme

variable {C : CryptoSuite}

/-- A tree over a store of nodes, by its root. -/
structure Smt (C : CryptoSuite) where
  nodes : Nodes Bytes32 Bytes C.Digest
  root : C.Digest

namespace Smt

/-- An empty tree over a store. -/
def new (nodes : Nodes Bytes32 Bytes C.Digest) : Smt C := ⟨nodes, C.trie.emptyRoot⟩

/-- Reopen a tree at a root. -/
def fromRoot (nodes : Nodes Bytes32 Bytes C.Digest) (root : C.Digest) : Smt C := ⟨nodes, root⟩

/-- Value at a key. -/
def get (t : Smt C) (key : Bytes32) : Option (Option Bytes) :=
  C.trie.get t.nodes key C.trie.keyBits t.root

/-- A proof of a key's presence or absence. -/
def prove (t : Smt C) (key : Bytes32) : Option (MerkleProof Bytes32 Bytes C.Digest) :=
  C.trie.prove t.nodes key C.trie.keyBits t.root

/-- Insert or overwrite a key. -/
def update (t : Smt C) (key : Bytes32) (value : Bytes) : Option (Smt C) :=
  (C.trie.update (t.nodes, t.root) key value).map fun tree ↦ ⟨tree.1, tree.2⟩

/-- Remove a key. -/
def remove (t : Smt C) (key : Bytes32) : Option (Smt C) :=
  (C.trie.remove (t.nodes, t.root) key).map fun tree ↦ ⟨tree.1, tree.2⟩

/-- The mutations of a tree. -/
inductive Call where
  | update (key : Bytes32) (value : Bytes)
  | remove (key : Bytes32)
deriving DecidableEq

/-- Make a call. -/
def call (t : Smt C) : Call → Option (Smt C)
  | .update key value => t.update key value
  | .remove key => t.remove key

/-- Make calls one after the other. -/
def run (t : Smt C) (calls : List Call) : Option (Smt C) := calls.foldlM call t

end Smt

/-- Verify a proof of a key against a root. -/
def verifyProof (C : CryptoSuite) (root : C.Digest) (key : Bytes32) (expected : Option Bytes)
    (proof : MerkleProof Bytes32 Bytes C.Digest) : Bool :=
  C.trie.verify root key expected proof

/-! ### The map that a tree implements -/

/-- A call on a plain map. -/
def Smt.Call.onMap (content : Content Bytes32 Bytes) : Smt.Call → Content Bytes32 Bytes
  | .update key value => Function.update content key (some value)
  | .remove key => Function.update content key none

/-- Calls on a plain map: the last one on a key stays. -/
def written (content : Content Bytes32 Bytes) (calls : List Smt.Call) : Content Bytes32 Bytes :=
  calls.foldl Smt.Call.onMap content

/-- The root of the full binary tree of depth 256 over a map. -/
noncomputable def referenceRoot (C : CryptoSuite) (content : Content Bytes32 Bytes) : C.Digest :=
  C.trie.contentRoot C.trie.keyBits content

/-- A tree that is stored with the content of a map. -/
def Smt.Holds (t : Smt C) (content : Content Bytes32 Bytes) : Prop :=
  C.trie.TrieAt (t.nodes, t.root) content

namespace Smt

variable {t : Smt C} {content : Content Bytes32 Bytes}

theorem Holds.root (h : t.Holds content) : t.root = referenceRoot C content := h.root_eq

theorem Holds.get (h : t.Holds content) (hfree : C.trie.CollisionFree) (key : Bytes32) :
    t.get key = some (content key) :=
  TrieAt.get hfree h key

theorem Holds.fullyStored (h : t.Holds content) (hfree : C.trie.CollisionFree) :
    C.trie.FullyStored t.nodes C.trie.keyBits t.root :=
  TrieAt.fullyStored hfree h

theorem Holds.call (h : t.Holds content) (hfree : C.trie.CollisionFree) (c : Call) :
    ∃ t', t.call c = some t' ∧ t'.Holds (c.onMap content) := by
  cases c with
  | update key value =>
    obtain ⟨tree, hupdate, htree⟩ := TrieAt.update hfree h key value
    refine ⟨⟨tree.1, tree.2⟩, ?_, htree⟩
    show t.update key value = some ⟨tree.1, tree.2⟩
    rw [update, hupdate, Option.map_some]
  | remove key =>
    obtain ⟨tree, hremove, htree⟩ := TrieAt.remove hfree h key
    refine ⟨⟨tree.1, tree.2⟩, ?_, htree⟩
    show t.remove key = some ⟨tree.1, tree.2⟩
    rw [remove, hremove, Option.map_some]

/-- Calls on a stored tree never miss a node and lead to the tree of the changed map. -/
theorem Holds.run (h : t.Holds content) (hfree : C.trie.CollisionFree) (calls : List Call) :
    ∃ t', t.run calls = some t' ∧ t'.Holds (written content calls) := by
  induction calls generalizing t content with
  | nil => exact ⟨t, rfl, h⟩
  | cons c rest ih =>
    obtain ⟨t₁, hcall, h₁⟩ := h.call hfree c
    obtain ⟨t', hrest, h'⟩ := ih h₁
    refine ⟨t', ?_, h'⟩
    show (c :: rest).foldlM Smt.call t = some t'
    rw [List.foldlM_cons, hcall]
    exact hrest

end Smt

/-! ### Stores -/

/-- The stores that calls on trees and prunes can lead to, with the roots that were handed out. A
call can start from any root handed out before, and a prune can retain any list of hashes. -/
inductive StoreHistory : Nodes Bytes32 Bytes C.Digest → Set C.Digest → Prop where
  | empty : StoreHistory (fun _ ↦ none) {C.trie.emptyRoot}
  | call {nodes : Nodes Bytes32 Bytes C.Digest} {roots : Set C.Digest} {root : C.Digest}
      {t : Smt C} (c : Smt.Call) : StoreHistory nodes roots → root ∈ roots →
      (Smt.fromRoot nodes root).call c = some t → StoreHistory t.nodes (insert t.root roots)
  | prune {nodes nodes' : Nodes Bytes32 Bytes C.Digest} {roots : Set C.Digest} {fuel : ℕ}
      (retain : List C.Digest) : StoreHistory nodes roots →
      TrieScheme.prune fuel nodes retain = some nodes' → StoreHistory nodes' roots

/-- What holds of every such store: the nodes are stored under their own hash above stored children,
there are finitely many, and a root that was handed out is that of a map. -/
structure SoundStore (nodes : Nodes Bytes32 Bytes C.Digest) (roots : Set C.Digest) : Prop where
  wellStored : C.trie.WellStored nodes
  finite : ∃ stored : Finset C.Digest, ∀ hash, nodes hash ≠ none → hash ∈ stored
  mapped : ∀ root ∈ roots, ∃ content, root = referenceRoot C content

section Stores

variable {nodes nodes' : Nodes Bytes32 Bytes C.Digest} {roots : Set C.Digest} {root : C.Digest}

theorem finite_write (batch : Batch Bytes32 Bytes C.Digest)
    (hfinite : ∃ stored : Finset C.Digest, ∀ hash, nodes hash ≠ none → hash ∈ stored) :
    ∃ stored : Finset C.Digest, ∀ hash, write nodes batch hash ≠ none → hash ∈ stored := by
  obtain ⟨stored, hstored⟩ := hfinite
  refine ⟨stored ∪ (batch.map Prod.fst).toFinset, fun hash hhash ↦ ?_⟩
  obtain ⟨node, hnode⟩ := Option.ne_none_iff_exists'.mp hhash
  rw [Finset.mem_union]
  rcases write_cases nodes batch hnode with hmem | hbefore
  · exact Or.inr (List.mem_toFinset.mpr (List.mem_map_of_mem hmem))
  · exact Or.inl (hstored hash (by simp [hbefore]))

/-- A call that does not panic found its root. -/
theorem known_of_call {c : Smt.Call} {t : Smt C}
    (hcall : (Smt.fromRoot nodes root).call c = some t) :
    C.trie.Known (fun hash ↦ nodes hash ≠ none) root := by
  by_contra hunknown
  have hnotEmpty : root ≠ C.trie.emptyAt C.trie.keyBits :=
    fun hempty ↦ hunknown (Or.inl ⟨C.trie.keyBits, hempty⟩)
  have hmissing : nodes root = none := not_not.mp fun hstored ↦ hunknown (Or.inr hstored)
  cases c with
  | update key value =>
    have hupsert : C.trie.upsert nodes key value C.trie.keyBits root = none := by
      rw [upsert, if_neg hnotEmpty]
      simp only [hmissing]
    have hnone : (Smt.fromRoot nodes root).update key value = none := by
      rw [Smt.update, TrieScheme.update]
      show Option.map _ ((C.trie.upsert nodes key value C.trie.keyBits root).bind _) = none
      rw [hupsert]
      rfl
    exact absurd (hnone.symm.trans hcall) (by simp)
  | remove key =>
    have hdelete : C.trie.delete nodes key C.trie.keyBits root = none := by
      rw [delete, if_neg hnotEmpty]
      simp only [hmissing]
    have hnone : (Smt.fromRoot nodes root).remove key = none := by
      rw [Smt.remove, TrieScheme.remove]
      show Option.map _ ((C.trie.delete nodes key C.trie.keyBits root).bind _) = none
      rw [hdelete]
      rfl
    exact absurd (hnone.symm.trans hcall) (by simp)

/-- The nodes that a call leaves are those before it with a batch on top. -/
theorem nodes_of_call {c : Smt.Call} {t t' : Smt C} (hcall : t.call c = some t') :
    ∃ batch, t'.nodes = write t.nodes batch := by
  cases c with
  | update key value =>
    obtain ⟨tree, htree, rfl⟩ := Option.map_eq_some_iff.mp hcall
    obtain ⟨written, -, hwritten⟩ := Option.bind_eq_some_iff.mp htree
    obtain rfl := Option.some.inj hwritten
    exact ⟨written.2, rfl⟩
  | remove key =>
    obtain ⟨tree, htree, rfl⟩ := Option.map_eq_some_iff.mp hcall
    obtain ⟨written, -, hwritten⟩ := Option.bind_eq_some_iff.mp htree
    obtain rfl := Option.some.inj hwritten
    exact ⟨written.2, rfl⟩

/-- A root that was handed out and can be found is that of a stored tree. -/
theorem SoundStore.holds (h : SoundStore nodes roots) (hroot : root ∈ roots)
    (hknown : C.trie.Known (fun hash ↦ nodes hash ≠ none) root) :
    ∃ content, (Smt.fromRoot nodes root).Holds content := by
  obtain ⟨content, hcontent⟩ := h.mapped root hroot
  exact ⟨content, h.wellStored, hcontent, hknown⟩

/-- The invariant of a store. -/
theorem StoreHistory.sound (hfree : C.trie.CollisionFree) (h : StoreHistory nodes roots) :
    SoundStore nodes roots := by
  induction h with
  | empty =>
    refine ⟨TrieAt.empty.wellStored, ⟨∅, fun hash hhash ↦ absurd rfl hhash⟩, fun root hroot ↦ ?_⟩
    rw [Set.mem_singleton_iff.mp hroot]
    exact ⟨noContent, (contentRoot_noContent _).symm⟩
  | @call nodes roots root t c hbefore hroot hcall ih =>
    obtain ⟨content, hcontent⟩ := ih.holds hroot (known_of_call hcall)
    obtain ⟨t', hcall', hholds⟩ := hcontent.call hfree c
    obtain rfl := Option.some.inj (hcall.symm.trans hcall')
    obtain ⟨batch, hnodes⟩ := nodes_of_call hcall
    refine ⟨hholds.wellStored, ?_, fun other hother ↦ ?_⟩
    · rw [hnodes]
      exact finite_write batch ih.finite
    · rcases Set.mem_insert_iff.mp hother with rfl | hearlier
      · exact ⟨_, hholds.root⟩
      · exact ih.mapped other hearlier
  | @prune nodes nodes' roots fuel retain hbefore hprune ih =>
    obtain ⟨live, hlive, rfl⟩ := Option.map_eq_some_iff.mp hprune
    obtain ⟨stored, hstored⟩ := ih.finite
    refine ⟨ih.wellStored.sweep (marked_of_reachableNodes hlive), ⟨stored, ?_⟩, ih.mapped⟩
    intro hash hhash
    obtain ⟨node, hnode⟩ := Option.ne_none_iff_exists'.mp hhash
    exact hstored hash (by simp [(of_sweep_eq_some hnode).2])

/-- The empty tree is found in every store. -/
theorem SoundStore.holds_new (h : SoundStore nodes roots) : (Smt.new nodes).Holds noContent where
  wellStored := h.wellStored
  root_eq := (contentRoot_noContent _).symm
  known := Or.inl ⟨C.trie.keyBits, rfl⟩

end Stores

/-! ### A map with a canonical root -/

/-- The tree implements a map with a canonical root. From the empty tree, over the empty store or one
that other trees were kept and pruned in, no call misses a node, a key reads as what was last written
and not since removed, and the root is that of the full tree over the map: any other calls that
leave the same map lead to the same root. -/
theorem run_spec {nodes : Nodes Bytes32 Bytes C.Digest} {roots : Set C.Digest}
    (hstore : StoreHistory nodes roots) (hfree : C.trie.CollisionFree) (calls : List Smt.Call) :
    ∃ t, (Smt.new nodes).run calls = some t ∧
      (∀ key, t.get key = some (written noContent calls key)) ∧
      t.root = referenceRoot C (written noContent calls) ∧
      ∀ calls', written noContent calls' = written noContent calls →
        ∃ t', (Smt.new nodes).run calls' = some t' ∧ t'.root = t.root := by
  have hnew := (hstore.sound hfree).holds_new
  obtain ⟨t, hrun, hholds⟩ := hnew.run hfree calls
  refine ⟨t, hrun, hholds.get hfree, hholds.root, fun calls' hsame ↦ ?_⟩
  obtain ⟨t', hrun', hholds'⟩ := hnew.run hfree calls'
  exact ⟨t', hrun', by rw [hholds'.root, hsame, hholds.root]⟩

theorem run_spec_reinserted : ∃ t t' : Smt freeSuite,
    (Smt.new fun _ ↦ none).run [.update 5 [1], .update 6 [2], .remove 5] = some t ∧
      (Smt.new fun _ ↦ none).run [.update 6 [2]] = some t' ∧ t'.root = t.root := by
  obtain ⟨t, hrun, -, -, hcanonical⟩ := run_spec (C := freeSuite) .empty freeSuite_collisionFree
    [.update 5 [1], .update 6 [2], .remove 5]
  obtain ⟨t', hrun', hroot⟩ := hcanonical [.update 6 [2]] (by
    have hne : (5 : Bytes32) ≠ 6 := by decide
    have hgone : Function.update (Function.update noContent 5 (some [1])) 5 none =
        (noContent : Content Bytes32 Bytes) := by
      rw [Function.update_idem]
      exact Function.update_eq_self 5 noContent
    simp only [written, List.foldl_cons, List.foldl_nil, Smt.Call.onMap]
    rw [Function.update_comm hne.symm, hgone])
  exact ⟨t, t', hrun, hrun', hroot⟩

/-! ### Proofs -/

/-- The proofs of a stored tree are complete and sound. The proof of a key is accepted for exactly
what the key reads as, and every proof that is accepted, wherever it comes from, shows the map. -/
theorem Smt.Holds.proofs_exact {t : Smt C} {content : Content Bytes32 Bytes} (h : t.Holds content)
    (hfree : C.trie.CollisionFree) (key : Bytes32) :
    (∃ proof, t.prove key = some proof ∧
      ∀ expected, verifyProof C t.root key expected proof = true ↔ content key = expected) ∧
    ∀ expected proof, verifyProof C t.root key expected proof = true → content key = expected := by
  have hsound : ∀ expected proof, verifyProof C t.root key expected proof = true →
      content key = expected := by
    intro expected proof haccept
    rw [h.root] at haccept
    exact verify_sound hfree haccept
  obtain ⟨proof, hprove, haccept⟩ := TrieAt.prove hfree h key
  refine ⟨⟨proof, hprove, fun expected ↦ ⟨hsound expected proof, ?_⟩⟩, hsound⟩
  rintro rfl
  exact haccept

/-! ### Pruning -/

/-- Pruning keeps what it must. Over every store that calls and earlier prunes led to, a prune
returns. Each retained root whose tree was fully stored reads and proves as before, and calls from
it lead to the same roots as without the prune, again with a fully stored tree. -/
theorem prune_keeps {nodes : Nodes Bytes32 Bytes C.Digest} {roots : Set C.Digest}
    (hstore : StoreHistory nodes roots) (hfree : C.trie.CollisionFree) (retain : List C.Digest) :
    (∃ bound, ∀ fuel, bound ≤ fuel → (TrieScheme.prune fuel nodes retain).isSome = true) ∧
    ∀ fuel nodes', TrieScheme.prune fuel nodes retain = some nodes' →
      ∀ root ∈ retain, root ∈ roots → C.trie.FullyStored nodes C.trie.keyBits root →
        (∀ key, (Smt.fromRoot nodes' root).get key = (Smt.fromRoot nodes root).get key ∧
          (Smt.fromRoot nodes' root).prove key = (Smt.fromRoot nodes root).prove key) ∧
        ∀ calls, ∃ t t', (Smt.fromRoot nodes root).run calls = some t ∧
          (Smt.fromRoot nodes' root).run calls = some t' ∧ t'.root = t.root ∧
          C.trie.FullyStored t'.nodes C.trie.keyBits t'.root := by
  have hsound := hstore.sound hfree
  constructor
  · obtain ⟨stored, hstored⟩ := hsound.finite
    refine ⟨3 * stored.card + retain.length, fun fuel hfuel ↦ ?_⟩
    have hbound : 3 * (stored \ ([] : List C.Digest).toFinset).card + retain.reverse.length ≤
        fuel := by
      simpa using hfuel
    rw [TrieScheme.prune, Option.isSome_map]
    exact mark_isSome hstored hbound
  · intro fuel nodes' hprune root hretained hroot hfull
    obtain ⟨live, hlive, rfl⟩ := Option.map_eq_some_iff.mp hprune
    have hmarked := marked_of_reachableNodes hlive
    obtain ⟨content, hholds⟩ := hsound.holds hroot hfull.known
    have hkept : (Smt.fromRoot (sweep nodes live) root).Holds content :=
      TrieAt.sweep hholds hmarked hretained
    have hmem := hmarked.roots root hretained
    refine ⟨fun key ↦ ⟨get_sweep hmarked key hmem, prove_sweep hmarked key hmem⟩, fun calls ↦ ?_⟩
    obtain ⟨t, hrun, ht⟩ := hholds.run hfree calls
    obtain ⟨t', hrun', ht'⟩ := hkept.run hfree calls
    exact ⟨t, t', hrun, hrun', by rw [ht'.root, ht.root], ht'.fullyStored hfree⟩

theorem prune_keeps_latest : ∃ (t : Smt freeSuite) (nodes' : Nodes Bytes32 Bytes freeSuite.Digest)
    (fuel : ℕ), (Smt.new fun _ ↦ none).call (.update 5 [1]) = some t ∧
      TrieScheme.prune fuel t.nodes [t.root] = some nodes' ∧
      (Smt.fromRoot nodes' t.root).get 5 = some (some [1]) := by
  have hfree := freeSuite_collisionFree
  have hnew := ((StoreHistory.empty (C := freeSuite)).sound hfree).holds_new
  obtain ⟨t, hcall, ht⟩ := hnew.call hfree (.update 5 [1])
  have hstore : StoreHistory t.nodes (insert t.root {freeSuite.trie.emptyRoot}) :=
    .call (.update 5 [1]) .empty rfl hcall
  obtain ⟨⟨bound, hreturns⟩, hkeeps⟩ := prune_keeps hstore hfree [t.root]
  obtain ⟨nodes', hprune⟩ := Option.isSome_iff_exists.mp (hreturns bound le_rfl)
  obtain ⟨hreads, -⟩ := hkeeps bound nodes' hprune t.root List.mem_cons_self
    (Set.mem_insert _ _) (ht.fullyStored hfree)
  refine ⟨t, nodes', bound, hcall, hprune, ?_⟩
  rw [(hreads 5).1]
  exact ht.get hfree 5

end Latebra.Store
