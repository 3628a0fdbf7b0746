import Mathlib

/-!
# A persistent sparse Merkle tree

Keys are paths of `keyBits` bits. The tree of a key/value content is the full binary tree of that
depth; a subtree without keys hashes to a default value that depends only on its height, and only
the nodes that branch, plus one node for each subtree with a single key, are stored. Nodes are
stored under their own hash.

The code (`upsert`, `split`, `delete`, `collapse`) walks and rewrites stored nodes and fails when
a node it needs is missing. It is written over the number of levels that remain below a node, so
the depth of a node at height `n` is `keyBits - n`.

The abstract side is `contentRoot`, the root of the full tree over a content, a partial function
from keys to values. `contentRoot_injective` says that, when the hash has no collisions, the root
determines the height and the content. `TrieAt` relates a stored tree to its content, and the two
results of the module, `TrieAt.update` and `TrieAt.remove`, say that an update and a removal never
miss a node and lead to the tree of the changed content. So the root that the code computes
incrementally is the root from scratch, in whatever order the keys were applied.
-/

set_option autoImplicit false
set_option relaxedAutoImplicit false

namespace Latebra.Foundation

/-- The static data of a sparse Merkle tree: the bits of a key and the three hashes. A key is
determined by its first `keyBits` bits. -/
structure TrieScheme (Key Value Digest : Type) where
  keyBits : ℕ
  bit : Key → ℕ → Bool
  emptyLeaf : Digest
  hashLeaf : Key → Value → Digest
  hashInternal : Digest → Digest → Digest
  bit_injective : ∀ key key' : Key, (∀ i < keyBits, bit key i = bit key' i) → key = key'

/-- A stored node: a lone key in its subtree, or a node with two subtrees. -/
inductive TrieNode (Key Value Digest : Type) where
  | leaf (key : Key) (value : Value)
  | internal (left right : Digest)

namespace TrieScheme

section Code

variable {Key Value Digest : Type} [DecidableEq Key] [DecidableEq Digest]

/-- The nodes of a store, by their hash. -/
abbrev Nodes (Key Value Digest : Type) := Digest → Option (TrieNode Key Value Digest)

/-- Node writes in order. -/
abbrev Batch (Key Value Digest : Type) := List (Digest × TrieNode Key Value Digest)

/-- Apply the writes of a batch. -/
def write (nodes : Nodes Key Value Digest) (batch : Batch Key Value Digest) :
    Nodes Key Value Digest :=
  batch.foldl (fun nodes entry ↦ Function.update nodes entry.1 (some entry.2)) nodes

variable (T : TrieScheme Key Value Digest)

/-- The default hash of a subtree without keys, by its height. -/
def emptyAt : ℕ → Digest
  | 0 => T.emptyLeaf
  | n + 1 => T.hashInternal (emptyAt n) (emptyAt n)

/-- The root of an empty tree. -/
def emptyRoot : Digest := T.emptyAt T.keyBits

/-- The hash of a subtree that holds exactly one leaf: the leaf folded upward, paired with the
default hash on the empty side at each level. -/
def singleLeafSubtreeHash (key : Key) (leafHash : Digest) : ℕ → Digest
  | 0 => leafHash
  | n + 1 =>
    if T.bit key (T.keyBits - (n + 1)) = false then
      T.hashInternal (singleLeafSubtreeHash key leafHash n) (T.emptyAt n)
    else
      T.hashInternal (T.emptyAt n) (singleLeafSubtreeHash key leafHash n)

/-- Store a leaf as the sole occupant of a subtree. -/
def placeLeaf (n : ℕ) (key : Key) (value : Value) : Digest × Batch Key Value Digest :=
  let hash := T.singleLeafSubtreeHash key (T.hashLeaf key value) n
  (hash, [(hash, .leaf key value)])

/-- Store a node over two subtrees. -/
def storeInternal (left right : Digest) : Digest × Batch Key Value Digest :=
  let hash := T.hashInternal left right
  (hash, [(hash, .internal left right)])

/-- Two distinct keys in one subtree: the internal spine down to the bit where they diverge, with
a single-leaf subtree on each side below the split. Keys that never diverge run out of bits. -/
def split (keyA : Key) (valueA : Value) (keyB : Key) (valueB : Value) :
    ℕ → Option (Digest × Batch Key Value Digest)
  | 0 => none
  | n + 1 =>
    let depth := T.keyBits - (n + 1)
    if T.bit keyA depth = T.bit keyB depth then do
      let (below, batch) ← split keyA valueA keyB valueB n
      let (hash, batch') :=
        if T.bit keyA depth = false then T.storeInternal below (T.emptyAt n)
        else T.storeInternal (T.emptyAt n) below
      return (hash, batch ++ batch')
    else
      let (hashA, batchA) := T.placeLeaf n keyA valueA
      let (hashB, batchB) := T.placeLeaf n keyB valueB
      let (hash, batch) :=
        if T.bit keyA depth = false then T.storeInternal hashA hashB
        else T.storeInternal hashB hashA
      some (hash, batchA ++ batchB ++ batch)

/-- Insert or overwrite a key in the subtree of height `n` under a node. Returns the hash of the
rewritten subtree and the nodes to write, and fails on a node that is not stored. -/
def upsert (nodes : Nodes Key Value Digest) (key : Key) (value : Value) :
    ℕ → Digest → Option (Digest × Batch Key Value Digest)
  | n, node =>
    if node = T.emptyAt n then some (T.placeLeaf n key value)
    else
      match nodes node with
      | none => none
      | some (.leaf key' value') =>
        if key' = key then some (T.placeLeaf n key value)
        else T.split key value key' value' n
      | some (.internal left right) =>
        match n with
        | 0 => none
        | n + 1 =>
          if T.bit key (T.keyBits - (n + 1)) = false then do
            let (left, batch) ← upsert nodes key value n left
            let (hash, batch') := T.storeInternal left right
            return (hash, batch ++ batch')
          else do
            let (right, batch) ← upsert nodes key value n right
            let (hash, batch') := T.storeInternal left right
            return (hash, batch ++ batch')

/-- Rebuild the node of height `n + 1` after a child changed. When one side is empty and the other
is a stored lone leaf, the leaf is pulled up. -/
def collapse (nodes : Nodes Key Value Digest) (n : ℕ) (left right : Digest) :
    Digest × Batch Key Value Digest :=
  if left = T.emptyAt n ∧ right = T.emptyAt n then (T.emptyAt (n + 1), [])
  else if left = T.emptyAt n ∨ right = T.emptyAt n then
    match nodes (if left = T.emptyAt n then right else left) with
    | some (.leaf key value) => T.placeLeaf (n + 1) key value
    | _ => T.storeInternal left right
  else T.storeInternal left right

/-- Remove a key from the subtree of height `n` under a node. -/
def delete (nodes : Nodes Key Value Digest) (key : Key) :
    ℕ → Digest → Option (Digest × Batch Key Value Digest)
  | n, node =>
    if node = T.emptyAt n then some (node, [])
    else
      match nodes node with
      | none => none
      | some (.leaf key' _) => some (if key' = key then T.emptyAt n else node, [])
      | some (.internal left right) =>
        match n with
        | 0 => none
        | n + 1 =>
          if T.bit key (T.keyBits - (n + 1)) = false then do
            let (left, batch) ← delete nodes key n left
            let (hash, batch') := T.collapse nodes n left right
            return (hash, batch ++ batch')
          else do
            let (right, batch) ← delete nodes key n right
            let (hash, batch') := T.collapse nodes n left right
            return (hash, batch ++ batch')

/-- Insert or overwrite a key in a stored tree, given by its nodes and its root. -/
def update (tree : Nodes Key Value Digest × Digest) (key : Key) (value : Value) :
    Option (Nodes Key Value Digest × Digest) := do
  let (root, batch) ← T.upsert tree.1 key value T.keyBits tree.2
  return (write tree.1 batch, root)

/-- Remove a key from a stored tree. -/
def remove (tree : Nodes Key Value Digest × Digest) (key : Key) :
    Option (Nodes Key Value Digest × Digest) := do
  let (root, batch) ← T.delete tree.1 key T.keyBits tree.2
  return (write tree.1 batch, root)

/-- Build a tree from scratch, one update for each entry. -/
def build (entries : List (Key × Value)) : Option (Nodes Key Value Digest × Digest) :=
  entries.foldlM (fun tree entry ↦ T.update tree entry.1 entry.2) (fun _ ↦ none, T.emptyRoot)

end Code

/-! ### The tree of a content -/

section Content

variable {Key Value Digest : Type} (T : TrieScheme Key Value Digest)

/-- The hash has no collisions among leaves, internal nodes and the empty leaf. -/
structure CollisionFree : Prop where
  leaf_injective : ∀ key key' value value', T.hashLeaf key value = T.hashLeaf key' value' →
    key = key' ∧ value = value'
  internal_injective : ∀ left right left' right',
    T.hashInternal left right = T.hashInternal left' right' → left = left' ∧ right = right'
  leaf_ne_internal : ∀ key value left right, T.hashLeaf key value ≠ T.hashInternal left right
  leaf_ne_empty : ∀ key value, T.hashLeaf key value ≠ T.emptyLeaf
  internal_ne_empty : ∀ left right, T.hashInternal left right ≠ T.emptyLeaf

/-- A content: the values of the keys that are present. -/
abbrev Content (Key Value : Type) := Key → Option Value

/-- The content without keys. -/
def noContent : Content Key Value := fun _ ↦ none

/-- The keys of a content with a given bit at a given depth. -/
def restrict (content : Content Key Value) (depth : ℕ) (side : Bool) : Content Key Value :=
  fun key ↦ if T.bit key depth = side then content key else none

open Classical in
/-- The hash of a leaf slot: the hash of the key in it, if there is one. -/
noncomputable def slotDigest (content : Content Key Value) : Digest :=
  if h : ∃ entry : Key × Value, content entry.1 = some entry.2 then
    T.hashLeaf h.choose.1 h.choose.2
  else T.emptyLeaf

/-- The root of the full tree of height `n` over a content. -/
noncomputable def contentRoot : ℕ → Content Key Value → Digest
  | 0, content => T.slotDigest content
  | n + 1, content =>
    T.hashInternal (contentRoot n (T.restrict content (T.keyBits - (n + 1)) false))
      (contentRoot n (T.restrict content (T.keyBits - (n + 1)) true))

/-- The keys of the content lie in one subtree of height `n`. -/
def SamePrefix (n : ℕ) (content : Content Key Value) : Prop :=
  ∀ key key', content key ≠ none → content key' ≠ none →
    ∀ i < T.keyBits - n, T.bit key i = T.bit key' i

variable {T}

theorem restrict_eq_some {content : Content Key Value} {depth : ℕ} {side : Bool} {key : Key}
    (hpresent : T.restrict content depth side key ≠ none) :
    T.bit key depth = side ∧ content key ≠ none := by
  unfold restrict at hpresent
  split at hpresent
  · next hside => exact ⟨hside, hpresent⟩
  · exact absurd rfl hpresent

/-- The keys on one side of a node lie in one subtree of the next height. -/
theorem SamePrefix.restrict {n : ℕ} {content : Content Key Value}
    (hshared : T.SamePrefix (n + 1) content) (side : Bool) :
    T.SamePrefix n (T.restrict content (T.keyBits - (n + 1)) side) := by
  intro key key' hkey hkey' i hi
  obtain ⟨hside, hpresent⟩ := restrict_eq_some hkey
  obtain ⟨hside', hpresent'⟩ := restrict_eq_some hkey'
  rcases Nat.lt_or_ge i (T.keyBits - (n + 1)) with hbelow | habove
  · exact hshared key key' hpresent hpresent' i hbelow
  · obtain rfl : i = T.keyBits - (n + 1) := by omega
    rw [hside, hside']

@[simp]
theorem restrict_noContent (depth : ℕ) (side : Bool) :
    T.restrict (noContent : Content Key Value) depth side = noContent := by
  funext key
  simp [restrict, noContent]

theorem contentRoot_noContent (n : ℕ) :
    T.contentRoot n (noContent : Content Key Value) = T.emptyAt n := by
  induction n with
  | zero => simp [contentRoot, slotDigest, emptyAt, noContent]
  | succ n ih => simp only [contentRoot, restrict_noContent, ih, emptyAt]

/-- A leaf slot holds at most one key. -/
theorem SamePrefix.unique {content : Content Key Value} (hshared : T.SamePrefix 0 content)
    {key key' : Key} (hkey : content key ≠ none) (hkey' : content key' ≠ none) : key = key' :=
  T.bit_injective key key' (hshared key key' hkey hkey')

/-- The two sides of a node determine its content. -/
theorem eq_of_restrict_eq {content content' : Content Key Value} (depth : ℕ)
    (hsame : ∀ side, T.restrict content depth side = T.restrict content' depth side) :
    content = content' := by
  funext key
  have hkey := congrFun (hsame (T.bit key depth)) key
  simpa [restrict] using hkey

variable [DecidableEq Key]

theorem samePrefix_update_none {n : ℕ} {content : Content Key Value} (key : Key)
    (hshared : T.SamePrefix n content) : T.SamePrefix n (Function.update content key none) := by
  have hpresent : ∀ other, Function.update content key none other ≠ none → content other ≠ none := by
    intro other hother
    rw [Function.update_apply] at hother
    split at hother
    · exact absurd rfl hother
    · exact hother
  exact fun first second hfirst hsecond ↦
    hshared first second (hpresent first hfirst) (hpresent second hsecond)

theorem restrict_update (content : Content Key Value) (key : Key) (value : Option Value)
    (depth : ℕ) (side : Bool) :
    T.restrict (Function.update content key value) depth side =
      if T.bit key depth = side then Function.update (T.restrict content depth side) key value
      else T.restrict content depth side := by
  funext other
  by_cases hother : other = key
  · subst hother
    by_cases hside : T.bit other depth = side <;> simp [restrict, hside]
  · by_cases hside : T.bit key depth = side <;> simp [restrict, hside, hother]

theorem contentRoot_single (n : ℕ) (key : Key) (value : Value) :
    T.contentRoot n (Function.update noContent key (some value)) =
      T.singleLeafSubtreeHash key (T.hashLeaf key value) n := by
  induction n with
  | zero =>
    have hexists : ∃ entry : Key × Value,
        Function.update noContent key (some value) entry.1 = some entry.2 :=
      ⟨(key, value), by simp⟩
    have hspec := hexists.choose_spec
    rw [Function.update_apply] at hspec
    split at hspec
    · next hkey =>
      have hentry : hexists.choose = (key, value) := Prod.ext hkey (Option.some.inj hspec).symm
      rw [contentRoot, slotDigest, dif_pos hexists, hentry, singleLeafSubtreeHash]
    · exact nomatch hspec
  | succ n ih =>
    rw [contentRoot, restrict_update, restrict_update, restrict_noContent, restrict_noContent]
    cases hbit : T.bit key (T.keyBits - (n + 1)) <;>
      simp [singleLeafSubtreeHash, hbit, ih, contentRoot_noContent]

theorem SamePrefix.slot_cases {content : Content Key Value} (hshared : T.SamePrefix 0 content) :
    (content = noContent ∧ T.slotDigest content = T.emptyLeaf) ∨
      ∃ key value, content = Function.update noContent key (some value) ∧
        T.slotDigest content = T.hashLeaf key value := by
  by_cases hexists : ∃ entry : Key × Value, content entry.1 = some entry.2
  · refine Or.inr ⟨hexists.choose.1, hexists.choose.2, ?_, by rw [slotDigest, dif_pos hexists]⟩
    have hspec := hexists.choose_spec
    funext other
    rw [Function.update_apply]
    split
    · next hother => rw [hother, hspec]
    · next hother =>
      by_contra hpresent
      exact hother (hshared.unique hpresent (by rw [hspec]; simp))
  · refine Or.inl ⟨?_, by rw [slotDigest, dif_neg hexists]⟩
    funext key
    by_contra hpresent
    obtain ⟨value, hvalue⟩ := Option.ne_none_iff_exists'.mp hpresent
    exact hexists ⟨(key, value), hvalue⟩

/-- Without collisions, the root determines the height and the content of a tree. -/
theorem contentRoot_injective (hfree : T.CollisionFree) {n n' : ℕ}
    {content content' : Content Key Value} (hshared : T.SamePrefix n content)
    (hshared' : T.SamePrefix n' content')
    (hroot : T.contentRoot n content = T.contentRoot n' content') :
    n = n' ∧ content = content' := by
  induction n generalizing n' content content' with
  | zero =>
    cases n' with
    | zero =>
      refine ⟨rfl, ?_⟩
      simp only [contentRoot] at hroot
      rcases hshared.slot_cases with ⟨hcontent, hslot⟩ | ⟨key, value, hcontent, hslot⟩ <;>
        rcases hshared'.slot_cases with ⟨hcontent', hslot'⟩ | ⟨key', value', hcontent', hslot'⟩ <;>
        rw [hslot, hslot'] at hroot
      · rw [hcontent, hcontent']
      · exact absurd hroot.symm (hfree.leaf_ne_empty _ _)
      · exact absurd hroot (hfree.leaf_ne_empty _ _)
      · obtain ⟨rfl, rfl⟩ := hfree.leaf_injective _ _ _ _ hroot
        rw [hcontent, hcontent']
    | succ n' =>
      simp only [contentRoot] at hroot
      rcases hshared.slot_cases with ⟨-, hslot⟩ | ⟨key, value, -, hslot⟩ <;> rw [hslot] at hroot
      · exact absurd hroot.symm (hfree.internal_ne_empty _ _)
      · exact absurd hroot (hfree.leaf_ne_internal _ _ _ _)
  | succ n ih =>
    cases n' with
    | zero =>
      simp only [contentRoot] at hroot
      rcases hshared'.slot_cases with ⟨-, hslot⟩ | ⟨key, value, -, hslot⟩ <;> rw [hslot] at hroot
      · exact absurd hroot (hfree.internal_ne_empty _ _)
      · exact absurd hroot.symm (hfree.leaf_ne_internal _ _ _ _)
    | succ n' =>
      obtain ⟨hleft, hright⟩ := hfree.internal_injective _ _ _ _ hroot
      obtain ⟨rfl, hfalse⟩ := ih (hshared.restrict false) (hshared'.restrict false) hleft
      obtain ⟨-, htrue⟩ := ih (hshared.restrict true) (hshared'.restrict true) hright
      refine ⟨rfl, eq_of_restrict_eq (T := T) (T.keyBits - (n + 1)) fun side ↦ ?_⟩
      cases side
      · exact hfalse
      · exact htrue

end Content

/-! ### Stored trees -/

section Stored

variable {Key Value Digest : Type} [DecidableEq Digest] (T : TrieScheme Key Value Digest)

/-- A hash that can be followed: the default of some height, or the hash of a stored node. -/
def Known (stored : Digest → Prop) (hash : Digest) : Prop :=
  (∃ n, hash = T.emptyAt n) ∨ stored hash

/-- A node stored under its own hash, with subtrees that can be followed. -/
def EntryOK (stored : Digest → Prop) (hash : Digest) : TrieNode Key Value Digest → Prop
  | .leaf key value => ∃ n, hash = T.singleLeafSubtreeHash key (T.hashLeaf key value) n
  | .internal left right =>
    hash = T.hashInternal left right ∧ T.Known stored left ∧ T.Known stored right

/-- Every stored node is stored under its own hash, with subtrees that can be followed. -/
def WellStored (nodes : Nodes Key Value Digest) : Prop :=
  ∀ hash node, nodes hash = some node → T.EntryOK (fun other ↦ nodes other ≠ none) hash node

/-- The hashes that a store holds once a batch is applied. -/
def StoredWith (nodes : Nodes Key Value Digest) (batch : Batch Key Value Digest)
    (hash : Digest) : Prop :=
  nodes hash ≠ none ∨ ∃ entry ∈ batch, entry.1 = hash

/-- Every node of a batch is written under its own hash, with subtrees that can be followed once
the batch is applied. -/
def BatchOK (nodes : Nodes Key Value Digest) (batch : Batch Key Value Digest) : Prop :=
  ∀ entry ∈ batch, T.EntryOK (StoredWith nodes batch) entry.1 entry.2

/-- The outcome of rewriting a subtree of height `n`: its new hash is the root of a content and
can be followed once the batch is applied. -/
structure Rewrites (nodes : Nodes Key Value Digest) (n : ℕ) (content : Content Key Value)
    (result : Digest × Batch Key Value Digest) : Prop where
  hash_eq : result.1 = T.contentRoot n content
  batch_ok : T.BatchOK nodes result.2
  known : T.Known (StoredWith nodes result.2) result.1

/-- A store and a root that hold the tree of a content. -/
structure TrieAt (tree : Nodes Key Value Digest × Digest) (content : Content Key Value) :
    Prop where
  wellStored : T.WellStored tree.1
  root_eq : tree.2 = T.contentRoot T.keyBits content
  known : T.Known (fun hash ↦ tree.1 hash ≠ none) tree.2

variable {T} {nodes : Nodes Key Value Digest} {n : ℕ}

omit [DecidableEq Digest] in
theorem Known.mono {stored stored' : Digest → Prop} {hash : Digest}
    (hknown : T.Known stored hash) (hmono : ∀ other, stored other → stored' other) :
    T.Known stored' hash :=
  hknown.imp_right (hmono hash)

omit [DecidableEq Digest] in
theorem EntryOK.mono {stored stored' : Digest → Prop} {hash : Digest}
    {node : TrieNode Key Value Digest} (hentry : T.EntryOK stored hash node)
    (hmono : ∀ other, stored other → stored' other) : T.EntryOK stored' hash node := by
  cases node with
  | leaf key value => exact hentry
  | internal left right =>
    obtain ⟨hhash, hleft, hright⟩ := hentry
    exact ⟨hhash, hleft.mono hmono, hright.mono hmono⟩

omit [DecidableEq Digest] in
theorem StoredWith.append {batch batch' : Batch Key Value Digest} {hash : Digest}
    (hstored : StoredWith nodes batch hash) : StoredWith nodes (batch ++ batch') hash :=
  hstored.imp_right fun ⟨entry, hmem, hhash⟩ ↦ ⟨entry, List.mem_append_left _ hmem, hhash⟩

omit [DecidableEq Digest] in
theorem StoredWith.prepend {batch batch' : Batch Key Value Digest} {hash : Digest}
    (hstored : StoredWith nodes batch' hash) : StoredWith nodes (batch ++ batch') hash :=
  hstored.imp_right fun ⟨entry, hmem, hhash⟩ ↦ ⟨entry, List.mem_append_right _ hmem, hhash⟩

omit [DecidableEq Digest] in
theorem BatchOK.append {batch batch' : Batch Key Value Digest} (hbatch : T.BatchOK nodes batch)
    (hbatch' : T.BatchOK nodes batch') : T.BatchOK nodes (batch ++ batch') := by
  intro entry hmem
  rcases List.mem_append.mp hmem with hfirst | hsecond
  · exact (hbatch entry hfirst).mono fun other hother ↦ hother.append
  · exact (hbatch' entry hsecond).mono fun other hother ↦ hother.prepend

theorem write_cases (nodes : Nodes Key Value Digest) (batch : Batch Key Value Digest)
    {hash : Digest} {node : TrieNode Key Value Digest} (hnode : write nodes batch hash = some node) :
    (hash, node) ∈ batch ∨ nodes hash = some node := by
  induction batch generalizing nodes with
  | nil => exact Or.inr hnode
  | cons entry rest ih =>
    rcases ih (Function.update nodes entry.1 (some entry.2)) hnode with hmem | hbefore
    · exact Or.inl (List.mem_cons_of_mem _ hmem)
    · rw [Function.update_apply] at hbefore
      split at hbefore
      · next hhash =>
        refine Or.inl (List.mem_cons.mpr (Or.inl ?_))
        rw [hhash, ← Option.some.inj hbefore]
      · exact Or.inr hbefore

theorem write_ne_none {batch : Batch Key Value Digest} {hash : Digest}
    (hstored : StoredWith nodes batch hash) : write nodes batch hash ≠ none := by
  induction batch generalizing nodes with
  | nil =>
    rcases hstored with hnodes | ⟨entry, hmem, -⟩
    · exact hnodes
    · exact absurd hmem List.not_mem_nil
  | cons entry rest ih =>
    refine @ih (Function.update nodes entry.1 (some entry.2)) ?_
    rcases hstored with hnodes | ⟨other, hmem, hhash⟩
    · refine Or.inl ?_
      rw [Function.update_apply]
      split
      · exact nofun
      · exact hnodes
    · rcases List.mem_cons.mp hmem with rfl | hrest
      · exact Or.inl (by rw [← hhash, Function.update_self]; exact nofun)
      · exact Or.inr ⟨other, hrest, hhash⟩

theorem WellStored.write (hnodes : T.WellStored nodes) {batch : Batch Key Value Digest}
    (hbatch : T.BatchOK nodes batch) : T.WellStored (write nodes batch) := by
  intro hash node hnode
  rcases write_cases nodes batch hnode with hmem | hbefore
  · exact (hbatch _ hmem).mono fun other hother ↦ write_ne_none hother
  · exact (hnodes hash node hbefore).mono fun other hother ↦ write_ne_none (Or.inl hother)

omit [DecidableEq Digest] in
theorem batchOK_nil : T.BatchOK nodes [] := by
  intro entry hmem
  exact absurd hmem List.not_mem_nil

variable [DecidableEq Key]

omit [DecidableEq Digest] in
theorem placeLeaf_rewrites (key : Key) (value : Value) :
    T.Rewrites nodes n (Function.update noContent key (some value)) (T.placeLeaf n key value) where
  hash_eq := (contentRoot_single n key value).symm
  batch_ok := by
    intro entry hmem
    obtain rfl := List.mem_singleton.mp hmem
    exact ⟨n, rfl⟩
  known := Or.inr (Or.inr ⟨_, List.mem_singleton_self _, rfl⟩)

omit [DecidableEq Digest] [DecidableEq Key] in
/-- Storing a node over two subtrees that can be followed. -/
theorem storeInternal_rewrites {content : Content Key Value} {left right : Digest}
    {batch : Batch Key Value Digest} (hbatch : T.BatchOK nodes batch)
    (hleft : left = T.contentRoot n (T.restrict content (T.keyBits - (n + 1)) false))
    (hright : right = T.contentRoot n (T.restrict content (T.keyBits - (n + 1)) true))
    (hknownLeft : T.Known (StoredWith nodes batch) left)
    (hknownRight : T.Known (StoredWith nodes batch) right) :
    T.Rewrites nodes (n + 1) content
      ((T.storeInternal left right).1, batch ++ (T.storeInternal left right).2) where
  hash_eq := by simp only [storeInternal, contentRoot, hleft, hright]
  batch_ok := by
    intro entry hmem
    rcases List.mem_append.mp hmem with hold | hnew
    · exact (hbatch entry hold).mono fun other hother ↦ hother.append
    · obtain rfl := List.mem_singleton.mp hnew
      exact ⟨rfl, hknownLeft.mono fun other hother ↦ hother.append,
        hknownRight.mono fun other hother ↦ hother.append⟩
  known := by
    refine Or.inr (Or.inr ⟨(T.hashInternal left right, .internal left right), ?_, rfl⟩)
    exact List.mem_append_right _ (List.mem_singleton_self _)

omit [DecidableEq Digest] [DecidableEq Key] in
theorem samePrefix_noContent : T.SamePrefix n (noContent : Content Key Value) :=
  fun _ _ hkey ↦ absurd rfl hkey

omit [DecidableEq Digest] in
theorem samePrefix_single (key : Key) (value : Value) :
    T.SamePrefix n (Function.update noContent key (some value)) := by
  have hkey : ∀ other, Function.update noContent key (some value) other ≠ none → other = key := by
    intro other hother
    by_contra hne
    exact hother (by rw [Function.update_of_ne hne]; rfl)
  intro first second hfirst hsecond i _
  rw [hkey first hfirst, hkey second hsecond]

omit [DecidableEq Digest] in
/-- A subtree hashes to the default exactly when it has no keys. -/
theorem contentRoot_eq_emptyAt_iff (hfree : T.CollisionFree) {content : Content Key Value}
    (hshared : T.SamePrefix n content) :
    T.contentRoot n content = T.emptyAt n ↔ content = noContent := by
  constructor
  · intro hroot
    have hsame := hroot.trans (contentRoot_noContent n).symm
    exact (contentRoot_injective hfree hshared samePrefix_noContent hsame).2
  · rintro rfl
    exact contentRoot_noContent n

omit [DecidableEq Digest] in
/-- A subtree with keys that can be followed is stored. -/
theorem Known.stored (hfree : T.CollisionFree) {stored : Digest → Prop}
    {content : Content Key Value} (hshared : T.SamePrefix n content)
    (hknown : T.Known stored (T.contentRoot n content)) (hcontent : content ≠ noContent) :
    stored (T.contentRoot n content) := by
  rcases hknown with ⟨n', hempty⟩ | hstored
  · have hsame := hempty.trans (contentRoot_noContent n').symm
    exact absurd (contentRoot_injective hfree hshared samePrefix_noContent hsame).2 hcontent
  · exact hstored

omit [DecidableEq Digest] in
/-- A lone leaf stored under the root of a content is that content. -/
theorem EntryOK.leaf_content (hfree : T.CollisionFree) {stored : Digest → Prop}
    {content : Content Key Value} (hshared : T.SamePrefix n content) {key : Key} {value : Value}
    (hentry : T.EntryOK stored (T.contentRoot n content) (.leaf key value)) :
    content = Function.update noContent key (some value) := by
  obtain ⟨n', hhash⟩ := hentry
  rw [← contentRoot_single] at hhash
  exact (contentRoot_injective hfree hshared (samePrefix_single key value) hhash).2

omit [DecidableEq Digest] in
/-- A node stored under the root of a content has a height, and its subtrees are the two sides of
the content. -/
theorem EntryOK.internal_content (hfree : T.CollisionFree) {stored : Digest → Prop}
    {content : Content Key Value} (hshared : T.SamePrefix n content) {left right : Digest}
    (hentry : T.EntryOK stored (T.contentRoot n content)
      (.internal left right : TrieNode Key Value Digest)) :
    ∃ n', n = n' + 1 ∧ left = T.contentRoot n' (T.restrict content (T.keyBits - (n' + 1)) false) ∧
      right = T.contentRoot n' (T.restrict content (T.keyBits - (n' + 1)) true) ∧
      T.Known stored left ∧ T.Known stored right := by
  obtain ⟨hhash, hleft, hright⟩ := hentry
  cases n with
  | zero =>
    simp only [contentRoot] at hhash
    rcases hshared.slot_cases with ⟨-, hslot⟩ | ⟨key, value, -, hslot⟩ <;> rw [hslot] at hhash
    · exact absurd hhash.symm (hfree.internal_ne_empty _ _)
    · exact absurd hhash (hfree.leaf_ne_internal _ _ _ _)
  | succ n' =>
    obtain ⟨hl, hr⟩ := hfree.internal_injective _ _ _ _ hhash
    exact ⟨n', rfl, hl.symm, hr.symm, hleft, hright⟩

omit [DecidableEq Digest] in
theorem split_rewrites {keyA keyB : Key} (hne : keyA ≠ keyB) (valueA valueB : Value)
    (hshared : T.SamePrefix n
      (Function.update (Function.update noContent keyB (some valueB)) keyA (some valueA))) :
    ∃ result, T.split keyA valueA keyB valueB n = some result ∧
      T.Rewrites nodes n
        (Function.update (Function.update noContent keyB (some valueB)) keyA (some valueA))
        result := by
  induction n with
  | zero =>
    refine absurd (hshared.unique ?_ ?_) hne
    · simp
    · simp [Function.update_of_ne hne.symm]
  | succ n ih =>
    rw [split]
    cases hbitA : T.bit keyA (T.keyBits - (n + 1)) <;>
      cases hbitB : T.bit keyB (T.keyBits - (n + 1)) <;> dsimp only
    -- The keys agree on this bit: the other side is empty.
    · have hside := hshared.restrict false
      simp only [restrict_update, restrict_noContent, hbitA, hbitB, if_true] at hside
      obtain ⟨⟨below, batch⟩, hsplit, hrewrites⟩ := ih hside
      refine ⟨_, by simp only [hsplit, if_true]; rfl, ?_⟩
      refine storeInternal_rewrites hrewrites.batch_ok ?_ ?_ hrewrites.known (Or.inl ⟨n, rfl⟩)
      · simpa [restrict_update, hbitA, hbitB] using hrewrites.hash_eq
      · simp [restrict_update, hbitA, hbitB, contentRoot_noContent]
    -- The keys part here: a lone leaf on each side.
    · have hrewritesA : T.Rewrites nodes n _ _ := placeLeaf_rewrites keyA valueA
      have hrewritesB : T.Rewrites nodes n _ _ := placeLeaf_rewrites keyB valueB
      refine ⟨_, rfl, ?_⟩
      refine storeInternal_rewrites (hrewritesA.batch_ok.append hrewritesB.batch_ok) ?_ ?_
        (hrewritesA.known.mono fun other hother ↦ hother.append)
        (hrewritesB.known.mono fun other hother ↦ hother.prepend)
      · simpa [restrict_update, hbitA, hbitB] using hrewritesA.hash_eq
      · simpa [restrict_update, hbitA, hbitB] using hrewritesB.hash_eq
    · have hrewritesA : T.Rewrites nodes n _ _ := placeLeaf_rewrites keyA valueA
      have hrewritesB : T.Rewrites nodes n _ _ := placeLeaf_rewrites keyB valueB
      refine ⟨_, rfl, ?_⟩
      refine storeInternal_rewrites (hrewritesA.batch_ok.append hrewritesB.batch_ok) ?_ ?_
        (hrewritesB.known.mono fun other hother ↦ hother.prepend)
        (hrewritesA.known.mono fun other hother ↦ hother.append)
      · simpa [restrict_update, hbitA, hbitB] using hrewritesB.hash_eq
      · simpa [restrict_update, hbitA, hbitB] using hrewritesA.hash_eq
    · have hside := hshared.restrict true
      simp only [restrict_update, restrict_noContent, hbitA, hbitB, if_true] at hside
      obtain ⟨⟨below, batch⟩, hsplit, hrewrites⟩ := ih hside
      refine ⟨_, by simp only [hsplit, if_true]; rfl, ?_⟩
      refine storeInternal_rewrites hrewrites.batch_ok ?_ ?_ (Or.inl ⟨n, rfl⟩) hrewrites.known
      · simp [restrict_update, hbitA, hbitB, contentRoot_noContent]
      · simpa [restrict_update, hbitA, hbitB] using hrewrites.hash_eq

omit [DecidableEq Digest] in
theorem samePrefix_of_update {content : Content Key Value} {key : Key} {value : Value}
    (hshared : T.SamePrefix n (Function.update content key (some value))) :
    T.SamePrefix n content := by
  have hpresent : ∀ other, content other ≠ none →
      Function.update content key (some value) other ≠ none := by
    intro other hother
    rw [Function.update_apply]
    split
    · exact nofun
    · exact hother
  exact fun first second hfirst hsecond ↦
    hshared first second (hpresent first hfirst) (hpresent second hsecond)

/-- An upsert in a well-stored subtree never misses a node and rewrites the subtree to the changed
content. -/
theorem upsert_rewrites (hfree : T.CollisionFree) (hnodes : T.WellStored nodes)
    {content : Content Key Value} {key : Key} {value : Value}
    (hshared : T.SamePrefix n (Function.update content key (some value)))
    (hknown : T.Known (fun hash ↦ nodes hash ≠ none) (T.contentRoot n content)) :
    ∃ result, T.upsert nodes key value n (T.contentRoot n content) = some result ∧
      T.Rewrites nodes n (Function.update content key (some value)) result := by
  induction n using Nat.strong_induction_on generalizing content with
  | _ n ih =>
  have hshared' := samePrefix_of_update hshared
  rw [upsert]
  by_cases hempty : content = noContent
  · subst hempty
    rw [if_pos (contentRoot_noContent n)]
    exact ⟨_, rfl, placeLeaf_rewrites key value⟩
  rw [if_neg (mt (contentRoot_eq_emptyAt_iff hfree hshared').mp hempty)]
  obtain ⟨node, hnode⟩ := Option.ne_none_iff_exists'.mp (hknown.stored hfree hshared' hempty)
  have hentry := hnodes _ node hnode
  simp only [hnode]
  cases node with
  | leaf key' value' =>
    obtain rfl := hentry.leaf_content hfree hshared'
    by_cases hkey : key' = key
    · subst hkey
      rw [Function.update_idem]
      exact ⟨_, if_pos rfl, placeLeaf_rewrites key' value⟩
    · simp only [if_neg hkey]
      exact split_rewrites (Ne.symm hkey) value value' hshared
  | internal left right =>
    obtain ⟨n', rfl, rfl, rfl, hleft, hright⟩ := hentry.internal_content hfree hshared'
    have hbelow : ∀ batch hash, T.Known (fun hash ↦ nodes hash ≠ none) hash →
        T.Known (StoredWith nodes batch) hash :=
      fun batch hash hhash ↦ hhash.mono fun other hother ↦ Or.inl hother
    cases hbit : T.bit key (T.keyBits - (n' + 1)) with
    | false =>
      have hside := hshared.restrict false
      rw [restrict_update, if_pos hbit] at hside
      obtain ⟨⟨hash, batch⟩, hupsert, hrewrites⟩ := ih n' (Nat.lt_succ_self n') hside hleft
      refine ⟨_, by simp only [hbit, hupsert, if_true]; rfl, ?_⟩
      refine storeInternal_rewrites hrewrites.batch_ok ?_ ?_ hrewrites.known
        (hbelow batch _ hright)
      · rw [restrict_update, if_pos hbit]
        exact hrewrites.hash_eq
      · rw [restrict_update, if_neg (by simp [hbit])]
    | true =>
      have hside := hshared.restrict true
      rw [restrict_update, if_pos hbit] at hside
      obtain ⟨⟨hash, batch⟩, hupsert, hrewrites⟩ := ih n' (Nat.lt_succ_self n') hside hright
      refine ⟨_, by simp only [hbit, hupsert]; rfl, ?_⟩
      refine storeInternal_rewrites hrewrites.batch_ok ?_ ?_ (hbelow batch _ hleft)
        hrewrites.known
      · rw [restrict_update, if_neg (by simp [hbit])]
      · rw [restrict_update, if_pos hbit]
        exact hrewrites.hash_eq

omit [DecidableEq Digest] in
/-- A content with a lone key on one side and nothing on the other is that key. -/
theorem eq_single_of_sides {content : Content Key Value} {depth : ℕ} {side : Bool} {key : Key}
    {value : Value} (hother : T.restrict content depth (!side) = noContent)
    (hside : T.restrict content depth side = Function.update noContent key (some value)) :
    content = Function.update noContent key (some value) := by
  have hpresent : T.restrict content depth side key ≠ none := by
    rw [hside]
    simp
  have hbit : T.bit key depth = side := (restrict_eq_some hpresent).1
  refine eq_of_restrict_eq (T := T) depth fun other ↦ ?_
  rw [restrict_update, restrict_noContent, hbit]
  rcases Bool.eq_or_eq_not other side with rfl | rfl
  · rw [if_pos rfl, hside]
  · rw [if_neg (by simp), hother]

/-- Collapsing a node rewrites it to the content of its two sides. -/
theorem collapse_rewrites (hfree : T.CollisionFree) (hnodes : T.WellStored nodes)
    {content : Content Key Value} (hshared : T.SamePrefix (n + 1) content) {left right : Digest}
    {batch : Batch Key Value Digest} (hbatch : T.BatchOK nodes batch)
    (hleft : left = T.contentRoot n (T.restrict content (T.keyBits - (n + 1)) false))
    (hright : right = T.contentRoot n (T.restrict content (T.keyBits - (n + 1)) true))
    (hknownLeft : T.Known (StoredWith nodes batch) left)
    (hknownRight : T.Known (StoredWith nodes batch) right) :
    T.Rewrites nodes (n + 1) content
      ((T.collapse nodes n left right).1, batch ++ (T.collapse nodes n left right).2) := by
  have hinternal := storeInternal_rewrites hbatch hleft hright hknownLeft hknownRight
  have hleftEmpty := contentRoot_eq_emptyAt_iff hfree (hshared.restrict false)
  have hrightEmpty := contentRoot_eq_emptyAt_iff hfree (hshared.restrict true)
  rw [← hleft] at hleftEmpty
  rw [← hright] at hrightEmpty
  -- A lone leaf on one side, with nothing on the other, is pulled up.
  have hpull : ∀ key value, content = Function.update noContent key (some value) →
      T.Rewrites nodes (n + 1) content ((T.placeLeaf (n + 1) key value).1,
        batch ++ (T.placeLeaf (n + 1) key value).2) := by
    rintro key value rfl
    have hplaced : T.Rewrites nodes (n + 1) _ _ := placeLeaf_rewrites key value
    exact ⟨hplaced.hash_eq, hbatch.append hplaced.batch_ok,
      hplaced.known.mono fun other hother ↦ hother.prepend⟩
  unfold collapse
  split_ifs with hboth hone hempty
  · have hcontent : content = noContent := by
      refine eq_of_restrict_eq (T := T) (T.keyBits - (n + 1)) fun side ↦ ?_
      rw [restrict_noContent]
      cases side
      · exact hleftEmpty.mp hboth.1
      · exact hrightEmpty.mp hboth.2
    refine ⟨by rw [hcontent, contentRoot_noContent], ?_, Or.inl ⟨n + 1, rfl⟩⟩
    rwa [List.append_nil]
  · split
    · next key value hnode =>
      have hentry := hnodes _ _ hnode
      rw [hright] at hentry
      exact hpull key value (eq_single_of_sides (T := T) (hleftEmpty.mp hempty)
        (hentry.leaf_content hfree (hshared.restrict true)))
    · exact hinternal
  · split
    · next key value hnode =>
      have hentry := hnodes _ _ hnode
      rw [hleft] at hentry
      exact hpull key value (eq_single_of_sides (T := T) (hrightEmpty.mp (hone.resolve_left hempty))
        (hentry.leaf_content hfree (hshared.restrict false)))
    · exact hinternal
  · exact hinternal

/-- A removal from a well-stored subtree never misses a node and rewrites the subtree to the
content without the key. -/
theorem delete_rewrites (key : Key) (hfree : T.CollisionFree) (hnodes : T.WellStored nodes)
    {content : Content Key Value} (hshared : T.SamePrefix n content)
    (hknown : T.Known (fun hash ↦ nodes hash ≠ none) (T.contentRoot n content)) :
    ∃ result, T.delete nodes key n (T.contentRoot n content) = some result ∧
      T.Rewrites nodes n (Function.update content key none) result := by
  induction n using Nat.strong_induction_on generalizing content with
  | _ n ih =>
  have hstored : ∀ batch hash, T.Known (fun hash ↦ nodes hash ≠ none) hash →
      T.Known (StoredWith nodes batch) hash :=
    fun batch hash hhash ↦ hhash.mono fun other hother ↦ Or.inl hother
  rw [delete]
  by_cases hempty : content = noContent
  · subst hempty
    rw [if_pos (contentRoot_noContent n)]
    have hsame : Function.update noContent key none = (noContent : Content Key Value) :=
      Function.update_eq_self key noContent
    exact ⟨_, rfl, by rw [hsame], batchOK_nil, hstored [] _ hknown⟩
  rw [if_neg (mt (contentRoot_eq_emptyAt_iff hfree hshared).mp hempty)]
  obtain ⟨node, hnode⟩ := Option.ne_none_iff_exists'.mp (hknown.stored hfree hshared hempty)
  have hentry := hnodes _ node hnode
  simp only [hnode]
  cases node with
  | leaf key' value' =>
    obtain rfl := hentry.leaf_content hfree hshared
    by_cases hkey : key' = key
    · subst hkey
      have hgone : Function.update (Function.update noContent key' (some value')) key' none =
          (noContent : Content Key Value) := by
        rw [Function.update_idem]
        exact Function.update_eq_self key' noContent
      refine ⟨_, by simp only [if_true]; rfl, ?_, batchOK_nil, Or.inl ⟨n, rfl⟩⟩
      rw [hgone, contentRoot_noContent]
    · have hkept : Function.update (Function.update noContent key' (some value')) key none =
          (Function.update noContent key' (some value') : Content Key Value) := by
        refine Function.update_eq_iff.mpr ⟨?_, fun other _ ↦ rfl⟩
        rw [Function.update_of_ne (Ne.symm hkey)]
        rfl
      refine ⟨_, by simp only [if_neg hkey]; rfl, ?_, batchOK_nil, hstored [] _ hknown⟩
      rw [hkept]
  | internal left right =>
    obtain ⟨n', rfl, rfl, rfl, hleft, hright⟩ := hentry.internal_content hfree hshared
    have hshared' := samePrefix_update_none key hshared
    cases hbit : T.bit key (T.keyBits - (n' + 1)) with
    | false =>
      obtain ⟨⟨hash, batch⟩, hdelete, hrewrites⟩ :=
        ih n' (Nat.lt_succ_self n') (hshared.restrict false) hleft
      refine ⟨_, by simp only [hbit, hdelete, if_true]; rfl, ?_⟩
      refine collapse_rewrites hfree hnodes hshared' hrewrites.batch_ok ?_ ?_ hrewrites.known
        (hstored batch _ hright)
      · rw [restrict_update, if_pos hbit]
        exact hrewrites.hash_eq
      · rw [restrict_update, if_neg (by simp [hbit])]
    | true =>
      obtain ⟨⟨hash, batch⟩, hdelete, hrewrites⟩ :=
        ih n' (Nat.lt_succ_self n') (hshared.restrict true) hright
      refine ⟨_, by simp only [hbit, hdelete]; rfl, ?_⟩
      refine collapse_rewrites hfree hnodes hshared' hrewrites.batch_ok ?_ ?_
        (hstored batch _ hleft) hrewrites.known
      · rw [restrict_update, if_neg (by simp [hbit])]
      · rw [restrict_update, if_pos hbit]
        exact hrewrites.hash_eq

omit [DecidableEq Digest] [DecidableEq Key] in
theorem samePrefix_keyBits (content : Content Key Value) : T.SamePrefix T.keyBits content := by
  intro key key' _ _ i hi
  exact absurd hi (by simp)

omit [DecidableEq Key] in
/-- Applying a rewrite of the whole tree. -/
theorem TrieAt.of_rewrites {tree : Nodes Key Value Digest × Digest}
    (hnodes : T.WellStored tree.1) {content : Content Key Value}
    {result : Digest × Batch Key Value Digest}
    (hrewrites : T.Rewrites tree.1 T.keyBits content result) :
    T.TrieAt (write tree.1 result.2, result.1) content where
  wellStored := hnodes.write hrewrites.batch_ok
  root_eq := hrewrites.hash_eq
  known := hrewrites.known.mono fun _ hstored ↦ write_ne_none hstored

omit [DecidableEq Digest] [DecidableEq Key] in
/-- The empty tree. -/
theorem TrieAt.empty : T.TrieAt (fun _ ↦ none, T.emptyRoot) noContent where
  wellStored := nofun
  root_eq := (contentRoot_noContent _).symm
  known := Or.inl ⟨T.keyBits, rfl⟩

/-- An update of a stored tree succeeds and leads to the tree of the changed content. -/
theorem TrieAt.update (hfree : T.CollisionFree) {tree : Nodes Key Value Digest × Digest}
    {content : Content Key Value} (htree : T.TrieAt tree content) (key : Key) (value : Value) :
    ∃ tree', T.update tree key value = some tree' ∧
      T.TrieAt tree' (Function.update content key (some value)) := by
  have hknown := htree.known
  rw [htree.root_eq] at hknown
  obtain ⟨result, hupsert, hrewrites⟩ := upsert_rewrites hfree htree.wellStored
    (samePrefix_keyBits (Function.update content key (some value))) hknown
  rw [← htree.root_eq] at hupsert
  exact ⟨_, by rw [TrieScheme.update, hupsert]; rfl, .of_rewrites htree.wellStored hrewrites⟩

/-- A removal from a stored tree succeeds and leads to the tree without the key. -/
theorem TrieAt.remove (hfree : T.CollisionFree) {tree : Nodes Key Value Digest × Digest}
    {content : Content Key Value} (htree : T.TrieAt tree content) (key : Key) :
    ∃ tree', T.remove tree key = some tree' ∧
      T.TrieAt tree' (Function.update content key none) := by
  have hknown := htree.known
  rw [htree.root_eq] at hknown
  obtain ⟨result, hdelete, hrewrites⟩ := delete_rewrites key hfree htree.wellStored
    (samePrefix_keyBits content) hknown
  rw [← htree.root_eq] at hdelete
  exact ⟨_, by rw [TrieScheme.remove, hdelete]; rfl, .of_rewrites htree.wellStored hrewrites⟩

theorem TrieAt.foldlM_update (hfree : T.CollisionFree) {tree : Nodes Key Value Digest × Digest}
    {before content : Content Key Value} (htree : T.TrieAt tree before)
    {entries : List (Key × Value)} (hentries : ∀ entry ∈ entries, content entry.1 = some entry.2) :
    ∃ tree', entries.foldlM (fun tree entry ↦ T.update tree entry.1 entry.2) tree = some tree' ∧
      T.TrieAt tree' fun key ↦ if key ∈ entries.map Prod.fst then content key else before key := by
  induction entries generalizing tree before with
  | nil => exact ⟨tree, rfl, by simpa using htree⟩
  | cons entry rest ih =>
    obtain ⟨tree₁, hupdate, htree₁⟩ := htree.update hfree entry.1 entry.2
    obtain ⟨tree', hrest, htree'⟩ := ih htree₁ fun later hlater ↦
      hentries later (List.mem_cons_of_mem _ hlater)
    refine ⟨tree', by rw [List.foldlM_cons, hupdate]; exact hrest, ?_⟩
    convert htree' using 1
    funext key
    have hentry := hentries entry List.mem_cons_self
    rw [List.map_cons]
    by_cases hkey : key = entry.1
    · simp [hkey, hentry]
    · simp only [List.mem_cons, hkey, false_or, Function.update_of_ne hkey]

/-- Building from scratch leads to the tree of the content that the entries list. -/
theorem TrieAt.build (hfree : T.CollisionFree) {content : Content Key Value}
    {entries : List (Key × Value)}
    (hentries : ∀ key value, (key, value) ∈ entries ↔ content key = some value) :
    ∃ tree, T.build entries = some tree ∧ T.TrieAt tree content := by
  obtain ⟨tree, hbuild, htree⟩ := TrieAt.empty.foldlM_update (T := T) hfree
    fun entry hentry ↦ (hentries entry.1 entry.2).mp hentry
  refine ⟨tree, hbuild, ?_⟩
  convert htree using 1
  funext key
  split
  · rfl
  · next habsent =>
    cases hvalue : content key with
    | none => rfl
    | some value =>
      exact absurd (List.mem_map_of_mem ((hentries key value).mpr hvalue)) habsent

end Stored

/-! ### Trees of indexed leaves -/

section Indexed

variable {ι Key Value Digest : Type}

open Classical in
/-- The content of a family of leaves, each at the path of its index. -/
noncomputable def contentOf (path : ι → Key) (leaf : ι → Option Value) : Content Key Value :=
  fun key ↦ if h : ∃ index, path index = key ∧ leaf index ≠ none then leaf h.choose else none

variable {path : ι → Key} {leaf leaf' : ι → Option Value}

/-- On indices that share no path, a family of leaves reads back from its content. -/
theorem contentOf_path {indices : Set ι} (hpath : Set.InjOn path indices)
    (hleaf : ∀ index, leaf index ≠ none → index ∈ indices) {index : ι} (hindex : index ∈ indices) :
    contentOf path leaf (path index) = leaf index := by
  unfold contentOf
  split
  · next hexists =>
    obtain ⟨hsame, hpresent⟩ := hexists.choose_spec
    rw [hpath (hleaf _ hpresent) hindex hsame]
  · next habsent =>
    by_contra hne
    exact habsent ⟨index, rfl, fun hnone ↦ hne hnone.symm⟩

theorem exists_of_contentOf_eq_some {key : Key} {value : Value}
    (hvalue : contentOf path leaf key = some value) :
    ∃ index, path index = key ∧ leaf index = some value := by
  unfold contentOf at hvalue
  split at hvalue
  · next hexists => exact ⟨hexists.choose, hexists.choose_spec.1, hvalue⟩
  · exact nomatch hvalue

/-- A key that is the path of no present leaf is empty. -/
theorem contentOf_eq_none {key : Key} (habsent : ∀ index, path index = key → leaf index = none) :
    contentOf path leaf key = none :=
  dif_neg fun ⟨index, hkey, hpresent⟩ ↦ hpresent (habsent index hkey)

/-- Replacing one leaf changes the content at its path only. -/
theorem contentOf_update [DecidableEq ι] [DecidableEq Key] {indices : Set ι}
    (hpath : Set.InjOn path indices) (hleaf : ∀ index, leaf index ≠ none → index ∈ indices)
    {index : ι} (hindex : index ∈ indices) (value : Option Value) :
    contentOf path (Function.update leaf index value) =
      Function.update (contentOf path leaf) (path index) value := by
  have hupdated : ∀ other, Function.update leaf index value other ≠ none → other ∈ indices := by
    intro other hother
    by_cases hsame : other = index
    · rwa [hsame]
    · rw [Function.update_of_ne hsame] at hother
      exact hleaf other hother
  funext key
  by_cases hkey : ∃ other ∈ indices, path other = key
  · obtain ⟨other, hother, rfl⟩ := hkey
    rw [contentOf_path hpath hupdated hother]
    by_cases hsame : other = index
    · rw [hsame, Function.update_self, Function.update_self]
    · rw [Function.update_of_ne hsame, contentOf_path hpath hleaf hother |>.symm,
        Function.update_of_ne fun heq ↦ hsame (hpath hother hindex heq)]
  · have hnowhere : ∀ other, other ∈ indices → path other ≠ key :=
      fun other hother hsame ↦ hkey ⟨other, hother, hsame⟩
    rw [Function.update_of_ne fun hsame ↦ hnowhere index hindex hsame.symm,
      contentOf_eq_none fun other hsame ↦ ?_, contentOf_eq_none fun other hsame ↦ ?_]
    · by_contra hpresent
      exact hnowhere other (hleaf other hpresent) hsame
    · by_contra hpresent
      exact hnowhere other (hupdated other hpresent) hsame

/-- Families with the same content have the same leaves. -/
theorem leaf_eq_of_contentOf_eq {indices : Set ι} (hpath : Set.InjOn path indices)
    (hleaf : ∀ index, leaf index ≠ none → index ∈ indices)
    (hleaf' : ∀ index, leaf' index ≠ none → index ∈ indices)
    (hsame : contentOf path leaf = contentOf path leaf') : leaf = leaf' := by
  funext index
  by_cases hindex : index ∈ indices
  · rw [← contentOf_path hpath hleaf hindex, hsame, contentOf_path hpath hleaf' hindex]
  · have hnone := not_imp_comm.mp (hleaf index) hindex
    have hnone' := not_imp_comm.mp (hleaf' index) hindex
    rw [hnone, hnone']

end Indexed

end TrieScheme

end Latebra.Foundation
