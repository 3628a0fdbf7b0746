import Latebra.Foundation.MerkleProofs

/-!
# Pruning a store of Merkle trees

Every rewrite of a tree leaves the nodes of its old path behind. `mark` follows the stored nodes
from a list of retained roots, and `sweep` drops every node that was not marked.

The marked nodes are closed under stored children (`Marked`), so a tree under a retained root keeps
all of its nodes. `get_sweep` and `prove_sweep` say that a descent in it meets the same nodes as
before, and `TrieAt.sweep` that it is still the stored tree of its content, so that whatever is done
with it later leads to the same roots. `mark_isSome` bounds the steps of the mark phase by the
size of the store.
-/

set_option autoImplicit false
set_option relaxedAutoImplicit false

namespace Latebra.Foundation.TrieScheme

section Code

variable {Key Value Digest : Type} [DecidableEq Digest]

/-- The mark phase: the stored nodes that are reachable from a stack, on top of those marked
already. There is no answer when the fuel runs out. -/
def mark (nodes : Nodes Key Value Digest) :
    ℕ → List Digest → List Digest → Option (List Digest)
  | _, [], live => some live
  | 0, _ :: _, _ => none
  | fuel + 1, hash :: stack, live =>
    if hash ∈ live then mark nodes fuel stack live
    else
      match nodes hash with
      | none => mark nodes fuel stack live
      | some (.leaf _ _) => mark nodes fuel stack (hash :: live)
      | some (.internal left right) => mark nodes fuel (right :: left :: stack) (hash :: live)

/-- Every stored node that is reachable from a list of roots. -/
def reachableNodes (fuel : ℕ) (nodes : Nodes Key Value Digest) (roots : List Digest) :
    Option (List Digest) :=
  mark nodes fuel roots.reverse []

/-- The sweep phase: drop every node that is not marked. -/
def sweep (nodes : Nodes Key Value Digest) (live : List Digest) : Nodes Key Value Digest :=
  fun hash ↦ if hash ∈ live then nodes hash else none

/-- Mark-and-sweep: drop every node that is not reachable from a retained root. -/
def prune (fuel : ℕ) (nodes : Nodes Key Value Digest) (retain : List Digest) :
    Option (Nodes Key Value Digest) :=
  (reachableNodes fuel nodes retain).map (sweep nodes)

end Code

section Marking

variable {Key Value Digest : Type} {nodes : Nodes Key Value Digest} {live stack : List Digest}

/-- The stored children of the marked nodes are marked or still to be visited. -/
def ClosedUpTo (nodes : Nodes Key Value Digest) (stack live : List Digest) : Prop :=
  ∀ hash ∈ live, ∀ left right, nodes hash = some (.internal left right) →
    ∀ child, child = left ∨ child = right → nodes child ≠ none → child ∈ live ∨ child ∈ stack

/-- The retained roots are marked as far as they are stored, and so are the children of what is
marked. -/
structure Marked (nodes : Nodes Key Value Digest) (roots live : List Digest) : Prop where
  roots : ∀ root ∈ roots, nodes root ≠ none → root ∈ live
  closed : ClosedUpTo nodes [] live

/-- Visiting a node keeps the marked nodes closed. -/
theorem ClosedUpTo.visit {hash : Digest} {children : List Digest}
    (hclosed : ClosedUpTo nodes (hash :: stack) live)
    (hchildren : ∀ left right, nodes hash = some (.internal left right) →
      left ∈ children ∧ right ∈ children) :
    ClosedUpTo nodes (children ++ stack) (hash :: live) := by
  intro other hother left right hnode child hchild hstored
  rcases List.mem_cons.mp hother with rfl | hlive
  · obtain ⟨hleft, hright⟩ := hchildren left right hnode
    refine Or.inr (List.mem_append_left _ ?_)
    rcases hchild with rfl | rfl
    · exact hleft
    · exact hright
  · rcases hclosed other hlive left right hnode child hchild hstored with hmarked | hwaits
    · exact Or.inl (List.mem_cons_of_mem _ hmarked)
    · rcases List.mem_cons.mp hwaits with rfl | hlater
      · exact Or.inl List.mem_cons_self
      · exact Or.inr (List.mem_append_right _ hlater)

/-- Skipping a hash that is marked or not stored keeps the marked nodes closed. -/
theorem ClosedUpTo.skip {hash : Digest} (hclosed : ClosedUpTo nodes (hash :: stack) live)
    (hskip : nodes hash ≠ none → hash ∈ live) : ClosedUpTo nodes stack live := by
  intro other hother left right hnode child hchild hstored
  rcases hclosed other hother left right hnode child hchild hstored with hmarked | hwaits
  · exact Or.inl hmarked
  · rcases List.mem_cons.mp hwaits with rfl | hlater
    · exact Or.inl (hskip hstored)
    · exact Or.inr hlater

variable [DecidableEq Digest]

/-- What the mark phase returns extends what was marked, has every stored hash of the stack and is
closed. -/
theorem mark_spec {fuel : ℕ} {result : List Digest} (hclosed : ClosedUpTo nodes stack live)
    (hmark : mark nodes fuel stack live = some result) :
    (∀ hash ∈ live, hash ∈ result) ∧ (∀ hash ∈ stack, nodes hash ≠ none → hash ∈ result) ∧
      ClosedUpTo nodes [] result := by
  induction fuel generalizing stack live with
  | zero =>
    cases stack with
    | nil =>
      obtain rfl := Option.some.inj hmark
      exact ⟨fun _ hlive ↦ hlive, fun _ hnil ↦ absurd hnil List.not_mem_nil, hclosed⟩
    | cons hash stack => exact absurd hmark (by simp [mark])
  | succ fuel ih =>
    cases stack with
    | nil =>
      obtain rfl := Option.some.inj hmark
      exact ⟨fun _ hlive ↦ hlive, fun _ hnil ↦ absurd hnil List.not_mem_nil, hclosed⟩
    | cons hash stack =>
      rw [mark] at hmark
      -- A hash that is marked or not stored is passed over.
      have hskipped : (nodes hash ≠ none → hash ∈ live) → mark nodes fuel stack live = some result →
          (∀ other ∈ live, other ∈ result) ∧
            (∀ other ∈ hash :: stack, nodes other ≠ none → other ∈ result) ∧
              ClosedUpTo nodes [] result := by
        intro hskip hrest
        obtain ⟨hlive, hstack, hdone⟩ := ih (hclosed.skip hskip) hrest
        refine ⟨hlive, fun other hother hstored ↦ ?_, hdone⟩
        rcases List.mem_cons.mp hother with rfl | hlater
        · exact hlive _ (hskip hstored)
        · exact hstack other hlater hstored
      -- A stored hash is marked, with its children to be visited.
      have hvisited : ∀ children : List Digest,
          (∀ left right, nodes hash = some (.internal left right) →
            left ∈ children ∧ right ∈ children) →
          mark nodes fuel (children ++ stack) (hash :: live) = some result →
          (∀ other ∈ live, other ∈ result) ∧
            (∀ other ∈ hash :: stack, nodes other ≠ none → other ∈ result) ∧
              ClosedUpTo nodes [] result := by
        intro children hchildren hrest
        obtain ⟨hlive, hstack, hdone⟩ := ih (hclosed.visit hchildren) hrest
        refine ⟨fun other hother ↦ hlive other (List.mem_cons_of_mem _ hother),
          fun other hother hstored ↦ ?_, hdone⟩
        rcases List.mem_cons.mp hother with rfl | hlater
        · exact hlive _ List.mem_cons_self
        · exact hstack other (List.mem_append_right _ hlater) hstored
      split at hmark
      · next hmem => exact hskipped (fun _ ↦ hmem) hmark
      · cases hnode : nodes hash with
        | none =>
          simp only [hnode] at hmark
          exact hskipped (fun hstored ↦ absurd hnode hstored) hmark
        | some node =>
          cases node with
          | leaf key value =>
            simp only [hnode] at hmark
            refine hvisited [] (fun left right hinternal ↦ ?_) hmark
            rw [hnode] at hinternal
            exact absurd (Option.some.inj hinternal) (by simp)
          | internal left right =>
            simp only [hnode] at hmark
            refine hvisited [right, left] (fun left' right' hinternal ↦ ?_) hmark
            rw [hnode] at hinternal
            obtain ⟨rfl, rfl⟩ := TrieNode.internal.inj (Option.some.inj hinternal)
            simp

/-- The mark phase marks the retained roots and all that is below them. -/
theorem marked_of_reachableNodes {fuel : ℕ} {roots : List Digest}
    (hmark : reachableNodes fuel nodes roots = some live) : Marked nodes roots live := by
  have hempty : ClosedUpTo nodes roots.reverse [] := fun _ hnil ↦ absurd hnil List.not_mem_nil
  obtain ⟨-, hstack, hclosed⟩ := mark_spec hempty hmark
  exact ⟨fun root hroot ↦ hstack root (List.mem_reverse.mpr hroot), hclosed⟩

/-- The mark phase over a finite store ends within three steps a node and one a root. -/
theorem mark_isSome {stored : Finset Digest} (hstored : ∀ hash, nodes hash ≠ none → hash ∈ stored)
    {fuel : ℕ} (hfuel : 3 * (stored \ live.toFinset).card + stack.length ≤ fuel) :
    (mark nodes fuel stack live).isSome = true := by
  induction fuel generalizing stack live with
  | zero =>
    have hstack : stack = [] := List.length_eq_zero_iff.mp (by omega)
    rw [hstack, mark]
    rfl
  | succ fuel ih =>
    cases stack with
    | nil =>
      rw [mark]
      rfl
    | cons hash stack =>
      rw [List.length_cons] at hfuel
      -- Marking a new stored hash leaves one fewer to mark.
      have hfewer : hash ∉ live → nodes hash ≠ none →
          (stored \ (hash :: live).toFinset).card + 1 = (stored \ live.toFinset).card := by
        intro hnew hnode
        have hmem : hash ∈ stored \ live.toFinset :=
          Finset.mem_sdiff.mpr ⟨hstored hash hnode, fun hlive ↦ hnew (List.mem_toFinset.mp hlive)⟩
        rw [List.toFinset_cons, Finset.sdiff_insert]
        exact Finset.card_erase_add_one hmem
      rw [mark]
      split
      · exact ih (by omega)
      · next hnew =>
        cases hnode : nodes hash with
        | none => exact ih (by omega)
        | some node =>
          have hcard := hfewer hnew (by simp [hnode])
          cases node with
          | leaf key value => exact ih (by omega)
          | internal left right =>
            refine ih ?_
            rw [List.length_cons, List.length_cons]
            omega

end Marking

section Sweeping

variable {Key Value Digest : Type} [DecidableEq Digest] {T : TrieScheme Key Value Digest}
  {nodes : Nodes Key Value Digest} {roots live : List Digest}

theorem sweep_of_mem {hash : Digest} (hmem : nodes hash ≠ none → hash ∈ live) :
    sweep nodes live hash = nodes hash := by
  unfold sweep
  split
  · rfl
  · next hnew => exact (not_not.mp (mt hmem hnew)).symm

theorem of_sweep_eq_some {hash : Digest} {node : TrieNode Key Value Digest}
    (hnode : sweep nodes live hash = some node) : hash ∈ live ∧ nodes hash = some node := by
  unfold sweep at hnode
  split at hnode
  · next hmem => exact ⟨hmem, hnode⟩
  · exact absurd hnode (by simp)

theorem sweep_ne_none {hash : Digest} (hmem : hash ∈ live) (hstored : nodes hash ≠ none) :
    sweep nodes live hash ≠ none := by
  rwa [sweep_of_mem fun _ ↦ hmem]

/-- What could be followed can be followed after the sweep, if it is marked. -/
theorem Known.sweep {hash : Digest} (hknown : T.Known (fun other ↦ nodes other ≠ none) hash)
    (hmem : nodes hash ≠ none → hash ∈ live) :
    T.Known (fun other ↦ sweep nodes live other ≠ none) hash :=
  hknown.imp_right fun hstored ↦ sweep_ne_none (hmem hstored) hstored

/-- A sweep after a mark phase leaves the store well stored. -/
theorem WellStored.sweep (hnodes : T.WellStored nodes) (hmarked : Marked nodes roots live) :
    T.WellStored (sweep nodes live) := by
  intro hash node hnode
  obtain ⟨hmem, hbefore⟩ := of_sweep_eq_some hnode
  have hentry := hnodes hash node hbefore
  cases node with
  | leaf key value => exact hentry
  | internal left right =>
    obtain ⟨hhash, hleft, hright⟩ := hentry
    have hchild : ∀ child, child = left ∨ child = right → nodes child ≠ none → child ∈ live := by
      intro child hchild hstored
      rcases hmarked.closed hash hmem left right hbefore child hchild hstored with hlive | hnil
      · exact hlive
      · exact absurd hnil List.not_mem_nil
    exact ⟨hhash, hleft.sweep (hchild left (Or.inl rfl)), hright.sweep (hchild right (Or.inr rfl))⟩

variable [DecidableEq Key]

omit [DecidableEq Key] in
/-- The tree under a retained root is still the tree of its content. -/
theorem TrieAt.sweep {root : Digest} {content : Content Key Value}
    (htree : T.TrieAt (nodes, root) content) (hmarked : Marked nodes roots live)
    (hroot : root ∈ roots) : T.TrieAt (sweep nodes live, root) content where
  wellStored := htree.wellStored.sweep hmarked
  root_eq := htree.root_eq
  known := htree.known.sweep (hmarked.roots root hroot)

/-- A descent below a marked node meets the nodes that it met before the sweep. -/
theorem get_sweep (hmarked : Marked nodes roots live) (key : Key) {n : ℕ} {node : Digest}
    (hmem : nodes node ≠ none → node ∈ live) :
    T.get (sweep nodes live) key n node = T.get nodes key n node := by
  induction n using Nat.strong_induction_on generalizing node with
  | _ n ih =>
  rw [get, get, sweep_of_mem hmem]
  cases hnode : nodes node with
  | none => rfl
  | some found =>
    cases found with
    | leaf key' value => rfl
    | internal left right =>
      have hlive : node ∈ live := hmem (by simp [hnode])
      have hbelow : ∀ child, child = left ∨ child = right → nodes child ≠ none → child ∈ live :=
        fun child hchild hstored ↦
          (hmarked.closed node hlive left right hnode child hchild hstored).resolve_right
            List.not_mem_nil
      cases n with
      | zero => rfl
      | succ n =>
        simp only [ih n (Nat.lt_succ_self n) (hbelow left (Or.inl rfl)),
          ih n (Nat.lt_succ_self n) (hbelow right (Or.inr rfl))]

omit [DecidableEq Key] in
/-- So does the making of a proof. -/
theorem prove_sweep (hmarked : Marked nodes roots live) (key : Key) {n : ℕ} {node : Digest}
    (hmem : nodes node ≠ none → node ∈ live) :
    T.prove (sweep nodes live) key n node = T.prove nodes key n node := by
  induction n using Nat.strong_induction_on generalizing node with
  | _ n ih =>
  rw [prove, prove, sweep_of_mem hmem]
  cases hnode : nodes node with
  | none => rfl
  | some found =>
    cases found with
    | leaf key' value => rfl
    | internal left right =>
      have hlive : node ∈ live := hmem (by simp [hnode])
      have hbelow : ∀ child, child = left ∨ child = right → nodes child ≠ none → child ∈ live :=
        fun child hchild hstored ↦
          (hmarked.closed node hlive left right hnode child hchild hstored).resolve_right
            List.not_mem_nil
      cases n with
      | zero => rfl
      | succ n =>
        simp only [ih n (Nat.lt_succ_self n) (hbelow left (Or.inl rfl)),
          ih n (Nat.lt_succ_self n) (hbelow right (Or.inr rfl))]

end Sweeping

/-! ### Fully stored trees -/

section Full

variable {Key Value Digest : Type} (T : TrieScheme Key Value Digest)

/-- Every child that a descent of height `n` can be sent to is the default of its height or
stored. -/
def FullyStored (nodes : Nodes Key Value Digest) : ℕ → Digest → Prop
  | 0, node => node = T.emptyAt 0 ∨ ∃ key value, nodes node = some (.leaf key value)
  | n + 1, node =>
    node = T.emptyAt (n + 1) ∨ (∃ key value, nodes node = some (.leaf key value)) ∨
      ∃ left right, nodes node = some (.internal left right) ∧ FullyStored nodes n left ∧
        FullyStored nodes n right

variable {T} {nodes : Nodes Key Value Digest} {n : ℕ}

theorem FullyStored.known {node : Digest} (hfull : T.FullyStored nodes n node) :
    T.Known (fun hash ↦ nodes hash ≠ none) node := by
  cases n with
  | zero =>
    rcases hfull with hempty | ⟨key, value, hnode⟩
    · exact Or.inl ⟨0, hempty⟩
    · exact Or.inr (by simp [hnode])
  | succ n =>
    rcases hfull with hempty | ⟨key, value, hnode⟩ | ⟨left, right, hnode, -, -⟩
    · exact Or.inl ⟨n + 1, hempty⟩
    · exact Or.inr (by simp [hnode])
    · exact Or.inr (by simp [hnode])

variable [DecidableEq Key]

/-- In a well-stored store a tree is fully stored as soon as its root is. -/
theorem fullyStored_contentRoot (hfree : T.CollisionFree) (hnodes : T.WellStored nodes)
    {content : Content Key Value} (hshared : T.SamePrefix n content)
    (hknown : T.Known (fun hash ↦ nodes hash ≠ none) (T.contentRoot n content)) :
    T.FullyStored nodes n (T.contentRoot n content) := by
  induction n using Nat.strong_induction_on generalizing content with
  | _ n ih =>
  by_cases hempty : content = noContent
  · rw [hempty, contentRoot_noContent]
    cases n with
    | zero => exact Or.inl rfl
    | succ n => exact Or.inl rfl
  obtain ⟨node, hnode⟩ := Option.ne_none_iff_exists'.mp (hknown.stored hfree hshared hempty)
  have hentry := hnodes _ node hnode
  cases node with
  | leaf key value =>
    cases n with
    | zero => exact Or.inr ⟨key, value, hnode⟩
    | succ n => exact Or.inr (Or.inl ⟨key, value, hnode⟩)
  | internal left right =>
    obtain ⟨n', rfl, rfl, rfl, hleft, hright⟩ := hentry.internal_content hfree hshared
    exact Or.inr (Or.inr ⟨_, _, hnode, ih n' (Nat.lt_succ_self n') (hshared.restrict false) hleft,
      ih n' (Nat.lt_succ_self n') (hshared.restrict true) hright⟩)

theorem TrieAt.fullyStored (hfree : T.CollisionFree) {tree : Nodes Key Value Digest × Digest}
    {content : Content Key Value} (htree : T.TrieAt tree content) :
    T.FullyStored tree.1 T.keyBits tree.2 := by
  have hknown := htree.known
  rw [htree.root_eq] at hknown ⊢
  exact fullyStored_contentRoot hfree htree.wellStored (samePrefix_keyBits content) hknown

end Full

end Latebra.Foundation.TrieScheme
