import Latebra.Foundation.SparseMerkle

/-!
# Reading and proving a sparse Merkle tree

`get` and `prove` descend a stored tree along the bits of a key. A proof is the sibling hash at
each level with what the descent ended on, and `verify` folds it up again and compares roots.

`TrieAt.get` says that a stored tree reads as its content, `TrieAt.prove` that its proofs are
accepted for exactly what it reads. `verify_sound` says that an accepted proof, whoever made it and
of whatever siblings, shows the content under the root: at each level the two sides of the root
are determined by its hash, so the fold of the proof runs through the true subtrees, and what it
starts from is the whole content of the last of them.
-/

set_option autoImplicit false
set_option relaxedAutoImplicit false

namespace Latebra.Foundation.TrieScheme

section Code

variable {Key Value Digest : Type} [DecidableEq Key] [DecidableEq Digest]

/-- What sits at the end of a proof path. -/
inductive Terminal (Key Value : Type) where
  /-- The subtree is empty. -/
  | empty
  /-- A lone leaf occupies the subtree. -/
  | leaf (key : Key) (value : Value)

/-- The sibling hash at each level of a descent, from the root downward, and its end. -/
structure MerkleProof (Key Value Digest : Type) where
  siblings : List Digest
  terminal : Terminal Key Value

variable (T : TrieScheme Key Value Digest)

/-- The value of a key in the subtree of height `n` under a node. A node that is not stored reads as
an absent key. There is no answer when the bits of the key run out. -/
def get (nodes : Nodes Key Value Digest) (key : Key) : ℕ → Digest → Option (Option Value)
  | n, node =>
    if node = T.emptyAt n then some none
    else
      match nodes node with
      | none => some none
      | some (.leaf key' value) => some (if key' = key then some value else none)
      | some (.internal left right) =>
        match n with
        | 0 => none
        | n + 1 =>
          if T.bit key (T.keyBits - (n + 1)) = false then get nodes key n left
          else get nodes key n right

/-- The proof of a key in the subtree of height `n` under a node. Fails on a node that is not
stored. -/
def prove (nodes : Nodes Key Value Digest) (key : Key) :
    ℕ → Digest → Option (MerkleProof Key Value Digest)
  | n, node =>
    if node = T.emptyAt n then some ⟨[], .empty⟩
    else
      match nodes node with
      | none => none
      | some (.leaf key' value) => some ⟨[], .leaf key' value⟩
      | some (.internal left right) =>
        match n with
        | 0 => none
        | n + 1 =>
          if T.bit key (T.keyBits - (n + 1)) = false then
            (prove nodes key n left).map fun proof ↦ ⟨right :: proof.siblings, proof.terminal⟩
          else
            (prove nodes key n right).map fun proof ↦ ⟨left :: proof.siblings, proof.terminal⟩

/-- The hash of the subtree of height `n` that a descent ended on. -/
def terminalHash (n : ℕ) : Terminal Key Value → Digest
  | .empty => T.emptyAt n
  | .leaf key value => T.singleLeafSubtreeHash key (T.hashLeaf key value) n

/-- The root of height `n` that siblings and a terminal imply for a key. There is none when there
are more siblings than levels. -/
def impliedRoot (key : Key) (terminal : Terminal Key Value) : ℕ → List Digest → Option Digest
  | n, [] => some (T.terminalHash n terminal)
  | 0, _ :: _ => none
  | n + 1, sibling :: siblings =>
    (impliedRoot key terminal n siblings).map fun below ↦
      if T.bit key (T.keyBits - (n + 1)) = false then T.hashInternal below sibling
      else T.hashInternal sibling below

/-- The root that a proof implies for a key. -/
def computeRoot (proof : MerkleProof Key Value Digest) (key : Key) : Option Digest :=
  T.impliedRoot key proof.terminal T.keyBits proof.siblings

/-- Verify a proof that a key has an expected value, or that it is absent. -/
def verify [DecidableEq Value] (root : Digest) (key : Key) (expected : Option Value)
    (proof : MerkleProof Key Value Digest) : Bool :=
  if T.keyBits < proof.siblings.length ∨ T.computeRoot proof key ≠ some root then false
  else
    match expected, proof.terminal with
    | some value, .leaf key' value' => key' = key ∧ value' = value
    | some _, .empty => false
    | none, .empty => true
    | none, .leaf key' _ => key' ≠ key

end Code

/-- What a terminal shows of a key. -/
def Terminal.shows {Key Value : Type} [DecidableEq Key] (key : Key) :
    Terminal Key Value → Option Value
  | .empty => none
  | .leaf key' value => if key' = key then some value else none

section Stored

variable {Key Value Digest : Type} [DecidableEq Key] [DecidableEq Digest]
  {T : TrieScheme Key Value Digest} {nodes : Nodes Key Value Digest} {n : ℕ}

/-- What a proof has to be to be accepted. -/
theorem verify_eq_true [DecidableEq Value] {root : Digest} {key : Key} {expected : Option Value}
    {proof : MerkleProof Key Value Digest} :
    T.verify root key expected proof = true ↔ proof.siblings.length ≤ T.keyBits ∧
      T.computeRoot proof key = some root ∧ proof.terminal.shows key = expected := by
  unfold verify
  split
  · next hreject =>
    rw [← Nat.not_lt]
    constructor
    · exact fun hfalse ↦ absurd hfalse (by simp)
    · rintro ⟨hlength, hroot, -⟩
      exact absurd hreject (by simp [hlength, hroot])
  · next haccept =>
    rw [not_or, not_not, Nat.not_lt] at haccept
    rw [and_iff_right haccept.1, and_iff_right haccept.2]
    cases expected with
    | none =>
      cases proof.terminal with
      | empty => simp [Terminal.shows]
      | leaf key' value' => by_cases hkey : key' = key <;> simp [Terminal.shows, hkey]
    | some value =>
      cases proof.terminal with
      | empty => simp [Terminal.shows]
      | leaf key' value' => by_cases hkey : key' = key <;> simp [Terminal.shows, hkey]

omit [DecidableEq Digest] in
/-- What a terminal shows is the content of a lone leaf. -/
theorem shows_leaf (key key' : Key) (value : Value) :
    Terminal.shows key (.leaf key' value) =
      Function.update noContent key' (some value) key := by
  by_cases hkey : key' = key
  · subst hkey
    simp [Terminal.shows]
  · simp [Terminal.shows, Function.update_of_ne (Ne.symm hkey), hkey, noContent]

omit [DecidableEq Digest] [DecidableEq Key] in
/-- The side of a node that the bits of a key point to has the key's value. -/
theorem restrict_self (content : Content Key Value) (key : Key) (depth : ℕ) :
    T.restrict content depth (T.bit key depth) key = content key := by
  simp [restrict]

/-- A well-stored subtree reads as its content. -/
theorem get_contentRoot (hfree : T.CollisionFree) (hnodes : T.WellStored nodes)
    {content : Content Key Value} (hshared : T.SamePrefix n content)
    (hknown : T.Known (fun hash ↦ nodes hash ≠ none) (T.contentRoot n content)) (key : Key) :
    T.get nodes key n (T.contentRoot n content) = some (content key) := by
  induction n using Nat.strong_induction_on generalizing content with
  | _ n ih =>
  rw [get]
  by_cases hempty : content = noContent
  · subst hempty
    rw [if_pos (contentRoot_noContent n)]
    rfl
  rw [if_neg (mt (contentRoot_eq_emptyAt_iff hfree hshared).mp hempty)]
  obtain ⟨node, hnode⟩ := Option.ne_none_iff_exists'.mp (hknown.stored hfree hshared hempty)
  have hentry := hnodes _ node hnode
  simp only [hnode]
  cases node with
  | leaf key' value =>
    obtain rfl := hentry.leaf_content hfree hshared
    exact congrArg some (shows_leaf key key' value)
  | internal left right =>
    obtain ⟨n', rfl, rfl, rfl, hleft, hright⟩ := hentry.internal_content hfree hshared
    have hside := restrict_self (T := T) content key (T.keyBits - (n' + 1))
    cases hbit : T.bit key (T.keyBits - (n' + 1)) with
    | false =>
      rw [hbit] at hside
      have hbelow := ih n' (Nat.lt_succ_self n') (hshared.restrict false) hleft
      simpa only [hbit, if_true, hside] using hbelow
    | true =>
      rw [hbit] at hside
      have hbelow := ih n' (Nat.lt_succ_self n') (hshared.restrict true) hright
      simpa [hbit, hside] using hbelow

/-- The proof of a key in a well-stored subtree implies its root and shows its content. -/
theorem prove_contentRoot (hfree : T.CollisionFree) (hnodes : T.WellStored nodes)
    {content : Content Key Value} (hshared : T.SamePrefix n content)
    (hknown : T.Known (fun hash ↦ nodes hash ≠ none) (T.contentRoot n content)) (key : Key) :
    ∃ proof, T.prove nodes key n (T.contentRoot n content) = some proof ∧
      proof.siblings.length ≤ n ∧
      T.impliedRoot key proof.terminal n proof.siblings = some (T.contentRoot n content) ∧
      proof.terminal.shows key = content key := by
  induction n using Nat.strong_induction_on generalizing content with
  | _ n ih =>
  rw [prove]
  by_cases hempty : content = noContent
  · subst hempty
    rw [if_pos (contentRoot_noContent n)]
    refine ⟨_, rfl, Nat.zero_le n, ?_, rfl⟩
    rw [impliedRoot.eq_def]
    simp only [terminalHash, contentRoot_noContent]
  rw [if_neg (mt (contentRoot_eq_emptyAt_iff hfree hshared).mp hempty)]
  obtain ⟨node, hnode⟩ := Option.ne_none_iff_exists'.mp (hknown.stored hfree hshared hempty)
  have hentry := hnodes _ node hnode
  simp only [hnode]
  cases node with
  | leaf key' value =>
    obtain rfl := hentry.leaf_content hfree hshared
    refine ⟨_, rfl, Nat.zero_le n, ?_, shows_leaf key key' value⟩
    rw [impliedRoot.eq_def]
    simp only [terminalHash, contentRoot_single]
  | internal left right =>
    obtain ⟨n', rfl, rfl, rfl, hleft, hright⟩ := hentry.internal_content hfree hshared
    have hside := restrict_self (T := T) content key (T.keyBits - (n' + 1))
    cases hbit : T.bit key (T.keyBits - (n' + 1)) with
    | false =>
      rw [hbit] at hside
      obtain ⟨proof, hproof, hlength, himplied, hshows⟩ :=
        ih n' (Nat.lt_succ_self n') (hshared.restrict false) hleft
      refine ⟨⟨T.contentRoot n' (T.restrict content (T.keyBits - (n' + 1)) true) :: proof.siblings,
        proof.terminal⟩, ?_, Nat.succ_le_succ hlength, ?_,
        hshows.trans hside⟩
      · simp only [hbit, if_true, hproof, Option.map_some]
      · simp only [impliedRoot, himplied, hbit, if_true, Option.map_some, contentRoot]
    | true =>
      rw [hbit] at hside
      obtain ⟨proof, hproof, hlength, himplied, hshows⟩ :=
        ih n' (Nat.lt_succ_self n') (hshared.restrict true) hright
      refine ⟨⟨T.contentRoot n' (T.restrict content (T.keyBits - (n' + 1)) false) :: proof.siblings,
        proof.terminal⟩, ?_, Nat.succ_le_succ hlength, ?_,
        hshows.trans hside⟩
      · simp only [hbit, Bool.true_eq_false, if_false, hproof, Option.map_some]
      · simp only [impliedRoot, himplied, hbit, Bool.true_eq_false, if_false, Option.map_some,
          contentRoot]

omit [DecidableEq Digest] in
/-- A terminal whose hash is the root of a content shows the content. -/
theorem shows_of_terminalHash (hfree : T.CollisionFree) {content : Content Key Value}
    (hshared : T.SamePrefix n content) {terminal : Terminal Key Value}
    (hroot : T.terminalHash n terminal = T.contentRoot n content) (key : Key) :
    terminal.shows key = content key := by
  cases terminal with
  | empty =>
    have hempty := hroot.symm.trans (contentRoot_noContent n).symm
    rw [(contentRoot_injective hfree hshared samePrefix_noContent hempty).2]
    rfl
  | leaf key' value =>
    have hsingle := hroot.symm.trans (contentRoot_single n key' value).symm
    rw [(contentRoot_injective hfree hshared (samePrefix_single key' value) hsingle).2]
    exact shows_leaf key key' value

omit [DecidableEq Digest] in
/-- Siblings and a terminal that imply the root of a content show the content. -/
theorem shows_of_impliedRoot (hfree : T.CollisionFree) {content : Content Key Value}
    (hshared : T.SamePrefix n content) {key : Key} {terminal : Terminal Key Value}
    {siblings : List Digest}
    (himplied : T.impliedRoot key terminal n siblings = some (T.contentRoot n content)) :
    terminal.shows key = content key := by
  induction siblings generalizing n content with
  | nil =>
    rw [impliedRoot.eq_def] at himplied
    exact shows_of_terminalHash hfree hshared (Option.some.inj himplied) key
  | cons sibling siblings ih =>
    cases n with
    | zero =>
      rw [impliedRoot] at himplied
      exact absurd himplied (by simp)
    | succ n =>
      rw [impliedRoot] at himplied
      obtain ⟨below, hbelow, hroot⟩ := Option.map_eq_some_iff.mp himplied
      have hside := restrict_self (T := T) content key (T.keyBits - (n + 1))
      cases hbit : T.bit key (T.keyBits - (n + 1)) with
      | false =>
        rw [hbit] at hside hroot
        obtain ⟨rfl, -⟩ := hfree.internal_injective _ _ _ _ hroot
        exact (ih (hshared.restrict false) hbelow).trans hside
      | true =>
        rw [hbit] at hside hroot
        obtain ⟨-, rfl⟩ := hfree.internal_injective _ _ _ _ hroot
        exact (ih (hshared.restrict true) hbelow).trans hside

/-- A stored tree reads as its content. -/
theorem TrieAt.get (hfree : T.CollisionFree) {tree : Nodes Key Value Digest × Digest}
    {content : Content Key Value} (htree : T.TrieAt tree content) (key : Key) :
    T.get tree.1 key T.keyBits tree.2 = some (content key) := by
  have hknown := htree.known
  rw [htree.root_eq] at hknown ⊢
  exact get_contentRoot hfree htree.wellStored (samePrefix_keyBits content) hknown key

/-- The proofs of a stored tree are accepted for what it reads. -/
theorem TrieAt.prove [DecidableEq Value] (hfree : T.CollisionFree)
    {tree : Nodes Key Value Digest × Digest} {content : Content Key Value}
    (htree : T.TrieAt tree content) (key : Key) :
    ∃ proof, T.prove tree.1 key T.keyBits tree.2 = some proof ∧
      T.verify tree.2 key (content key) proof = true := by
  have hknown := htree.known
  rw [htree.root_eq] at hknown ⊢
  obtain ⟨proof, hproof, hlength, himplied, hshows⟩ :=
    prove_contentRoot hfree htree.wellStored (samePrefix_keyBits content) hknown key
  exact ⟨proof, hproof, verify_eq_true.mpr ⟨hlength, himplied, hshows⟩⟩

/-- An accepted proof shows the content under the root. -/
theorem verify_sound [DecidableEq Value] (hfree : T.CollisionFree) {content : Content Key Value}
    {key : Key} {expected : Option Value} {proof : MerkleProof Key Value Digest}
    (haccept : T.verify (T.contentRoot T.keyBits content) key expected proof = true) :
    content key = expected := by
  obtain ⟨-, himplied, hshows⟩ := verify_eq_true.mp haccept
  rw [← hshows]
  exact (shows_of_impliedRoot hfree (samePrefix_keyBits content) himplied).symm

end Stored

end Latebra.Foundation.TrieScheme
