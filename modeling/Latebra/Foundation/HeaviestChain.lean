import Mathlib

/-!
# Heaviest-branch fork choice with finality

Blocks name their parents by id and make a tree over a genesis. A branch is a list of blocks, newest
first, down to genesis; `TreeRules.mark` is what the structural rules make of it, with its work. A
`View` is what one node knows of the tree, with the branch it follows and the part of that branch
that is final.

`Moves` is what can happen to a view, whatever it is that decides about the validity of a branch.
Its invariant is `View.WellFormed`: the tree is closed under parents, the final part lies on the
active branch, and no branch above the final part is heavier than the active one. The final part
only grows (`Moves.finalized`).
-/

set_option autoImplicit false
set_option relaxedAutoImplicit false

namespace Latebra.Foundation

/-- The structural rules of a block tree. -/
structure TreeRules (β ι μ : Type) where
  id : β → ι
  parent : β → ι
  genesis : ι
  genesisMark : μ
  /-- The mark of a block over the mark of its parent, if the block passes the rules. -/
  child : μ → β → Option μ
  /-- The work from genesis on. -/
  work : μ → ℕ
  work_lt : ∀ {mark block mark'}, child mark block = some mark' → work mark < work mark'
  /-- No block passes as its own child. -/
  irrefl : ∀ {mark block mark'}, child mark block = some mark' → child mark' block = none

namespace TreeRules

variable {β ι μ : Type} (rules : TreeRules β ι μ)

/-- What the rules make of a branch. -/
def mark : List β → Option μ
  | [] => some rules.genesisMark
  | block :: rest => (mark rest).bind fun m ↦ rules.child m block

/-- The id of the newest block of a branch. -/
def tip : List β → ι
  | [] => rules.genesis
  | block :: _ => rules.id block

/-- The ids of a branch, genesis first. -/
def path : List β → List ι
  | [] => [rules.genesis]
  | block :: rest => path rest ++ [rules.id block]

/-- The work of a branch. -/
def weight (branch : List β) : ℕ := ((rules.mark branch).map rules.work).getD 0

variable {rules} {block : β} {branch : List β}

theorem mark_of_cons (hmark : (rules.mark (block :: branch)).isSome) :
    (rules.mark branch).isSome := by
  rw [mark] at hmark
  exact Option.isSome_of_isSome_bind hmark

/-- A block is heavier than its parent. -/
theorem weight_lt_cons (hmark : (rules.mark (block :: branch)).isSome) :
    rules.weight branch < rules.weight (block :: branch) := by
  obtain ⟨m, hm⟩ := Option.isSome_iff_exists.mp (mark_of_cons hmark)
  obtain ⟨m', hm'⟩ := Option.isSome_iff_exists.mp hmark
  have hchild : rules.child m block = some m' := by rwa [mark, hm] at hm'
  simp only [weight, hm, hm', Option.map_some, Option.getD_some]
  exact rules.work_lt hchild

theorem length_path (branch : List β) : (rules.path branch).length = branch.length + 1 := by
  induction branch with
  | nil => rfl
  | cons block rest ih => rw [path, List.length_append, ih, List.length_singleton, List.length_cons]

/-- The entry of a path at a height is the tip of the part of the branch that is that high. -/
theorem path_getElem?_eq_some {branch : List β} {height : ℕ} {i : ι} :
    (rules.path branch)[height]? = some i ↔
      ∃ below, below <:+ branch ∧ below.length = height ∧ rules.tip below = i := by
  induction branch with
  | nil =>
    constructor
    · intro hentry
      cases height with
      | zero => exact ⟨[], List.suffix_rfl, rfl, Option.some.inj hentry⟩
      | succ height => exact nomatch hentry
    · rintro ⟨below, hbelow, rfl, rfl⟩
      rw [List.suffix_nil.mp hbelow]
      rfl
  | cons block rest ih =>
    rw [path]
    by_cases htop : height = rest.length + 1
    · have hlast : (rules.path rest ++ [rules.id block])[height]? = some (rules.id block) := by
        rw [htop, ← length_path, List.getElem?_concat_length]
      rw [hlast]
      constructor
      · intro hid
        exact ⟨block :: rest, List.suffix_rfl, htop.symm, Option.some.inj hid⟩
      · rintro ⟨below, hbelow, hlength, rfl⟩
        have hwhole : below = block :: rest :=
          hbelow.eq_of_length (hlength.trans htop)
        rw [hwhole]
        rfl
    · constructor
      · intro hentry
        have hlow : height < (rules.path rest).length := by
          have hbound := (List.getElem?_eq_some_iff.mp hentry).1
          rw [List.length_append, List.length_singleton, length_path] at hbound
          rw [length_path]
          omega
        rw [List.getElem?_append_left hlow] at hentry
        obtain ⟨below, hbelow, hlength, htip⟩ := ih.mp hentry
        exact ⟨below, hbelow.trans (List.suffix_cons block rest), hlength, htip⟩
      · rintro ⟨below, hbelow, hlength, htip⟩
        have hrest : below <:+ rest := by
          rcases List.suffix_cons_iff.mp hbelow with rfl | hrest
          · exact absurd (hlength.symm.trans rfl) htop
          · exact hrest
        have hlow : height < (rules.path rest).length := by
          rw [length_path, ← hlength]
          exact Nat.lt_succ_of_le hrest.length_le
        rw [List.getElem?_append_left hlow]
        exact ih.mpr ⟨below, hrest, hlength, htip⟩

/-- What one node knows of the tree: the branch of every known id, the branch that the node
follows, and the part of it that is final. -/
structure View (rules : TreeRules β ι μ) where
  known : ι → Option (List β)
  active : List β
  finalized : List β

namespace View

/-- The tree is closed under parents, and every branch in it passes the rules. -/
structure Closed (v : rules.View) : Prop where
  root : v.known rules.genesis = some []
  closed : ∀ {i block branch}, v.known i = some (block :: branch) →
    i = rules.id block ∧ v.known (rules.parent block) = some branch
  rooted : ∀ {i}, v.known i = some [] → i = rules.genesis
  marked : ∀ {i branch}, v.known i = some branch → (rules.mark branch).isSome

/-- The final part is on the active branch, and no branch above the final part is heavier than the
active one. -/
structure WellFormed (v : rules.View) : Prop extends Closed v where
  active : v.known (rules.tip v.active) = some v.active
  finalized : v.finalized <:+ v.active
  heaviest : ∀ {i branch}, v.known i = some branch → v.finalized <:+ branch →
    rules.weight branch ≤ rules.weight v.active

namespace Closed

variable {v : rules.View}

/-- A branch is known under the id of its newest block. -/
theorem eq_tip (hv : v.Closed) {i : ι} (hknown : v.known i = some branch) :
    i = rules.tip branch := by
  cases branch with
  | nil => exact hv.rooted hknown
  | cons block rest => exact (hv.closed hknown).1

/-- What lies below a known branch is known. -/
theorem suffix (hv : v.Closed) {i : ι} {branch below : List β}
    (hknown : v.known i = some branch) (hbelow : below <:+ branch) :
    v.known (rules.tip below) = some below := by
  induction branch generalizing i with
  | nil =>
    obtain rfl := List.suffix_nil.mp hbelow
    exact hv.root
  | cons block rest ih =>
    rcases List.suffix_cons_iff.mp hbelow with rfl | hrest
    · rwa [hv.eq_tip hknown] at hknown
    · exact ih (hv.closed hknown).2 hrest

end Closed

/-- No known block is on top of the active branch. -/
theorem WellFormed.parent_ne_tip {v : rules.View} (hv : v.WellFormed) {i : ι} {block : β}
    {rest : List β} (hknown : v.known i = some (block :: rest)) :
    rules.parent block ≠ rules.tip v.active := by
  intro htip
  have hparent := (hv.closed hknown).2
  rw [htip, hv.active] at hparent
  have hrest : v.active = rest := Option.some.inj hparent
  subst hrest
  have hheavier := weight_lt_cons (hv.marked hknown)
  exact absurd (hv.heaviest hknown (hv.finalized.trans (List.suffix_cons block v.active)))
    (not_le.mpr hheavier)

variable [DecidableEq ι]

variable (rules) in
/-- The view of a node that knows genesis alone. -/
def start : rules.View where
  known := Function.update (fun _ ↦ none) rules.genesis (some [])
  active := []
  finalized := []

/-- The view with one more block, on top of the branch of its parent. -/
def add (v : rules.View) (block : β) (branch : List β) : rules.View :=
  { v with known := Function.update v.known (rules.id block) (some (block :: branch)) }

theorem start_known {i : ι} {branch : List β} (hknown : (start rules).known i = some branch) :
    i = rules.genesis ∧ branch = [] := by
  change Function.update (fun _ ↦ none) rules.genesis (some []) i = _ at hknown
  rw [Function.update_apply] at hknown
  split at hknown
  · next heq => exact ⟨heq, (Option.some.inj hknown).symm⟩
  · exact nomatch hknown

theorem start_root : (start rules).known rules.genesis = some [] := by
  change Function.update (fun _ ↦ none) rules.genesis (some []) rules.genesis = _
  rw [Function.update_self]

theorem wellFormed_start : (start rules).WellFormed where
  root := start_root
  closed hknown := nomatch (start_known hknown).2
  rooted hknown := (start_known hknown).1
  marked hknown := by
    rw [(start_known hknown).2]
    rfl
  active := start_root
  finalized := List.nil_suffix
  heaviest hknown _ := by
    rw [(start_known hknown).2]
    exact le_rfl

variable {v v' : rules.View}

/-- A branch known after a block was added is the new branch or was known before. -/
theorem known_add {i : ι} {block : β} {branch known : List β}
    (hknown : (v.add block branch).known i = some known) :
    (i = rules.id block ∧ known = block :: branch) ∨
      (i ≠ rules.id block ∧ v.known i = some known) := by
  change Function.update _ _ _ i = _ at hknown
  rw [Function.update_apply] at hknown
  split at hknown
  · next heq => exact .inl ⟨heq, (Option.some.inj hknown).symm⟩
  · next hne => exact .inr ⟨hne, hknown⟩

theorem known_add_self {block : β} {branch : List β} :
    (v.add block branch).known (rules.id block) = some (block :: branch) := by
  change Function.update v.known (rules.id block) (some (block :: branch)) (rules.id block) = _
  rw [Function.update_self]

theorem known_add_of_known {i : ι} {block : β} {branch known : List β}
    (hnew : v.known (rules.id block) = none) (hknown : v.known i = some known) :
    (v.add block branch).known i = some known := by
  have hne : i ≠ rules.id block := by
    rintro rfl
    rw [hnew] at hknown
    exact nomatch hknown
  change Function.update _ _ _ i = _
  rw [Function.update_of_ne hne, hknown]

/-- The tree survives one more block. -/
theorem Closed.add (hv : v.Closed) {block : β} {branch : List β}
    (hnew : v.known (rules.id block) = none) (hparent : v.known (rules.parent block) = some branch)
    (hmark : (rules.mark (block :: branch)).isSome) : (v.add block branch).Closed where
  root := known_add_of_known hnew hv.root
  closed hknown := by
    rcases known_add hknown with ⟨rfl, heq⟩ | ⟨-, hbefore⟩
    · obtain ⟨rfl, rfl⟩ := List.cons.inj heq
      exact ⟨rfl, known_add_of_known hnew hparent⟩
    · obtain ⟨hid, hbelow⟩ := hv.closed hbefore
      exact ⟨hid, known_add_of_known hnew hbelow⟩
  rooted hknown := by
    rcases known_add hknown with ⟨-, heq⟩ | ⟨-, hbefore⟩
    · exact nomatch heq
    · exact hv.rooted hbefore
  marked hknown := by
    rcases known_add hknown with ⟨-, rfl⟩ | ⟨-, hbefore⟩
    · exact hmark
    · exact hv.marked hbefore

end View

/-! ### What can happen to a view -/

section Moves

variable [DecidableEq ι]

variable (rules) in
/-- What can happen to a view: nothing; a block is kept aside, on a branch that is not heavier than
the active one or misses the final part; a block makes its branch the active one; or more of the
active branch becomes final. -/
inductive Moves : rules.View → rules.View → Prop where
  | ignore (v : rules.View) : Moves v v
  | keep {v : rules.View} {block : β} {branch : List β} :
    v.known (rules.id block) = none → v.known (rules.parent block) = some branch →
      (rules.mark (block :: branch)).isSome →
      (v.finalized <:+ block :: branch →
        rules.weight (block :: branch) ≤ rules.weight v.active) →
      Moves v (v.add block branch)
  | adopt {v : rules.View} {block : β} {branch : List β} :
    v.known (rules.id block) = none → v.known (rules.parent block) = some branch →
      (rules.mark (block :: branch)).isSome →
      v.finalized <:+ block :: branch →
      rules.weight v.active < rules.weight (block :: branch) →
      Moves v { v.add block branch with active := block :: branch }
  | finalize {v : rules.View} {branch : List β} :
    v.finalized <:+ branch → branch <:+ v.active → Moves v { v with finalized := branch }

namespace Moves

variable {v v' : rules.View}

theorem wellFormed (hmove : rules.Moves v v') (hv : v.WellFormed) : v'.WellFormed := by
  cases hmove with
  | ignore => exact hv
  | keep hnew hparent hmark hlight =>
    refine ⟨hv.add hnew hparent hmark, View.known_add_of_known hnew hv.active, hv.finalized, ?_⟩
    intro i known hknown hfinal
    rcases View.known_add hknown with ⟨-, rfl⟩ | ⟨-, hbefore⟩
    · exact hlight hfinal
    · exact hv.heaviest hbefore hfinal
  | adopt hnew hparent hmark hfinalized hheavier =>
    have htree := hv.add hnew hparent hmark
    refine ⟨⟨htree.root, htree.closed, htree.rooted, htree.marked⟩, View.known_add_self,
      hfinalized, ?_⟩
    intro i known hknown hfinal
    rcases View.known_add hknown with ⟨-, rfl⟩ | ⟨-, hbefore⟩
    · exact le_rfl
    · exact (hv.heaviest hbefore hfinal).trans hheavier.le
  | finalize hlater hactive =>
    constructor
    · exact ⟨hv.root, hv.closed, hv.rooted, hv.marked⟩
    · exact hv.active
    · exact hactive
    · intro i branch hknown hfinal
      exact hv.heaviest hknown (hlater.trans hfinal)

/-- The final part only grows. -/
theorem finalized (hmove : rules.Moves v v') : v.finalized <:+ v'.finalized := by
  cases hmove with
  | finalize hlater => exact hlater
  | _ => exact List.suffix_rfl

/-- What is known stays known. -/
theorem known (hmove : rules.Moves v v') {i : ι} {branch : List β}
    (hknown : v.known i = some branch) : v'.known i = some branch := by
  cases hmove with
  | keep hnew => exact View.known_add_of_known hnew hknown
  | adopt hnew => exact View.known_add_of_known hnew hknown
  | _ => exact hknown

end Moves

end Moves

end TreeRules

end Latebra.Foundation
