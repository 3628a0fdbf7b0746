import Latebra.Foundation.CommandProgram

/-!
# Transitions, and steps that stay inside a footprint

A `Transition` mutates a state in place and says how it ended; `each` runs one transition for every
entry of a list. `after` is the state that a successful transition leaves behind.

The second half is about partial steps on a state that is observed coordinate by coordinate. A step
is `Local` to a set of coordinates when it changes no others and depends on no others. Lists of
local steps with disjoint footprints commute (`Refines.append_comm`), and may as well be run apart,
each from the same state, and put together afterwards (`runAll_flatten_iff`, `obs_runAll_flatten`).
Steps that end `Alike` cannot be told apart by what is observed.
-/

set_option autoImplicit false
set_option relaxedAutoImplicit false

namespace Latebra.Foundation

/-! ### Transitions -/

/-- A transition of a state that is mutated in place: how it ends, and the state it leaves. -/
abbrev Transition (ε σ : Type) := σ → Outcome ε Unit × σ

namespace Transition

variable {ε ε' σ α : Type}

/-- Nothing to do. -/
def skip : Transition ε σ := fun state ↦ (.ok (), state)

/-- One transition after another. The second one runs only where the first one succeeds. -/
def andThen (first second : Transition ε σ) : Transition ε σ := fun state ↦
  match first state with
  | (.ok _, state') => second state'
  | failed => failed

/-- One transition for every entry of a list, in order. -/
def each (step : α → Transition ε σ) : List α → Transition ε σ
  | [] => skip
  | entry :: rest => (step entry).andThen (each step rest)

/-- A transition with its errors under another name. -/
def mapErr (f : ε → ε') (transition : Transition ε σ) : Transition ε' σ := fun state ↦
  match transition state with
  | (.ok value, state') => (.ok value, state')
  | (.err error, state') => (.err (f error), state')
  | (.panicked, state') => (.panicked, state')

/-- A transition whose error is ignored. -/
def ignoreErr (transition : Transition ε σ) : Transition ε' σ := fun state ↦
  match transition state with
  | (.panicked, state') => (.panicked, state')
  | (_, state') => (.ok (), state')

/-- A transition whose error is a panic. -/
def orPanic (transition : Transition ε σ) : Transition ε' σ := fun state ↦
  match transition state with
  | (.ok value, state') => (.ok value, state')
  | (_, state') => (.panicked, state')

/-- The run of a program. -/
def ofProgram {A : Alphabet} (handler : Handler A σ) (program : Program A ε Unit) :
    Transition ε σ := program.run handler

/-- The state after a success. -/
def after (transition : Transition ε σ) (state : σ) : Option σ :=
  match transition state with
  | (.ok _, state') => some state'
  | _ => none

theorem after_eq_some {transition : Transition ε σ} {state state' : σ} :
    transition.after state = some state' ↔ transition state = (.ok (), state') := by
  unfold after
  rcases transition state with ⟨_ | _ | _, last⟩ <;> simp

@[simp]
theorem after_skip (state : σ) : (skip : Transition ε σ).after state = some state := rfl

@[simp]
theorem after_andThen (first second : Transition ε σ) (state : σ) :
    (first.andThen second).after state = (first.after state).bind second.after := by
  unfold after andThen
  rcases first state with ⟨_ | _ | _, last⟩ <;> rfl

@[simp]
theorem after_mapErr (f : ε → ε') (transition : Transition ε σ) (state : σ) :
    (transition.mapErr f).after state = transition.after state := by
  unfold after mapErr
  rcases transition state with ⟨_ | _ | _, last⟩ <;> rfl

/-- Programs one after the other are one program. -/
theorem ofProgram_bind {A : Alphabet} (handler : Handler A σ) (first second : Program A ε Unit) :
    (ofProgram handler first).andThen (ofProgram handler second) =
      ofProgram handler (first >>= fun _ ↦ second) := by
  funext state
  unfold andThen ofProgram
  rw [Program.run_bind]
  rcases first.run handler state with ⟨_ | _ | _, state'⟩ <;> rfl

theorem each_ofProgram {A : Alphabet} (handler : Handler A σ) (body : α → Program A ε Unit)
    (list : List α) :
    each (fun entry ↦ ofProgram handler (body entry)) list =
      ofProgram handler (Program.forEach list body) := by
  induction list with
  | nil => rfl
  | cons entry rest ih => rw [each, ih, ofProgram_bind, Program.forEach_cons]

/-- A transition that leaves a part of the state alone, however it ends. -/
def Keeps {τ : Type} (view : σ → τ) (transition : Transition ε σ) : Prop :=
  ∀ state, view (transition state).2 = view state

section Keeps

variable {τ : Type} {view : σ → τ}

theorem Keeps.skip : Keeps view (skip : Transition ε σ) := fun _ ↦ rfl

theorem Keeps.andThen {first second : Transition ε σ} (hfirst : first.Keeps view)
    (hsecond : second.Keeps view) : (first.andThen second).Keeps view := by
  intro state
  have hstart := hfirst state
  unfold Transition.andThen
  rcases houtcome : first state with ⟨_ | _ | _, last⟩ <;> rw [houtcome] at hstart
  · exact (hsecond last).trans hstart
  · exact hstart
  · exact hstart

theorem Keeps.each {step : α → Transition ε σ} {list : List α}
    (hstep : ∀ entry, (step entry).Keeps view) : (each step list).Keeps view := by
  induction list with
  | nil => exact Keeps.skip
  | cons entry rest ih => exact (hstep entry).andThen ih

theorem Keeps.mapErr {transition : Transition ε σ} (h : transition.Keeps view) (f : ε → ε') :
    (transition.mapErr f).Keeps view := by
  intro state
  have hstart := h state
  unfold Transition.mapErr
  rcases houtcome : transition state with ⟨_ | _ | _, last⟩ <;> rw [houtcome] at hstart <;>
    exact hstart

theorem Keeps.after {transition : Transition ε σ} (h : transition.Keeps view) {s s' : σ}
    (hrun : transition.after s = some s') : view s' = view s := by
  have hstart := h s
  rw [after_eq_some.mp hrun] at hstart
  exact hstart

end Keeps

/-- From related states two transitions end alike, in related states. -/
def Alike (related : σ → σ → Prop) (first second : Transition ε σ) : Prop :=
  ∀ state state', related state state' →
    (first state).1 = (second state').1 ∧ related (first state).2 (second state').2

section Alike

variable {related : σ → σ → Prop}

theorem Alike.skip : Alike related (skip : Transition ε σ) skip := fun _ _ hstart ↦ ⟨rfl, hstart⟩

theorem Alike.andThen {first first' second second' : Transition ε σ}
    (hfirst : Alike related first first') (hsecond : Alike related second second') :
    Alike related (first.andThen second) (first'.andThen second') := by
  intro state state' hstart
  obtain ⟨houtcome, hmid⟩ := hfirst state state' hstart
  unfold Transition.andThen
  rcases hend : first state with ⟨_ | _ | _, last⟩ <;> rcases hend' : first' state' with ⟨_ | _ | _, last'⟩ <;>
    simp only [hend, hend', reduceCtorEq, Outcome.err.injEq] at houtcome hmid
  · exact hsecond last last' hmid
  · exact ⟨congrArg Outcome.err houtcome, hmid⟩
  · exact ⟨rfl, hmid⟩

theorem Alike.each {step step' : α → Transition ε σ} {list : List α}
    (hstep : ∀ entry, Alike related (step entry) (step' entry)) :
    Alike related (each step list) (each step' list) := by
  induction list with
  | nil => exact Alike.skip
  | cons entry rest ih => exact (hstep entry).andThen ih

end Alike

end Transition

/-! ### Local steps -/

section Local

variable {ι α σ κ : Type} (obs : ι → σ → α) (inv : σ → Prop)

/-- Two states look the same on some coordinates. -/
def Agree (footprint : Set ι) (s t : σ) : Prop := ∀ i ∈ footprint, obs i s = obs i t

/-- Two states look the same. -/
def SameObs (s t : σ) : Prop := ∀ i, obs i s = obs i t

/-- A partial step that changes no coordinate outside its footprint and depends on none. -/
structure Local (footprint : Set ι) (step : σ → Option σ) : Prop where
  keeps : ∀ {s s'}, inv s → step s = some s' → inv s'
  frame : ∀ {s s'}, inv s → step s = some s' → ∀ i, i ∉ footprint → obs i s' = obs i s
  congr : ∀ {s s' t}, inv s → inv t → Agree obs footprint s t → step s = some s' →
    ∃ t', step t = some t' ∧ Agree obs footprint s' t'

/-- Run a list of partial steps. -/
def runAll (step : κ → σ → Option σ) (list : List κ) (s : σ) : Option σ :=
  list.foldlM (fun state k ↦ step k state) s

@[simp]
theorem runAll_nil (step : κ → σ → Option σ) (s : σ) : runAll step [] s = some s := rfl

@[simp]
theorem runAll_cons (step : κ → σ → Option σ) (k : κ) (rest : List κ) (s : σ) :
    runAll step (k :: rest) s = (step k s).bind (runAll step rest) := rfl

theorem runAll_append (step : κ → σ → Option σ) (first second : List κ) (s : σ) :
    runAll step (first ++ second) s = (runAll step first s).bind (runAll step second) :=
  List.foldlM_append

theorem runAll_map {κ' : Type} (step : κ → σ → Option σ) (f : κ' → κ) (list : List κ') (s : σ) :
    runAll step (list.map f) s = runAll (fun k ↦ step (f k)) list s :=
  List.foldlM_map

/-- Lists one after the other are one list. -/
theorem runAll_flatten (step : κ → σ → Option σ) (lists : List (List κ)) (s : σ) :
    runAll (runAll step) lists s = runAll step lists.flatten s := by
  induction lists generalizing s with
  | nil => rfl
  | cons list rest ih =>
    rw [runAll_cons, List.flatten_cons, runAll_append]
    exact congrArg _ (funext ih)

theorem Transition.after_each {ε : Type} (step : κ → Transition ε σ) (list : List κ) (s : σ) :
    (Transition.each step list).after s = runAll (fun k ↦ (step k).after) list s := by
  induction list generalizing s with
  | nil => rfl
  | cons k rest ih =>
    rw [Transition.each, Transition.after_andThen, runAll_cons]
    exact congrArg _ (funext ih)

variable {obs inv}

theorem SameObs.agree {s t : σ} (h : SameObs obs s t) (footprint : Set ι) :
    Agree obs footprint s t :=
  fun i _ ↦ h i

theorem SameObs.symm {s t : σ} (h : SameObs obs s t) : SameObs obs t s := fun i ↦ (h i).symm

theorem SameObs.trans {s t u : σ} (h : SameObs obs s t) (h' : SameObs obs t u) :
    SameObs obs s u :=
  fun i ↦ (h i).trans (h' i)

theorem Agree.symm {footprint : Set ι} {s t : σ} (h : Agree obs footprint s t) :
    Agree obs footprint t s :=
  fun i hi ↦ (h i hi).symm

theorem Agree.mono {small large : Set ι} (hsub : small ⊆ large) {s t : σ}
    (h : Agree obs large s t) : Agree obs small s t :=
  fun i hi ↦ h i (hsub hi)

/-- A larger footprint is a footprint. -/
theorem Local.mono {small large : Set ι} (hsub : small ⊆ large) {step : σ → Option σ}
    (h : Local obs inv small step) : Local obs inv large step where
  keeps := h.keeps
  frame hs hstep i hi := h.frame hs hstep i fun hsmall ↦ hi (hsub hsmall)
  congr := by
    intro s s' t hs ht hagree hstep
    obtain ⟨t', hstep', hagree'⟩ := h.congr hs ht (hagree.mono hsub) hstep
    refine ⟨t', hstep', fun i hi ↦ ?_⟩
    by_cases hsmall : i ∈ small
    · exact hagree' i hsmall
    · rw [h.frame hs hstep i hsmall, h.frame ht hstep' i hsmall, hagree i hi]

/-- The coordinates that a list of steps may touch. -/
def footprintOf (footprint : κ → Set ι) (list : List κ) : Set ι := { i | ∃ k ∈ list, i ∈ footprint k }

variable {step : κ → σ → Option σ} {footprint : κ → Set ι}

/-- A list of local steps is local. -/
theorem Local.runAll {list : List κ} (h : ∀ k ∈ list, Local obs inv (footprint k) (step k)) :
    Local obs inv (footprintOf footprint list) (runAll step list) := by
  induction list with
  | nil =>
    constructor
    · rintro s s' hs ⟨⟩
      exact hs
    · rintro s s' hs ⟨⟩ i -
      rfl
    · rintro s s' t hs ht hagree ⟨⟩
      exact ⟨t, rfl, hagree⟩
  | cons k rest ih =>
    have hrest := ih fun k' hk' ↦ h k' (List.mem_cons_of_mem _ hk')
    have hall : footprintOf footprint rest ⊆ footprintOf footprint (k :: rest) :=
      fun i ⟨k', hk', hi⟩ ↦ ⟨k', List.mem_cons_of_mem _ hk', hi⟩
    have hone : footprint k ⊆ footprintOf footprint (k :: rest) :=
      fun i hi ↦ ⟨k, List.mem_cons_self, hi⟩
    have hfirst := (h k List.mem_cons_self).mono hone
    have hlater := hrest.mono hall
    constructor
    · intro s s' hs hrun
      rw [runAll_cons] at hrun
      obtain ⟨s₁, hstep, hrun⟩ := Option.bind_eq_some_iff.mp hrun
      exact hlater.keeps (hfirst.keeps hs hstep) hrun
    · intro s s' hs hrun i hi
      rw [runAll_cons] at hrun
      obtain ⟨s₁, hstep, hrun⟩ := Option.bind_eq_some_iff.mp hrun
      rw [hlater.frame (hfirst.keeps hs hstep) hrun i hi, hfirst.frame hs hstep i hi]
    · intro s s' t hs ht hagree hrun
      rw [runAll_cons] at hrun
      obtain ⟨s₁, hstep, hrun⟩ := Option.bind_eq_some_iff.mp hrun
      obtain ⟨t₁, hstep', hagree₁⟩ := hfirst.congr hs ht hagree hstep
      obtain ⟨t', hrun', hagree'⟩ :=
        hlater.congr (hfirst.keeps hs hstep) (hfirst.keeps ht hstep') hagree₁ hrun
      refine ⟨t', ?_, hagree'⟩
      rw [runAll_cons, hstep']
      exact hrun'

/-- From states that look the same, a local step ends in states that look the same. -/
theorem Local.sameObs {area : Set ι} {run : σ → Option σ} (h : Local obs inv area run) {s s' t : σ}
    (hs : inv s) (ht : inv t) (hsame : SameObs obs s t) (hrun : run s = some s') :
    ∃ t', run t = some t' ∧ SameObs obs s' t' := by
  obtain ⟨t', hrun', hagree⟩ := h.congr hs ht (hsame.agree area) hrun
  refine ⟨t', hrun', fun i ↦ ?_⟩
  by_cases hi : i ∈ area
  · exact hagree i hi
  · rw [h.frame hs hrun i hi, h.frame ht hrun' i hi, hsame i]

/-! ### Reordering -/

variable (obs inv step) in
/-- Wherever the first list of steps succeeds, so does the second, and the ends look the same. -/
def Refines (first second : List κ) : Prop :=
  ∀ s t s', inv s → inv t → SameObs obs s t → runAll step first s = some s' →
    ∃ t', runAll step second t = some t' ∧ SameObs obs s' t'

/-- Lists of steps with disjoint footprints commute. -/
theorem Refines.append_comm {first second : List κ}
    (hfirst : ∀ k ∈ first, Local obs inv (footprint k) (step k))
    (hsecond : ∀ k ∈ second, Local obs inv (footprint k) (step k))
    (hdisjoint : Disjoint (footprintOf footprint first) (footprintOf footprint second)) :
    Refines obs inv step (first ++ second) (second ++ first) := by
  intro s t s' hs ht hsame hrun
  rw [runAll_append] at hrun
  obtain ⟨s₁, hrun₁, hrun₂⟩ := Option.bind_eq_some_iff.mp hrun
  have hlocal₁ := Local.runAll hfirst
  have hlocal₂ := Local.runAll hsecond
  have hs₁ := hlocal₁.keeps hs hrun₁
  -- The second list sees the same from `t` as it sees after the first.
  have hagree₂ : Agree obs (footprintOf footprint second) s₁ t := by
    intro i hi
    rw [hlocal₁.frame hs hrun₁ i (Set.disjoint_right.mp hdisjoint hi), hsame i]
  obtain ⟨t₂, hrun₂', hafter₂⟩ := hlocal₂.congr hs₁ ht hagree₂ hrun₂
  have ht₂ := hlocal₂.keeps ht hrun₂'
  have hagree₁ : Agree obs (footprintOf footprint first) s t₂ := by
    intro i hi
    rw [hlocal₂.frame ht hrun₂' i (Set.disjoint_left.mp hdisjoint hi), hsame i]
  obtain ⟨t', hrun₁', hafter₁⟩ := hlocal₁.congr hs ht₂ hagree₁ hrun₁
  refine ⟨t', ?_, fun i ↦ ?_⟩
  · rw [runAll_append, hrun₂']
    exact hrun₁'
  · by_cases hi : i ∈ footprintOf footprint first
    · rw [hlocal₂.frame hs₁ hrun₂ i (Set.disjoint_left.mp hdisjoint hi), hafter₁ i hi]
    · rw [hlocal₁.frame ht₂ hrun₁' i hi]
      by_cases hi₂ : i ∈ footprintOf footprint second
      · exact hafter₂ i hi₂
      · rw [hlocal₂.frame hs₁ hrun₂ i hi₂, hlocal₁.frame hs hrun₁ i hi,
          hlocal₂.frame ht hrun₂' i hi₂, hsame i]

/-! ### Ending alike -/

variable (obs inv) in
/-- Two partial steps that end alike from states that look the same: both fail, or both succeed and
the ends look the same. -/
def Alike (first second : σ → Option σ) : Prop :=
  ∀ s t, inv s → inv t → SameObs obs s t →
    (first s = none ∧ second t = none) ∨
      ∃ s' t', first s = some s' ∧ second t = some t' ∧ inv s' ∧ inv t' ∧ SameObs obs s' t'

namespace Alike

variable {first second third : σ → Option σ}

theorem trans (h : Alike obs inv first second) (h' : Alike obs inv second third) :
    Alike obs inv first third := by
  intro s t hs ht hsame
  rcases h s t hs ht hsame with ⟨hnone, hnone₁⟩ | ⟨s', t₁, hs', ht₁, hinv, hinv₁, hsame₁⟩
  · rcases h' t t ht ht (fun _ ↦ rfl) with ⟨-, hnone'⟩ | ⟨_, _, hsome, -⟩
    · exact .inl ⟨hnone, hnone'⟩
    · exact nomatch hnone₁.symm.trans hsome
  · rcases h' t t ht ht (fun _ ↦ rfl) with ⟨hnone, -⟩ | ⟨t₂, t', ht₂, ht', -, hinv', hsame'⟩
    · exact nomatch hnone.symm.trans ht₁
    · obtain rfl := Option.some.inj (ht₁.symm.trans ht₂)
      exact .inr ⟨s', t', hs', ht', hinv, hinv', hsame₁.trans hsame'⟩

/-- A local step ends alike from states that look the same. -/
theorem of_local {area : Set ι} (h : Local obs inv area first) : Alike obs inv first first := by
  intro s t hs ht hsame
  cases hrun : first s with
  | none =>
    refine .inl ⟨rfl, ?_⟩
    by_contra hsome
    obtain ⟨t', ht'⟩ := Option.ne_none_iff_exists'.mp hsome
    obtain ⟨s', hs', -⟩ := h.sameObs ht hs hsame.symm ht'
    exact nomatch hrun.symm.trans hs'
  | some s' =>
    obtain ⟨t', ht', hsame'⟩ := h.sameObs hs ht hsame hrun
    exact .inr ⟨s', t', rfl, ht', h.keeps hs hrun, h.keeps ht ht', hsame'⟩

/-- One step after another. -/
theorem bind {first' second' : σ → Option σ} (h : Alike obs inv first second)
    (h' : Alike obs inv first' second') :
    Alike obs inv (fun s ↦ (first s).bind first') (fun s ↦ (second s).bind second') := by
  intro s t hs ht hsame
  rcases h s t hs ht hsame with ⟨hnone, hnone'⟩ | ⟨s₁, t₁, hs₁, ht₁, hinv, hinv', hsame₁⟩
  · simp [hnone, hnone']
  · simp only [hs₁, ht₁]
    exact h' s₁ t₁ hinv hinv' hsame₁

theorem runAll {step step' : κ → σ → Option σ} {list : List κ}
    (h : ∀ k ∈ list, Alike obs inv (step k) (step' k)) :
    Alike obs inv (runAll step list) (Foundation.runAll step' list) := by
  induction list with
  | nil => exact fun s t hs ht hsame ↦ .inr ⟨s, t, rfl, rfl, hs, ht, hsame⟩
  | cons k rest ih =>
    have hrest := ih fun later hlater ↦ h later (List.mem_cons_of_mem _ hlater)
    exact (h k List.mem_cons_self).bind hrest

/-- Lists of local steps that refine each other end alike. -/
theorem of_refines {list list' : List κ}
    (hlist : ∀ k ∈ list, Local obs inv (footprint k) (step k))
    (hlist' : ∀ k ∈ list', Local obs inv (footprint k) (step k))
    (h : Refines obs inv step list list') (h' : Refines obs inv step list' list) :
    Alike obs inv (Foundation.runAll step list) (Foundation.runAll step list') := by
  intro s t hs ht hsame
  cases hrun : Foundation.runAll step list s with
  | none =>
    refine .inl ⟨rfl, ?_⟩
    by_contra hsome
    obtain ⟨t', ht'⟩ := Option.ne_none_iff_exists'.mp hsome
    obtain ⟨s', hs', -⟩ := h' t s t' ht hs hsame.symm ht'
    exact nomatch hrun.symm.trans hs'
  | some s' =>
    obtain ⟨t', ht', hsame'⟩ := h s t s' hs ht hsame hrun
    exact .inr ⟨s', t', rfl, ht', (Local.runAll hlist).keeps hs hrun,
      (Local.runAll hlist').keeps ht ht', hsame'⟩

theorem append {list list' later later' : List κ}
    (h : Alike obs inv (Foundation.runAll step list) (Foundation.runAll step list'))
    (h' : Alike obs inv (Foundation.runAll step later) (Foundation.runAll step later')) :
    Alike obs inv (Foundation.runAll step (list ++ later))
      (Foundation.runAll step (list' ++ later')) := by
  intro s t hs ht hsame
  rw [runAll_append, runAll_append]
  exact h.bind h' s t hs ht hsame

/-- Lists of steps with disjoint footprints end alike in either order. -/
theorem append_comm {list list' : List κ}
    (hlist : ∀ k ∈ list, Local obs inv (footprint k) (step k))
    (hlist' : ∀ k ∈ list', Local obs inv (footprint k) (step k))
    (hdisjoint : Disjoint (footprintOf footprint list) (footprintOf footprint list')) :
    Alike obs inv (Foundation.runAll step (list ++ list'))
      (Foundation.runAll step (list' ++ list)) := by
  have hall : ∀ k ∈ list ++ list', Local obs inv (footprint k) (step k) :=
    fun k hk ↦ (List.mem_append.mp hk).elim (hlist k) (hlist' k)
  have hall' : ∀ k ∈ list' ++ list, Local obs inv (footprint k) (step k) :=
    fun k hk ↦ (List.mem_append.mp hk).elim (hlist' k) (hlist k)
  exact of_refines hall hall' (.append_comm hlist hlist' hdisjoint)
    (.append_comm hlist' hlist hdisjoint.symm)

/-- It is enough to compare the steps from one state. -/
theorem of_same (hsecond : Alike obs inv second second)
    (h : ∀ s, inv s → (first s = none ∧ second s = none) ∨
      ∃ s' t', first s = some s' ∧ second s = some t' ∧ inv s' ∧ inv t' ∧ SameObs obs s' t') :
    Alike obs inv first second := by
  intro s t hs ht hsame
  rcases h s hs with ⟨hnone, hnone'⟩ | ⟨s', s₁, hs', hs₁, hinv, -, hsame'⟩
  · rcases hsecond s t hs ht hsame with ⟨-, hlast⟩ | ⟨_, _, hsome, -⟩
    · exact .inl ⟨hnone, hlast⟩
    · exact nomatch hnone'.symm.trans hsome
  · rcases hsecond s t hs ht hsame with ⟨hnone, -⟩ | ⟨s₂, t', hs₂, ht', -, hinv', hlast⟩
    · exact nomatch hnone.symm.trans hs₁
    · obtain rfl := Option.some.inj (hs₁.symm.trans hs₂)
      exact .inr ⟨s', t', hs', ht', hinv, hinv', hsame'.trans hlast⟩

end Alike

/-! ### Running apart -/

/-- Chunks of steps with disjoint footprints succeed one after another exactly when each of them
succeeds from the start. -/
theorem runAll_flatten_iff {chunks : List (List κ)}
    (h : ∀ chunk ∈ chunks, ∀ k ∈ chunk, Local obs inv (footprint k) (step k))
    (hdisjoint : chunks.Pairwise fun first second ↦
      Disjoint (footprintOf footprint first) (footprintOf footprint second))
    {s t : σ} (hs : inv s) (ht : inv t)
    (hagree : ∀ chunk ∈ chunks, Agree obs (footprintOf footprint chunk) s t) :
    (runAll step chunks.flatten s).isSome ↔
      ∀ chunk ∈ chunks, (runAll step chunk t).isSome := by
  induction chunks generalizing s with
  | nil => simp
  | cons chunk rest ih =>
    rw [List.pairwise_cons] at hdisjoint
    have hlocal := Local.runAll (h chunk List.mem_cons_self)
    have hagree₀ := hagree chunk List.mem_cons_self
    rw [List.flatten_cons, runAll_append, List.forall_mem_cons]
    cases hrun : runAll step chunk s with
    | none =>
      have hnone : runAll step chunk t = none := by
        by_contra hsome
        obtain ⟨t', ht'⟩ := Option.ne_none_iff_exists'.mp hsome
        obtain ⟨s', hs', -⟩ := hlocal.congr ht hs hagree₀.symm ht'
        rw [hrun] at hs'
        exact nomatch hs'
      simp [hnone]
    | some s₁ =>
      obtain ⟨t₁, ht₁, -⟩ := hlocal.congr hs ht hagree₀ hrun
      have hs₁ := hlocal.keeps hs hrun
      have hrest : ∀ later ∈ rest, Agree obs (footprintOf footprint later) s₁ t := by
        intro later hlater i hi
        rw [hlocal.frame hs hrun i (Set.disjoint_right.mp (hdisjoint.1 later hlater) hi)]
        exact hagree later (List.mem_cons_of_mem _ hlater) i hi
      have hiff := ih (fun later hlater ↦ h later (List.mem_cons_of_mem _ hlater)) hdisjoint.2 hs₁
        hrest
      rw [ht₁]
      simpa using hiff

/-- After the chunks one after another, every chunk's footprint looks as if the chunk had run alone
from the start, and everything else looks as before. -/
theorem obs_runAll_flatten {chunks : List (List κ)}
    (h : ∀ chunk ∈ chunks, ∀ k ∈ chunk, Local obs inv (footprint k) (step k))
    (hdisjoint : chunks.Pairwise fun first second ↦
      Disjoint (footprintOf footprint first) (footprintOf footprint second))
    {s t s' : σ} (hs : inv s) (ht : inv t)
    (hagree : ∀ chunk ∈ chunks, Agree obs (footprintOf footprint chunk) s t)
    (hrun : runAll step chunks.flatten s = some s') :
    (∀ i, (∀ chunk ∈ chunks, i ∉ footprintOf footprint chunk) → obs i s' = obs i s) ∧
      ∀ chunk ∈ chunks, ∀ t', runAll step chunk t = some t' →
        Agree obs (footprintOf footprint chunk) s' t' := by
  induction chunks generalizing s with
  | nil =>
    obtain rfl := Option.some.inj hrun
    exact ⟨fun i _ ↦ rfl, nofun⟩
  | cons chunk rest ih =>
    rw [List.pairwise_cons] at hdisjoint
    have hlocal := Local.runAll (h chunk List.mem_cons_self)
    rw [List.flatten_cons, runAll_append] at hrun
    obtain ⟨s₁, hrun₁, hrun₂⟩ := Option.bind_eq_some_iff.mp hrun
    have hs₁ := hlocal.keeps hs hrun₁
    have hrest : ∀ later ∈ rest, Agree obs (footprintOf footprint later) s₁ t := by
      intro later hlater i hi
      rw [hlocal.frame hs hrun₁ i (Set.disjoint_right.mp (hdisjoint.1 later hlater) hi)]
      exact hagree later (List.mem_cons_of_mem _ hlater) i hi
    obtain ⟨houter, hinner⟩ := ih (fun later hlater ↦ h later (List.mem_cons_of_mem _ hlater))
      hdisjoint.2 hs₁ hrest hrun₂
    constructor
    · intro i hi
      rw [List.forall_mem_cons] at hi
      rw [houter i hi.2, hlocal.frame hs hrun₁ i hi.1]
    · intro chunk' hchunk' t' ht' i hi
      rcases List.mem_cons.mp hchunk' with rfl | hlater
      · have hfree : ∀ later ∈ rest, i ∉ footprintOf footprint later :=
          fun later hlater ↦ Set.disjoint_left.mp (hdisjoint.1 later hlater) hi
        obtain ⟨t₁, ht₁, hafter⟩ := hlocal.congr hs ht (hagree chunk' List.mem_cons_self) hrun₁
        rw [ht'] at ht₁
        obtain rfl := Option.some.inj ht₁
        rw [houter i hfree, hafter i hi]
      · exact hinner chunk' hlater t' ht' i hi

end Local

end Latebra.Foundation
