import Mathlib

/-!
# Programs over a command alphabet

A state machine that is written as straight-line code with early error returns is embedded as a
`Program`: a tree of commands, each followed by what the program does with the reply. A `Handler`
gives the commands a meaning on a state type, and `Program.run` executes a program under a
handler. The same program text can then be run against a store of encoded records and against a
mathematical state, and compared.

A run ends in an `Outcome`: a value, an error that the program reports, or a panic. Errors and
panics stop the program where they happen and leave the state as it is at that point, which is
how a machine that is mutated in place behaves.

Four rules are developed for such runs.

* `Returns` is the relation of successful runs. Its simp lemmas (`returns_bind`,
  `returns_rejectIf`, `returns_okOr`, `returns_whenSome`) turn a program into the list of the
  checks it passes and the state it ends in.
* `Uses` bounds the commands that a program can issue, and `Uses.preserving` turns such a bound into
  a frame.
* `FailsClean` says that a run reports no error after a write, and by `FailsClean.view_eq` such a
  run changes nothing when it fails. `ChecksFirst` is the same of a program, whatever the state.
  `FailsClean.bind` is the rule for a program whose late checks cannot fail in the states it is run
  from.
* `Program.run_related` is simulation: two handlers that answer every command of a program alike,
  from related states, give the program the same outcome and related final states.
-/

set_option autoImplicit false
set_option relaxedAutoImplicit false

namespace Latebra.Foundation

/-- A command alphabet: the commands, and for each command the type of its reply. -/
structure Alphabet where
  Command : Type
  Reply : Command → Type

/-- A program over an alphabet: it ends with a value, with an error or in a panic, or it issues a
command and continues with the reply. -/
inductive Program (S : Alphabet) (ε α : Type) : Type where
  | done (value : α)
  | fail (error : ε)
  | halt
  | issue (command : S.Command) (next : S.Reply command → Program S ε α)

/-- How a run ends. -/
inductive Outcome (ε α : Type) where
  | ok (value : α)
  | err (error : ε)
  | panicked
deriving DecidableEq, Repr

/-- A meaning of the commands on a state. A command without an answer panics. -/
structure Handler (S : Alphabet) (σ : Type) where
  exec : (command : S.Command) → σ → Option (S.Reply command × σ)

namespace Program

variable {S : Alphabet} {ε α β σ σ₁ σ₂ τ : Type}

/-- Sequencing: the second program takes over where the first one ends with a value. -/
def bind (program : Program S ε α) (next : α → Program S ε β) : Program S ε β :=
  match program with
  | done value => next value
  | fail error => fail error
  | halt => halt
  | issue command rest => issue command fun reply ↦ (rest reply).bind next

instance : Monad (Program S ε) where
  pure := done
  bind := bind

@[simp]
theorem done_bind (value : α) (next : α → Program S ε β) : done value >>= next = next value := rfl

@[simp]
theorem issue_bind (command : S.Command) (rest : S.Reply command → Program S ε α)
    (next : α → Program S ε β) :
    issue command rest >>= next = issue command fun reply ↦ rest reply >>= next := rfl

theorem bind_pure_id (program : Program S ε α) : program >>= pure = program := by
  change program.bind done = program
  induction program with
  | issue command rest ih => simp only [bind, ih]
  | _ => rfl

theorem bind_assoc_of (program : Program S ε α) (next : α → Program S ε β)
    (last : β → Program S ε σ) :
    (program >>= next) >>= last = program >>= fun value ↦ next value >>= last := by
  change (program.bind next).bind last = program.bind fun value ↦ (next value).bind last
  induction program with
  | issue command rest ih => simp only [bind, ih]
  | _ => rfl

instance : LawfulMonad (Program S ε) :=
  LawfulMonad.mk' (Program S ε) bind_pure_id (fun _ _ ↦ rfl) bind_assoc_of

/-- Stop with an error. -/
def reject (error : ε) : Program S ε α := fail error

/-- Issue one command and return its reply. -/
def perform (command : S.Command) : Program S ε (S.Reply command) := issue command done

/-- Stop with an error when a condition holds. -/
def rejectIf (condition : Prop) [Decidable condition] (error : ε) : Program S ε Unit :=
  if condition then fail error else done ()

/-- The value of an option, or an error when there is none. -/
def okOr (value : Option α) (error : ε) : Program S ε α :=
  match value with
  | some a => done a
  | none => fail error

/-- The value of an option, or a panic when there is none. -/
def orPanic (value : Option α) : Program S ε α :=
  match value with
  | some a => done a
  | none => halt

/-- Run a program on the value of an option, and do nothing when there is none. -/
def whenSome (value : Option α) (next : α → Program S ε Unit) : Program S ε Unit :=
  match value with
  | some a => next a
  | none => done ()

/-- Run a program on every entry of a list, in order. -/
def forEach (entries : List α) (body : α → Program S ε Unit) : Program S ε Unit :=
  match entries with
  | [] => done ()
  | entry :: rest => (body entry).bind fun _ ↦ forEach rest body

@[simp]
theorem forEach_nil (body : α → Program S ε Unit) : forEach [] body = pure () := rfl

@[simp]
theorem forEach_cons (entry : α) (rest : List α) (body : α → Program S ε Unit) :
    forEach (entry :: rest) body = body entry >>= fun _ ↦ forEach rest body := rfl

/-- Execute a program under a handler. -/
def run (handler : Handler S σ) : Program S ε α → σ → Outcome ε α × σ
  | done value, state => (.ok value, state)
  | fail error, state => (.err error, state)
  | halt, state => (.panicked, state)
  | issue command next, state =>
    match handler.exec command state with
    | none => (.panicked, state)
    | some (reply, state') => (next reply).run handler state'

variable (handler : Handler S σ)

theorem run_bind (program : Program S ε α) (next : α → Program S ε β) (state : σ) :
    (program >>= next).run handler state =
      match program.run handler state with
      | (.ok value, state') => (next value).run handler state'
      | (.err error, state') => (.err error, state')
      | (.panicked, state') => (.panicked, state') := by
  change (bind program next).run handler state = _
  induction program generalizing state with
  | done value => rfl
  | fail error => rfl
  | halt => rfl
  | issue command rest ih =>
    simp only [bind, run]
    cases handler.exec command state with
    | none => rfl
    | some answer => exact ih _ _

/-! ### Successful runs -/

/-- The program runs from `state` to `state'` and returns `value`. -/
def Returns (program : Program S ε α) (state : σ) (value : α) (state' : σ) : Prop :=
  program.run handler state = (.ok value, state')

@[simp]
theorem returns_pure (value value' : α) (state state' : σ) :
    Returns handler (pure value : Program S ε α) state value' state' ↔
      value' = value ∧ state' = state := by
  change (Outcome.ok value, state) = (.ok value', state') ↔ _
  rw [Prod.mk.injEq, Outcome.ok.injEq]
  exact and_congr eq_comm eq_comm

@[simp]
theorem returns_reject (error : ε) (value : α) (state state' : σ) :
    ¬ Returns handler (reject error : Program S ε α) state value state' := by
  simp [Returns, reject, run]

@[simp]
theorem returns_bind (program : Program S ε α) (next : α → Program S ε β) (state state' : σ)
    (value : β) :
    Returns handler (program >>= next) state value state' ↔
      ∃ middle state₁, Returns handler program state middle state₁ ∧
        Returns handler (next middle) state₁ value state' := by
  simp only [Returns, run_bind]
  rcases program.run handler state with ⟨middle | error | _, state₁⟩ <;> simp

@[simp]
theorem returns_map (program : Program S ε α) (f : α → β) (state state' : σ) (value : β) :
    Returns handler (f <$> program) state value state' ↔
      ∃ middle, Returns handler program state middle state' ∧ value = f middle := by
  change Returns handler (program >>= fun a ↦ pure (f a)) state value state' ↔ _
  simp only [returns_bind, returns_pure]
  constructor
  · rintro ⟨middle, _, hprogram, hvalue, rfl⟩
    exact ⟨middle, hprogram, hvalue⟩
  · rintro ⟨middle, hprogram, hvalue⟩
    exact ⟨middle, state', hprogram, hvalue, rfl⟩

@[simp]
theorem returns_ite (condition : Prop) [Decidable condition] (first second : Program S ε α)
    (state state' : σ) (value : α) :
    Returns handler (if condition then first else second) state value state' ↔
      (condition ∧ Returns handler first state value state') ∨
        (¬ condition ∧ Returns handler second state value state') := by
  split <;> simp [*]

@[simp]
theorem returns_perform (command : S.Command) (state state' : σ) (reply : S.Reply command) :
    Returns handler (perform command : Program S ε _) state reply state' ↔
      handler.exec command state = some (reply, state') := by
  simp only [Returns, perform, run]
  rcases handler.exec command state with _ | ⟨answer, state₁⟩ <;> simp

@[simp]
theorem returns_rejectIf (condition : Prop) [Decidable condition] (error : ε) (state state' : σ)
    (value : Unit) :
    Returns handler (rejectIf condition error : Program S ε Unit) state value state' ↔
      ¬ condition ∧ state' = state := by
  unfold rejectIf
  split <;> simp [Returns, run, *, eq_comm]

@[simp]
theorem returns_okOr (value : Option α) (error : ε) (state state' : σ) (result : α) :
    Returns handler (okOr value error : Program S ε α) state result state' ↔
      value = some result ∧ state' = state := by
  cases value <;> simp [okOr, Returns, run, eq_comm]

@[simp]
theorem returns_orPanic (value : Option α) (state state' : σ) (result : α) :
    Returns handler (orPanic value : Program S ε α) state result state' ↔
      value = some result ∧ state' = state := by
  cases value <;> simp [orPanic, Returns, run, eq_comm]

@[simp]
theorem returns_whenSome (value : Option α) (next : α → Program S ε Unit) (state state' : σ)
    (result : Unit) :
    Returns handler (whenSome value next) state result state' ↔
      (∃ a, value = some a ∧ Returns handler (next a) state result state') ∨
        (value = none ∧ state' = state) := by
  cases value <;> simp [whenSome, Returns, run, eq_comm]

/-- The run rule of a loop: what every pass preserves, the loop preserves. -/
theorem Returns.forEach_induction {handler : Handler S σ} {entries : List α}
    {body : α → Program S ε Unit} (invariant : σ → Prop)
    (hstep : ∀ entry ∈ entries, ∀ state state', invariant state →
      Returns handler (body entry) state () state' → invariant state')
    {state state' : σ} (hstart : invariant state)
    (hrun : Returns handler (forEach entries body) state () state') : invariant state' := by
  induction entries generalizing state with
  | nil =>
    rw [forEach_nil, returns_pure] at hrun
    rwa [hrun.2]
  | cons entry rest ih =>
    rw [forEach_cons, returns_bind] at hrun
    obtain ⟨_, state₁, hfirst, hrest⟩ := hrun
    refine ih (fun later hlater ↦ hstep later (List.mem_cons_of_mem _ hlater)) ?_ hrest
    exact hstep entry List.mem_cons_self state state₁ hstart hfirst

/-! ### Rejected runs -/

/-- The run of the program from `state` stops with an error. -/
def Rejects (program : Program S ε α) (state : σ) : Prop :=
  ∃ error, (program.run handler state).1 = .err error

@[simp]
theorem rejects_reject (error : ε) (state : σ) :
    Rejects handler (reject error : Program S ε α) state :=
  ⟨error, rfl⟩

@[simp]
theorem rejects_rejectIf_bind (condition : Prop) [Decidable condition] (error : ε)
    (next : Unit → Program S ε α) (state : σ) :
    Rejects handler (rejectIf condition error >>= next) state ↔
      (¬ condition → Rejects handler (next ()) state) := by
  unfold rejectIf
  split
  · next hstop => exact ⟨fun _ hgo ↦ absurd hstop hgo, fun _ ↦ ⟨error, rfl⟩⟩
  · next hgo => exact ⟨fun hnext _ ↦ hnext, fun hnext ↦ hnext hgo⟩

@[simp]
theorem rejects_okOr_bind (value : Option β) (error : ε) (next : β → Program S ε α) (state : σ) :
    Rejects handler (okOr value error >>= next) state ↔
      ∀ b, value = some b → Rejects handler (next b) state := by
  cases value with
  | none => exact ⟨fun _ _ hnone ↦ (nomatch hnone), fun _ ↦ ⟨error, rfl⟩⟩
  | some b => exact ⟨fun hnext b' heq ↦ Option.some.inj heq ▸ hnext, fun hnext ↦ hnext b rfl⟩

theorem Rejects.issue {handler : Handler S σ} {command : S.Command}
    {next : S.Reply command → Program S ε α} {state state' : σ} {reply : S.Reply command}
    (hexec : handler.exec command state = some (reply, state'))
    (hnext : Rejects handler (next reply) state') :
    Rejects handler (.issue command next) state := by
  obtain ⟨error, herror⟩ := hnext
  exact ⟨error, by rw [run, hexec]; exact herror⟩

/-! ### Runs that stop with a given error -/

/-- The run of the program from `state` stops with `error`. -/
def FailsWith (program : Program S ε α) (state : σ) (error : ε) : Prop :=
  (program.run handler state).1 = .err error

@[simp]
theorem failsWith_bind (program : Program S ε α) (next : α → Program S ε β) (state : σ)
    (error : ε) :
    FailsWith handler (program >>= next) state error ↔
      FailsWith handler program state error ∨
        ∃ value state', Returns handler program state value state' ∧
          FailsWith handler (next value) state' error := by
  simp only [FailsWith, Returns, run_bind]
  rcases program.run handler state with ⟨value | error' | _, state'⟩ <;> simp

@[simp]
theorem failsWith_pure (value : α) (state : σ) (error : ε) :
    ¬ FailsWith handler (pure value : Program S ε α) state error := by
  change (Outcome.ok value : Outcome ε α) ≠ .err error
  simp

@[simp]
theorem failsWith_reject (error error' : ε) (state : σ) :
    FailsWith handler (reject error : Program S ε α) state error' ↔ error = error' := by
  simp [FailsWith, reject, run]

@[simp]
theorem failsWith_ite (condition : Prop) [Decidable condition] (first second : Program S ε α)
    (state : σ) (error : ε) :
    FailsWith handler (if condition then first else second) state error ↔
      (condition ∧ FailsWith handler first state error) ∨
        (¬ condition ∧ FailsWith handler second state error) := by
  split <;> simp [*]

@[simp]
theorem failsWith_perform (command : S.Command) (state : σ) (error : ε) :
    ¬ FailsWith handler (perform command : Program S ε _) state error := by
  simp only [FailsWith, perform, run]
  rcases handler.exec command state with _ | answer <;> simp

@[simp]
theorem failsWith_rejectIf (condition : Prop) [Decidable condition] (error error' : ε)
    (state : σ) :
    FailsWith handler (rejectIf condition error : Program S ε Unit) state error' ↔
      condition ∧ error = error' := by
  unfold rejectIf
  split <;> simp [FailsWith, run, *]

@[simp]
theorem failsWith_okOr (value : Option α) (error error' : ε) (state : σ) :
    FailsWith handler (okOr value error : Program S ε α) state error' ↔
      value = none ∧ error = error' := by
  cases value <;> simp [okOr, FailsWith, run]

@[simp]
theorem failsWith_orPanic (value : Option α) (state : σ) (error : ε) :
    ¬ FailsWith handler (orPanic value : Program S ε α) state error := by
  cases value <;> simp [orPanic, FailsWith, run]

/-- A loop whose passes do not stop with an error does not either. -/
theorem failsWith_forEach {handler : Handler S σ} {entries : List α}
    {body : α → Program S ε Unit} {error : ε}
    (hbody : ∀ entry ∈ entries, ∀ state, ¬ FailsWith handler (body entry) state error)
    (state : σ) : ¬ FailsWith handler (forEach entries body) state error := by
  induction entries generalizing state with
  | nil => exact failsWith_pure handler () state error
  | cons entry rest ih =>
    rw [forEach_cons, failsWith_bind]
    rintro (hfirst | ⟨_, state', -, hrest⟩)
    · exact hbody entry List.mem_cons_self state hfirst
    · exact ih (fun later hlater ↦ hbody later (List.mem_cons_of_mem _ hlater)) state' hrest

/-! ### Runs that panic -/

/-- The run of the program from `state` panics. -/
def Panics (program : Program S ε α) (state : σ) : Prop :=
  (program.run handler state).1 = .panicked

/-- A panic after a successful start. -/
theorem Panics.bind {handler : Handler S σ} {program : Program S ε β}
    {next : β → Program S ε α} {state state' : σ} {value : β}
    (hfirst : Returns handler program state value state')
    (hnext : Panics handler (next value) state') :
    Panics handler (program >>= next) state := by
  unfold Panics
  rw [run_bind, show program.run handler state = (.ok value, state') from hfirst]
  exact hnext

theorem panics_orPanic_bind {value : Option β} (hnone : value = none)
    (next : β → Program S ε α) (state : σ) :
    Panics handler (orPanic value >>= next) state := by
  rw [hnone]
  rfl

/-! ### Frames -/

/-- Every command that the program can issue, whatever the replies, satisfies `allowed`. -/
def Uses (allowed : S.Command → Prop) : Program S ε α → Prop
  | issue command next => allowed command ∧ ∀ reply, (next reply).Uses allowed
  | _ => True

section Uses

variable (allowed : S.Command → Prop)

@[simp]
theorem uses_done (value : α) : (done value : Program S ε α).Uses allowed := trivial

@[simp]
theorem uses_pure (value : α) : (pure value : Program S ε α).Uses allowed := trivial

@[simp]
theorem uses_reject (error : ε) : (reject error : Program S ε α).Uses allowed := trivial

@[simp]
theorem uses_issue (command : S.Command) (next : S.Reply command → Program S ε α) :
    (issue command next).Uses allowed ↔ allowed command ∧ ∀ reply, (next reply).Uses allowed :=
  Iff.rfl

@[simp]
theorem uses_rejectIf (condition : Prop) [Decidable condition] (error : ε) :
    (rejectIf condition error : Program S ε Unit).Uses allowed := by
  unfold rejectIf
  split <;> trivial

@[simp]
theorem uses_rejectIf_bind (condition : Prop) [Decidable condition] (error : ε)
    (next : Unit → Program S ε α) :
    (rejectIf condition error >>= next).Uses allowed ↔ (¬ condition → (next ()).Uses allowed) := by
  unfold rejectIf
  split
  · next hstop => exact ⟨fun _ hgo ↦ absurd hstop hgo, fun _ ↦ trivial⟩
  · next hgo => exact ⟨fun huses _ ↦ huses, fun huses ↦ huses hgo⟩

@[simp]
theorem uses_okOr_bind (value : Option β) (error : ε) (next : β → Program S ε α) :
    (okOr value error >>= next).Uses allowed ↔ ∀ b, value = some b → (next b).Uses allowed := by
  cases value with
  | none => exact ⟨fun _ _ hnone ↦ (nomatch hnone), fun _ ↦ trivial⟩
  | some b => exact ⟨fun huses b' heq ↦ Option.some.inj heq ▸ huses, fun huses ↦ huses b rfl⟩

@[simp]
theorem uses_orPanic_bind (value : Option β) (next : β → Program S ε α) :
    (orPanic value >>= next).Uses allowed ↔ ∀ b, value = some b → (next b).Uses allowed := by
  cases value with
  | none => exact ⟨fun _ _ hnone ↦ (nomatch hnone), fun _ ↦ trivial⟩
  | some b => exact ⟨fun huses b' heq ↦ Option.some.inj heq ▸ huses, fun huses ↦ huses b rfl⟩

@[simp]
theorem uses_ite (condition : Prop) [Decidable condition] (first second : Program S ε α) :
    (if condition then first else second).Uses allowed ↔
      (condition → first.Uses allowed) ∧ (¬ condition → second.Uses allowed) := by
  split <;> simp [*]

@[simp]
theorem uses_ite_bind (condition : Prop) [Decidable condition] (first second : Program S ε β)
    (next : β → Program S ε α) :
    ((if condition then first else second) >>= next).Uses allowed ↔
      (condition → (first >>= next).Uses allowed) ∧
        (¬ condition → (second >>= next).Uses allowed) := by
  split <;> simp [*]

@[simp]
theorem uses_whenSome_bind (value : Option β) (body : β → Program S ε Unit)
    (next : Unit → Program S ε α) :
    (whenSome value body >>= next).Uses allowed ↔
      (value = none → (next ()).Uses allowed) ∧
        ∀ b, value = some b → (body b >>= next).Uses allowed := by
  cases value with
  | none => exact ⟨fun hnext ↦ ⟨fun _ ↦ hnext, nofun⟩, fun hboth ↦ hboth.1 rfl⟩
  | some b =>
    exact ⟨fun hnext ↦ ⟨nofun, fun b' heq ↦ Option.some.inj heq ▸ hnext⟩, fun hboth ↦ hboth.2 b rfl⟩

@[simp]
theorem uses_whenSome (value : Option β) (next : β → Program S ε Unit) :
    (whenSome value next).Uses allowed ↔ ∀ b, value = some b → (next b).Uses allowed := by
  cases value with
  | none => exact ⟨fun _ _ hnone ↦ (nomatch hnone), fun _ ↦ trivial⟩
  | some b => exact ⟨fun huses b' heq ↦ Option.some.inj heq ▸ huses, fun huses ↦ huses b rfl⟩

variable {allowed}

theorem Uses.bind {program : Program S ε α} {next : α → Program S ε β}
    (hfirst : program.Uses allowed) (hnext : ∀ value, (next value).Uses allowed) :
    (program >>= next).Uses allowed := by
  change (program.bind next).Uses allowed
  induction program with
  | done value => exact hnext value
  | issue command rest ih => exact ⟨hfirst.1, fun reply ↦ ih reply (hfirst.2 reply)⟩
  | _ => trivial

theorem Uses.mono {program : Program S ε α} {allowed allowed' : S.Command → Prop}
    (huses : program.Uses allowed) (hsub : ∀ command, allowed command → allowed' command) :
    program.Uses allowed' := by
  induction program with
  | issue command next ih => exact ⟨hsub command huses.1, fun reply ↦ ih reply (huses.2 reply)⟩
  | _ => trivial

theorem Uses.forEach {entries : List β} {body : β → Program S ε Unit}
    (hbody : ∀ entry ∈ entries, (body entry).Uses allowed) :
    (forEach entries body).Uses allowed := by
  induction entries with
  | nil => trivial
  | cons entry rest ih =>
    exact Uses.bind (hbody entry List.mem_cons_self)
      fun _ ↦ ih fun later hlater ↦ hbody later (List.mem_cons_of_mem _ hlater)

end Uses

variable {view : σ → τ}

/-- The program never changes the part of the state that `view` shows. -/
def Preserving (view : σ → τ) (program : Program S ε α) : Prop :=
  ∀ state, view (program.run handler state).2 = view state

variable {handler}

/-- A program preserves what every command it uses preserves. -/
theorem Uses.preserving {allowed : S.Command → Prop} {program : Program S ε α}
    (huses : program.Uses allowed) (view : σ → τ)
    (hcommand : ∀ command, allowed command → ∀ state reply state',
      handler.exec command state = some (reply, state') → view state' = view state) :
    Preserving handler view program := by
  intro state
  induction program generalizing state with
  | issue command next ih =>
    simp only [run]
    cases hexec : handler.exec command state with
    | none => rfl
    | some answer =>
      exact (ih answer.1 (huses.2 answer.1) answer.2).trans
        (hcommand command huses.1 state answer.1 answer.2 hexec)
  | _ => rfl

/-! ### Checks before writes -/

/-- The program makes no check after a write. `written` says whether there was one already. -/
def ChecksFirst (isWrite : S.Command → Prop) (written : Prop) : Program S ε α → Prop
  | fail _ => ¬ written
  | issue command next => ∀ reply, (next reply).ChecksFirst isWrite (written ∨ isWrite command)
  | _ => True

section ChecksFirst

variable (isWrite : S.Command → Prop) (written : Prop)

@[simp]
theorem checksFirst_done (value : α) :
    (done value : Program S ε α).ChecksFirst isWrite written := trivial

@[simp]
theorem checksFirst_pure (value : α) :
    (pure value : Program S ε α).ChecksFirst isWrite written := trivial

@[simp]
theorem checksFirst_reject (error : ε) :
    (reject error : Program S ε α).ChecksFirst isWrite written ↔ ¬ written :=
  Iff.rfl

@[simp]
theorem checksFirst_issue (command : S.Command) (next : S.Reply command → Program S ε α) :
    (issue command next).ChecksFirst isWrite written ↔
      ∀ reply, (next reply).ChecksFirst isWrite (written ∨ isWrite command) :=
  Iff.rfl

@[simp]
theorem checksFirst_rejectIf (condition : Prop) [Decidable condition] (error : ε) :
    (rejectIf condition error : Program S ε Unit).ChecksFirst isWrite written ↔
      (condition → ¬ written) := by
  unfold rejectIf
  split
  · next hstop => exact ⟨fun hfail _ ↦ hfail, fun hfail ↦ hfail hstop⟩
  · next hgo => exact ⟨fun _ hstop ↦ absurd hstop hgo, fun _ ↦ trivial⟩

@[simp]
theorem checksFirst_rejectIf_bind (condition : Prop) [Decidable condition] (error : ε)
    (next : Unit → Program S ε α) :
    (rejectIf condition error >>= next).ChecksFirst isWrite written ↔
      (condition → ¬ written) ∧ (¬ condition → (next ()).ChecksFirst isWrite written) := by
  unfold rejectIf
  split
  · next hstop => exact ⟨fun hfail ↦ ⟨fun _ ↦ hfail, absurd hstop⟩, fun hboth ↦ hboth.1 hstop⟩
  · next hgo => exact ⟨fun hnext ↦ ⟨fun hstop ↦ absurd hstop hgo, fun _ ↦ hnext⟩,
      fun hboth ↦ hboth.2 hgo⟩

@[simp]
theorem checksFirst_okOr_bind (value : Option β) (error : ε) (next : β → Program S ε α) :
    (okOr value error >>= next).ChecksFirst isWrite written ↔
      (value = none → ¬ written) ∧
        ∀ b, value = some b → (next b).ChecksFirst isWrite written := by
  cases value with
  | none => exact ⟨fun hfail ↦ ⟨fun _ ↦ hfail, nofun⟩, fun hboth ↦ hboth.1 rfl⟩
  | some b =>
    exact ⟨fun hnext ↦ ⟨nofun, fun b' heq ↦ Option.some.inj heq ▸ hnext⟩, fun hboth ↦ hboth.2 b rfl⟩

@[simp]
theorem checksFirst_orPanic_bind (value : Option β) (next : β → Program S ε α) :
    (orPanic value >>= next).ChecksFirst isWrite written ↔
      ∀ b, value = some b → (next b).ChecksFirst isWrite written := by
  cases value with
  | none => exact ⟨fun _ _ hnone ↦ (nomatch hnone), fun _ ↦ trivial⟩
  | some b => exact ⟨fun hnext b' heq ↦ Option.some.inj heq ▸ hnext, fun hnext ↦ hnext b rfl⟩

@[simp]
theorem checksFirst_ite (condition : Prop) [Decidable condition] (first second : Program S ε α) :
    (if condition then first else second).ChecksFirst isWrite written ↔
      (condition → first.ChecksFirst isWrite written) ∧
        (¬ condition → second.ChecksFirst isWrite written) := by
  split <;> simp [*]

@[simp]
theorem checksFirst_ite_bind (condition : Prop) [Decidable condition] (first second : Program S ε β)
    (next : β → Program S ε α) :
    ((if condition then first else second) >>= next).ChecksFirst isWrite written ↔
      (condition → (first >>= next).ChecksFirst isWrite written) ∧
        (¬ condition → (second >>= next).ChecksFirst isWrite written) := by
  split <;> simp [*]

@[simp]
theorem checksFirst_whenSome_bind (value : Option β) (body : β → Program S ε Unit)
    (next : Unit → Program S ε α) :
    (whenSome value body >>= next).ChecksFirst isWrite written ↔
      (value = none → (next ()).ChecksFirst isWrite written) ∧
        ∀ b, value = some b → (body b >>= next).ChecksFirst isWrite written := by
  cases value with
  | none => exact ⟨fun hnext ↦ ⟨fun _ ↦ hnext, nofun⟩, fun hboth ↦ hboth.1 rfl⟩
  | some b =>
    exact ⟨fun hnext ↦ ⟨nofun, fun b' heq ↦ Option.some.inj heq ▸ hnext⟩, fun hboth ↦ hboth.2 b rfl⟩

@[simp]
theorem checksFirst_whenSome (value : Option β) (next : β → Program S ε Unit) :
    (whenSome value next).ChecksFirst isWrite written ↔
      ∀ b, value = some b → (next b).ChecksFirst isWrite written := by
  cases value with
  | none => exact ⟨fun _ _ hnone ↦ (nomatch hnone), fun _ ↦ trivial⟩
  | some b => exact ⟨fun hnext b' heq ↦ Option.some.inj heq ▸ hnext, fun hnext ↦ hnext b rfl⟩

end ChecksFirst

/-- A program that may not fail at all makes no check after a write. -/
theorem ChecksFirst.mono {isWrite : S.Command → Prop} {written : Prop} {program : Program S ε α}
    (hnever : program.ChecksFirst isWrite True) : program.ChecksFirst isWrite written := by
  induction program generalizing written with
  | fail error => exact absurd trivial hnever
  | issue command rest ih =>
    refine fun reply ↦ ih reply ?_
    have hlater := hnever reply
    rwa [true_or] at hlater
  | _ => trivial

/-- Sequencing after a program that only reads. -/
theorem ChecksFirst.bind {isWrite : S.Command → Prop} {written : Prop} {program : Program S ε α}
    {next : α → Program S ε β} (hfirst : program.Uses fun command ↦ ¬ isWrite command)
    (hfail : ¬ written) (hnext : ∀ value, (next value).ChecksFirst isWrite written) :
    (program >>= next).ChecksFirst isWrite written := by
  induction program with
  | done value => exact hnext value
  | fail error => exact hfail
  | halt => trivial
  | issue command rest ih =>
    intro reply
    have hphase : (written ∨ isWrite command) = written :=
      propext (or_iff_left hfirst.1)
    rw [hphase]
    exact ih reply (hfirst.2 reply)

/-- Sequencing of programs that never fail. -/
theorem ChecksFirst.bind_of_written {isWrite : S.Command → Prop} {written : Prop}
    {program : Program S ε α} {next : α → Program S ε β}
    (hfirst : program.ChecksFirst isWrite True) (hnext : ∀ value,
      (next value).ChecksFirst isWrite True) : (program >>= next).ChecksFirst isWrite written := by
  induction program generalizing written with
  | done value => exact (hnext value).mono
  | fail error => exact absurd trivial hfirst
  | halt => trivial
  | issue command rest ih =>
    refine fun reply ↦ ih reply ?_
    have hlater := hfirst reply
    rwa [true_or] at hlater

/-- The run from `state` does not report an error after a write. `written` says whether there was a
write already. -/
def FailsClean (handler : Handler S σ) (isWrite : S.Command → Prop) (written : Prop) :
    Program S ε α → σ → Prop
  | fail _, _ => ¬ written
  | issue command next, state =>
    ∀ reply state', handler.exec command state = some (reply, state') →
      FailsClean handler isWrite (written ∨ isWrite command) (next reply) state'
  | _, _ => True

section FailsClean

variable {isWrite : S.Command → Prop} {written : Prop} {state : σ}

@[simp]
theorem failsClean_rejectIf_bind (condition : Prop) [Decidable condition] (error : ε)
    (next : Unit → Program S ε α) :
    FailsClean handler isWrite written (rejectIf condition error >>= next) state ↔
      (condition → ¬ written) ∧
        (¬ condition → FailsClean handler isWrite written (next ()) state) := by
  unfold rejectIf
  split
  · next hstop => exact ⟨fun hfail ↦ ⟨fun _ ↦ hfail, absurd hstop⟩, fun hboth ↦ hboth.1 hstop⟩
  · next hgo => exact ⟨fun hnext ↦ ⟨fun hstop ↦ absurd hstop hgo, fun _ ↦ hnext⟩,
      fun hboth ↦ hboth.2 hgo⟩

@[simp]
theorem failsClean_okOr_bind (value : Option β) (error : ε) (next : β → Program S ε α) :
    FailsClean handler isWrite written (okOr value error >>= next) state ↔
      (value = none → ¬ written) ∧
        ∀ b, value = some b → FailsClean handler isWrite written (next b) state := by
  cases value with
  | none => exact ⟨fun hfail ↦ ⟨fun _ ↦ hfail, nofun⟩, fun hboth ↦ hboth.1 rfl⟩
  | some b =>
    exact ⟨fun hnext ↦ ⟨nofun, fun b' heq ↦ Option.some.inj heq ▸ hnext⟩, fun hboth ↦ hboth.2 b rfl⟩

@[simp]
theorem failsClean_orPanic_bind (value : Option β) (next : β → Program S ε α) :
    FailsClean handler isWrite written (orPanic value >>= next) state ↔
      ∀ b, value = some b → FailsClean handler isWrite written (next b) state := by
  cases value with
  | none => exact ⟨fun _ _ hnone ↦ (nomatch hnone), fun _ ↦ trivial⟩
  | some b => exact ⟨fun hnext b' heq ↦ Option.some.inj heq ▸ hnext, fun hnext ↦ hnext b rfl⟩

@[simp]
theorem failsClean_issue (command : S.Command) (next : S.Reply command → Program S ε α) :
    FailsClean handler isWrite written (issue command next) state ↔
      ∀ reply state', handler.exec command state = some (reply, state') →
        FailsClean handler isWrite (written ∨ isWrite command) (next reply) state' :=
  Iff.rfl

@[simp]
theorem failsClean_done (value : α) :
    FailsClean handler isWrite written (done value : Program S ε α) state :=
  trivial

/-- Sequencing after a program that only reads. The rest may rely on what the reads have shown. -/
theorem FailsClean.bind {program : Program S ε α} {next : α → Program S ε β}
    (hfirst : program.Uses fun command ↦ ¬ isWrite command) (hfail : ¬ written)
    (hnext : ∀ value state', Returns handler program state value state' →
      FailsClean handler isWrite written (next value) state') :
    FailsClean handler isWrite written (program >>= next) state := by
  induction program generalizing state with
  | done value => exact hnext value state rfl
  | fail error => exact hfail
  | halt => trivial
  | issue command rest ih =>
    intro reply state' hexec
    have hphase : (written ∨ isWrite command) = written := propext (or_iff_left hfirst.1)
    rw [hphase]
    refine ih reply (hfirst.2 reply) fun value last hlast ↦ hnext value last ?_
    simpa only [Returns, run, hexec] using hlast

/-- A program that makes no check after a write fails cleanly from every state. -/
theorem ChecksFirst.failsClean {program : Program S ε α}
    (hchecks : program.ChecksFirst isWrite written) (state : σ) :
    FailsClean handler isWrite written program state := by
  induction program generalizing state written with
  | issue command next ih => exact fun reply state' _ ↦ ih reply (hchecks reply) state'
  | fail error => exact hchecks
  | _ => trivial

/-- A run that fails cleanly leaves whatever the reads preserve as it was. -/
theorem FailsClean.view_eq {program : Program S ε α}
    (hclean : FailsClean handler isWrite written program state) (view : σ → τ)
    (hread : ∀ command, ¬ isWrite command → ∀ state reply state',
      handler.exec command state = some (reply, state') → view state' = view state)
    {error : ε} (herror : (program.run handler state).1 = .err error) :
    ¬ written ∧ view (program.run handler state).2 = view state := by
  induction program generalizing state written with
  | done value => exact nomatch herror
  | halt => exact nomatch herror
  | fail stopped => exact ⟨hclean, rfl⟩
  | issue command next ih =>
    simp only [run] at herror ⊢
    cases hexec : handler.exec command state with
    | none =>
      rw [hexec] at herror
      exact nomatch herror
    | some answer =>
      rw [hexec] at herror
      obtain ⟨hphase, hview⟩ := ih answer.1 (hclean answer.1 answer.2 hexec) herror
      rw [not_or] at hphase
      exact ⟨hphase.1, hview.trans (hread command hphase.2 state answer.1 answer.2 hexec)⟩

end FailsClean

/-! ### Simulation -/

/-- Two handlers answer a command alike: from related states both panic, or both give the same
reply and move to related states. -/
def AnswersAlike (handler₁ : Handler S σ₁) (handler₂ : Handler S σ₂) (related : σ₁ → σ₂ → Prop)
    (command : S.Command) : Prop :=
  ∀ state₁ state₂, related state₁ state₂ →
    (handler₁.exec command state₁ = none ∧ handler₂.exec command state₂ = none) ∨
      ∃ reply state₁' state₂', handler₁.exec command state₁ = some (reply, state₁') ∧
        handler₂.exec command state₂ = some (reply, state₂') ∧ related state₁' state₂'

/-- Simulation: handlers that answer alike every command a program uses give the program the same
outcome from related states, and leave it in related states. -/
theorem run_related {handler₁ : Handler S σ₁} {handler₂ : Handler S σ₂}
    {related : σ₁ → σ₂ → Prop} {allowed : S.Command → Prop} {program : Program S ε α}
    (huses : program.Uses allowed)
    (halike : ∀ command, allowed command → AnswersAlike handler₁ handler₂ related command)
    {state₁ : σ₁} {state₂ : σ₂} (hstart : related state₁ state₂) :
    (program.run handler₁ state₁).1 = (program.run handler₂ state₂).1 ∧
      related (program.run handler₁ state₁).2 (program.run handler₂ state₂).2 := by
  induction program generalizing state₁ state₂ with
  | done value => exact ⟨rfl, hstart⟩
  | fail error => exact ⟨rfl, hstart⟩
  | halt => exact ⟨rfl, hstart⟩
  | issue command next ih =>
    obtain ⟨hallowed, hnext⟩ := huses
    rcases halike command hallowed state₁ state₂ hstart with
      ⟨hnone₁, hnone₂⟩ | ⟨reply, state₁', state₂', hexec₁, hexec₂, hrelated⟩
    · simpa only [run, hnone₁, hnone₂, true_and] using hstart
    · simpa only [run, hexec₁, hexec₂] using ih reply (hnext reply) hrelated

/-- Simulation keeps clean failure. -/
theorem failsClean_related {handler₁ : Handler S σ₁} {handler₂ : Handler S σ₂}
    {related : σ₁ → σ₂ → Prop} {isWrite : S.Command → Prop} {written : Prop}
    {program : Program S ε α}
    (halike : ∀ command, AnswersAlike handler₁ handler₂ related command)
    {state₁ : σ₁} {state₂ : σ₂} (hstart : related state₁ state₂)
    (hclean : FailsClean handler₂ isWrite written program state₂) :
    FailsClean handler₁ isWrite written program state₁ := by
  induction program generalizing state₁ state₂ written with
  | done value => trivial
  | halt => trivial
  | fail error => exact hclean
  | issue command next ih =>
    intro answer state hexec
    rcases halike command state₁ state₂ hstart with
      ⟨hnone, -⟩ | ⟨reply, state₁', state₂', hexec₁, hexec₂, hrelated⟩
    · rw [hnone] at hexec
      exact nomatch hexec
    · rw [hexec₁] at hexec
      obtain ⟨rfl, rfl⟩ := Prod.mk.inj (Option.some.inj hexec)
      exact ih reply hrelated (hclean reply state₂' hexec₂)

theorem uses_true (program : Program S ε α) : program.Uses fun _ ↦ True := by
  induction program with
  | issue command next ih => exact ⟨trivial, ih⟩
  | _ => trivial

end Program

end Latebra.Foundation
