import Latebra.Vm.Assembler

/-!
# The items of a program, interpreted

What an assembly program means without its bytes: the counter is an index into the items, a label
costs nothing, a reference to a label is a word of its own that arithmetic reads as the offset of
the label, and a jump takes such a word to the item that defines the label. A jump to anything else
is `stray`: it has no meaning here, and a program `JumpsToLabels` when none of its machines makes
one.

A turn that goes on spends gas or passes a label (`labelTurn_progress`), so a program that jumps to
labels comes to an end (`exists_interprets`), and to one only (`Interprets.unique`).
-/

set_option autoImplicit false
set_option relaxedAutoImplicit false

namespace Latebra.Vm

open Foundation

/-- A word of the stack: a number, or the place of a label. -/
inductive Word where
  | number (word : UInt64)
  | place (name : String)

/-- What arithmetic and storage read of a word. -/
def Word.value (items : List Instr) : Word → UInt64
  | .number word => word
  | .place name => UInt64.ofNat (address items name)

/-- A machine between two items. The head of the stack is its top. -/
structure LabelMachine where
  stack : List Word
  pos : ℕ
  gas : UInt64
  storage : Storage

inductive LabelError where
  | vm (e : VmError)
  /-- A jump that does not take the place of a label. -/
  | stray

/-- What one turn comes to. -/
inductive LabelTurn where
  | halts (halt : Halt)
  | stray
  | next (m : LabelMachine)

/-- Go on with a second part of a turn. -/
def LabelTurn.andThen (t : LabelTurn) (f : LabelMachine → LabelTurn) : LabelTurn :=
  match t with
  | .next m => f m
  | other => other

namespace LabelMachine

def pop (m : LabelMachine) : Except LabelError (Word × LabelMachine) :=
  match m.stack with
  | [] => throw (.vm .stackUnderflow)
  | top :: rest => pure (top, { m with stack := rest })

def push (m : LabelMachine) (word : Word) : Except LabelError LabelMachine :=
  if m.stack.length ≥ maxStack then throw (.vm .stackOverflow)
  else pure { m with stack := word :: m.stack }

/-- Replace the two topmost words by a number. -/
def binary (m : LabelMachine) (items : List Instr)
    (f : UInt64 → UInt64 → Except LabelError UInt64) : Except LabelError LabelMachine := do
  let (b, m) ← m.pop
  let (a, m) ← m.pop
  m.push (.number (← f (a.value items) (b.value items)))

/-- Go to the item that defines a label. -/
def jumpTo (m : LabelMachine) (items : List Instr) : Word → Except LabelError LabelMachine
  | .number _ => throw .stray
  | .place name =>
    if .label name ∈ items then pure { m with pos := items.idxOf (.label name) }
    else throw (.vm .badJump)

/-- Pay for an instruction and run it. -/
def attempt (m : LabelMachine) (cost : UInt64)
    (run : LabelMachine → Except LabelError (Option LabelMachine)) : LabelTurn :=
  if m.gas < cost then .halts ⟨.error .outOfGas, m.storage, m.gas⟩
  else
    match run { m with gas := m.gas - cost } with
    | .error .stray => .stray
    | .error (.vm e) => .halts ⟨.error e, m.storage, m.gas - cost⟩
    | .ok none => .halts ⟨.ok (), m.storage, m.gas - cost⟩
    | .ok (some m') => .next m'

end LabelMachine

/-- Gas of an item, for `Revert` that of each of its three instructions. -/
def itemGas : Instr → UInt64
  | .label _ => 0
  | .sload => sloadGas
  | .sstore => sstoreGas
  | _ => 1

/-- Run one item, the position already past it. `none` is a stop. -/
def runItem (items : List Instr) (caller : Bytes32) (input : UInt64) (item : Instr)
    (m : LabelMachine) : Except LabelError (Option LabelMachine) :=
  match item with
  | .push word => some <$> m.push (.number word)
  | .pushLabel name => some <$> m.push (.place name)
  | .label _ => pure (some m)
  | .pop => do
    let (_, m) ← m.pop
    return some m
  | .add => some <$> m.binary items fun a b ↦ pure (a + b)
  | .sub => some <$> m.binary items fun a b ↦ pure (a - b)
  | .mul => some <$> m.binary items fun a b ↦ pure (a * b)
  | .div => some <$> m.binary items fun a b ↦
    if b = 0 then throw (.vm .divByZero) else pure (a / b)
  | .mod => some <$> m.binary items fun a b ↦
    if b = 0 then throw (.vm .divByZero) else pure (a % b)
  | .eq => some <$> m.binary items fun a b ↦ pure (flag (a = b))
  | .lt => some <$> m.binary items fun a b ↦ pure (flag (a < b))
  | .gt => some <$> m.binary items fun a b ↦ pure (flag (a > b))
  | .and => some <$> m.binary items fun a b ↦ pure (a &&& b)
  | .not => do
    let (a, m) ← m.pop
    return some (← m.push (.number (flag (a.value items = 0))))
  | .jump => do
    let (dest, m) ← m.pop
    return some (← m.jumpTo items dest)
  | .jumpI => do
    let (dest, m) ← m.pop
    let (cond, m) ← m.pop
    if cond.value items ≠ 0 then return some (← m.jumpTo items dest)
    else return some m
  | .dup =>
    match m.stack with
    | [] => throw (.vm .stackUnderflow)
    | top :: _ => some <$> m.push top
  | .swap =>
    match m.stack with
    | first :: second :: rest => pure (some { m with stack := second :: first :: rest })
    | _ => throw (.vm .stackUnderflow)
  | .sload => do
    let (key, m) ← m.pop
    return some (← m.push (.number (m.storage[key.value items]?.getD 0)))
  | .sstore => do
    let (value, m) ← m.pop
    let (key, m) ← m.pop
    return some { m with storage := m.storage.insert (key.value items) (value.value items) }
  | .caller => some <$> m.push (.number (callerWord caller))
  | .input => some <$> m.push (.number input)
  | .stop => pure none
  | .revert => throw (.vm .divByZero)

/-- One turn on the items. `Revert` divides 1 by 0: it pays for three instructions, and the two
words need their room on the stack. -/
def labelTurn (items : List Instr) (caller : Bytes32) (input : UInt64) (m : LabelMachine) :
    LabelTurn :=
  match items[m.pos]? with
  | none => .halts ⟨.ok (), m.storage, m.gas⟩
  | some item =>
    let past := { m with pos := m.pos + 1 }
    let run := runItem items caller input
    if item = .revert then
      ((past.attempt 1 (run (.push 1))).andThen (·.attempt 1 (run (.push 0)))).andThen
        (·.attempt 1 (run .revert))
    else past.attempt (itemGas item) (run item)

/-- A run on the items. -/
inductive Interprets (items : List Instr) (caller : Bytes32) (input : UInt64) :
    LabelMachine → Halt → Prop where
  | halts {m : LabelMachine} {halt : Halt} : labelTurn items caller input m = .halts halt →
    Interprets items caller input m halt
  | next {m m' : LabelMachine} {halt : Halt} : labelTurn items caller input m = .next m' →
    Interprets items caller input m' halt → Interprets items caller input m halt

/-- Every jump that a run takes goes to the place of a label. -/
def JumpsToLabels (items : List Instr) (caller : Bytes32) (input : UInt64) (m : LabelMachine) :
    Prop :=
  ∀ m', Relation.ReflTransGen (fun m m' ↦ labelTurn items caller input m = .next m') m m' →
    labelTurn items caller input m' ≠ .stray

/-- The machine on the items that a call starts with. -/
def LabelMachine.start (storage : Storage) (gasLimit : UInt64) : LabelMachine :=
  ⟨[], 0, gasLimit, storage⟩

/-! ### Turns -/

theorem LabelTurn.andThen_eq_next {t : LabelTurn} {f : LabelMachine → LabelTurn}
    {m' : LabelMachine} : t.andThen f = .next m' ↔ ∃ m, t = .next m ∧ f m = .next m' := by
  cases t <;> simp [LabelTurn.andThen]

theorem labelTurn_of_ne {items : List Instr} {caller : Bytes32} {input : UInt64} {m : LabelMachine}
    {item : Instr} (hitem : items[m.pos]? = some item) (hrevert : item ≠ .revert) :
    labelTurn items caller input m = LabelMachine.attempt { m with pos := m.pos + 1 }
      (itemGas item) (runItem items caller input item) := by
  unfold labelTurn
  simp only [hitem, if_neg hrevert]

/-- A label is passed for nothing. -/
theorem labelTurn_label {items : List Instr} {caller : Bytes32} {input : UInt64} {m : LabelMachine}
    {name : String} (hitem : items[m.pos]? = some (.label name)) :
    labelTurn items caller input m = .next { m with pos := m.pos + 1 } := by
  rw [labelTurn_of_ne hitem (by simp), LabelMachine.attempt]
  show (if m.gas < 0 then _ else LabelTurn.next ⟨m.stack, m.pos + 1, m.gas - 0, m.storage⟩) = _
  rw [if_neg (UInt64.not_lt.mpr UInt64.zero_le), UInt64.sub_zero]

section Runs

variable {items : List Instr} {caller : Bytes32} {input : UInt64} {m m' : LabelMachine}
  {halt halt' : Halt}

theorem Interprets.unique (hrun : Interprets items caller input m halt)
    (hrun' : Interprets items caller input m halt') : halt' = halt := by
  induction hrun with
  | halts hturn =>
    cases hrun' with
    | halts hturn' => exact (LabelTurn.halts.inj (hturn.symm.trans hturn')).symm
    | next hturn' => exact absurd (hturn.symm.trans hturn') (by simp)
  | next hturn _ ih =>
    cases hrun' with
    | halts hturn' => exact absurd (hturn.symm.trans hturn') (by simp)
    | next hturn' hrest' =>
      obtain rfl := LabelTurn.next.inj (hturn.symm.trans hturn')
      exact ih hrest'

/-! ### Termination -/

/-- An item neither refunds gas nor takes more. -/
theorem runItem_gas {item : Instr} (hrun : runItem items caller input item m = .ok (some m')) :
    m'.gas = m.gas := by
  obtain ⟨stack, pos, gas, storage⟩ := m
  unfold runItem at hrun
  split at hrun
  all_goals rcases stack with _ | ⟨top, _ | ⟨second, rest⟩⟩
  all_goals
    simp [LabelMachine.binary, LabelMachine.pop, LabelMachine.push, LabelMachine.jumpTo, pure,
      Except.pure, throw, throwThe, MonadExceptOf.throw, Bind.bind, Except.bind, Except.map,
      Functor.map] at hrun
  all_goals grind

theorem attempt_gas {cost : UInt64} {item : Instr} (hcost : cost ≠ 0)
    (hnext : m.attempt cost (runItem items caller input item) = .next m') :
    m'.gas.toNat < m.gas.toNat := by
  unfold LabelMachine.attempt at hnext
  by_cases hpaid : m.gas < cost
  · rw [if_pos hpaid] at hnext
    exact absurd hnext (by simp)
  · rw [if_neg hpaid] at hnext
    have hle := UInt64.not_lt.mp hpaid
    have hspent := UInt64.toNat_sub_of_le m.gas cost hle
    have hpositive : 0 < cost.toNat := Nat.pos_of_ne_zero fun hzero ↦
      hcost (UInt64.toNat_inj.mp hzero)
    rw [UInt64.le_iff_toNat_le] at hle
    split at hnext
    · exact absurd hnext (by simp)
    · exact absurd hnext (by simp)
    · exact absurd hnext (by simp)
    · rename_i hrun
      obtain rfl := LabelTurn.next.inj hnext
      rw [runItem_gas hrun, hspent]
      omega

theorem itemGas_ne_zero {item : Instr} (hitem : ¬ ∃ name, item = .label name) :
    itemGas item ≠ 0 := by
  have hone : (1 : UInt64) ≠ 0 := by decide
  cases item with
  | label name => exact absurd ⟨name, rfl⟩ hitem
  | sload => decide
  | sstore => decide
  | _ => exact hone

/-- A turn that goes on spends gas or passes a label. -/
theorem labelTurn_progress (hnext : labelTurn items caller input m = .next m') :
    m'.gas.toNat < m.gas.toNat ∨
      m' = { m with pos := m.pos + 1 } ∧ m.pos < items.length := by
  cases hitem : items[m.pos]? with
  | none =>
    unfold labelTurn at hnext
    simp only [hitem] at hnext
    exact absurd hnext (by simp)
  | some item =>
    by_cases hrevert : item = .revert
    · subst hrevert
      unfold labelTurn at hnext
      simp only [hitem, if_true] at hnext
      obtain ⟨m₂, -, hlast⟩ := LabelTurn.andThen_eq_next.mp hnext
      unfold LabelMachine.attempt at hlast
      by_cases hpaid : m₂.gas < 1
      · rw [if_pos hpaid] at hlast
        exact absurd hlast (by simp)
      · rw [if_neg hpaid] at hlast
        exact absurd hlast (by simp [runItem, throw, throwThe, MonadExceptOf.throw])
    · by_cases hlabel : ∃ name, item = .label name
      · obtain ⟨name, rfl⟩ := hlabel
        rw [labelTurn_label hitem] at hnext
        exact .inr ⟨(LabelTurn.next.inj hnext).symm, (List.getElem?_eq_some_iff.mp hitem).1⟩
      · rw [labelTurn_of_ne hitem hrevert] at hnext
        exact .inl (attempt_gas (m := { m with pos := m.pos + 1 }) (itemGas_ne_zero hlabel) hnext)

/-- A program that jumps to labels comes to an end. -/
theorem exists_interprets (hjumps : JumpsToLabels items caller input m) :
    ∃ halt, Interprets items caller input m halt := by
  induction hmeasure : m.gas.toNat * (items.length + 1) + (items.length - m.pos)
    using Nat.strong_induction_on generalizing m with
  | _ measure ih =>
    cases hturn : labelTurn items caller input m with
    | halts halt => exact ⟨halt, .halts hturn⟩
    | stray => exact absurd hturn (hjumps m .refl)
    | next m' =>
      have hless : m'.gas.toNat * (items.length + 1) + (items.length - m'.pos) < measure := by
        rw [← hmeasure]
        rcases labelTurn_progress hturn with hgas | ⟨rfl, hpos⟩
        · have hspent := Nat.mul_le_mul_right (items.length + 1) hgas
          rw [Nat.succ_mul] at hspent
          omega
        · show m.gas.toNat * _ + (items.length - (m.pos + 1)) < _
          omega
      have hrest : JumpsToLabels items caller input m' := fun m'' hreach ↦
        hjumps m'' (.head hturn hreach)
      obtain ⟨halt, hrun⟩ := ih _ hless hrest rfl
      exact ⟨halt, .next hturn hrun⟩

theorem JumpsToLabels.of_halts (hturn : labelTurn items caller input m = .halts halt) :
    JumpsToLabels items caller input m := by
  intro m' hreach
  rcases hreach.cases_head with rfl | ⟨m₁, hnext, -⟩
  · rw [hturn]
    simp
  · exact absurd (hturn.symm.trans hnext) (by simp)

theorem JumpsToLabels.of_next (hturn : labelTurn items caller input m = .next m')
    (hrest : JumpsToLabels items caller input m') : JumpsToLabels items caller input m := by
  intro m'' hreach
  rcases hreach.cases_head with rfl | ⟨m₁, hnext, hreach⟩
  · rw [hturn]
    simp
  · obtain rfl := LabelTurn.next.inj (hturn.symm.trans hnext)
    exact hrest m'' hreach

end Runs

end Latebra.Vm
