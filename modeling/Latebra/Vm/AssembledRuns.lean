import Latebra.Vm.LabelInterpreter

/-!
# Assembled programs run as their items do

A machine between two items stands for a machine on the bytes (`LabelMachine.lower`): each word for
its value, and a position for the offset of its item. Each opcode does on the words of the stack
what its item does on their values (`runOpcode_lowered`), a push takes the operand that was emitted
for it (`runPush_lowered`), and a jump to the place of a label goes to the bytes of the item that
defines the label (`jumpTo_lowered`). So a turn on the items is followed by the bytes
(`labelTurn_follows`): with no turn for a label, three for a revert and one for every other item.

Hence a program that jumps to labels ends on both with the same result, storage and gas
(`assemble_correct`).
-/

set_option autoImplicit false
set_option relaxedAutoImplicit false

namespace Latebra.Vm

open Foundation

/-! ### Results of the two machines -/

section Lowered

variable {α β γ δ : Type}

/-- Results on the items and on the bytes agree, a stray jump apart. -/
inductive Lowered (r : α → β → Prop) : Except LabelError α → Except VmError β → Prop where
  | ok {a : α} {b : β} : r a b → Lowered r (.ok a) (.ok b)
  | vm (e : VmError) : Lowered r (.error (.vm e)) (.error e)
  | stray (y : Except VmError β) : Lowered r (.error .stray) y

variable {r : α → β → Prop} {s : γ → δ → Prop} {x : Except LabelError α} {y : Except VmError β}

theorem Lowered.bind {f : α → Except LabelError γ} {g : β → Except VmError δ}
    (hxy : Lowered r x y) (hfg : ∀ a b, r a b → Lowered s (f a) (g b)) :
    Lowered s (x >>= f) (y >>= g) := by
  cases hxy with
  | ok hab => exact hfg _ _ hab
  | vm e => exact .vm e
  | stray y => exact .stray _

theorem Lowered.map {f : α → γ} {g : β → δ} (hxy : Lowered r x y)
    (hfg : ∀ a b, r a b → s (f a) (g b)) : Lowered s (f <$> x) (g <$> y) := by
  cases hxy with
  | ok hab => exact .ok (hfg _ _ hab)
  | vm e => exact .vm e
  | stray y => exact .stray _

end Lowered

/-- The machine on the bytes that a machine on the items stands for, a position being at the
counter that it is given. -/
def LabelMachine.lower (items : List Instr) (counter : ℕ → ℕ) (m : LabelMachine) : Machine :=
  ⟨m.stack.map (Word.value items), counter m.pos, m.gas, m.storage⟩

section Instructions

variable {items : List Instr} {counter : ℕ → ℕ}

/-- One machine stands for the other. -/
def Stands (items : List Instr) (counter : ℕ → ℕ) (m : LabelMachine) (c : Machine) : Prop :=
  c = m.lower items counter

/-- A machine that goes on stands for one that goes on, and a stop for a stop. -/
def Goes (items : List Instr) (counter : ℕ → ℕ) (m : Option LabelMachine) (c : Option Machine) :
    Prop :=
  c = m.map (LabelMachine.lower items counter)

theorem pop_lowered (m : LabelMachine) :
    Lowered (fun taken taken' ↦ taken'.1 = taken.1.value items ∧
      Stands items counter taken.2 taken'.2) m.pop (m.lower items counter).pop := by
  obtain ⟨stack, pos, gas, storage⟩ := m
  cases stack with
  | nil => exact .vm _
  | cons top rest => exact .ok ⟨rfl, rfl⟩

theorem push_lowered (m : LabelMachine) (word : Word) :
    Lowered (Stands items counter) (m.push word)
      ((m.lower items counter).push (word.value items)) := by
  unfold LabelMachine.push Machine.push LabelMachine.lower
  rw [List.length_map]
  by_cases hfull : m.stack.length ≥ maxStack
  · rw [if_pos hfull, if_pos hfull]
    exact .vm _
  · rw [if_neg hfull, if_neg hfull]
    exact .ok rfl

theorem binary_lowered (m : LabelMachine) {f : UInt64 → UInt64 → Except LabelError UInt64}
    {g : UInt64 → UInt64 → Except VmError UInt64} (hfg : ∀ a b, Lowered Eq (f a b) (g a b)) :
    Lowered (Stands items counter) (m.binary items f) ((m.lower items counter).binary g) := by
  refine (pop_lowered m).bind ?_
  rintro ⟨b, m⟩ ⟨b', c⟩ ⟨rfl, rfl⟩
  refine (pop_lowered m).bind ?_
  rintro ⟨a, m⟩ ⟨a', c⟩ ⟨rfl, rfl⟩
  refine (hfg _ _).bind ?_
  rintro word _ rfl
  exact push_lowered m (.number word)

theorem some_lowered {x : Except LabelError LabelMachine} {y : Except VmError Machine}
    (hxy : Lowered (Stands items counter) x y) :
    Lowered (Goes items counter) (some <$> x) (some <$> y) :=
  hxy.map fun _ _ hstands ↦ congrArg some hstands

/-- A division, by zero or not, is lowered to itself. -/
theorem divide_lowered (f : UInt64 → UInt64 → UInt64) (a b : UInt64) :
    Lowered Eq (if b = 0 then throw (.vm .divByZero) else pure (f a b))
      (if b = 0 then throw .divByZero else pure (f a b)) := by
  by_cases hzero : b = 0
  · rw [if_pos hzero, if_pos hzero]
    exact .vm _
  · rw [if_neg hzero, if_neg hzero]
    exact .ok rfl

/-- An opcode does what its item does, on the values of the words. -/
theorem runOpcode_lowered (call : CallContext) {item : Instr} {op : UInt8}
    (hop : opcode item = some op) (hjump : item ≠ .jump) (hjumpI : item ≠ .jumpI)
    (m : LabelMachine) :
    Lowered (Goes items counter) (runItem items call.caller call.input item m)
      (runOpcode call op (m.lower items counter)) := by
  have hplain (f : UInt64 → UInt64 → UInt64) : Lowered (Goes items counter)
      (some <$> m.binary items fun a b ↦ pure (f a b))
      (some <$> (m.lower items counter).binary fun a b ↦ pure (f a b)) :=
    some_lowered (binary_lowered m fun _ _ ↦ .ok rfl)
  cases item
  case push => exact absurd hop (by simp [opcode])
  case pushLabel => exact absurd hop (by simp [opcode])
  case label => exact absurd hop (by simp [opcode])
  case revert => exact absurd hop (by simp [opcode])
  case jump => exact absurd rfl hjump
  case jumpI => exact absurd rfl hjumpI
  all_goals obtain rfl := Option.some.inj hop
  case pop =>
    refine (pop_lowered m).bind ?_
    rintro ⟨_, m⟩ ⟨_, c⟩ ⟨-, rfl⟩
    exact .ok rfl
  case add => exact hplain (· + ·)
  case sub => exact hplain (· - ·)
  case mul => exact hplain (· * ·)
  case div => exact some_lowered (binary_lowered m (divide_lowered (· / ·)))
  case mod => exact some_lowered (binary_lowered m (divide_lowered (· % ·)))
  case eq => exact hplain fun a b ↦ flag (a = b)
  case lt => exact hplain fun a b ↦ flag (a < b)
  case gt => exact hplain fun a b ↦ flag (a > b)
  case and => exact hplain (· &&& ·)
  case not =>
    refine (pop_lowered m).bind ?_
    rintro ⟨a, m⟩ ⟨_, c⟩ ⟨rfl, rfl⟩
    exact some_lowered (push_lowered m (.number _))
  case dup =>
    obtain ⟨stack, pos, gas, storage⟩ := m
    cases stack with
    | nil => exact .vm _
    | cons top rest => exact some_lowered (push_lowered _ top)
  case swap =>
    obtain ⟨stack, pos, gas, storage⟩ := m
    rcases stack with _ | ⟨first, _ | ⟨second, rest⟩⟩
    · exact .vm _
    · exact .vm _
    · exact .ok rfl
  case sload =>
    refine (pop_lowered m).bind ?_
    rintro ⟨key, m⟩ ⟨_, c⟩ ⟨rfl, rfl⟩
    exact some_lowered (push_lowered m (.number _))
  case sstore =>
    refine (pop_lowered m).bind ?_
    rintro ⟨value, m⟩ ⟨_, c⟩ ⟨rfl, rfl⟩
    refine (pop_lowered m).bind ?_
    rintro ⟨key, m⟩ ⟨_, c⟩ ⟨rfl, rfl⟩
    exact .ok rfl
  case caller => exact some_lowered (push_lowered m (.number _))
  case input => exact some_lowered (push_lowered m (.number _))
  case stop => exact .ok rfl

/-- A push takes the eight bytes that follow its opcode. -/
theorem runPush_lowered {call : CallContext} {m : LabelMachine} {word : Word} {pc : ℕ}
    {rest : Bytes} (hcode : call.code.drop pc = u64Le (word.value items) ++ rest)
    (hcounter : counter m.pos = pc + 8) :
    Lowered (Goes items counter) (some <$> m.push word)
      (runOpcode call 0x01 (m.lower items fun _ ↦ pc)) := by
  have htake : (call.code.drop pc).take 8 = u64Le (word.value items) := by
    rw [hcode, List.take_left' (length_u64Le _)]
  have hoperand : u64OfLe ((call.code.drop pc).take 8) = some (word.value items) := by
    rw [htake, u64OfLe_u64Le]
  rw [runOpcode_push hoperand]
  show Lowered _ _ ((m.lower items fun _ ↦ pc).push (word.value items) >>= fun c ↦
    pure (some { c with pc := pc + 8 }))
  unfold LabelMachine.push Machine.push LabelMachine.lower
  rw [List.length_map]
  by_cases hfull : m.stack.length ≥ maxStack
  · rw [if_pos hfull, if_pos hfull]
    exact .vm _
  · rw [if_neg hfull, if_neg hfull, ← hcounter]
    exact .ok rfl

end Instructions

/-! ### Code -/

section Code

variable {asm : Asm}

/-- A jump to the place of a label goes to the bytes of its item. -/
theorem jumpTo_lowered (hlabelled : WellLabelled asm.items) {call : CallContext}
    (hcode : call.code = asm.items.flatMap (itemBytes asm.items)) (m : LabelMachine) (dest : Word)
    (counter : ℕ → ℕ) :
    Lowered (Goes asm.items (offset asm.items)) (some <$> m.jumpTo asm.items dest)
      (do
        if (dest.value asm.items).toNat ≥ call.code.length then throw .badJump
        return some { m.lower asm.items counter with pc := (dest.value asm.items).toNat }) := by
  cases dest with
  | number word => exact .stray _
  | place name =>
    have hvalue : (Word.value asm.items (.place name)).toNat = address asm.items name :=
      asm.toNat_offset _
    rw [hvalue, hcode, LabelMachine.jumpTo]
    by_cases hmem : .label name ∈ asm.items
    · have hlt : address asm.items name < _ := hlabelled.offset_lt (getElem?_idxOf hmem)
      rw [if_pos hmem, if_neg (not_le.mpr hlt)]
      exact .ok rfl
    · have hlast : address asm.items name = _ :=
        offset_eq_of_le (List.idxOf_eq_length_iff.mpr hmem).ge
      rw [if_neg hmem, if_pos hlast.ge]
      exact .vm _

theorem runJump_lowered (hlabelled : WellLabelled asm.items) {call : CallContext}
    (hcode : call.code = asm.items.flatMap (itemBytes asm.items)) (m : LabelMachine) :
    Lowered (Goes asm.items (offset asm.items))
      (runItem asm.items call.caller call.input .jump m)
      (runOpcode call 0x0D (m.lower asm.items (offset asm.items))) := by
  refine (pop_lowered m).bind ?_
  rintro ⟨dest, m⟩ ⟨_, c⟩ ⟨rfl, rfl⟩
  exact jumpTo_lowered hlabelled hcode m dest (offset asm.items)

theorem runJumpI_lowered (hlabelled : WellLabelled asm.items) {call : CallContext}
    (hcode : call.code = asm.items.flatMap (itemBytes asm.items)) (m : LabelMachine) :
    Lowered (Goes asm.items (offset asm.items))
      (runItem asm.items call.caller call.input .jumpI m)
      (runOpcode call 0x0E (m.lower asm.items (offset asm.items))) := by
  refine (pop_lowered m).bind ?_
  rintro ⟨dest, m⟩ ⟨_, c⟩ ⟨rfl, rfl⟩
  refine (pop_lowered m).bind ?_
  rintro ⟨cond, m⟩ ⟨_, c⟩ ⟨rfl, rfl⟩
  by_cases htaken : cond.value asm.items ≠ 0
  · show Lowered _ (if _ then _ else _) (if _ then _ else _)
    rw [if_pos htaken, if_pos htaken]
    exact jumpTo_lowered hlabelled hcode m dest (offset asm.items)
  · show Lowered _ (if _ then _ else _) (if _ then _ else _)
    rw [if_neg htaken, if_neg htaken]
    exact .ok rfl

end Code

/-! ### Turns -/

/-- The machine on the bytes does what a turn on the items comes to. -/
inductive Follows (call : CallContext) (lower : LabelMachine → Machine) (c : Machine) :
    LabelTurn → Prop where
  | halts {ops : List UInt8} {halt : Halt} : Executes call c ops halt →
    Follows call lower c (.halts halt)
  | stray : Follows call lower c .stray
  | next {m : LabelMachine} : Leads call c (lower m) → Follows call lower c (.next m)

section Turns

variable {asm : Asm} {items : List Instr} {call : CallContext}
  {counter counter' : ℕ → ℕ} {c : Machine} {t : LabelTurn}

/-- The parts of a turn are followed one after the other. -/
theorem Follows.andThen (counter : ℕ → ℕ) {f : LabelMachine → LabelTurn}
    (ht : Follows call (LabelMachine.lower items counter) c t)
    (hf : ∀ m, t = .next m →
      Follows call (LabelMachine.lower items counter') (m.lower items counter) (f m)) :
    Follows call (LabelMachine.lower items counter') c (t.andThen f) := by
  cases ht with
  | halts hrun => exact .halts hrun
  | stray => exact .stray
  | @next m hleads =>
    have hrest := hf m rfl
    show Follows _ _ _ (f m)
    cases hturn : f m with
    | halts halt =>
      rw [hturn] at hrest
      cases hrest with
      | halts hrun =>
        obtain ⟨ops, hrun⟩ := hleads.executes hrun
        exact .halts hrun
    | stray => exact .stray
    | next m' =>
      rw [hturn] at hrest
      cases hrest with
      | next hmore => exact .next (hleads.trans hmore)

/-- To pay for an item and run it is a turn of the machine that is at its opcode. -/
theorem attempt_follows {m : LabelMachine} {op : UInt8} {rest : Bytes} (past : ℕ → ℕ)
    {run : LabelMachine → Except LabelError (Option LabelMachine)} {pc : ℕ}
    (hcode : call.code.drop pc = op :: rest) (hpast : past m.pos = pc + 1)
    (hrun : Lowered (Goes items counter) (run { m with gas := m.gas - gasCost op })
      (runOpcode call op
        (LabelMachine.lower items past { m with gas := m.gas - gasCost op }))) :
    Follows call (LabelMachine.lower items counter) (m.lower items fun _ ↦ pc)
      (m.attempt (gasCost op) run) := by
  have hop : call.code[pc]? = some op := by
    rw [← List.head?_drop, hcode, List.head?_cons]
  have hcharged : (m.lower items fun _ ↦ pc).charged op =
      LabelMachine.lower items past { m with gas := m.gas - gasCost op } := by
    show Machine.mk _ (pc + 1) _ _ = Machine.mk _ (past m.pos) _ _
    rw [hpast]
    rfl
  unfold LabelMachine.attempt
  by_cases hpaid : m.gas < gasCost op
  · have hturn : turn call (m.lower items fun _ ↦ pc) = .starved :=
      turn_eq_starved.mpr ⟨op, hop, hpaid⟩
    rw [if_pos hpaid]
    exact .halts (.starved hturn)
  · rw [if_neg hpaid]
    rw [← hcharged] at hrun
    have hpaid' : ¬ (m.lower items fun _ ↦ pc).gas < gasCost op := hpaid
    generalize hresult : runOpcode call op ((m.lower items fun _ ↦ pc).charged op) = result at hrun
    generalize run { m with gas := m.gas - gasCost op } = outcome at hrun ⊢
    cases hrun with
    | @ok m' c' hgoes =>
      cases m' with
      | none =>
        obtain rfl : c' = none := hgoes
        exact .halts (.stopped (turn_eq_stopped.mpr ⟨hop, hpaid', hresult⟩))
      | some m' =>
        obtain rfl : c' = some (m'.lower items counter) := hgoes
        exact .next (.single ⟨op, turn_eq_next.mpr ⟨hop, hpaid', hresult⟩⟩)
    | vm e => exact .halts (.failed (turn_eq_failed.mpr ⟨hop, hpaid', hresult⟩))
    | stray => exact .stray

/-- An item of one byte. -/
theorem opcode_spec {item : Instr} {op : UInt8} (hop : opcode item = some op) :
    itemBytes items item = [op] ∧ gasCost op = itemGas item ∧ item ≠ .revert := by
  cases item
  case push => exact absurd hop (by simp [opcode])
  case pushLabel => exact absurd hop (by simp [opcode])
  case label => exact absurd hop (by simp [opcode])
  case revert => exact absurd hop (by simp [opcode])
  all_goals
    obtain rfl := Option.some.inj hop
    exact ⟨rfl, by decide, by simp⟩

/-- An item of one byte follows its opcode. -/
theorem plain_follows (hlabelled : WellLabelled asm.items)
    (hcode : call.code = asm.items.flatMap (itemBytes asm.items)) {m : LabelMachine}
    {item : Instr} {op : UInt8} (hitem : asm.items[m.pos]? = some item)
    (hop : opcode item = some op) :
    Follows call (LabelMachine.lower asm.items (offset asm.items))
      (m.lower asm.items (offset asm.items))
      (LabelMachine.attempt { m with pos := m.pos + 1 } (itemGas item)
        (runItem asm.items call.caller call.input item)) := by
  obtain ⟨hbytes, hcost, -⟩ := @opcode_spec asm.items item op hop
  have hwidth : width item = 1 := by
    rw [← length_itemBytes asm.items, hbytes, List.length_singleton]
  have hdrop := drop_code_item hitem
  rw [← hcode, hbytes, List.singleton_append] at hdrop
  have hpast : offset asm.items (m.pos + 1) = offset asm.items m.pos + 1 := by
    rw [offset_succ hitem, hwidth]
  rw [← hcost]
  refine attempt_follows (m := { m with pos := m.pos + 1 }) (offset asm.items) hdrop hpast ?_
  by_cases hjump : item = .jump
  · subst hjump
    obtain rfl := Option.some.inj hop
    exact runJump_lowered hlabelled hcode _
  · by_cases hjumpI : item = .jumpI
    · subst hjumpI
      obtain rfl := Option.some.inj hop
      exact runJumpI_lowered hlabelled hcode _
    · exact runOpcode_lowered call hop hjump hjumpI _

/-- A push follows its nine bytes. -/
theorem push_follows {m : LabelMachine} (word : Word) {pc : ℕ} {rest : Bytes}
    (hdrop : call.code.drop pc = asmPush (word.value items) ++ rest)
    (hcounter : counter m.pos = pc + 9) :
    Follows call (LabelMachine.lower items counter) (m.lower items fun _ ↦ pc)
      (m.attempt 1 fun m ↦ some <$> m.push word) := by
  have hoperand : call.code.drop (pc + 1) = u64Le (word.value items) ++ rest := by
    rw [← List.drop_drop, hdrop]
    rfl
  exact attempt_follows (fun _ ↦ pc + 1) hdrop rfl (runPush_lowered hoperand hcounter)

theorem attempt_push_eq_next {m m' : LabelMachine} {word : Word}
    (hnext : (m.attempt 1 fun m ↦ some <$> m.push word) = .next m') :
    m' = { m with stack := word :: m.stack, gas := m.gas - 1 } := by
  unfold LabelMachine.attempt LabelMachine.push at hnext
  by_cases hpaid : m.gas < 1
  · rw [if_pos hpaid] at hnext
    exact absurd hnext (by simp)
  · rw [if_neg hpaid] at hnext
    by_cases hfull : m.stack.length ≥ maxStack
    · simp only [if_pos hfull] at hnext
      exact absurd hnext (by simp [throw, throwThe, MonadExceptOf.throw, Functor.map, Except.map])
    · simp only [if_neg hfull] at hnext
      exact (LabelTurn.next.inj hnext).symm

/-- A revert follows its nineteen bytes. -/
theorem revert_follows (hcode : call.code = items.flatMap (itemBytes items)) {m : LabelMachine}
    (hitem : items[m.pos]? = some .revert) :
    Follows call (LabelMachine.lower items (offset items)) (m.lower items (offset items))
      (labelTurn items call.caller call.input m) := by
  have hdrop := drop_code_item hitem
  rw [← hcode] at hdrop
  have hfirst : call.code.drop (offset items m.pos) =
      asmPush 1 ++ (asmPush 0 ++ 0x06 :: call.code.drop (offset items (m.pos + 1))) := by
    rw [hdrop]
    show (asmPush 1 ++ asmPush 0 ++ [0x06]) ++ _ = _
    rw [List.append_assoc, List.append_assoc, List.singleton_append]
  have hsecond : call.code.drop (offset items m.pos + 9) =
      asmPush 0 ++ 0x06 :: call.code.drop (offset items (m.pos + 1)) := by
    rw [← List.drop_drop, hfirst, List.drop_left' (length_asmPush 1)]
  have hthird : call.code.drop (offset items m.pos + 18) =
      0x06 :: call.code.drop (offset items (m.pos + 1)) := by
    rw [← Nat.add_assoc (offset items m.pos) 9 9, ← List.drop_drop, hsecond,
      List.drop_left' (length_asmPush 0)]
  unfold labelTurn
  simp only [hitem, if_true]
  apply Follows.andThen fun _ ↦ offset items m.pos + 18
  · apply Follows.andThen fun _ ↦ offset items m.pos + 9
    · exact push_follows (m := { m with pos := m.pos + 1 }) (.number 1) hfirst rfl
    · intro m' _
      exact push_follows (.number 0) hsecond rfl
  · intro m' hm'
    obtain ⟨m₁, hone, hzero⟩ := LabelTurn.andThen_eq_next.mp hm'
    obtain rfl := attempt_push_eq_next hone
    obtain rfl := attempt_push_eq_next hzero
    -- the divisor that the second push left is zero
    exact attempt_follows (fun _ ↦ offset items m.pos + 19) hthird rfl (.vm _)

end Turns

section Runs

variable {asm : Asm} {call : CallContext} {m : LabelMachine} {halt : Halt}

/-- The bytes do what a turn on the items comes to. -/
theorem labelTurn_follows (hlabelled : WellLabelled asm.items)
    (hcode : call.code = asm.items.flatMap (itemBytes asm.items)) (m : LabelMachine) :
    Follows call (LabelMachine.lower asm.items (offset asm.items))
      (m.lower asm.items (offset asm.items)) (labelTurn asm.items call.caller call.input m) := by
  cases hitem : asm.items[m.pos]? with
  | none =>
    have hend : offset asm.items m.pos = call.code.length := by
      rw [hcode]
      exact offset_eq_of_le (List.getElem?_eq_none_iff.mp hitem)
    have hfinished : turn call (m.lower asm.items (offset asm.items)) = .finished :=
      turn_eq_finished.mpr (List.getElem?_eq_none hend.ge)
    unfold labelTurn
    simp only [hitem]
    exact .halts (.finished hfinished)
  | some item =>
    have hdrop := drop_code_item hitem
    rw [← hcode] at hdrop
    cases hop : opcode item with
    | some op =>
      rw [labelTurn_of_ne hitem (@opcode_spec asm.items item op hop).2.2]
      exact plain_follows hlabelled hcode hitem hop
    | none =>
      cases item
      case label name =>
        have hoffset : offset asm.items (m.pos + 1) = offset asm.items m.pos := offset_succ hitem
        rw [labelTurn_label hitem]
        refine .next ?_
        show Leads call _ ⟨_, offset asm.items (m.pos + 1), _, _⟩
        rw [hoffset]
        exact .refl
      case push word =>
        rw [labelTurn_of_ne hitem (by simp)]
        exact push_follows (m := { m with pos := m.pos + 1 }) (.number word) hdrop
          (offset_succ hitem)
      case pushLabel name =>
        rw [labelTurn_of_ne hitem (by simp)]
        exact push_follows (m := { m with pos := m.pos + 1 }) (.place name) hdrop
          (offset_succ hitem)
      case revert => exact revert_follows hcode hitem
      all_goals exact absurd hop (by simp [opcode])

/-- A run on the items is a run on the bytes. -/
theorem Interprets.executes (hlabelled : WellLabelled asm.items)
    (hcode : call.code = asm.items.flatMap (itemBytes asm.items))
    (hrun : Interprets asm.items call.caller call.input m halt) :
    ∃ ops, Executes call (m.lower asm.items (offset asm.items)) ops halt := by
  induction hrun with
  | @halts m halt hturn =>
    have hfollows := labelTurn_follows hlabelled hcode m
    rw [hturn] at hfollows
    cases hfollows with
    | halts hrun => exact ⟨_, hrun⟩
  | @next m m' halt hturn _ ih =>
    have hfollows := labelTurn_follows hlabelled hcode m
    rw [hturn] at hfollows
    obtain ⟨ops, hrest⟩ := ih
    cases hfollows with
    | next hleads => exact hleads.executes hrest

end Runs

/-! ### Assembled programs -/

/-- A well-labelled program is assembled. Its items start at the sums of the widths before them,
the operand of a reference is the offset of its label, and when every jump that a run on the items
takes goes to the place of a label, the run on the bytes ends with the same result, storage and
gas. -/
theorem assemble_correct (asm : Asm) (hlabelled : WellLabelled asm.items) :
    ∃ code, asm.assemble = some (.ok code) ∧ code = asm.items.flatMap (itemBytes asm.items) ∧
      (∀ i item, asm.items[i]? = some item →
        (code.drop (offset asm.items i)).take (width item) = itemBytes asm.items item ∧
          (itemBytes asm.items item).length = width item) ∧
      (∀ i j name, asm.items[i]? = some (.pushLabel name) → asm.items[j]? = some (.label name) →
        offset asm.items j < 2 ^ 64 ∧
          (code.drop (offset asm.items i + 1)).take 8 =
            u64Le (UInt64.ofNat (offset asm.items j))) ∧
      ∀ caller input storage gasLimit,
        JumpsToLabels asm.items caller input (.start storage gasLimit) →
        ∃ halt, Interprets asm.items caller input (.start storage gasLimit) halt ∧
          (∀ halt', Interprets asm.items caller input (.start storage gasLimit) halt' →
            halt' = halt) ∧
          (∃ ops, Executes ⟨code, caller, input⟩ (.start storage gasLimit) ops halt) ∧
          execute code storage caller input gasLimit = halt.result.map fun _ ↦ halt.storage := by
  have hassembled := assemble_eq hlabelled
  generalize hcode : asm.items.flatMap (itemBytes asm.items) = code at hassembled
  have hitems {i : ℕ} {item : Instr} (hitem : asm.items[i]? = some item) :
      code.drop (offset asm.items i) =
        itemBytes asm.items item ++ code.drop (offset asm.items (i + 1)) := by
    rw [← hcode]
    exact drop_code_item hitem
  refine ⟨code, hassembled, rfl, ?_, ?_, ?_⟩
  · intro i item hitem
    have hlength := length_itemBytes asm.items item
    exact ⟨by rw [hitems hitem, List.take_left' hlength], hlength⟩
  · intro i j name hreference hlabel
    have haddress : address asm.items name = offset asm.items j := by
      rw [address, idxOf_label hlabelled.distinct hlabel]
    constructor
    · rw [← asm.toNat_offset j]
      exact UInt64.toNat_lt _
    · rw [← List.drop_drop, hitems hreference, ← haddress]
      show (u64Le _ ++ _).take 8 = _
      exact List.take_left' (length_u64Le _)
  · intro caller input storage gasLimit hjumps
    obtain ⟨halt, hrun⟩ := exists_interprets hjumps
    obtain ⟨ops, hexecutes⟩ :=
      @Interprets.executes _ ⟨code, caller, input⟩ _ _ hlabelled hcode.symm hrun
    exact ⟨halt, hrun, fun halt' hrun' ↦ hrun.unique hrun', ⟨ops, hexecutes⟩,
      hexecutes.execute_eq⟩

/-- A program that jumps behind a revert and stores its input. -/
def guarded : Asm where
  items := [.pushLabel "end", .jump, .revert, .label "end", .input, .input, .sstore]
  fits := by decide

theorem guarded_jumps : JumpsToLabels guarded.items 0 7 (.start ∅ 1000) := by
  refine .of_next rfl (.of_next rfl (.of_next rfl (.of_next rfl (.of_next rfl (.of_next rfl ?_)))))
  exact .of_halts rfl

theorem guarded_labelled : WellLabelled guarded.items where
  distinct := List.nodup_singleton _
  defined := by
    intro name hname
    simp [guarded] at hname ⊢
    exact hname
  followed := by
    intro i name hlabel
    have hend : i = 3 := by
      match i with
      | 0 => exact absurd hlabel (by simp [guarded])
      | 1 => exact absurd hlabel (by simp [guarded])
      | 2 => exact absurd hlabel (by simp [guarded])
      | 3 => rfl
      | 4 => exact absurd hlabel (by simp [guarded])
      | 5 => exact absurd hlabel (by simp [guarded])
      | 6 => exact absurd hlabel (by simp [guarded])
      | i + 7 => exact absurd hlabel (by simp [guarded])
    subst hend
    exact ⟨.input, by simp [guarded], Nat.one_pos⟩

/-- `guarded` is assembled to code that stores its input and spends 204 units of gas. -/
theorem guarded_assembled : ∃ code ops, guarded.assemble = some (.ok code) ∧
    Executes ⟨code, 0, 7⟩ (.start ∅ 1000) ops ⟨.ok (), (∅ : Storage).insert 7 7, 796⟩ := by
  obtain ⟨code, hassembled, -, -, -, hcalls⟩ := assemble_correct guarded guarded_labelled
  obtain ⟨halt, -, hunique, ⟨ops, hrun⟩, -⟩ := hcalls 0 7 ∅ 1000 guarded_jumps
  refine ⟨code, ops, hassembled, ?_⟩
  rw [hunique ⟨.ok (), (∅ : Storage).insert 7 7, 796⟩]
  · exact hrun
  · exact .next rfl (.next rfl (.next rfl (.next rfl (.next rfl (.next rfl (.halts rfl))))))

end Latebra.Vm
