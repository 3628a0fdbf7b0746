import Latebra.Foundation.MachineWord
import Latebra.Vm.Machine

/-!
# Runs of the virtual machine

`Executes` is a run of the interpreter's loop with no bound on it: the opcodes that are charged, one
after the other, and how the run ends, with the storage and the gas that are left whatever the
result is. Every machine has one run and no other (`exists_executes`, `Executes.unique`), the gas
that is gone is the cost of its opcodes (`Executes.cost`), and `execute` returns what it ends with
(`Executes.execute_eq`), so the bound that `execute` puts on its turns is never felt.

What one instruction can do is said once: it leaves the gas alone and does the same whatever the gas
is (`runOpcode_withGas`), and it keeps the stack below its cap and the program counter within the
code (`runOpcode_effect`). `indexedStep` is the turn as the code writes it, with its indexing,
slicing and swapping as operations that can be out of bounds; they never are (`indexedStep_eq`).
-/

set_option autoImplicit false
set_option relaxedAutoImplicit false

namespace Latebra.Vm

open Foundation

/-! ### Results -/

section Results

variable {ε α β : Type}

theorem pure_eq_ok (a : α) : (pure a : Except ε α) = .ok a := rfl

theorem throw_eq_error (e : ε) : (throw e : Except ε α) = .error e := rfl

theorem bind_eq_ok {x : Except ε α} {f : α → Except ε β} {b : β} :
    (x >>= f) = .ok b ↔ ∃ a, x = .ok a ∧ f a = .ok b := by
  cases x <;> simp [Bind.bind, Except.bind]

theorem map_eq_ok {x : Except ε α} {f : α → β} {b : β} :
    (f <$> x) = .ok b ↔ ∃ a, x = .ok a ∧ f a = b := by
  cases x <;> simp [Functor.map, Except.map]

end Results

/-! ### One instruction -/

theorem Machine.pop_eq_ok {m m' : Machine} {word : UInt64} :
    m.pop = .ok (word, m') ↔ ∃ rest, m.stack = word :: rest ∧ m' = { m with stack := rest } := by
  unfold Machine.pop
  cases m.stack with
  | nil => simp [throw_eq_error]
  | cons top rest =>
    simp only [pure_eq_ok, Except.ok.injEq, Prod.mk.injEq, List.cons.injEq]
    grind

theorem Machine.push_eq_ok {m m' : Machine} {word : UInt64} :
    m.push word = .ok m' ↔
      m.stack.length < maxStack ∧ m' = { m with stack := word :: m.stack } := by
  unfold Machine.push
  by_cases hfull : m.stack.length ≥ maxStack
  · rw [if_pos hfull, throw_eq_error]
    exact iff_of_false (by simp) fun hroom ↦ absurd hroom.1 (not_lt.mpr hfull)
  · rw [if_neg hfull, pure_eq_ok, and_iff_right (not_le.mp hfull), Except.ok.injEq]
    exact eq_comm

theorem Machine.binary_eq_ok {m m' : Machine} {f : UInt64 → UInt64 → Except VmError UInt64} :
    m.binary f = .ok m' ↔ ∃ a b rest word, m.stack = b :: a :: rest ∧ f a b = .ok word ∧
      rest.length < maxStack ∧ m' = { m with stack := word :: rest } := by
  simp only [Machine.binary, bind_eq_ok, Machine.pop_eq_ok, Machine.push_eq_ok, Prod.exists]
  grind

/-- An instruction neither reads the gas nor changes it. -/
theorem runOpcode_withGas (call : CallContext) (op : UInt8) (m : Machine) (gas : UInt64) :
    runOpcode call op { m with gas := gas } =
      (runOpcode call op m).map (Option.map fun m' ↦ { m' with gas := gas }) := by
  obtain ⟨stack, pc, gas', storage⟩ := m
  unfold runOpcode
  split
  -- what an instruction takes off the stack is there or it is not
  all_goals rcases stack with _ | ⟨top, _ | ⟨second, rest⟩⟩
  all_goals
    simp [Machine.binary, Machine.pop, Machine.push, pure, Except.pure, throw, throwThe,
      MonadExceptOf.throw, Bind.bind, Except.bind, Except.map, Functor.map]
  all_goals grind

/-- An instruction leaves the gas alone, the stack below its cap and the counter in the code. -/
theorem runOpcode_effect {call : CallContext} {op : UInt8} {m m' : Machine}
    (hrun : runOpcode call op m = .ok (some m')) :
    m'.gas = m.gas ∧ m'.stack.length ≤ max m.stack.length maxStack ∧
      (m.pc ≤ call.code.length → m'.pc ≤ call.code.length) := by
  unfold runOpcode at hrun
  split at hrun
  case h_2 =>
    -- an operand is there to the end
    cases hoperand : u64OfLe ((call.code.drop m.pc).take 8) with
    | none =>
      rw [hoperand] at hrun
      exact absurd hrun (by simp [throw_eq_error])
    | some word =>
      simp only [hoperand, bind_eq_ok, Machine.push_eq_ok, pure_eq_ok] at hrun
      have hlength : (call.code.drop m.pc).length ≥ 8 := by
        by_contra hshort
        rw [u64OfLe, if_neg (by rw [List.length_take]; omega)] at hoperand
        exact absurd hoperand (by simp)
      rw [List.length_drop] at hlength
      grind
  case h_14 =>
    simp only [bind_eq_ok, Machine.pop_eq_ok, Prod.exists] at hrun
    obtain ⟨dest, b, ⟨rest, hstack, rfl⟩, hjump⟩ := hrun
    split at hjump
    · exact absurd hjump (by simp [throw_eq_error, Bind.bind, Except.bind])
    · grind [pure_eq_ok]
  case h_15 =>
    simp only [bind_eq_ok, Machine.pop_eq_ok, Prod.exists] at hrun
    obtain ⟨dest, b, ⟨rest, hstack, rfl⟩, cond, c, ⟨rest', hrest, rfl⟩, hjump⟩ := hrun
    split at hjump
    · split at hjump
      · exact absurd hjump (by simp [throw_eq_error, Bind.bind, Except.bind])
      · grind [pure_eq_ok]
    · grind [pure_eq_ok]
  case h_16 =>
    cases hstack : m.stack with
    | nil =>
      rw [hstack] at hrun
      exact absurd hrun (by simp [throw_eq_error])
    | cons top rest =>
      rw [hstack] at hrun
      simp only [map_eq_ok, Machine.push_eq_ok] at hrun
      grind
  all_goals
    simp only [map_eq_ok, Machine.binary_eq_ok, bind_eq_ok, Machine.pop_eq_ok,
      Machine.push_eq_ok, pure_eq_ok, throw_eq_error, Prod.exists] at hrun
    grind

/-- A push takes the eight bytes behind its opcode. -/
theorem runOpcode_push {call : CallContext} {m : Machine} {word : UInt64}
    (hoperand : u64OfLe ((call.code.drop m.pc).take 8) = some word) :
    runOpcode call 0x01 m = (do return some { ← m.push word with pc := m.pc + 8 }) := by
  simp only [runOpcode, hoperand]

theorem runOpcode_truncated {call : CallContext} {m : Machine}
    (hoperand : u64OfLe ((call.code.drop m.pc).take 8) = none) :
    runOpcode call 0x01 m = throw .truncated := by
  simp only [runOpcode, hoperand]

/-! ### Turns -/

/-- What one turn of the loop comes to. -/
inductive Turn where
  /-- The program runs off its end. -/
  | finished
  /-- The gas is short of the next opcode. -/
  | starved
  | stopped (op : UInt8)
  | failed (op : UInt8) (e : VmError)
  | next (op : UInt8) (m : Machine)

/-- A machine past an opcode that it was charged for. -/
def Machine.charged (m : Machine) (op : UInt8) : Machine :=
  { m with gas := m.gas - gasCost op, pc := m.pc + 1 }

/-- One turn of the loop. -/
def turn (call : CallContext) (m : Machine) : Turn :=
  match call.code[m.pc]? with
  | none => .finished
  | some op =>
    if m.gas < gasCost op then .starved
    else
      match runOpcode call op (m.charged op) with
      | .error e => .failed op e
      | .ok none => .stopped op
      | .ok (some m') => .next op m'

variable {call : CallContext} {m m' : Machine} {op : UInt8}

theorem step_eq_turn (call : CallContext) (m : Machine) :
    step call m =
      match turn call m with
      | .finished => .ok none
      | .starved => .error .outOfGas
      | .stopped _ => .ok none
      | .failed _ e => .error e
      | .next _ m' => .ok (some m') := by
  unfold step turn
  cases call.code[m.pc]? with
  | none => rfl
  | some op =>
    by_cases hpaid : m.gas < gasCost op
    · simp only [if_pos hpaid]
      rfl
    · simp only [if_neg hpaid]
      show runOpcode call op (m.charged op) = _
      rcases runOpcode call op (m.charged op) with e | _ | m' <;> rfl

/-- An opcode that is charged is in the code and paid for. -/
theorem turn_eq_next : turn call m = .next op m' ↔
    call.code[m.pc]? = some op ∧ ¬ m.gas < gasCost op ∧
      runOpcode call op (m.charged op) = .ok (some m') := by
  unfold turn
  grind

theorem turn_eq_stopped : turn call m = .stopped op ↔
    call.code[m.pc]? = some op ∧ ¬ m.gas < gasCost op ∧
      runOpcode call op (m.charged op) = .ok none := by
  unfold turn
  grind

theorem turn_eq_failed {e : VmError} : turn call m = .failed op e ↔
    call.code[m.pc]? = some op ∧ ¬ m.gas < gasCost op ∧
      runOpcode call op (m.charged op) = .error e := by
  unfold turn
  grind

theorem turn_eq_starved : turn call m = .starved ↔
    ∃ op, call.code[m.pc]? = some op ∧ m.gas < gasCost op := by
  unfold turn
  grind

theorem turn_eq_finished : turn call m = .finished ↔ call.code[m.pc]? = none := by
  unfold turn
  grind

theorem toNat_charged (hpaid : ¬ m.gas < gasCost op) :
    (m.charged op).gas.toNat + (gasCost op).toNat = m.gas.toNat := by
  have hle := UInt64.not_lt.mp hpaid
  show (m.gas - gasCost op).toNat + _ = _
  rw [UInt64.toNat_sub_of_le _ _ hle]
  exact Nat.sub_add_cancel (UInt64.le_iff_toNat_le.mp hle)

/-- What a turn that goes on leaves of the gas, the stack and the counter. -/
theorem turn_effect (hturn : turn call m = .next op m') :
    m'.gas.toNat + (gasCost op).toNat = m.gas.toNat ∧
      m'.stack.length ≤ max m.stack.length maxStack ∧
      (m.pc ≤ call.code.length → m'.pc ≤ call.code.length) := by
  obtain ⟨hcode, hpaid, hrun⟩ := turn_eq_next.mp hturn
  obtain ⟨hgas, hstack, hpc⟩ := runOpcode_effect hrun
  refine ⟨by rw [hgas]; exact toNat_charged hpaid, hstack, fun _ ↦ hpc ?_⟩
  exact (List.getElem?_eq_some_iff.mp hcode).1

/-- With more gas a turn that is paid for does the same. -/
theorem turn_withGas (hpaid : turn call m ≠ .starved) {gas : UInt64} (hgas : m.gas ≤ gas) :
    turn call { m with gas := gas } =
      match turn call m with
      | .next op m' => .next op { m' with gas := gas - gasCost op }
      | same => same := by
  unfold turn at hpaid ⊢
  cases hcode : call.code[m.pc]? with
  | none => rfl
  | some op =>
    simp only [hcode] at hpaid ⊢
    by_cases hless : m.gas < gasCost op
    · exact absurd (if_pos hless) hpaid
    · have hmore : ¬ gas < gasCost op :=
        UInt64.not_lt.mpr (UInt64.le_trans (UInt64.not_lt.mp hless) hgas)
      have hcharged : Machine.charged { m with gas := gas } op =
          { m.charged op with gas := gas - gasCost op } := rfl
      rw [if_neg hless, if_neg hmore, hcharged, runOpcode_withGas]
      rcases runOpcode call op (m.charged op) with e | _ | m' <;> rfl

/-! ### Runs -/

/-- How a run ends, with the storage and the gas that it leaves. -/
structure Halt where
  result : Except VmError Unit
  storage : Storage
  gas : UInt64

/-- A run of the loop from a machine, with the opcodes that it is charged for. -/
inductive Executes (call : CallContext) : Machine → List UInt8 → Halt → Prop where
  | finished {m : Machine} : turn call m = .finished → Executes call m [] ⟨.ok (), m.storage, m.gas⟩
  | starved {m : Machine} : turn call m = .starved →
    Executes call m [] ⟨.error .outOfGas, m.storage, m.gas⟩
  | stopped {m : Machine} {op : UInt8} : turn call m = .stopped op →
    Executes call m [op] ⟨.ok (), m.storage, (m.charged op).gas⟩
  | failed {m : Machine} {op : UInt8} {e : VmError} : turn call m = .failed op e →
    Executes call m [op] ⟨.error e, m.storage, (m.charged op).gas⟩
  | next {m m' : Machine} {op : UInt8} {ops : List UInt8} {halt : Halt} :
    turn call m = .next op m' → Executes call m' ops halt → Executes call m (op :: ops) halt

variable {ops ops' : List UInt8} {halt halt' : Halt}

/-- Every machine has a run. -/
theorem exists_executes (call : CallContext) (m : Machine) :
    ∃ ops halt, Executes call m ops halt := by
  induction hgas : m.gas.toNat using Nat.strong_induction_on generalizing m with
  | _ gas ih =>
    cases hturn : turn call m with
    | finished => exact ⟨_, _, .finished hturn⟩
    | starved => exact ⟨_, _, .starved hturn⟩
    | stopped op => exact ⟨_, _, .stopped hturn⟩
    | failed op e => exact ⟨_, _, .failed hturn⟩
    | next op m' =>
      have hspent := (turn_effect hturn).1
      have hcost := one_le_gasCost op
      obtain ⟨ops, halt, hrest⟩ := ih m'.gas.toNat (by omega) m' rfl
      exact ⟨_, _, .next hturn hrest⟩

/-- A machine has one run. -/
theorem Executes.unique (hrun : Executes call m ops halt) (hrun' : Executes call m ops' halt') :
    ops = ops' ∧ halt = halt' := by
  induction hrun generalizing ops' halt' with
  | finished hturn => cases hrun' <;> simp_all
  | starved hturn => cases hrun' <;> simp_all
  | stopped hturn => cases hrun' <;> simp_all
  | failed hturn => cases hrun' <;> simp_all
  | next hturn hrest ih =>
    cases hrun' with
    | next hturn' hrest' =>
      obtain ⟨rfl, rfl⟩ := Turn.next.inj (hturn.symm.trans hturn')
      obtain ⟨rfl, rfl⟩ := ih hrest'
      exact ⟨rfl, rfl⟩
    | _ => simp_all

/-- The gas of opcodes. -/
def opsCost (ops : List UInt8) : ℕ := (ops.map fun op ↦ (gasCost op).toNat).sum

/-- The gas that is gone is the cost of the opcodes. -/
theorem Executes.cost (hrun : Executes call m ops halt) :
    halt.gas.toNat + opsCost ops = m.gas.toNat := by
  induction hrun with
  | finished => rfl
  | starved => rfl
  | stopped hturn => simpa [opsCost] using toNat_charged (turn_eq_stopped.mp hturn).2.1
  | failed hturn => simpa [opsCost] using toNat_charged (turn_eq_failed.mp hturn).2.1
  | next hturn _ ih =>
    have hgas := (turn_effect hturn).1
    simp only [opsCost, List.map_cons, List.sum_cons] at ih ⊢
    omega

theorem length_le_opsCost (ops : List UInt8) : ops.length ≤ opsCost ops := by
  induction ops with
  | nil => exact Nat.zero_le _
  | cons op ops ih =>
    have hcost := one_le_gasCost op
    simp only [opsCost, List.map_cons, List.sum_cons, List.length_cons] at ih ⊢
    omega

/-- A store costs `sstoreGas`. -/
theorem count_sstore_le (ops : List UInt8) : sstoreGas.toNat * ops.count 0x12 ≤ opsCost ops := by
  induction ops with
  | nil => exact Nat.zero_le _
  | cons op ops ih =>
    simp only [opsCost, List.map_cons, List.sum_cons] at ih ⊢
    by_cases hstore : op = 0x12
    · subst hstore
      rw [List.count_cons_self, Nat.mul_succ]
      have hcost : (gasCost 0x12).toNat = sstoreGas.toNat := rfl
      omega
    · rw [List.count_cons_of_ne hstore]
      omega

/-- The loop with a bound on its turns does the same as the loop, when the bound is greater than
the number of instructions. -/
theorem Executes.runSteps_eq (hrun : Executes call m ops halt) {fuel : ℕ}
    (hfuel : ops.length < fuel) :
    runSteps call fuel m = halt.result.map fun _ ↦ halt.storage := by
  induction hrun generalizing fuel with
  | next hturn _ ih =>
    cases fuel with
    | zero => exact absurd hfuel (Nat.not_lt_zero _)
    | succ fuel =>
      rw [runSteps, step_eq_turn, hturn]
      exact ih (Nat.succ_lt_succ_iff.mp hfuel)
  | _ hturn =>
    cases fuel with
    | zero => exact absurd hfuel (Nat.not_lt_zero _)
    | succ fuel =>
      rw [runSteps, step_eq_turn, hturn]
      rfl

/-- With more gas a run that had enough does the same. -/
theorem Executes.withGas (hrun : Executes call m ops halt)
    (henough : halt.result ≠ .error .outOfGas) {gas : UInt64} (hgas : m.gas ≤ gas) :
    ∃ left, Executes call { m with gas := gas } ops ⟨halt.result, halt.storage, left⟩ := by
  induction hrun generalizing gas with
  | finished hturn =>
    exact ⟨_, .finished ((turn_withGas (by simp [hturn]) hgas).trans (by rw [hturn]))⟩
  | starved => exact absurd rfl henough
  | stopped hturn =>
    exact ⟨_, .stopped ((turn_withGas (by simp [hturn]) hgas).trans (by rw [hturn]))⟩
  | failed hturn =>
    exact ⟨_, .failed ((turn_withGas (by simp [hturn]) hgas).trans (by rw [hturn]))⟩
  | @next m m' op ops halt hturn _ ih =>
    have hpaid := (turn_eq_next.mp hturn).2.1
    have hmore : ¬ gas < gasCost op :=
      UInt64.not_lt.mpr (UInt64.le_trans (UInt64.not_lt.mp hpaid) hgas)
    have hleft : m'.gas ≤ gas - gasCost op := by
      have hspent := (turn_effect hturn).1
      have hspare : (gas - gasCost op).toNat + (gasCost op).toNat = gas.toNat :=
        @toNat_charged { m with gas := gas } op hmore
      rw [UInt64.le_iff_toNat_le] at hgas ⊢
      omega
    obtain ⟨left, hrest⟩ := ih henough hleft
    exact ⟨left, .next ((turn_withGas (by simp [hturn]) hgas).trans (by rw [hturn])) hrest⟩

/-! ### Bounds -/

/-- The machines that turns lead to. -/
def Leads (call : CallContext) : Machine → Machine → Prop :=
  Relation.ReflTransGen fun m m' ↦ ∃ op, turn call m = .next op m'

/-- A machine that turns lead to ends as the one they start from. -/
theorem Leads.executes (hleads : Leads call m m')
    (hrun : Executes call m' ops halt) :
    ∃ ops, Executes call m ops halt := by
  induction hleads using Relation.ReflTransGen.head_induction_on with
  | refl => exact ⟨ops, hrun⟩
  | head hnext _ ih =>
    obtain ⟨op, hturn⟩ := hnext
    obtain ⟨ops, hrest⟩ := ih
    exact ⟨op :: ops, .next hturn hrest⟩

/-- Along a run the stack stays below its cap and the counter within the code. -/
theorem Leads.bounds (hleads : Leads call m m') (hstack : m.stack.length ≤ maxStack)
    (hpc : m.pc ≤ call.code.length) :
    m'.stack.length ≤ maxStack ∧ m'.pc ≤ call.code.length := by
  induction hleads with
  | refl => exact ⟨hstack, hpc⟩
  | tail _ hnext ih =>
    obtain ⟨op, hturn⟩ := hnext
    obtain ⟨-, hlength, hcounter⟩ := turn_effect hturn
    exact ⟨hlength.trans (max_le ih.1 le_rfl), hcounter ih.2⟩

/-- `code.get(start..end)`. -/
def get (bytes : Bytes) (start stop : ℕ) : Option Bytes :=
  if start ≤ stop ∧ stop ≤ bytes.length then some ((bytes.drop start).take (stop - start)) else none

/-- `u64::from_le_bytes(bytes.try_into().unwrap())`, `none` where `unwrap` panics. -/
def wordOf (bytes : Bytes) : Option UInt64 :=
  if bytes.length = 8 then some (UInt64.ofNat (leValue bytes)) else none

/-- `stack.swap(i, j)`, the positions counted from the bottom, `none` where one is out of
bounds. -/
def swapAt (stack : List UInt64) (i j : ℕ) : Option (List UInt64) := do
  let bottomUp := stack.reverse
  let a ← bottomUp[i]?
  let b ← bottomUp[j]?
  return ((bottomUp.set i b).set j a).reverse

/-- Run one opcode with every access as the code makes it, `none` where one panics. -/
def indexedOpcode (call : CallContext) (op : UInt8) (m : Machine) :
    Option (Except VmError (Option Machine)) :=
  match op with
  | 0x01 =>
    match get call.code m.pc (m.pc + 8) with
    | none => some (throw .truncated)
    | some bytes => do
      let word ← wordOf bytes
      return do
        return some { ← m.push word with pc := m.pc + 8 }
  | 0x10 =>
    if m.stack.length < 2 then some (throw .stackUnderflow)
    else do
      let stack ← swapAt m.stack (m.stack.length - 1) (m.stack.length - 2)
      return pure (some { m with stack := stack })
  | 0x13 => do
    let bytes ← get (bytesOf32 call.caller) 0 8
    let word ← wordOf bytes
    return some <$> m.push word
  | _ => some (runOpcode call op m)

/-- One turn with every access as the code makes it, `none` where one panics. -/
def indexedStep (call : CallContext) (m : Machine) : Option (Except VmError (Option Machine)) :=
  if m.pc < call.code.length then do
    let op ← call.code[m.pc]?
    if m.gas < gasCost op then return throw .outOfGas
    else
      let gas ← checkedSub m.gas (gasCost op)
      indexedOpcode call op { m with gas := gas, pc := m.pc + 1 }
  else return pure none

theorem get_eq_some {bytes : Bytes} {start : ℕ} (hstop : start + 8 ≤ bytes.length) :
    get bytes start (start + 8) = some ((bytes.drop start).take 8) ∧
      ((bytes.drop start).take 8).length = 8 := by
  constructor
  · rw [get, if_pos ⟨Nat.le_add_right _ _, hstop⟩, Nat.add_sub_cancel_left]
  · rw [List.length_take, List.length_drop]
    omega

/-- The two topmost words of a stack are there to be swapped. -/
theorem swapAt_top (first second : UInt64) (rest : List UInt64) :
    swapAt (first :: second :: rest) (rest.length + 1) rest.length =
      some (second :: first :: rest) := by
  have hreverse : (first :: second :: rest).reverse = rest.reverse ++ [second, first] := by simp
  have hlength : rest.length = rest.reverse.length := List.length_reverse.symm
  have hone : rest.reverse.length + 1 - rest.reverse.length = 1 :=
    Nat.add_sub_cancel_left _ _
  rw [swapAt, hreverse, hlength, List.getElem?_append_right (Nat.le_add_right _ 1),
    List.getElem?_append_right le_rfl, hone, Nat.sub_self]
  show some (((rest.reverse ++ [second, first]).set _ second).set _ first).reverse = _
  rw [List.set_append_right _ _ (Nat.le_add_right _ 1), List.set_append_right _ _ le_rfl, hone,
    Nat.sub_self]
  simp

theorem indexedOpcode_eq (call : CallContext) (op : UInt8) (m : Machine) :
    indexedOpcode call op m = some (runOpcode call op m) := by
  unfold indexedOpcode
  split
  · by_cases hstop : m.pc + 8 ≤ call.code.length
    · obtain ⟨hget, hlength⟩ := get_eq_some hstop
      have hoperand : u64OfLe ((call.code.drop m.pc).take 8) =
          some (UInt64.ofNat (leValue ((call.code.drop m.pc).take 8))) := by
        rw [u64OfLe, if_pos hlength]
      rw [hget, runOpcode_push hoperand]
      show (wordOf _ >>= _) = _
      rw [wordOf, if_pos hlength]
      rfl
    · have hshort : ((call.code.drop m.pc).take 8).length ≠ 8 := by
        rw [List.length_take, List.length_drop]
        omega
      have hoperand : u64OfLe ((call.code.drop m.pc).take 8) = none := by
        rw [u64OfLe, if_neg hshort]
      rw [get, if_neg fun hboth ↦ hstop hboth.2, runOpcode_truncated hoperand]
  · obtain ⟨stack, pc, gas, storage⟩ := m
    rcases stack with _ | ⟨first, _ | ⟨second, rest⟩⟩
    · rfl
    · rfl
    · rw [if_neg (by simp)]
      show (swapAt (first :: second :: rest) (rest.length + 1) rest.length >>= _) = _
      rw [swapAt_top]
      rfl
  · have hcaller : 0 + 8 ≤ (bytesOf32 call.caller).length := by
      rw [length_bytesOf32]
      norm_num
    obtain ⟨hget, hlength⟩ := get_eq_some hcaller
    rw [Nat.zero_add, List.drop_zero] at hget
    rw [List.drop_zero] at hlength
    simp only [hget, Option.bind_eq_bind, Option.bind_some, wordOf, if_pos hlength]
    rfl
  · rfl

/-- No access of a turn is out of bounds. -/
theorem indexedStep_eq (call : CallContext) (m : Machine) :
    indexedStep call m = some (step call m) := by
  unfold indexedStep step
  by_cases hpc : m.pc < call.code.length
  · rw [if_pos hpc, List.getElem?_eq_getElem hpc]
    show (if m.gas < gasCost _ then _ else _) = some (if m.gas < gasCost _ then _ else _)
    by_cases hpaid : m.gas < gasCost call.code[m.pc]
    · rw [if_pos hpaid, if_pos hpaid]
      rfl
    · have hsub : checkedSub m.gas (gasCost call.code[m.pc]) =
          some (m.gas - gasCost call.code[m.pc]) := checkedSub_eq_some.mpr (toNat_charged hpaid)
      rw [if_neg hpaid, if_neg hpaid, hsub]
      exact indexedOpcode_eq _ _ _
  · rw [if_neg hpc, List.getElem?_eq_none (not_lt.mp hpc)]
    rfl

/-! ### Calls -/

/-- The machine that a call starts with. -/
def Machine.start (storage : Storage) (gasLimit : UInt64) : Machine := ⟨[], 0, gasLimit, storage⟩

theorem Executes.execute_eq {code : Bytes} {caller : Bytes32} {input gasLimit : UInt64}
    {storage : Storage}
    (hrun : Executes ⟨code, caller, input⟩ (.start storage gasLimit) ops halt) :
    execute code storage caller input gasLimit = halt.result.map fun _ ↦ halt.storage := by
  apply hrun.runSteps_eq
  have hcost := hrun.cost
  have hlength := length_le_opsCost ops
  have hgas : (Machine.start storage gasLimit).gas.toNat = gasLimit.toNat := rfl
  omega

/-- Every call has one run. It is charged for at most as many instructions as its gas limit, and
for a store at most once for every 200 units; no access on the way is out of bounds and the stack
never exceeds 1024 words; and unless the call ends out of gas, a higher limit gives it the same
instructions, result and storage. -/
theorem execute_metered (code : Bytes) (caller : Bytes32) (input : UInt64) (storage : Storage)
    (gasLimit : UInt64) :
    ∃ ops halt, Executes ⟨code, caller, input⟩ (.start storage gasLimit) ops halt ∧
      (∀ ops' halt', Executes ⟨code, caller, input⟩ (.start storage gasLimit) ops' halt' →
        ops' = ops ∧ halt' = halt) ∧
      execute code storage caller input gasLimit = (halt.result.map fun _ ↦ halt.storage) ∧
      ops.length ≤ gasLimit.toNat ∧ ops.count 0x12 ≤ gasLimit.toNat / 200 ∧
      (∀ m, Leads ⟨code, caller, input⟩ (.start storage gasLimit) m →
        m.stack.length ≤ 1024 ∧ m.pc ≤ code.length ∧
          indexedStep ⟨code, caller, input⟩ m = some (step ⟨code, caller, input⟩ m)) ∧
      (halt.result ≠ .error .outOfGas → ∀ gas, gasLimit ≤ gas →
        ∃ halt', Executes ⟨code, caller, input⟩ (.start storage gas) ops halt' ∧
          halt'.result = halt.result ∧ halt'.storage = halt.storage) := by
  obtain ⟨ops, halt, hrun⟩ := exists_executes ⟨code, caller, input⟩ (.start storage gasLimit)
  have hcost : halt.gas.toNat + opsCost ops = gasLimit.toNat := hrun.cost
  refine ⟨ops, halt, hrun, ?_, hrun.execute_eq, ?_, ?_, ?_, ?_⟩
  · intro ops' halt' hrun'
    exact hrun'.unique hrun
  · have hlength := length_le_opsCost ops
    omega
  · have hstores := count_sstore_le ops
    have hprice : sstoreGas.toNat = 200 := rfl
    rw [hprice] at hstores
    omega
  · intro m hleads
    obtain ⟨hstack, hpc⟩ := hleads.bounds (Nat.zero_le _) (Nat.zero_le _)
    exact ⟨hstack, hpc, indexedStep_eq _ m⟩
  · intro henough gas hgas
    obtain ⟨left, hmore⟩ := hrun.withGas henough hgas
    exact ⟨_, hmore, rfl, rfl⟩

end Latebra.Vm
