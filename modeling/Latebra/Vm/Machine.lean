import Latebra.Foundation.ByteCodec
import Latebra.Foundation.OverlayMap

/-!
# The contract virtual machine

A deterministic stack machine over 64-bit words with persistent key/value storage and a gas limit.
`step` executes one instruction: it charges the gas of the opcode, moves past it, and runs it.
`execute` repeats `step` from an empty stack until the program stops, runs off its end, or fails.
Every instruction costs at least one unit (`one_le_gasCost`), so a run of more steps than the gas
limit does not exist, and `execute` bounds the number of steps by it.
-/

set_option autoImplicit false
set_option relaxedAutoImplicit false

namespace Latebra.Vm

open Foundation

/-- Execution budget of one contract call. -/
def defaultGas : UInt64 := 100000

def maxStack : ℕ := 1024

/-- Gas of `SSTORE`, which creates permanent state. -/
def sstoreGas : UInt64 := 200

/-- Gas of `SLOAD`. -/
def sloadGas : UInt64 := 50

/-- Gas of an opcode. -/
def gasCost (op : UInt8) : UInt64 :=
  if op = 0x12 then sstoreGas else if op = 0x11 then sloadGas else 1

/-- Persistent contract storage. -/
abbrev Storage := FMap UInt64 UInt64

inductive VmError where
  | outOfGas
  | stackUnderflow
  | stackOverflow
  | badJump
  | divByZero
  | badOpcode (op : UInt8)
  | truncated
deriving DecidableEq, Repr

/-- Contract address: the hash of deployer and code. -/
def contractId (blake3 : Bytes → Bytes32) (deployer : Bytes32) (code : Bytes) : Bytes32 :=
  blake3 (ascii "LAT-contract" ++ bytesOf32 deployer ++ code)

/-- A running machine. The head of the stack is its top. -/
structure Machine where
  stack : List UInt64
  pc : ℕ
  gas : UInt64
  storage : Storage

namespace Machine

def pop (m : Machine) : Except VmError (UInt64 × Machine) :=
  match m.stack with
  | [] => throw .stackUnderflow
  | top :: rest => pure (top, { m with stack := rest })

def push (m : Machine) (word : UInt64) : Except VmError Machine :=
  if m.stack.length ≥ maxStack then throw .stackOverflow
  else pure { m with stack := word :: m.stack }

/-- Replace the two topmost words `a`, `b` (with `b` on top) by one. -/
def binary (m : Machine) (f : UInt64 → UInt64 → Except VmError UInt64) :
    Except VmError Machine := do
  let (b, m) ← m.pop
  let (a, m) ← m.pop
  m.push (← f a b)

end Machine

/-- The word of a truth value. -/
def flag (condition : Prop) [Decidable condition] : UInt64 := if condition then 1 else 0

/-- The call that a program runs in. -/
structure CallContext where
  code : Bytes
  caller : Bytes32
  input : UInt64

/-- The first eight bytes of the caller id, as a little-endian word. -/
def callerWord (caller : Bytes32) : UInt64 :=
  UInt64.ofNat (leValue ((bytesOf32 caller).take 8))

/-- Run one opcode, the program counter already past it. `none` is a stop. -/
def runOpcode (call : CallContext) (op : UInt8) (m : Machine) : Except VmError (Option Machine) :=
  match op with
  | 0x00 => pure none
  | 0x01 => do
    match u64OfLe ((call.code.drop m.pc).take 8) with
    | none => throw .truncated
    | some word => return some { ← m.push word with pc := m.pc + 8 }
  | 0x02 => do
    let (_, m) ← m.pop
    return some m
  | 0x03 => some <$> m.binary fun a b ↦ pure (a + b)
  | 0x04 => some <$> m.binary fun a b ↦ pure (a - b)
  | 0x05 => some <$> m.binary fun a b ↦ pure (a * b)
  | 0x06 => some <$> m.binary fun a b ↦ if b = 0 then throw .divByZero else pure (a / b)
  | 0x07 => some <$> m.binary fun a b ↦ if b = 0 then throw .divByZero else pure (a % b)
  | 0x08 => some <$> m.binary fun a b ↦ pure (flag (a = b))
  | 0x09 => some <$> m.binary fun a b ↦ pure (flag (a < b))
  | 0x0A => some <$> m.binary fun a b ↦ pure (flag (a > b))
  | 0x0B => some <$> m.binary fun a b ↦ pure (a &&& b)
  | 0x0C => do
    let (a, m) ← m.pop
    return some (← m.push (flag (a = 0)))
  | 0x0D => do
    let (dest, m) ← m.pop
    if dest.toNat ≥ call.code.length then throw .badJump
    return some { m with pc := dest.toNat }
  | 0x0E => do
    let (dest, m) ← m.pop
    let (cond, m) ← m.pop
    if cond ≠ 0 then
      if dest.toNat ≥ call.code.length then throw .badJump
      return some { m with pc := dest.toNat }
    else return some m
  | 0x0F =>
    match m.stack with
    | [] => throw .stackUnderflow
    | top :: _ => some <$> m.push top
  | 0x10 =>
    match m.stack with
    | first :: second :: rest => pure (some { m with stack := second :: first :: rest })
    | _ => throw .stackUnderflow
  | 0x11 => do
    let (key, m) ← m.pop
    return some (← m.push (m.storage[key]?.getD 0))
  | 0x12 => do
    let (value, m) ← m.pop
    let (key, m) ← m.pop
    return some { m with storage := m.storage.insert key value }
  | 0x13 => some <$> m.push (callerWord call.caller)
  | 0x14 => some <$> m.push call.input
  | other => throw (.badOpcode other)

/-- One turn of the machine: charge the gas of the next opcode, move past it, run it. `none` is
the end of the program. -/
def step (call : CallContext) (m : Machine) : Except VmError (Option Machine) :=
  match call.code[m.pc]? with
  | none => pure none
  | some op =>
    if m.gas < gasCost op then throw .outOfGas
    else runOpcode call op { m with gas := m.gas - gasCost op, pc := m.pc + 1 }

/-- At most `fuel` turns of the machine, to the storage it ends with. -/
def runSteps (call : CallContext) : ℕ → Machine → Except VmError Storage
  | 0, _ => throw .outOfGas
  | fuel + 1, m => do
    match ← step call m with
    | none => return m.storage
    | some m' => runSteps call fuel m'

/-- Execute a program, to the storage it leaves behind. -/
def execute (code : Bytes) (storage : Storage) (caller : Bytes32) (input gasLimit : UInt64) :
    Except VmError Storage :=
  runSteps ⟨code, caller, input⟩ (gasLimit.toNat + 1) ⟨[], 0, gasLimit, storage⟩

/-- Every instruction costs gas. -/
theorem one_le_gasCost (op : UInt8) : 1 ≤ (gasCost op).toNat := by
  unfold gasCost
  split
  · decide
  · split <;> decide

end Latebra.Vm
