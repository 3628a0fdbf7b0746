import Latebra.Foundation.PositionalDigits

/-!
# Bitcoin's reading of a hash time-locked script

The purpose of the redeem script is what a Bitcoin node makes of it, so this module states the
node's rules for the opcodes that the script is built from: the sign-magnitude reading of a script
number (`numberOf`), when its bytes are minimal (`MinimalNumber`), and the stack machine (`run`)
with its conditionals, pushes and checks. `SHA-256` and the signature check are parameters. A
witness unlocks a script when the run leaves exactly one true item (`unlocks`).

`run_push`, `run_if`, `run_else`, `run_endif` and `run_plain` are the machine's rules, for a push,
for each opcode of a conditional and for any other.
-/

set_option autoImplicit false
set_option relaxedAutoImplicit false

namespace Latebra.Bridge

open Foundation

/-! ### Script numbers -/

/-- The number that script bytes stand for: magnitude lowest byte first, sign in the top bit. -/
def numberOf (bytes : Bytes) : ℤ :=
  match bytes.getLast? with
  | none => 0
  | some top =>
    if top &&& 0x80 = 0 then leValue bytes else -leValue (bytes.dropLast ++ [top &&& 0x7f])

/-- A number is written minimally when its last byte holds more than the sign, or is there because
the byte before it has its top bit set. -/
def MinimalNumber (bytes : Bytes) : Prop :=
  ∀ top ∈ bytes.getLast?, top &&& 0x7f = 0 →
    ∃ second ∈ bytes.dropLast.getLast?, second &&& 0x80 ≠ 0

theorem numberOf_concat (low : Bytes) (top : UInt8) :
    numberOf (low ++ [top]) =
      if top &&& 0x80 = 0 then (leValue (low ++ [top]) : ℤ)
      else -leValue (low ++ [top &&& 0x7f]) := by
  rw [numberOf, List.getLast?_concat, List.dropLast_concat]

theorem minimalNumber_nil : MinimalNumber [] := fun _ htop ↦ absurd htop (by simp)

theorem minimalNumber_concat (low : Bytes) (top : UInt8) :
    MinimalNumber (low ++ [top]) ↔
      (top &&& 0x7f = 0 → ∃ second ∈ low.getLast?, second &&& 0x80 ≠ 0) := by
  rw [MinimalNumber, List.getLast?_concat, List.dropLast_concat]
  simp

/-- The sign bit and the seven bits under it. -/
theorem sign_bits (top : UInt8) :
    (top &&& 0x80 = 0 → (top ||| 0x80) &&& 0x80 ≠ 0 ∧ (top ||| 0x80) &&& 0x7f = top ∧
      top &&& 0x7f = top) ∧
    (top &&& 0x80 ≠ 0 → 128 ≤ top.toNat) := by
  have hbits : ∀ bits : BitVec 8,
      (bits &&& 0x80#8 = 0#8 → (bits ||| 0x80#8) &&& 0x80#8 ≠ 0#8 ∧
        (bits ||| 0x80#8) &&& 0x7f#8 = bits ∧ bits &&& 0x7f#8 = bits) ∧
      (bits &&& 0x80#8 ≠ 0#8 → 128 ≤ bits.toNat) := by decide +kernel
  constructor
  · intro hclear
    have htop := (hbits top.toBitVec).1 (congrArg UInt8.toBitVec hclear)
    exact ⟨fun hzero ↦ htop.1 (congrArg UInt8.toBitVec hzero), UInt8.eq_of_toBitVec_eq htop.2.1,
      UInt8.eq_of_toBitVec_eq htop.2.2⟩
  · intro hset
    exact (hbits top.toBitVec).2 fun hzero ↦ hset (UInt8.eq_of_toBitVec_eq hzero)

theorem pow_le_leValue (low : Bytes) {top : UInt8} (htop : top ≠ 0) :
    256 ^ low.length ≤ leValue (low ++ [top]) := by
  have hpos : 0 < top.toNat := Nat.pos_of_ne_zero fun hzero ↦ htop (UInt8.toNat_inj.mp hzero)
  rw [leValue_append]
  exact le_trans (Nat.le_mul_of_pos_right _ hpos) (Nat.le_add_left _ _)

/-- The bytes of the magnitude are at most the absolute value. -/
theorem leValue_le_natAbs (low : Bytes) (top : UInt8) :
    leValue low ≤ (numberOf (low ++ [top])).natAbs ∧
      leValue (low ++ [top &&& 0x7f]) ≤ (numberOf (low ++ [top])).natAbs := by
  rw [numberOf_concat]
  by_cases hclear : top &&& 0x80 = 0
  · rw [if_pos hclear, Int.natAbs_natCast, ((sign_bits top).1 hclear).2.2]
    exact ⟨by rw [leValue_append]; exact Nat.le_add_right _ _, le_refl _⟩
  · rw [if_neg hclear, Int.natAbs_neg, Int.natAbs_natCast]
    exact ⟨by rw [leValue_append]; exact Nat.le_add_right _ _, le_refl _⟩

/-- A minimal number of `width` bytes of magnitude takes one more byte at most. -/
theorem MinimalNumber.length_le {bytes : Bytes} (hminimal : MinimalNumber bytes) {width : ℕ}
    (hnumber : (numberOf bytes).natAbs < 256 ^ width) : bytes.length ≤ width + 1 := by
  have hshorter {low : Bytes} {top : UInt8} (htop : top ≠ 0)
      (hvalue : leValue (low ++ [top]) ≤ (numberOf bytes).natAbs) : low.length < width :=
    (Nat.pow_lt_pow_iff_right (by norm_num)).mp
      (lt_of_le_of_lt (pow_le_leValue low htop) (lt_of_le_of_lt hvalue hnumber))
  rcases List.eq_nil_or_concat bytes with rfl | ⟨low, top, hsplit⟩
  · exact Nat.zero_le _
  · rw [List.concat_eq_append] at hsplit
    subst hsplit
    rw [List.length_append, List.length_singleton]
    by_cases hzero : top &&& 0x7f = 0
    · obtain ⟨second, hsecond, hset⟩ := (minimalNumber_concat low top).mp hminimal hzero
      rcases List.eq_nil_or_concat low with rfl | ⟨lower, last, hlow⟩
      · exact absurd hsecond (by simp)
      · rw [List.concat_eq_append] at hlow
        subst hlow
        rw [List.getLast?_concat] at hsecond
        have hlast : last ≠ 0 := by
          rintro rfl
          exact hset (Option.some.inj hsecond ▸ rfl)
        have hlength := hshorter hlast (leValue_le_natAbs _ top).1
        rw [List.length_append, List.length_singleton]
        omega
    · have hlength := hshorter hzero (leValue_le_natAbs low top).2
      omega

/-! ### The machine -/

/-- A spending transaction, as far as the opcodes of the script ask about it, with the two
primitives that they call. -/
structure Spend where
  lockTime : UInt32
  sequence : UInt32
  sha256 : Bytes → Bytes
  checkSig : Bytes → Bytes → Bool

/-- Lock times below this are block heights, the others are times. -/
def lockTimeThreshold : ℤ := 500000000

/-- Whether two lock times are both heights or both times. -/
def SameKind (a b : ℤ) : Prop := a < lockTimeThreshold ↔ b < lockTimeThreshold

instance (a b : ℤ) : Decidable (SameKind a b) := inferInstanceAs (Decidable (_ ↔ _))

/-- Whether a transaction may not be mined before the lock time. -/
def Spend.Waits (spend : Spend) (number : ℤ) : Prop :=
  SameKind number spend.lockTime.toNat ∧ number ≤ spend.lockTime.toNat ∧
    spend.sequence ≠ 0xffffffff

instance (spend : Spend) (number : ℤ) : Decidable (spend.Waits number) :=
  inferInstanceAs (Decidable (_ ∧ _ ∧ _))

/-- Whether an item of the stack counts as true: some byte is not zero, a sign alone excepted. -/
def castToBool (item : Bytes) : Bool :=
  !(item.all (· == 0)) && !(item.getLast? == some 0x80 && item.dropLast.all (· == 0))

/-- The stack, top first, and whether each enclosing branch executes, innermost first. -/
structure Machine where
  stack : List Bytes
  branches : List Bool

/-- Whether all the enclosing branches execute. -/
def Machine.active (machine : Machine) : Bool := machine.branches.all id

/-- Running one opcode that executes in every enclosing branch. -/
def activeStep (spend : Spend) (opcode : UInt8) (machine : Machine) : Option Machine :=
  match opcode.toNat, machine.stack with
  | 0x63, top :: rest => some ⟨rest, castToBool top :: machine.branches⟩
  | 0x75, _ :: rest => some ⟨rest, machine.branches⟩
  | 0x88, a :: b :: rest => if a = b then some ⟨rest, machine.branches⟩ else none
  | 0xa8, top :: rest => some ⟨spend.sha256 top :: rest, machine.branches⟩
  | 0xac, key :: signature :: rest =>
    some ⟨(if spend.checkSig signature key then [1] else []) :: rest, machine.branches⟩
  | 0xb1, top :: rest =>
    if top.length ≤ 5 ∧ 0 ≤ numberOf top ∧ spend.Waits (numberOf top) then
      some ⟨top :: rest, machine.branches⟩
    else none
  | _, _ => none

section

variable (spend : Spend) (top key signature : Bytes) (rest : List Bytes) (branches : List Bool)

@[simp]
theorem activeStep_drop :
    activeStep spend 0x75 ⟨top :: rest, branches⟩ = some ⟨rest, branches⟩ := rfl

@[simp]
theorem activeStep_equalverify :
    activeStep spend 0x88 ⟨top :: key :: rest, branches⟩ =
      if top = key then some ⟨rest, branches⟩ else none := rfl

@[simp]
theorem activeStep_sha256 :
    activeStep spend 0xa8 ⟨top :: rest, branches⟩ = some ⟨spend.sha256 top :: rest, branches⟩ :=
  rfl

@[simp]
theorem activeStep_checksig :
    activeStep spend 0xac ⟨key :: signature :: rest, branches⟩ =
      some ⟨(if spend.checkSig signature key then [1] else []) :: rest, branches⟩ := rfl

@[simp]
theorem activeStep_checklocktimeverify :
    activeStep spend 0xb1 ⟨top :: rest, branches⟩ =
      if top.length ≤ 5 ∧ 0 ≤ numberOf top ∧ spend.Waits (numberOf top) then
        some ⟨top :: rest, branches⟩
      else none := rfl

end

/-- Running one opcode; `OP_ELSE` and `OP_ENDIF` act in a branch that does not execute, too. -/
def opcodeStep (spend : Spend) (opcode : UInt8) (machine : Machine) : Option Machine :=
  match opcode.toNat, machine.branches with
  | 0x67, branch :: outer => some { machine with branches := (!branch) :: outer }
  | 0x68, _ :: outer => some { machine with branches := outer }
  | 0x67, [] => none
  | 0x68, [] => none
  | 0x63, _ =>
    if machine.active then activeStep spend opcode machine
    else some { machine with branches := false :: machine.branches }
  | _, _ => if machine.active then activeStep spend opcode machine else some machine

/-- Running a script; a byte up to 75 pushes as many bytes as it says. -/
def run (spend : Spend) (script : Bytes) (machine : Machine) : Option Machine :=
  match script with
  | [] => some machine
  | opcode :: rest =>
    if opcode.toNat ≤ 75 then
      if opcode.toNat ≤ rest.length then
        run spend (rest.drop opcode.toNat)
          (if machine.active then { machine with stack := rest.take opcode.toNat :: machine.stack }
            else machine)
      else none
    else (opcodeStep spend opcode machine).bind (run spend rest)
termination_by script.length
decreasing_by all_goals simp; try omega

/-- Whether a witness, top item first, satisfies a script. -/
def unlocks (spend : Spend) (script : Bytes) (witness : List Bytes) : Bool :=
  match run spend script ⟨witness, []⟩ with
  | some ⟨[item], []⟩ => castToBool item
  | _ => false

variable (spend : Spend)

/-- A push puts its bytes on the stack when its branch executes. -/
theorem run_push {data : Bytes} (hlength : data.length ≤ 75) (rest : Bytes) (machine : Machine) :
    run spend ([UInt8.ofNat data.length] ++ data ++ rest) machine =
      run spend rest
        (if machine.active then { machine with stack := data :: machine.stack } else machine) := by
  have hopcode : (UInt8.ofNat data.length).toNat = data.length :=
    UInt8.toNat_ofNat_of_lt' (lt_of_le_of_lt hlength (by decide))
  rw [List.append_assoc, List.singleton_append, run, hopcode, if_pos hlength,
    if_pos (by rw [List.length_append]; exact Nat.le_add_right _ _), List.take_left',
    List.drop_left'] <;> rfl

/-- Any other byte is an opcode. -/
theorem run_opcode {opcode : UInt8} (hopcode : 75 < opcode.toNat) (rest : Bytes)
    (machine : Machine) :
    run spend ([opcode] ++ rest) machine =
      (opcodeStep spend opcode machine).bind (run spend rest) := by
  rw [List.singleton_append, run, if_neg (by omega)]

/-- `OP_IF` opens a branch that the top item selects. -/
theorem run_if {machine : Machine} (hactive : machine.active = true) {top : Bytes}
    {rest : List Bytes} (hstack : machine.stack = top :: rest) (script : Bytes) :
    run spend ([0x63] ++ script) machine =
      run spend script ⟨rest, castToBool top :: machine.branches⟩ := by
  have hstep : opcodeStep spend 0x63 machine =
      some ⟨rest, castToBool top :: machine.branches⟩ := by
    show (if machine.active then activeStep spend 0x63 machine else _) = _
    rw [if_pos hactive, activeStep, hstack]
    rfl
  rw [run_opcode spend (by decide), hstep, Option.bind_some]

/-- `OP_ELSE` turns to the other branch. -/
theorem run_else (stack : List Bytes) (branch : Bool) (outer : List Bool) (script : Bytes) :
    run spend ([0x67] ++ script) ⟨stack, branch :: outer⟩ =
      run spend script ⟨stack, (!branch) :: outer⟩ :=
  run_opcode spend (by decide) script _

/-- `OP_ENDIF` closes the innermost branch. -/
theorem run_endif (stack : List Bytes) (branch : Bool) (outer : List Bool) (script : Bytes) :
    run spend ([0x68] ++ script) ⟨stack, branch :: outer⟩ = run spend script ⟨stack, outer⟩ :=
  run_opcode spend (by decide) script _

/-- An opcode that is none of the three acts when its branch executes, and not otherwise. -/
theorem run_plain {opcode : UInt8} (hopcode : 75 < opcode.toNat)
    (hplain : opcode.toNat ≠ 0x63 ∧ opcode.toNat ≠ 0x67 ∧ opcode.toNat ≠ 0x68)
    (script : Bytes) (machine : Machine) :
    run spend ([opcode] ++ script) machine =
      if machine.active then (activeStep spend opcode machine).bind (run spend script)
      else run spend script machine := by
  have hstep : opcodeStep spend opcode machine =
      if machine.active then activeStep spend opcode machine else some machine := by
    unfold opcodeStep
    split
    · exact absurd ‹_› hplain.2.1
    · exact absurd ‹_› hplain.2.2
    · exact absurd ‹_› hplain.2.1
    · exact absurd ‹_› hplain.2.2
    · exact absurd ‹_› hplain.1
    · rfl
  rw [run_opcode spend hopcode, hstep]
  by_cases hactive : machine.active = true
  · rw [if_pos hactive, if_pos hactive]
  · rw [if_neg hactive, if_neg hactive, Option.bind_some]

end Latebra.Bridge
