import Latebra.Vm.Execution

/-!
# The label assembler

`assemble` turns a list of items into bytecode in two passes: the first adds up the widths of the
items to find the byte offset of each label, the second emits the bytes with the offsets in the
place of the names.

`itemBytes` is what an item should become, the offset of a label being the width of the items before
it (`address`). On a well-labelled program the first pass finds exactly these offsets
(`labelOffsets_eq`) and the second emits the bytes of the items one after the other
(`assemble_eq`). Since the bytes of an item are as many as its width (`length_itemBytes`), the bytes
of each item start at its offset (`drop_code`).
-/

set_option autoImplicit false
set_option relaxedAutoImplicit false

namespace Latebra.Vm

open Foundation

/-- One item of an assembly program. -/
inductive Instr where
  | push (word : UInt64)
  | pushLabel (name : String)
  | label (name : String)
  | pop
  | add
  | sub
  | mul
  | div
  | mod
  | eq
  | lt
  | gt
  | and
  | not
  | jump
  | jumpI
  | dup
  | swap
  | sload
  | sstore
  | caller
  | input
  | stop
  /-- Fail on purpose. -/
  | revert
deriving DecidableEq

inductive AsmError where
  | undefinedLabel (name : String)
  | duplicateLabel (name : String)
deriving DecidableEq

/-- A program under construction. -/
structure Asm where
  items : List Instr
  /-- A vector holds at most `isize::MAX` bytes, and an item takes 24. -/
  fits : 24 * items.length < 2 ^ 63

/-- `asm::push`. -/
def asmPush (word : UInt64) : Bytes := 0x01 :: u64Le word

/-- Byte width that an item occupies. -/
def width : Instr → ℕ
  | .label _ => 0
  | .push _ => 9
  | .pushLabel _ => 9
  | .revert => (asmPush 0).length + (asmPush 0).length + 1
  | _ => 1

/-- The opcode of an item that is neither a push nor a label, `none` where the code panics. -/
def opcode : Instr → Option UInt8
  | .pop => some 0x02
  | .add => some 0x03
  | .sub => some 0x04
  | .mul => some 0x05
  | .div => some 0x06
  | .mod => some 0x07
  | .eq => some 0x08
  | .lt => some 0x09
  | .gt => some 0x0A
  | .and => some 0x0B
  | .not => some 0x0C
  | .jump => some 0x0D
  | .jumpI => some 0x0E
  | .dup => some 0x0F
  | .swap => some 0x10
  | .sload => some 0x11
  | .sstore => some 0x12
  | .caller => some 0x13
  | .input => some 0x14
  | .stop => some 0x00
  | .push _ => none
  | .pushLabel _ => none
  | .label _ => none
  | .revert => none

/-- The first pass: the byte offset of each label. -/
def labelOffsets : List Instr → ℕ → FMap String ℕ → Except AsmError (FMap String ℕ)
  | [], _, offsets => pure offsets
  | .label name :: rest, pc, offsets =>
    if offsets[name]?.isSome then throw (.duplicateLabel name)
    else labelOffsets rest (pc + width (.label name)) (offsets.insert name pc)
  | item :: rest, pc, offsets => labelOffsets rest (pc + width item) offsets

/-- The bytes of one item, `none` where the code panics. -/
def emit (offsets : FMap String ℕ) : Instr → Option (Except AsmError Bytes)
  | .label _ => some (pure [])
  | .push word => some (pure (asmPush word))
  | .pushLabel name =>
    match offsets[name]? with
    | some off => some (pure (asmPush (UInt64.ofNat off)))
    | none => some (throw (.undefinedLabel name))
  -- a division of 1 by 0, which the machine fails on
  | .revert => some (pure (asmPush 1 ++ asmPush 0 ++ [0x06]))
  | other => (opcode other).map fun op ↦ pure [op]

/-- The second pass: the bytes of the items. -/
def emitAll (offsets : FMap String ℕ) : List Instr → Option (Except AsmError Bytes)
  | [] => some (pure [])
  | item :: rest =>
    match emit offsets item with
    | none => none
    | some (.error e) => some (throw e)
    | some (.ok bytes) => (emitAll offsets rest).map fun out ↦ (bytes ++ ·) <$> out

/-- Resolve the labels and emit the bytecode, `none` where the code panics. -/
def Asm.assemble (asm : Asm) : Option (Except AsmError Bytes) :=
  match labelOffsets asm.items 0 ∅ with
  | .error e => some (throw e)
  | .ok offsets => emitAll offsets asm.items

/-! ### Layout -/

/-- The width of the items before one. -/
def offset (items : List Instr) (i : ℕ) : ℕ := ((items.take i).map width).sum

/-- The offset of a label. -/
def address (items : List Instr) (name : String) : ℕ :=
  offset items (items.idxOf (.label name))

/-- The bytes that an item stands for. -/
def itemBytes (items : List Instr) : Instr → Bytes
  | .label _ => []
  | .push word => asmPush word
  | .pushLabel name => asmPush (UInt64.ofNat (address items name))
  | .revert => asmPush 1 ++ asmPush 0 ++ [0x06]
  | other => (opcode other).toList

/-- The name that an item defines. -/
def labelName : Instr → Option String
  | .label name => some name
  | _ => none

/-- A program whose labels are distinct, whose references are defined, and none of whose labels is
followed by labels alone. -/
structure WellLabelled (items : List Instr) : Prop where
  distinct : (items.filterMap labelName).Nodup
  defined : ∀ name, .pushLabel name ∈ items → .label name ∈ items
  followed : ∀ i name, items[i]? = some (.label name) → ∃ item ∈ items.drop (i + 1), 0 < width item

theorem length_asmPush (word : UInt64) : (asmPush word).length = 9 := by simp [asmPush]

theorem width_label (name : String) : width (.label name) = 0 := rfl

theorem width_revert : width .revert = 19 := by
  show (asmPush 0).length + (asmPush 0).length + 1 = 19
  rw [length_asmPush]

/-- An item has as many bytes as its width. -/
theorem length_itemBytes (items : List Instr) (item : Instr) :
    (itemBytes items item).length = width item := by
  cases item with
  | push word => exact length_asmPush word
  | pushLabel name => exact length_asmPush _
  | revert =>
    show (asmPush 1 ++ asmPush 0 ++ [0x06]).length = _
    rw [width_revert, List.length_append, List.length_append, length_asmPush, length_asmPush]
    rfl
  | _ => rfl

theorem width_le (item : Instr) : width item ≤ 19 := by
  cases item with
  | revert => exact width_revert.le
  | _ => exact Nat.le_of_ble_eq_true rfl

theorem sum_width_le (items : List Instr) : (items.map width).sum ≤ 19 * items.length := by
  induction items with
  | nil => exact Nat.le_refl _
  | cons item rest ih =>
    have hitem := width_le item
    rw [List.map_cons, List.sum_cons, List.length_cons]
    omega

theorem offset_le (items : List Instr) (i : ℕ) : offset items i ≤ 19 * items.length := by
  refine (sum_width_le _).trans (Nat.mul_le_mul_left _ ?_)
  exact List.length_take_le' _ _

/-- Every offset of a program fits a machine word. -/
theorem Asm.toNat_offset (asm : Asm) (i : ℕ) :
    (UInt64.ofNat (offset asm.items i)).toNat = offset asm.items i := by
  have hoffset := offset_le asm.items i
  have hfits := asm.fits
  have hlt : offset asm.items i < 2 ^ 64 := by omega
  exact UInt64.toNat_ofNat_of_lt' hlt

theorem offset_succ {items : List Instr} {i : ℕ} {item : Instr} (hitem : items[i]? = some item) :
    offset items (i + 1) = offset items i + width item := by
  rw [offset, offset, List.take_add_one, hitem, Option.toList_some, List.map_append,
    List.sum_append]
  simp

/-- The bytes from an item's offset on are those of the items from it on. -/
theorem drop_code (items : List Instr) (i : ℕ) :
    (items.flatMap (itemBytes items)).drop (offset items i) =
      (items.drop i).flatMap (itemBytes items) := by
  have hlength : ((items.take i).flatMap (itemBytes items)).length = offset items i := by
    rw [List.length_flatMap, offset]
    congr 1
    exact List.map_congr_left fun item _ ↦ length_itemBytes items item
  have hsplit : items.flatMap (itemBytes items) =
      (items.take i).flatMap (itemBytes items) ++ (items.drop i).flatMap (itemBytes items) := by
    rw [← List.flatMap_append, List.take_append_drop]
  rw [hsplit, ← hlength, List.drop_left]

theorem offset_eq_of_le {items : List Instr} {i : ℕ} (hi : items.length ≤ i) :
    offset items i = (items.flatMap (itemBytes items)).length := by
  rw [offset, List.take_of_length_le hi, List.length_flatMap]
  congr 1
  exact List.map_congr_left fun item _ ↦ (length_itemBytes items item).symm

/-- The bytes at an item's offset are its own and those of the items behind it. -/
theorem drop_code_item {items : List Instr} {i : ℕ} {item : Instr} (hitem : items[i]? = some item) :
    (items.flatMap (itemBytes items)).drop (offset items i) =
      itemBytes items item ++ (items.flatMap (itemBytes items)).drop (offset items (i + 1)) := by
  obtain ⟨hlt, rfl⟩ := List.getElem?_eq_some_iff.mp hitem
  rw [drop_code, drop_code, List.drop_eq_getElem_cons hlt, List.flatMap_cons]

theorem WellLabelled.offset_lt {items : List Instr} (hlabelled : WellLabelled items) {i : ℕ}
    {name : String}
    (hlabel : items[i]? = some (.label name)) :
    offset items i < (items.flatMap (itemBytes items)).length := by
  obtain ⟨item, hitem, hwidth⟩ := hlabelled.followed i name hlabel
  by_contra hle
  have hnone : (items.flatMap (itemBytes items)).drop (offset items i) = [] :=
    List.drop_eq_nil_of_le (not_lt.mp hle)
  rw [drop_code_item hlabel, drop_code, List.append_eq_nil_iff, List.flatMap_eq_nil_iff] at hnone
  have hlength := length_itemBytes items item
  rw [hnone.2 item hitem, List.length_nil] at hlength
  omega

theorem getElem?_idxOf {items : List Instr} {item : Instr} (hmem : item ∈ items) :
    items[items.idxOf item]? = some item := by
  have hlt := List.idxOf_lt_length_iff.mpr hmem
  rw [List.getElem?_eq_getElem hlt, List.getElem_idxOf hlt]

/-! ### The two passes -/

theorem address_cons_label (name : String) (rest : List Instr) :
    address (.label name :: rest) name = 0 := by
  rw [address, List.idxOf_cons_self]
  rfl

/-- An item in front moves the labels behind it. -/
theorem address_cons {item : Instr} {name : String} (hother : item ≠ .label name)
    (rest : List Instr) : address (item :: rest) name = width item + address rest name := by
  rw [address, List.idxOf_cons_ne _ hother, offset, List.take_succ_cons, List.map_cons,
    List.sum_cons, address, offset]

theorem labelName_eq_some {item : Instr} {name : String} :
    labelName item = some name ↔ item = .label name := by
  cases item <;> simp [labelName]

theorem mem_labels {items : List Instr} {name : String} :
    name ∈ items.filterMap labelName ↔ .label name ∈ items := by
  simp [List.mem_filterMap, labelName_eq_some]

theorem idxOf_label {items : List Instr} (hdistinct : (items.filterMap labelName).Nodup) {j : ℕ}
    {name : String} (hlabel : items[j]? = some (.label name)) :
    items.idxOf (.label name) = j := by
  induction items generalizing j with
  | nil => exact absurd hlabel (by simp)
  | cons item rest ih =>
    cases j with
    | zero =>
      obtain rfl : item = .label name := by simpa using hlabel
      exact List.idxOf_cons_self
    | succ j =>
      have hrest : rest[j]? = some (.label name) := by simpa using hlabel
      have hother : item ≠ .label name := by
        rintro rfl
        rw [List.filterMap_cons_some (labelName_eq_some.mpr rfl), List.nodup_cons,
          mem_labels] at hdistinct
        exact hdistinct.1 (List.mem_of_getElem? hrest)
      have hbehind : (rest.filterMap labelName).Nodup :=
        hdistinct.sublist (List.Sublist.filterMap _ (List.sublist_cons_self _ _))
      rw [List.idxOf_cons_ne _ hother, ih hbehind hrest]

theorem labelOffsets_cons {item : Instr} (hitem : labelName item = none) (rest : List Instr)
    (pc : ℕ) (offsets : FMap String ℕ) :
    labelOffsets (item :: rest) pc offsets = labelOffsets rest (pc + width item) offsets := by
  cases item with
  | label name => exact absurd hitem (by simp [labelName])
  | _ => rfl

/-- The first pass finds the offset of every label, when no label is defined twice. -/
theorem labelOffsets_eq {items : List Instr} {pc : ℕ} {offsets : FMap String ℕ}
    (hdistinct : (items.filterMap labelName).Nodup)
    (hfresh : ∀ name, .label name ∈ items → offsets[name]? = none) :
    ∃ found, labelOffsets items pc offsets = .ok found ∧
      ∀ name, found[name]? =
        if .label name ∈ items then some (pc + address items name) else offsets[name]? := by
  induction items generalizing pc offsets with
  | nil => exact ⟨offsets, rfl, fun name ↦ by simp⟩
  | cons item rest ih =>
    cases hitem : labelName item with
    | none =>
      have hother (name : String) : item ≠ .label name := by
        rintro rfl
        exact absurd hitem (by simp [labelName])
      rw [List.filterMap_cons_none hitem] at hdistinct
      have hrest (name : String) (hname : .label name ∈ rest) : offsets[name]? = none :=
        hfresh name (List.mem_cons_of_mem _ hname)
      obtain ⟨found, hfound, hlookup⟩ := @ih (pc + width item) offsets hdistinct hrest
      refine ⟨found, (labelOffsets_cons hitem rest pc offsets).trans hfound, fun name ↦ ?_⟩
      rw [hlookup, address_cons (hother name), Nat.add_assoc]
      simp only [List.mem_cons, (hother name).symm, false_or]
    | some name =>
      obtain rfl := labelName_eq_some.mp hitem
      rw [List.filterMap_cons_some hitem, List.nodup_cons, mem_labels] at hdistinct
      have hrest (other : String) (hname : .label other ∈ rest) :
          (offsets.insert name pc)[other]? = none := by
        have hne : other ≠ name := by
          rintro rfl
          exact hdistinct.1 hname
        rw [FMap.lookup_insert, if_neg hne]
        exact hfresh other (List.mem_cons_of_mem _ hname)
      obtain ⟨found, hfound, hlookup⟩ := @ih pc (offsets.insert name pc) hdistinct.2 hrest
      have hnew : offsets[name]? = none := hfresh name List.mem_cons_self
      refine ⟨found, ?_, fun other ↦ ?_⟩
      · rw [labelOffsets, hnew, width_label, Nat.add_zero]
        exact hfound
      · rw [hlookup]
        by_cases hsame : other = name
        · subst hsame
          rw [if_neg hdistinct.1, if_pos List.mem_cons_self, address_cons_label,
            FMap.lookup_insert_self, Nat.add_zero]
        · have hother : Instr.label name ≠ .label other := fun h ↦ hsame (Instr.label.inj h).symm
          rw [address_cons hother, FMap.lookup_insert, if_neg hsame, width_label, Nat.zero_add]
          simp only [List.mem_cons, hother.symm, false_or]

theorem emit_pushLabel {offsets : FMap String ℕ} {name : String} {off : ℕ}
    (hknown : offsets[name]? = some off) :
    emit offsets (.pushLabel name) = some (.ok (asmPush (UInt64.ofNat off))) := by
  show (match offsets[name]? with
    | some off => some (pure (asmPush (UInt64.ofNat off)))
    | none => some (throw (AsmError.undefinedLabel name))) = _
  simp only [hknown, pure_eq_ok]

theorem emit_eq {items : List Instr} {offsets : FMap String ℕ} {item : Instr}
    (hknown : ∀ name, item = .pushLabel name → offsets[name]? = some (address items name)) :
    emit offsets item = some (.ok (itemBytes items item)) := by
  cases item with
  | pushLabel name => exact emit_pushLabel (hknown name rfl)
  | _ => exact congrArg some (pure_eq_ok _)

/-- The second pass emits the bytes of the items, when it knows the labels they refer to. -/
theorem emitAll_eq {items : List Instr} {offsets : FMap String ℕ} {rest : List Instr}
    (hknown : ∀ name, .pushLabel name ∈ rest → offsets[name]? = some (address items name)) :
    emitAll offsets rest = some (.ok (rest.flatMap (itemBytes items))) := by
  induction rest with
  | nil => exact congrArg some (pure_eq_ok _)
  | cons item rest ih =>
    have hitem : emit offsets item = some (.ok (itemBytes items item)) := by
      apply emit_eq
      rintro name rfl
      exact hknown name List.mem_cons_self
    have hrest := ih fun name hname ↦ hknown name (List.mem_cons_of_mem _ hname)
    rw [emitAll, hitem, List.flatMap_cons]
    simp only [hrest, Option.map_some, Option.some.injEq]
    rw [map_eq_ok]
    exact ⟨_, rfl, rfl⟩

/-- A well-labelled program is assembled to the bytes of its items. -/
theorem assemble_eq {asm : Asm} (hlabelled : WellLabelled asm.items) :
    asm.assemble = some (.ok (asm.items.flatMap (itemBytes asm.items))) := by
  have hempty (name : String) (_ : .label name ∈ asm.items) : (∅ : FMap String ℕ)[name]? = none :=
    FMap.lookup_empty _
  obtain ⟨found, hfound, hlookup⟩ := @labelOffsets_eq _ 0 ∅ hlabelled.distinct hempty
  rw [Asm.assemble, hfound]
  apply emitAll_eq
  intro name hname
  rw [hlookup, if_pos (hlabelled.defined name hname), Nat.zero_add]

end Latebra.Vm
