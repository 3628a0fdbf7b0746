import Mathlib

/-!
# Byte strings, fixed-width numbers and bounds-checked readers

Byte strings are lists of bytes. `leBytes` and `beBytes` write a natural number in a fixed number
of bytes, lowest or highest byte first; `leValue` and `beValue` read such a string back
(`leValue_leBytes`, `beValue_beBytes`), and a string of the right width is the encoding of its
value (`leBytes_leValue`, `beBytes_beValue`), so both directions are injective.

A `Reader` consumes a prefix of its input and fails on input that is too short. `Reads reader value
bytes` says that the reader takes exactly `bytes` off the front of any input and returns `value`;
the rules `Reads.bind`, `Reads.pure` and `Reads.many` build the round trip of a record from those
of its fields. `complete` runs a reader that has to use up its whole input. The lemmas `…_eq_some`
are the converse: they write what a reader accepts as an equation of its input, so that a record
has no second encoding.
-/

set_option autoImplicit false
set_option relaxedAutoImplicit false

namespace Latebra.Foundation

/-- A byte string. -/
abbrev Bytes := List UInt8

/-- A 32-byte string as one word: ids, keys and hashes. -/
abbrev Bytes32 := BitVec 256

instance : LawfulBEq Bytes32 := inferInstance

instance : Std.TransOrd Bytes32 := inferInstance

/-- A 64-byte string as one word: signatures and encoded ciphertexts. -/
abbrev Bytes64 := BitVec 512

/-! ### Numbers of a fixed width -/

/-- The `width` lowest bytes of a number, lowest first. -/
def leBytes : ℕ → ℕ → Bytes
  | 0, _ => []
  | width + 1, n => UInt8.ofNat (n % 256) :: leBytes width (n / 256)

/-- Only the number modulo the width is written. -/
theorem leBytes_mod (width n : ℕ) : leBytes width (n % 256 ^ width) = leBytes width n := by
  induction width generalizing n with
  | zero => rfl
  | succ width ih =>
    rw [leBytes, leBytes, pow_succ', Nat.mod_mul_right_mod, Nat.mod_mul_right_div_self, ih]

/-- The number that a byte string encodes, lowest byte first. -/
def leValue : Bytes → ℕ
  | [] => 0
  | byte :: rest => byte.toNat + 256 * leValue rest

/-- The `width` lowest bytes of a number, highest first. -/
def beBytes (width n : ℕ) : Bytes := (leBytes width n).reverse

/-- The number that a byte string encodes, highest byte first. -/
def beValue (bytes : Bytes) : ℕ := leValue bytes.reverse

@[simp]
theorem length_leBytes (width n : ℕ) : (leBytes width n).length = width := by
  induction width generalizing n with
  | zero => rfl
  | succ width ih => simp [leBytes, ih]

@[simp]
theorem length_beBytes (width n : ℕ) : (beBytes width n).length = width := by
  simp [beBytes]

theorem leValue_leBytes {width n : ℕ} (hn : n < 256 ^ width) : leValue (leBytes width n) = n := by
  induction width generalizing n with
  | zero =>
    rw [pow_zero] at hn
    simp only [leBytes, leValue]
    omega
  | succ width ih =>
    have hquotient : n / 256 < 256 ^ width := by
      rw [Nat.div_lt_iff_lt_mul (by norm_num)]
      rwa [pow_succ] at hn
    have hbyte : (UInt8.ofNat (n % 256)).toNat = n % 256 :=
      UInt8.toNat_ofNat_of_lt' (Nat.mod_lt _ (by norm_num))
    simp only [leBytes, leValue, ih hquotient, hbyte]
    omega

theorem leValue_lt (bytes : Bytes) : leValue bytes < 256 ^ bytes.length := by
  induction bytes with
  | nil => simp [leValue]
  | cons byte rest ih =>
    have hbyte : byte.toNat < 256 := byte.toNat_lt
    simp only [leValue, List.length_cons, pow_succ]
    omega

theorem leBytes_leValue (bytes : Bytes) : leBytes bytes.length (leValue bytes) = bytes := by
  induction bytes with
  | nil => rfl
  | cons byte rest ih =>
    have hbyte : byte.toNat < 256 := byte.toNat_lt
    have hlow : (byte.toNat + 256 * leValue rest) % 256 = byte.toNat := by omega
    have hhigh : (byte.toNat + 256 * leValue rest) / 256 = leValue rest := by omega
    simp only [List.length_cons, leValue, leBytes, hlow, hhigh, ih, UInt8.ofNat_toNat]

theorem beValue_beBytes {width n : ℕ} (hn : n < 256 ^ width) : beValue (beBytes width n) = n := by
  rw [beValue, beBytes, List.reverse_reverse, leValue_leBytes hn]

theorem beValue_lt (bytes : Bytes) : beValue bytes < 256 ^ bytes.length := by
  simpa [beValue] using leValue_lt bytes.reverse

theorem beBytes_beValue (bytes : Bytes) : beBytes bytes.length (beValue bytes) = bytes := by
  have hround := leBytes_leValue bytes.reverse
  rw [List.length_reverse] at hround
  rw [beBytes, beValue, hround, List.reverse_reverse]

/-! ### Words of the machine -/

/-- A word of `width` bytes is below `256 ^ width`. -/
theorem toNat_lt_pow {width : ℕ} (word : BitVec (8 * width)) : word.toNat < 256 ^ width := by
  have hlt := word.isLt
  rwa [pow_mul] at hlt

/-- The word that a byte string of its width encodes has the value of the string. -/
theorem toNat_ofNat_beValue {width : ℕ} {bytes : Bytes} (hlength : bytes.length = width) :
    (BitVec.ofNat (8 * width) (beValue bytes)).toNat = beValue bytes := by
  have hlt := beValue_lt bytes
  rw [hlength] at hlt
  rw [BitVec.toNat_ofNat, pow_mul]
  exact Nat.mod_eq_of_lt hlt

/-- Four little-endian bytes. -/
def u32Le (word : UInt32) : Bytes := leBytes 4 word.toNat

/-- Four big-endian bytes. -/
def u32Be (word : UInt32) : Bytes := beBytes 4 word.toNat

/-- Eight little-endian bytes. -/
def u64Le (word : UInt64) : Bytes := leBytes 8 word.toNat

/-- The 32 bytes of an id, key or hash. -/
def bytesOf32 (word : Bytes32) : Bytes := beBytes 32 word.toNat

/-- The 64 bytes of a signature or encoded ciphertext. -/
def bytesOf64 (word : Bytes64) : Bytes := beBytes 64 word.toNat

/-- The bytes of an ASCII text. -/
def ascii (text : String) : Bytes := text.toList.map fun letter ↦ UInt8.ofNat letter.toNat

/-- Read a string of exactly four bytes as a little-endian word. -/
def u32OfLe (bytes : Bytes) : Option UInt32 :=
  if bytes.length = 4 then some (UInt32.ofNat (leValue bytes)) else none

/-- Read a string of exactly four bytes as a big-endian word. -/
def u32OfBe (bytes : Bytes) : Option UInt32 :=
  if bytes.length = 4 then some (UInt32.ofNat (beValue bytes)) else none

/-- Read a string of exactly eight bytes as a little-endian word. -/
def u64OfLe (bytes : Bytes) : Option UInt64 :=
  if bytes.length = 8 then some (UInt64.ofNat (leValue bytes)) else none

/-- Read a string of exactly 32 bytes as an id, key or hash. -/
def bytes32Of (bytes : Bytes) : Option Bytes32 :=
  if bytes.length = 32 then some (BitVec.ofNat 256 (beValue bytes)) else none

/-- Read a string of exactly 64 bytes as a signature or encoded ciphertext. -/
def bytes64Of (bytes : Bytes) : Option Bytes64 :=
  if bytes.length = 64 then some (BitVec.ofNat 512 (beValue bytes)) else none

@[simp] theorem length_u32Le (word : UInt32) : (u32Le word).length = 4 := length_leBytes _ _

@[simp] theorem length_u32Be (word : UInt32) : (u32Be word).length = 4 := length_beBytes _ _

@[simp] theorem length_u64Le (word : UInt64) : (u64Le word).length = 8 := length_leBytes _ _

@[simp] theorem length_bytesOf32 (word : Bytes32) : (bytesOf32 word).length = 32 :=
  length_beBytes _ _

@[simp] theorem length_bytesOf64 (word : Bytes64) : (bytesOf64 word).length = 64 :=
  length_beBytes _ _

@[simp]
theorem u32OfLe_u32Le (word : UInt32) : u32OfLe (u32Le word) = some word := by
  have hvalue : leValue (u32Le word) = word.toNat := leValue_leBytes (by simpa using word.toNat_lt)
  simp [u32OfLe, hvalue]

@[simp]
theorem u32OfBe_u32Be (word : UInt32) : u32OfBe (u32Be word) = some word := by
  have hvalue : beValue (u32Be word) = word.toNat := beValue_beBytes (by simpa using word.toNat_lt)
  simp [u32OfBe, hvalue]

@[simp]
theorem u64OfLe_u64Le (word : UInt64) : u64OfLe (u64Le word) = some word := by
  have hvalue : leValue (u64Le word) = word.toNat := leValue_leBytes (by simpa using word.toNat_lt)
  simp [u64OfLe, hvalue]

@[simp]
theorem bytes32Of_bytesOf32 (word : Bytes32) : bytes32Of (bytesOf32 word) = some word := by
  have hvalue : beValue (bytesOf32 word) = word.toNat :=
    beValue_beBytes (@toNat_lt_pow 32 word)
  simp [bytes32Of, hvalue]

@[simp]
theorem bytes64Of_bytesOf64 (word : Bytes64) : bytes64Of (bytesOf64 word) = some word := by
  have hvalue : beValue (bytesOf64 word) = word.toNat :=
    beValue_beBytes (@toNat_lt_pow 64 word)
  simp [bytes64Of, hvalue]

/-- The only string that reads as a big-endian word is its encoding. -/
theorem eq_u32Be_of_u32OfBe {bytes : Bytes} {word : UInt32} (hread : u32OfBe bytes = some word) :
    bytes = u32Be word := by
  unfold u32OfBe at hread
  split at hread
  case isFalse => exact nomatch hread
  case isTrue hlength =>
    have hbound : beValue bytes < 2 ^ 32 := by
      have hlt := beValue_lt bytes
      rw [hlength] at hlt
      omega
    obtain rfl := Option.some.inj hread
    have hround := beBytes_beValue bytes
    rw [hlength] at hround
    rw [u32Be, UInt32.toNat_ofNat_of_lt' hbound, hround]

/-- The only string that reads as an id is the id itself. -/
theorem eq_bytesOf32_of_bytes32Of {bytes : Bytes} {word : Bytes32}
    (hread : bytes32Of bytes = some word) : bytes = bytesOf32 word := by
  unfold bytes32Of at hread
  split at hread
  case isFalse => exact nomatch hread
  case isTrue hlength =>
    have hbound : beValue bytes < 2 ^ 256 := by
      have hlt := beValue_lt bytes
      rw [hlength] at hlt
      omega
    obtain rfl := Option.some.inj hread
    have hround := beBytes_beValue bytes
    rw [hlength] at hround
    rw [bytesOf32, BitVec.toNat_ofNat, Nat.mod_eq_of_lt hbound, hround]

theorem u32OfLe_eq_some {bytes : Bytes} {word : UInt32} :
    u32OfLe bytes = some word ↔ bytes = u32Le word := by
  constructor
  · intro hread
    obtain ⟨hlength, heq⟩ := Option.ite_none_right_eq_some.mp hread
    obtain rfl := Option.some.inj heq
    have hbound : leValue bytes < 2 ^ 32 := by
      have hlt := leValue_lt bytes
      rw [hlength] at hlt
      omega
    have hround := leBytes_leValue bytes
    rw [hlength] at hround
    rw [u32Le, UInt32.toNat_ofNat_of_lt' hbound, hround]
  · rintro rfl
    exact u32OfLe_u32Le word

theorem u64OfLe_eq_some {bytes : Bytes} {word : UInt64} :
    u64OfLe bytes = some word ↔ bytes = u64Le word := by
  constructor
  · intro hread
    obtain ⟨hlength, heq⟩ := Option.ite_none_right_eq_some.mp hread
    obtain rfl := Option.some.inj heq
    have hbound : leValue bytes < 2 ^ 64 := by
      have hlt := leValue_lt bytes
      rw [hlength] at hlt
      omega
    have hround := leBytes_leValue bytes
    rw [hlength] at hround
    rw [u64Le, UInt64.toNat_ofNat_of_lt' hbound, hround]
  · rintro rfl
    exact u64OfLe_u64Le word

theorem bytes32Of_eq_some {bytes : Bytes} {word : Bytes32} :
    bytes32Of bytes = some word ↔ bytes = bytesOf32 word := by
  constructor
  · exact eq_bytesOf32_of_bytes32Of
  · rintro rfl
    exact bytes32Of_bytesOf32 word

theorem bytes64Of_eq_some {bytes : Bytes} {word : Bytes64} :
    bytes64Of bytes = some word ↔ bytes = bytesOf64 word := by
  constructor
  · intro hread
    obtain ⟨hlength, heq⟩ := Option.ite_none_right_eq_some.mp hread
    obtain rfl := Option.some.inj heq
    rw [bytesOf64, @toNat_ofNat_beValue 64 bytes hlength, ← hlength, beBytes_beValue]
  · rintro rfl
    exact bytes64Of_bytesOf64 word

theorem bytesOf32_injective : Function.Injective bytesOf32 := by
  intro first second heq
  have hread := bytes32Of_bytesOf32 first
  rw [heq, bytes32Of_bytesOf32] at hread
  exact (Option.some.inj hread).symm

theorem u32Be_injective : Function.Injective u32Be := by
  intro first second heq
  have hread := u32OfBe_u32Be first
  rw [heq, u32OfBe_u32Be] at hread
  exact (Option.some.inj hread).symm

theorem u32Le_injective : Function.Injective u32Le := by
  intro first second heq
  have hread := u32OfLe_u32Le first
  rw [heq, u32OfLe_u32Le] at hread
  exact (Option.some.inj hread).symm

/-! ### Readers -/

/-- A bounds-checked cursor: it consumes a prefix of the input or fails. -/
abbrev Reader := StateT Bytes Option

namespace Reader

variable {α β : Type}

/-- Fail. -/
def failure : Reader α := fun _ ↦ none

/-- The next `n` bytes. -/
def take (n : ℕ) : Reader Bytes := fun input ↦
  if n ≤ input.length then some (input.take n, input.drop n) else none

/-- A value that a string may or may not denote. -/
def ofOption (value : Option α) : Reader α := fun input ↦ value.map fun a ↦ (a, input)

/-- The next byte. -/
def u8 : Reader UInt8 := do
  let bytes ← take 1
  ofOption bytes.head?

/-- The next little-endian 32-bit word. -/
def u32 : Reader UInt32 := do
  let bytes ← take 4
  ofOption (u32OfLe bytes)

/-- The next little-endian 64-bit word. -/
def u64 : Reader UInt64 := do
  let bytes ← take 8
  ofOption (u64OfLe bytes)

/-- The next 32 bytes. -/
def arr32 : Reader Bytes32 := do
  let bytes ← take 32
  ofOption (bytes32Of bytes)

/-- The next 64 bytes. -/
def arr64 : Reader Bytes64 := do
  let bytes ← take 64
  ofOption (bytes64Of bytes)

/-- Run one reader `n` times. -/
def many (n : ℕ) (reader : Reader α) : Reader (List α) :=
  match n with
  | 0 => pure []
  | n + 1 => do
    let first ← reader
    let rest ← many n reader
    return first :: rest

/-- Run a reader that has to use up its whole input. -/
def complete (reader : Reader α) (input : Bytes) : Option α :=
  match reader input with
  | some (value, []) => some value
  | _ => none

/-- The reader takes exactly `bytes` off the front of any input and returns `value`. -/
def Reads (reader : Reader α) (value : α) (bytes : Bytes) : Prop :=
  ∀ rest, reader (bytes ++ rest) = some (value, rest)

theorem complete_of_reads {reader : Reader α} {value : α} {bytes : Bytes}
    (hreads : Reads reader value bytes) : complete reader bytes = some value := by
  have hwhole := hreads []
  rw [List.append_nil] at hwhole
  rw [complete, hwhole]

/-- A reader hands on to the next one what stands behind the bytes it takes. -/
theorem Reads.bind_apply {reader : Reader α} {value : α} {bytes : Bytes}
    (hreads : Reads reader value bytes) (next : α → Reader β) (rest : Bytes) :
    (reader >>= next) (bytes ++ rest) = next value rest := by
  change (reader (bytes ++ rest)).bind _ = _
  rw [hreads rest]
  rfl

theorem Reads.bind {reader : Reader α} {next : α → Reader β} {value : α} {result : β}
    {bytes bytes' : Bytes} (hfirst : Reads reader value bytes)
    (hnext : Reads (next value) result bytes') : Reads (reader >>= next) result (bytes ++ bytes') := by
  intro rest
  rw [List.append_assoc, hfirst.bind_apply next]
  exact hnext rest

theorem Reads.pure (value : α) : Reads (pure value) value [] := fun _ ↦ rfl

theorem Reads.take (bytes : Bytes) : Reads (take bytes.length) bytes bytes := by
  intro rest
  simp [Reader.take]

theorem Reads.ofOption {value : Option α} {a : α} (hvalue : value = some a) :
    Reads (ofOption value) a [] := by
  intro rest
  simp [Reader.ofOption, hvalue]

/-- A field of fixed width: take its bytes, then read the word they denote. -/
theorem Reads.field {width : ℕ} {read : Bytes → Option α} {value : α} {bytes : Bytes}
    (hlength : bytes.length = width) (hread : read bytes = some value) :
    Reads (Reader.take width >>= fun taken ↦ Reader.ofOption (read taken)) value bytes := by
  have hbind : Reads (Reader.take bytes.length >>= fun taken ↦ Reader.ofOption (read taken)) value
      (bytes ++ []) := (Reads.take bytes).bind (Reads.ofOption hread)
  rwa [List.append_nil, hlength] at hbind

theorem Reads.u8 (byte : UInt8) : Reads u8 byte [byte] := Reads.field rfl rfl

theorem Reads.u32 (word : UInt32) : Reads u32 word (u32Le word) :=
  Reads.field (length_u32Le word) (u32OfLe_u32Le word)

theorem Reads.u64 (word : UInt64) : Reads u64 word (u64Le word) :=
  Reads.field (length_u64Le word) (u64OfLe_u64Le word)

theorem Reads.arr32 (word : Bytes32) : Reads arr32 word (bytesOf32 word) :=
  Reads.field (length_bytesOf32 word) (bytes32Of_bytesOf32 word)

theorem Reads.arr64 (word : Bytes64) : Reads arr64 word (bytesOf64 word) :=
  Reads.field (length_bytesOf64 word) (bytes64Of_bytesOf64 word)

/-- A counted list reads back entry by entry. -/
theorem Reads.many {reader : Reader α} {encode : α → Bytes} {values : List α}
    (hreads : ∀ value ∈ values, Reads reader value (encode value)) :
    Reads (many values.length reader) values (values.flatMap encode) := by
  induction values with
  | nil => exact Reads.pure []
  | cons value rest ih =>
    have htail : Reads (Reader.many rest.length reader >>= fun others ↦ Pure.pure (value :: others))
        (value :: rest) (rest.flatMap encode ++ []) :=
      (ih fun later hlater ↦ hreads later (List.mem_cons_of_mem _ hlater)).bind (Reads.pure _)
    rw [List.append_nil] at htail
    exact (hreads value List.mem_cons_self).bind htail

/-! ### What a reader accepts -/

variable {input rest : Bytes}

/-- A reader that accepts exactly the encodings of the valid values, and returns the value. -/
def Exact (reader : Reader α) (valid : α → Prop) (encode : α → Bytes) : Prop :=
  ∀ input value rest, reader input = some (value, rest) ↔
    valid value ∧ input = encode value ++ rest

theorem bind_eq_some {reader : Reader α} {next : α → Reader β} {result : β} :
    (reader >>= next) input = some (result, rest) ↔
      ∃ value mid, reader input = some (value, mid) ∧ next value mid = some (result, rest) := by
  have hbind : (reader >>= next) input = (reader input).bind fun read ↦ next read.1 read.2 := rfl
  rw [hbind, Option.bind_eq_some_iff, Prod.exists]

theorem pure_eq_some {value result : α} :
    (Pure.pure value : Reader α) input = some (result, rest) ↔ value = result ∧ input = rest := by
  have hpure : (Pure.pure value : Reader α) input = some (value, input) := rfl
  rw [hpure, Option.some_inj, Prod.mk.injEq]

theorem take_eq_some {n : ℕ} {bytes : Bytes} :
    take n input = some (bytes, rest) ↔ bytes.length = n ∧ input = bytes ++ rest := by
  unfold take
  constructor
  · intro hread
    obtain ⟨hlength, heq⟩ := Option.ite_none_right_eq_some.mp hread
    obtain ⟨rfl, rfl⟩ := Prod.mk.inj (Option.some.inj heq)
    exact ⟨List.length_take_of_le hlength, (List.take_append_drop n input).symm⟩
  · rintro ⟨rfl, rfl⟩
    simp

theorem ofOption_eq_some {read : Option α} {value : α} :
    ofOption read input = some (value, rest) ↔ read = some value ∧ input = rest := by
  cases read <;> simp [ofOption]

/-- A field of fixed width accepts exactly the encodings of its words. -/
theorem field_eq_some {width : ℕ} {read : Bytes → Option α} {encode : α → Bytes} {value : α}
    (hread : ∀ {bytes value}, read bytes = some value ↔ bytes = encode value)
    (hwidth : ∀ value, (encode value).length = width) :
    (Reader.take width >>= fun bytes ↦ Reader.ofOption (read bytes)) input = some (value, rest) ↔
      input = encode value ++ rest := by
  simp only [bind_eq_some, take_eq_some, ofOption_eq_some, hread]
  constructor
  · rintro ⟨bytes, mid, ⟨-, rfl⟩, rfl, rfl⟩
    rfl
  · rintro rfl
    exact ⟨_, _, ⟨hwidth value, rfl⟩, rfl, rfl⟩

theorem u8_eq_some {byte : UInt8} : u8 input = some (byte, rest) ↔ input = byte :: rest := by
  unfold u8
  simp only [bind_eq_some, take_eq_some, ofOption_eq_some]
  constructor
  · rintro ⟨bytes, mid, ⟨hlength, rfl⟩, hbyte, rfl⟩
    obtain ⟨only, rfl⟩ := List.length_eq_one_iff.mp hlength
    rw [Option.some.inj hbyte]
    rfl
  · rintro rfl
    exact ⟨[byte], rest, ⟨rfl, rfl⟩, rfl, rfl⟩

theorem u32_eq_some {word : UInt32} :
    u32 input = some (word, rest) ↔ input = u32Le word ++ rest :=
  field_eq_some u32OfLe_eq_some length_u32Le

theorem u64_eq_some {word : UInt64} :
    u64 input = some (word, rest) ↔ input = u64Le word ++ rest :=
  field_eq_some u64OfLe_eq_some length_u64Le

theorem arr32_eq_some {word : Bytes32} :
    arr32 input = some (word, rest) ↔ input = bytesOf32 word ++ rest :=
  field_eq_some bytes32Of_eq_some length_bytesOf32

theorem arr64_eq_some {word : Bytes64} :
    arr64 input = some (word, rest) ↔ input = bytesOf64 word ++ rest :=
  field_eq_some bytes64Of_eq_some length_bytesOf64

/-- A counted list is accepted entry by entry. -/
theorem Exact.many {reader : Reader α} {valid : α → Prop} {encode : α → Bytes}
    (hreader : Exact reader valid encode) (n : ℕ) :
    Exact (many n reader) (fun values ↦ values.length = n ∧ ∀ value ∈ values, valid value)
      fun values ↦ values.flatMap encode := by
  induction n with
  | zero =>
    intro input values rest
    have hnone : Reader.many 0 reader input = some (values, rest) ↔ [] = values ∧ input = rest :=
      pure_eq_some
    rw [hnone]
    constructor
    · rintro ⟨rfl, rfl⟩
      exact ⟨⟨rfl, fun _ hmem ↦ absurd hmem List.not_mem_nil⟩, rfl⟩
    · rintro ⟨⟨hlength, -⟩, rfl⟩
      obtain rfl := List.length_eq_zero_iff.mp hlength
      exact ⟨rfl, rfl⟩
  | succ n ih =>
    intro input values rest
    unfold Reader.many
    simp only [bind_eq_some, pure_eq_some]
    constructor
    · rintro ⟨first, mid, hfirst, others, mid', hothers, rfl, rfl⟩
      obtain ⟨hvalid, rfl⟩ := (hreader _ _ _).mp hfirst
      obtain ⟨⟨rfl, hrest⟩, rfl⟩ := (ih _ _ _).mp hothers
      refine ⟨⟨rfl, List.forall_mem_cons.mpr ⟨hvalid, hrest⟩⟩, ?_⟩
      rw [List.flatMap_cons, List.append_assoc]
    · rintro ⟨⟨hlength, hvalid⟩, rfl⟩
      obtain ⟨first, others, rfl⟩ := List.exists_cons_of_length_eq_add_one hlength
      obtain ⟨hfirst, hothers⟩ := List.forall_mem_cons.mp hvalid
      refine ⟨first, _, (hreader _ _ _).mpr ⟨hfirst, ?_⟩, others, _,
        (ih _ _ _).mpr ⟨⟨Nat.succ.inj hlength, hothers⟩, rfl⟩, rfl, rfl⟩
      rw [List.flatMap_cons, List.append_assoc]

/-- Whatever the reader returns is valid, and is encoded by `done` with the bytes that it takes. -/
def Canonical (reader : Reader α) (done : Bytes) (valid : α → Prop) (encode : α → Bytes) : Prop :=
  ∀ input value rest, reader input = some (value, rest) →
    valid value ∧ done ++ input = encode value ++ rest

theorem Canonical.pure {value : α} {done : Bytes} {valid : α → Prop} {encode : α → Bytes}
    (hvalid : valid value) (hdone : done = encode value) :
    Canonical (Pure.pure value) done valid encode := by
  intro input result rest hread
  obtain ⟨rfl, rfl⟩ := pure_eq_some.mp hread
  exact ⟨hvalid, by rw [hdone]⟩

/-- A field that has one form stands behind what is already read. -/
theorem Canonical.field {reader : Reader α} {part : α → Bytes} {next : α → Reader β} {done : Bytes}
    {valid : β → Prop} {encode : β → Bytes}
    (hreader : ∀ {input value rest}, reader input = some (value, rest) ↔
      input = part value ++ rest)
    (hnext : ∀ value, Canonical (next value) (done ++ part value) valid encode) :
    Canonical (reader >>= next) done valid encode := by
  intro input result rest hread
  obtain ⟨value, mid, hfirst, hlast⟩ := bind_eq_some.mp hread
  rw [hreader.mp hfirst, ← List.append_assoc]
  exact hnext value _ _ _ hlast

/-- Everything that a reader returns satisfies a condition. -/
def Yields (reader : Reader α) (good : α → Prop) : Prop :=
  ∀ input value rest, reader input = some (value, rest) → good value

theorem Yields.pure {good : α → Prop} {value : α} (hvalue : good value) :
    Yields (Pure.pure value) good := by
  intro input result rest hread
  obtain ⟨rfl, -⟩ := pure_eq_some.mp hread
  exact hvalue

theorem Yields.failure {good : α → Prop} : Yields failure good := by
  intro input result rest hread
  exact absurd hread (by simp [Reader.failure])

/-- What a reader returns goes into the next one. -/
theorem Yields.bind {reader : Reader α} {next : α → Reader β} {good : α → Prop} {fine : β → Prop}
    (hreader : Yields reader good) (hnext : ∀ value, good value → Yields (next value) fine) :
    Yields (reader >>= next) fine := by
  intro input result rest hread
  obtain ⟨value, mid, hfirst, hlast⟩ := bind_eq_some.mp hread
  exact hnext value (hreader _ _ _ hfirst) _ _ _ hlast

theorem Yields.any (reader : Reader α) : Yields reader fun _ ↦ True :=
  fun _ _ _ _ ↦ trivial

theorem Yields.many {reader : Reader α} {good : α → Prop} (hreader : Yields reader good) (n : ℕ) :
    Yields (many n reader) fun values ↦ values.length = n ∧ ∀ value ∈ values, good value := by
  induction n with
  | zero => exact Yields.pure ⟨rfl, by simp⟩
  | succ n ih =>
    refine hreader.bind fun first hfirst ↦ ih.bind fun rest hrest ↦ ?_
    exact Yields.pure ⟨by rw [List.length_cons, hrest.1], List.forall_mem_cons.mpr ⟨hfirst, hrest.2⟩⟩

theorem length_of_many {reader : Reader α} {n : ℕ} {values : List α}
    (hread : many n reader input = some (values, rest)) : values.length = n := by
  induction n generalizing values input rest with
  | zero =>
    obtain ⟨hvalues, -⟩ := pure_eq_some.mp hread
    rw [← hvalues, List.length_nil]
  | succ n ih =>
    obtain ⟨first, mid, -, hrest⟩ := bind_eq_some.mp hread
    obtain ⟨later, last, hlater, hvalues⟩ := bind_eq_some.mp hrest
    obtain ⟨hvalues, -⟩ := pure_eq_some.mp hvalues
    rw [← hvalues, List.length_cons, ih hlater]

/-- A list of a known number of entries that have one form. -/
theorem many_eq_some {reader : Reader α} {part : α → Bytes}
    (hreader : ∀ {input value rest}, reader input = some (value, rest) ↔
      input = part value ++ rest) {n : ℕ} {values : List α} :
    many n reader input = some (values, rest) ↔
      values.length = n ∧ input = values.flatMap part ++ rest := by
  have hexact : Exact reader (fun _ ↦ True) part := by
    intro input value rest
    rw [hreader, true_and]
  rw [hexact.many n]
  simp

theorem Canonical.list {reader : Reader α} {part : α → Bytes} {n : ℕ}
    {next : List α → Reader β} {done : Bytes} {valid : β → Prop} {encode : β → Bytes}
    (hreader : ∀ {input value rest}, reader input = some (value, rest) ↔
      input = part value ++ rest)
    (hnext : ∀ values, values.length = n →
      Canonical (next values) (done ++ values.flatMap part) valid encode) :
    Canonical (many n reader >>= next) done valid encode := by
  intro input result rest hread
  obtain ⟨values, mid, hfirst, hlast⟩ := bind_eq_some.mp hread
  obtain ⟨hlength, rfl⟩ := (many_eq_some hreader).mp hfirst
  rw [← List.append_assoc]
  exact hnext values hlength _ _ _ hlast

theorem complete_eq_some {reader : Reader α} {value : α} :
    complete reader input = some value ↔ reader input = some (value, []) := by
  unfold complete
  rcases hread : reader input with _ | ⟨read, _ | ⟨byte, rest⟩⟩ <;> simp

end Reader

end Latebra.Foundation
