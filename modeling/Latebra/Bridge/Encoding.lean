import Latebra.Foundation.PositionalDigits

/-!
# Base58, Bitcoin script numbers and data pushes

The encoders of `lat-bridge` that the chain adapters share. `base58` keeps a vector of base-58
digits, lowest first, and folds every input byte into it with `pushByte`; `pushByte_digits` is the
invariant, that the vector is always the digits of the value of the bytes read so far, and
`base58_positional` the result: leading zero bytes as leading `1` symbols and then the digits, with
no two encodings alike except those of the empty string and of the single zero byte, which the
function's last guard makes the same.

`scriptNum` writes the magnitude lowest byte first and puts the sign in the top bit, in one more
byte when that bit is taken. Bitcoin's rule for reading it is in `Latebra.Bridge.BitcoinScript`.
-/

set_option autoImplicit false
set_option relaxedAutoImplicit false

namespace Latebra.Bridge

open Foundation

/-! ### Base58 -/

/-- `B58`. -/
def b58 : List Char := "123456789ABCDEFGHJKLMNPQRSTUVWXYZabcdefghijkmnopqrstuvwxyz".toList

/-- The loop `while carry > 0` of `base58`, which appends the digits of what is left to carry. -/
def pushCarry (carry : UInt32) : List UInt8 :=
  if carry = 0 then [] else (carry % 58).toUInt8 :: pushCarry (carry / 58)
termination_by carry.toNat
decreasing_by
  have hne : carry.toNat ≠ 0 := fun hzero ↦ ‹¬carry = 0› (UInt32.toNat_inj.mp hzero)
  rw [UInt32.toNat_div]
  exact Nat.div_lt_self (Nat.pos_of_ne_zero hne) (by decide)

/-- The loop of `base58` over the digits so far, which multiplies them by 256 and adds the byte it
starts with as its carry. -/
def pushByte (carry : UInt32) : List UInt8 → List UInt8
  | [] => pushCarry carry
  | digit :: rest =>
    let carry := carry + digit.toUInt32 <<< 8
    (carry % 58).toUInt8 :: pushByte (carry / 58) rest

/-- The base-58 digits of a byte string, lowest first. -/
def base58Digits (input : Bytes) : List UInt8 :=
  input.foldl (fun digits byte ↦ pushByte byte.toUInt32 digits) []

/-- `base58`, `none` where an index into the alphabet is out of bounds. -/
def base58 (input : Bytes) : Option String := do
  let zeros := (input.takeWhile (· == 0)).length
  let symbols ← (base58Digits input).reverse.mapM fun digit ↦ b58[digit.toNat]?
  let out := List.replicate zeros '1' ++ symbols
  return String.ofList (if out.isEmpty then ['1'] else out)

theorem toNat_mod_58 (carry : UInt32) : (carry % 58).toUInt8.toNat = carry.toNat % 58 := by
  rw [UInt32.toNat_toUInt8, UInt32.toNat_mod]
  exact Nat.mod_eq_of_lt (lt_trans (Nat.mod_lt _ (by decide)) (by decide))

theorem toNat_div_58 (carry : UInt32) : (carry / 58).toNat = carry.toNat / 58 := by
  rw [UInt32.toNat_div]
  rfl

theorem pushCarry_digits (carry : UInt32) :
    (pushCarry carry).map UInt8.toNat = Nat.digits 58 carry.toNat := by
  induction carry using pushCarry.induct with
  | case1 => simp [pushCarry]
  | case2 carry hne ih =>
    have hpos : 0 < carry.toNat :=
      Nat.pos_of_ne_zero fun hzero ↦ hne (UInt32.toNat_inj.mp hzero)
    rw [pushCarry, if_neg hne, List.map_cons, ih, toNat_mod_58, toNat_div_58,
      Nat.digits_def' (by decide) hpos]

/-- The sum that a digit and a carry make fits the machine word, so nothing is lost in it. -/
theorem toNat_carry {carry : UInt32} {digit : UInt8} (hcarry : carry.toNat < 256) :
    (carry + digit.toUInt32 <<< 8).toNat = carry.toNat + digit.toNat * 256 := by
  have hdigit : digit.toNat < 256 := digit.toNat_lt
  have hshift : (digit.toUInt32 <<< 8).toNat = digit.toNat * 256 := by
    rw [UInt32.toNat_shiftLeft, UInt8.toNat_toUInt32, show (8 : UInt32).toNat % 32 = 8 from rfl,
      Nat.shiftLeft_eq]
    omega
  rw [UInt32.toNat_add, hshift]
  omega

/-- Folding a byte into the digits of a number gives the digits of that number times 256 plus the
byte. -/
theorem pushByte_digits {digits : List UInt8} {number : ℕ} {carry : UInt32}
    (hdigits : digits.map UInt8.toNat = Nat.digits 58 number) (hcarry : carry.toNat < 256) :
    (pushByte carry digits).map UInt8.toNat = Nat.digits 58 (256 * number + carry.toNat) := by
  induction digits generalizing number carry with
  | nil =>
    have hzero : number = 0 := Nat.digits_eq_nil_iff_eq_zero.mp hdigits.symm
    rw [pushByte, pushCarry_digits, hzero, Nat.mul_zero, Nat.zero_add]
  | cons digit rest ih =>
    have hpos : 0 < number := by
      refine Nat.pos_of_ne_zero fun hzero ↦ ?_
      rw [hzero, Nat.digits_zero] at hdigits
      exact absurd hdigits (by simp)
    rw [List.map_cons, Nat.digits_def' (by decide) hpos] at hdigits
    have hdigit : digit.toNat = number % 58 := (List.cons.inj hdigits).1
    have hrest : rest.map UInt8.toNat = Nat.digits 58 (number / 58) := (List.cons.inj hdigits).2
    have hsum := @toNat_carry carry digit hcarry
    have hsmall : number % 58 < 58 := Nat.mod_lt _ (by decide)
    have hnext : (carry + digit.toUInt32 <<< 8).toNat / 58 < 256 := by omega
    have hsmallCarry : ((carry + digit.toUInt32 <<< 8) / 58).toNat < 256 := by
      rw [toNat_div_58]
      exact hnext
    have htail := ih hrest hsmallCarry
    have hhigh : 256 * (number / 58) + (carry + digit.toUInt32 <<< 8).toNat / 58 =
        (256 * number + carry.toNat) / 58 := by omega
    have hlow : (carry + digit.toUInt32 <<< 8).toNat % 58 =
        (256 * number + carry.toNat) % 58 := by omega
    rw [pushByte, List.map_cons, toNat_mod_58, htail, toNat_div_58, hhigh, hlow,
      Nat.digits_def' (by decide) (by omega : 0 < 256 * number + carry.toNat)]

/-- The digit vector after the whole input is the digits of its big-endian value. -/
theorem base58Digits_digits (input : Bytes) :
    (base58Digits input).map UInt8.toNat = Nat.digits 58 (beValue input) := by
  rw [← beNumber_bytes, base58Digits, beNumber, List.foldl_map]
  have hfold (input : Bytes) (digits : List UInt8) (number : ℕ)
      (hdigits : digits.map UInt8.toNat = Nat.digits 58 number) :
      (input.foldl (fun digits byte ↦ pushByte byte.toUInt32 digits) digits).map UInt8.toNat =
        Nat.digits 58 (input.foldl (fun number byte ↦ 256 * number + byte.toNat) number) := by
    induction input generalizing digits number with
    | nil => exact hdigits
    | cons byte rest ih =>
      have hbyte : byte.toUInt32.toNat < 256 := by
        rw [UInt8.toNat_toUInt32]
        exact byte.toNat_lt
      have hstep := pushByte_digits hdigits hbyte
      rw [UInt8.toNat_toUInt32] at hstep
      exact ih _ _ hstep
  exact hfold input [] 0 (by simp)

/-- The symbol of a base-58 digit. -/
def symbol (digit : Fin 58) : Char := b58.get digit

theorem symbol_injective : Function.Injective symbol := by decide +kernel

theorem symbol_zero : symbol 0 = '1' := rfl

theorem getElem?_b58 (digit : Fin 58) : b58[digit.val]? = some (symbol digit) := by
  rw [List.getElem?_eq_getElem (show digit.val < b58.length from digit.isLt)]
  rfl

/-- The digits of a number in base 58, highest first. -/
def digits58 (number : ℕ) : List (Fin 58) :=
  (Nat.digits 58 number).reverse.map (Fin.ofNat 58)

theorem map_val_digits58 (number : ℕ) :
    (digits58 number).map Fin.val = (Nat.digits 58 number).reverse := by
  rw [digits58, List.map_map]
  refine (List.map_congr_left fun digit hdigit ↦ ?_).trans (List.map_id _)
  exact Nat.mod_eq_of_lt (Nat.digits_lt_base (by decide) (List.mem_reverse.mp hdigit))

theorem replicate_append_digits58 (zeros number : ℕ) :
    (List.replicate zeros 0 ++ digits58 number).map Fin.val = positional 58 zeros number := by
  rw [List.map_append, map_val_digits58, List.map_replicate, positional]
  rfl

/-- Every index into the alphabet is in bounds. -/
theorem mapM_symbols (input : Bytes) :
    ((base58Digits input).reverse.mapM fun digit ↦ b58[digit.toNat]?) =
      some ((digits58 (beValue input)).map symbol) := by
  have hdigits : (base58Digits input).reverse.map UInt8.toNat =
      (digits58 (beValue input)).map Fin.val := by
    rw [List.map_reverse, base58Digits_digits, map_val_digits58]
  have hlookup : ∀ (bytes : List UInt8) (digits : List (Fin 58)),
      bytes.map UInt8.toNat = digits.map Fin.val →
      (bytes.mapM fun digit ↦ b58[digit.toNat]?) = some (digits.map symbol) := by
    intro bytes digits hequal
    induction bytes generalizing digits with
    | nil =>
      rw [List.map_eq_nil_iff.mp hequal.symm]
      rfl
    | cons byte rest ih =>
      cases digits with
      | nil => exact absurd hequal (by simp)
      | cons digit others =>
        have hfirst : byte.toNat = digit.val := (List.cons.inj hequal).1
        rw [List.mapM_cons, hfirst, getElem?_b58, ih others (List.cons.inj hequal).2]
        rfl
  exact hlookup _ _ hdigits

/-- How many leading zero bytes a byte string has. -/
def zeroBytes (input : Bytes) : ℕ := (input.takeWhile (· == 0)).length

theorem leadingZeros_bytes (input : Bytes) :
    leadingZeros (input.map UInt8.toNat) = zeroBytes input := by
  have hzero : ((fun digit : ℕ ↦ digit == 0) ∘ UInt8.toNat) = fun byte ↦ byte == 0 := by
    ext byte
    simp [← UInt8.toNat_inj]
  rw [leadingZeros, List.takeWhile_map, List.length_map, hzero, zeroBytes]

/-- The digits of an encoding, leading zeros first. -/
def encodedDigits (input : Bytes) : List (Fin 58) :=
  List.replicate (zeroBytes input) 0 ++ digits58 (beValue input)

/-- A byte string is determined by its leading zeros and the digits of its value. -/
theorem encodedDigits_injective : Function.Injective encodedDigits := by
  intro a b hequal
  have hdigits := congrArg (List.map Fin.val) hequal
  rw [encodedDigits, encodedDigits, replicate_append_digits58, replicate_append_digits58]
    at hdigits
  have hparts := positional_inj hdigits
  refine bytes_eq_of_beValue ?_ hparts.2
  rw [leadingZeros_bytes, leadingZeros_bytes]
  exact hparts.1

theorem encodedDigits_eq_nil {input : Bytes} : encodedDigits input = [] ↔ input = [] :=
  ⟨fun hnil ↦ encodedDigits_injective (hnil.trans (by decide)), by rintro rfl; decide⟩

theorem base58_of_ne_nil {input : Bytes} (hne : input ≠ []) :
    base58 input = some (String.ofList ((encodedDigits input).map symbol)) := by
  have hout : List.replicate (input.takeWhile (· == 0)).length '1' ++
      (digits58 (beValue input)).map symbol = (encodedDigits input).map symbol := by
    rw [encodedDigits, List.map_append, List.map_replicate, symbol_zero, zeroBytes]
  have hnotEmpty : ((encodedDigits input).map symbol).isEmpty = false := by
    rw [List.isEmpty_eq_false_iff]
    exact fun hnil ↦ hne (encodedDigits_eq_nil.mp (List.map_eq_nil_iff.mp hnil))
  rw [base58, mapM_symbols]
  simp only [Option.pure_def, Option.bind_eq_bind, Option.bind_some]
  rw [hout, hnotEmpty]
  rfl

theorem base58_nil : base58 [] = some "1" := rfl

theorem base58_zero : base58 [0] = some "1" :=
  base58_of_ne_nil (List.cons_ne_nil 0 [])

theorem base58_injOn : Set.InjOn base58 {input | input ≠ []} := by
  intro a ha b hb hequal
  rw [base58_of_ne_nil ha, base58_of_ne_nil hb] at hequal
  apply encodedDigits_injective
  apply symbol_injective.list_map
  exact String.ofList_injective (Option.some.inj hequal)

/-- Every byte string but the empty one is encoded by its leading zero bytes as `1` symbols and
the base-58 digits of its big-endian value, with no leading zero digit; the empty string is encoded
as the single zero byte is, and no other two byte strings have one encoding. -/
theorem base58_positional :
    (∀ input : Bytes, input ≠ [] → ∃ digits : List (Fin 58),
      base58 input = some (String.ofList
        (List.replicate (zeroBytes input) '1' ++ digits.map symbol)) ∧
      beNumber 58 (digits.map Fin.val) = beValue input ∧ digits.head? ≠ some 0) ∧
    base58 [] = base58 [0] ∧
    ∀ a b : Bytes, base58 a = base58 b → a ≠ b →
      (a = [] ∧ b = [0]) ∨ (a = [0] ∧ b = []) := by
  have hempty (input : Bytes) (hequal : base58 input = base58 []) (hne : input ≠ []) :
      input = [0] :=
    base58_injOn hne (List.cons_ne_nil 0 []) (hequal.trans (base58_nil.trans base58_zero.symm))
  refine ⟨fun input hne ↦ ⟨digits58 (beValue input), ?_, ?_, ?_⟩, ?_, fun a b hequal hne ↦ ?_⟩
  · rw [base58_of_ne_nil hne, encodedDigits, List.map_append, List.map_replicate, symbol_zero]
  · have hvalue := beNumber_positional 58 0 (beValue input)
    rwa [positional, List.replicate_zero, List.nil_append, ← map_val_digits58] at hvalue
  · intro hhead
    apply head?_reverse_digits 58 (beValue input)
    rw [← map_val_digits58, List.head?_map, hhead]
    rfl
  · rw [base58_nil, base58_zero]
  · by_cases ha : a = []
    · exact Or.inl ⟨ha, hempty b (ha ▸ hequal.symm) fun hb ↦ hne (ha.trans hb.symm)⟩
    · by_cases hb : b = []
      · exact Or.inr ⟨hempty a (hb ▸ hequal) ha, hb⟩
      · exact absurd (base58_injOn ha hb hequal) hne

/-- Encodings are not distinct: the empty byte string, which has no leading zero byte and whose
value has no digit, is encoded as the single zero byte is. -/
theorem base58_empty_not_distinct :
    ¬ ((∀ input : Bytes, ∃ digits : List (Fin 58),
        base58 input = some (String.ofList
          (List.replicate (zeroBytes input) '1' ++ digits.map symbol)) ∧
        beNumber 58 (digits.map Fin.val) = beValue input ∧ digits.head? ≠ some 0) ∧
      Function.Injective base58) := by
  rintro ⟨-, hinjective⟩
  have hequal : base58 [] = base58 [0] := by rw [base58_nil, base58_zero]
  exact absurd (hinjective hequal) (by decide)

/-! ### Script numbers and pushes -/

/-- The loop `while abs > 0` of `script_num`, lowest byte first. -/
def magnitude (abs : UInt64) : Bytes :=
  if abs = 0 then [] else (abs &&& 0xff).toUInt8 :: magnitude (abs >>> 8)
termination_by abs.toNat
decreasing_by
  have hne : abs.toNat ≠ 0 := fun hzero ↦ ‹¬abs = 0› (UInt64.toNat_inj.mp hzero)
  rw [UInt64.toNat_shiftRight, show (8 : UInt64).toNat % 64 = 8 from rfl, Nat.shiftRight_eq_div_pow]
  exact Nat.div_lt_self (Nat.pos_of_ne_zero hne) (by norm_num)

/-- `script_num`, `none` where `unwrap` finds no byte. -/
def scriptNum (n : Int64) : Option Bytes :=
  if n = 0 then some [] else do
    let neg := n < 0
    let out := magnitude (UInt64.ofNat n.toInt.natAbs)
    let top ← out.getLast?
    -- a byte with its top bit set would be read with a sign, so one more byte carries the sign
    if top &&& 0x80 ≠ 0 then return out ++ [if neg then 0x80 else 0x00]
    else if neg then return out.dropLast ++ [top ||| 0x80]
    else return out

/-- `push_data`, `none` where its assertion fails. -/
def pushData (script data : Bytes) : Option Bytes :=
  if data.length ≤ 75 then some (script ++ [UInt8.ofNat data.length] ++ data) else none

theorem magnitude_digits (abs : UInt64) :
    (magnitude abs).map UInt8.toNat = Nat.digits 256 abs.toNat := by
  induction abs using magnitude.induct with
  | case1 => simp [magnitude]
  | case2 abs hne ih =>
    have hpos : 0 < abs.toNat := Nat.pos_of_ne_zero fun hzero ↦ hne (UInt64.toNat_inj.mp hzero)
    have hlow : (abs &&& 0xff).toUInt8.toNat = abs.toNat % 256 := by
      rw [UInt64.toNat_toUInt8, UInt64.toNat_and,
        show (0xff : UInt64).toNat = 2 ^ 8 - 1 from rfl, Nat.and_two_pow_sub_one_eq_mod]
      exact Nat.mod_mod _ _
    have hhigh : (abs >>> 8).toNat = abs.toNat / 256 := by
      rw [UInt64.toNat_shiftRight, show (8 : UInt64).toNat % 64 = 8 from rfl,
        Nat.shiftRight_eq_div_pow]
    rw [magnitude, if_neg hne, List.map_cons, ih, hlow, hhigh, Nat.digits_def' (by decide) hpos]

theorem leValue_magnitude (abs : UInt64) : leValue (magnitude abs) = abs.toNat := by
  rw [leValue_eq_ofDigits, magnitude_digits, Nat.ofDigits_digits]

/-- The magnitude of a number that is not zero ends in a byte that is not zero. -/
theorem exists_magnitude {abs : UInt64} (hne : abs ≠ 0) :
    ∃ low top, magnitude abs = low ++ [top] ∧ top ≠ 0 := by
  have hpos : abs.toNat ≠ 0 := fun hzero ↦ hne (UInt64.toNat_inj.mp hzero)
  obtain ⟨digits, digit, hdigits, hdigit⟩ := exists_concat_of_pos 256 hpos
  rw [← magnitude_digits, List.map_eq_append_iff] at hdigits
  obtain ⟨low, last, hsplit, -, hlast⟩ := hdigits
  obtain ⟨top, rfl, htop⟩ := List.map_eq_singleton_iff.mp hlast
  refine ⟨low, top, hsplit, ?_⟩
  rintro rfl
  exact hdigit htop.symm

end Latebra.Bridge
