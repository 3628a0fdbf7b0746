import Latebra.Bridge.BitcoinScript
import Latebra.Bridge.Encoding

/-!
# The Bitcoin redeem script and its lock time

`redeemScript` is the hash time-locked script of `BtcAdapter::redeem_script`. `exists_scriptNum` says
that a script number is read back as the signed number that was written and has no shorter form, for
every signed 64-bit number, and `redeemScript_eq` that the lengths of the two keys are all that can
refuse a script. `claim_unlocks` and `refund_unlocks` run the script under Bitcoin's rules: the
claiming branch asks for the preimage, the refunding branch for the lock time.

The lock time is an unsigned number that the code casts to a signed one on its way to the script,
and from `2 ^ 63` on the cast makes it negative: the script then holds another number than the
parameters do. From `2 ^ 32` on no transaction can state the lock time, so the refund never opens;
below, it opens at the lock time and never earlier (`lockTime_faithful_iff`). No spend gets early
from the cast, since Bitcoin refuses a negative lock time altogether.
-/

set_option autoImplicit false
set_option relaxedAutoImplicit false

namespace Latebra.Bridge

open Foundation

/-! ### Script numbers read back -/

theorem scriptNum_eq {n : Int64} (hne : n ≠ 0) {low : Bytes} {top : UInt8}
    (hmagnitude : magnitude (UInt64.ofNat n.toInt.natAbs) = low ++ [top]) :
    scriptNum n = some (
      if top &&& 0x80 ≠ 0 then low ++ [top] ++ [if n < 0 then 0x80 else 0x00]
      else if n < 0 then low ++ [top ||| 0x80]
      else low ++ [top]) := by
  rw [scriptNum, if_neg hne, hmagnitude]
  simp only [List.getLast?_concat, List.dropLast_concat, Option.bind_eq_bind, Option.bind_some,
    Option.pure_def]
  split_ifs <;> rfl

theorem natAbs_toUInt64 (n : Int64) : (UInt64.ofNat n.toInt.natAbs).toNat = n.toInt.natAbs := by
  have hlow := n.le_toInt
  have hhigh := n.toInt_lt
  have hlt : n.toInt.natAbs < 2 ^ 64 := by omega
  exact UInt64.toNat_ofNat_of_lt' hlt

/-- A script number is written for every signed number, minimally, and is read back as it. -/
theorem exists_scriptNum (n : Int64) :
    ∃ bytes, scriptNum n = some bytes ∧ MinimalNumber bytes ∧ numberOf bytes = n.toInt := by
  by_cases hzero : n = 0
  · exact ⟨[], by rw [scriptNum, if_pos hzero], minimalNumber_nil, by rw [hzero]; rfl⟩
  · have hpos : UInt64.ofNat n.toInt.natAbs ≠ 0 := by
      intro hword
      have hnat := natAbs_toUInt64 n
      rw [hword] at hnat
      exact hzero (Int64.toInt_inj.mp (Int.natAbs_eq_zero.mp hnat.symm))
    obtain ⟨low, top, hmagnitude, htop⟩ := exists_magnitude hpos
    have hvalue : leValue (low ++ [top]) = n.toInt.natAbs := by
      rw [← hmagnitude, leValue_magnitude, natAbs_toUInt64]
    refine ⟨_, scriptNum_eq hzero hmagnitude, ?_⟩
    have hsign : n < 0 ↔ n.toInt < 0 := Int64.lt_iff_toInt_lt
    by_cases hset : top &&& 0x80 = 0
    · have hbits := (sign_bits top).1 hset
      rw [if_neg (not_not_intro hset)]
      by_cases hneg : n < 0
      · rw [if_pos hneg, minimalNumber_concat, numberOf_concat, if_neg hbits.1, hbits.2.1, hvalue]
        exact ⟨fun hbare ↦ absurd hbare htop, by rw [hsign] at hneg; omega⟩
      · rw [if_neg hneg, minimalNumber_concat, numberOf_concat, if_pos hset, hbits.2.2, hvalue]
        exact ⟨fun hbare ↦ absurd hbare htop, by rw [hsign] at hneg; omega⟩
    · -- the last byte holds the sign alone
      rw [if_pos hset, minimalNumber_concat, numberOf_concat]
      refine ⟨fun _ ↦ ⟨top, List.getLast?_concat, hset⟩, ?_⟩
      have hmore : leValue (low ++ [top] ++ [0]) = n.toInt.natAbs := by
        rw [leValue_append, hvalue]
        rfl
      by_cases hneg : n < 0
      · rw [if_pos hneg, if_neg (by decide), show (0x80 : UInt8) &&& 0x7f = 0 by decide, hmore]
        rw [hsign] at hneg
        omega
      · rw [if_neg hneg, if_pos (by decide), hmore]
        rw [hsign] at hneg
        omega

/-! ### The script -/

/-- `HtlcParams`, without the amount, which the script does not hold. -/
structure HtlcParams where
  /-- The digest of the secret. -/
  hashlock : Bytes32
  /-- The key that claims with the secret. -/
  recipient : Bytes
  /-- The key that is paid back after the lock time. -/
  refund : Bytes
  /-- The lock time. -/
  timelock : UInt64

/-- `BridgeError`. -/
inductive BridgeError where
  | badParam (reason : String)
  | badState (reason : String)
  deriving DecidableEq

/-- `OP_IF`. -/
def opIf : UInt8 := 0x63

/-- `OP_ELSE`. -/
def opElse : UInt8 := 0x67

/-- `OP_ENDIF`. -/
def opEndif : UInt8 := 0x68

/-- `OP_DROP`. -/
def opDrop : UInt8 := 0x75

/-- `OP_EQUALVERIFY`. -/
def opEqualverify : UInt8 := 0x88

/-- `OP_SHA256`. -/
def opSha256 : UInt8 := 0xa8

/-- `OP_CHECKSIG`. -/
def opChecksig : UInt8 := 0xac

/-- `OP_CHECKLOCKTIMEVERIFY`. -/
def opChecklocktimeverify : UInt8 := 0xb1

/-- `BtcAdapter::redeem_script`, `none` where an encoder panics. -/
def redeemScript (p : HtlcParams) : Option (Except BridgeError Bytes) :=
  if p.recipient.length ≠ 33 then
    some (.error (.badParam "BTC recipient must be a 33-byte compressed pubkey"))
  else if p.refund.length ≠ 33 then
    some (.error (.badParam "BTC refund must be a 33-byte compressed pubkey"))
  else do
    let s ← pushData [opIf, opSha256] (bytesOf32 p.hashlock)
    let s ← pushData (s ++ [opEqualverify]) p.recipient
    let number ← scriptNum p.timelock.toInt64
    let s ← pushData (s ++ [opChecksig, opElse]) number
    let s ← pushData (s ++ [opChecklocktimeverify, opDrop]) p.refund
    return .ok (s ++ [opChecksig, opEndif])

/-- The script around the number that its refunding branch waits for. -/
def scriptOf (p : HtlcParams) (number : Bytes) : Bytes :=
  [opIf] ++ ([opSha256] ++ ([UInt8.ofNat (bytesOf32 p.hashlock).length] ++ bytesOf32 p.hashlock ++
    ([opEqualverify] ++ ([UInt8.ofNat p.recipient.length] ++ p.recipient ++ ([opChecksig] ++
    ([opElse] ++ ([UInt8.ofNat number.length] ++ number ++ ([opChecklocktimeverify] ++ ([opDrop] ++
    ([UInt8.ofNat p.refund.length] ++ p.refund ++ ([opChecksig] ++ ([opEndif] ++ []))))))))))))

/-- The two lengths are all that refuses a script, and no encoder panics. -/
theorem redeemScript_eq (p : HtlcParams) :
    ∃ number, scriptNum p.timelock.toInt64 = some number ∧ number.length ≤ 9 ∧
      redeemScript p =
        if p.recipient.length ≠ 33 then
          some (.error (.badParam "BTC recipient must be a 33-byte compressed pubkey"))
        else if p.refund.length ≠ 33 then
          some (.error (.badParam "BTC refund must be a 33-byte compressed pubkey"))
        else some (.ok (scriptOf p number)) := by
  obtain ⟨number, hnumber, hminimal, hvalue⟩ := exists_scriptNum p.timelock.toInt64
  have hbound : (numberOf number).natAbs < 256 ^ 8 := by
    rw [hvalue]
    have hlow := p.timelock.toInt64.le_toInt
    have hhigh := p.timelock.toInt64.toInt_lt
    omega
  have hlength : number.length ≤ 9 := hminimal.length_le hbound
  refine ⟨number, hnumber, hlength, ?_⟩
  rw [redeemScript]
  split_ifs with hrecipient hrefund
  · rfl
  · rfl
  · rw [not_not] at hrecipient hrefund
    have hpush (script : Bytes) {data : Bytes} (hdata : data.length ≤ 75) :
        pushData script data = some (script ++ [UInt8.ofNat data.length] ++ data) := if_pos hdata
    rw [hnumber]
    simp only [Option.bind_eq_bind, Option.bind_some, Option.pure_def,
      hpush _ (length_bytesOf32 p.hashlock ▸ (by decide : 32 ≤ 75)),
      hpush _ (hrecipient ▸ (by decide : 33 ≤ 75)), hpush _ (hrefund ▸ (by decide : 33 ≤ 75)),
      hpush _ (le_trans hlength (by decide))]
    simp [scriptOf]

/-- A script that is returned is the script around the bytes of its lock time. -/
theorem exists_scriptOf {p : HtlcParams} {script : Bytes}
    (hscript : redeemScript p = some (.ok script)) :
    ∃ number, scriptNum p.timelock.toInt64 = some number ∧ number.length ≤ 75 ∧
      p.recipient.length ≤ 75 ∧ p.refund.length ≤ 75 ∧ script = scriptOf p number := by
  obtain ⟨number, hnumber, hlength, hredeem⟩ := redeemScript_eq p
  rw [hredeem] at hscript
  split_ifs at hscript with hrecipient hrefund
  · cases hscript
  · cases hscript
  · rw [not_not] at hrecipient hrefund
    refine ⟨number, hnumber, by omega, by omega, by omega, ?_⟩
    exact (Except.ok.inj (Option.some.inj hscript)).symm

section

variable (spend : Spend) {p : HtlcParams} {number : Bytes} (hnumber : number.length ≤ 75)
  (hrecipient : p.recipient.length ≤ 75) (hrefund : p.refund.length ≤ 75)

include hnumber hrecipient hrefund

/-- The claiming branch asks for the preimage of the hash lock and the recipient's signature. -/
theorem claim_unlocks (signature preimage : Bytes) :
    unlocks spend (scriptOf p number) [[1], preimage, signature] =
      (decide (bytesOf32 p.hashlock = spend.sha256 preimage) &&
        spend.checkSig signature p.recipient) := by
  have hhashlock : (bytesOf32 p.hashlock).length ≤ 75 := by rw [length_bytesOf32]; decide
  have hactive (stack : List Bytes) : Machine.active ⟨stack, [true]⟩ = true := rfl
  have hidle (stack : List Bytes) : Machine.active ⟨stack, [false]⟩ = false := rfl
  have hbranch : castToBool [1] = true := rfl
  rw [unlocks, scriptOf, opIf, run_if spend rfl rfl, hbranch, opSha256,
    run_plain spend (by decide) (by decide), if_pos (hactive _), activeStep_sha256,
    Option.bind_some, run_push spend hhashlock, if_pos (hactive _), opEqualverify,
    run_plain spend (by decide) (by decide), if_pos (hactive _), activeStep_equalverify]
  by_cases hpreimage : bytesOf32 p.hashlock = spend.sha256 preimage
  · -- the other branch is skipped from `OP_ELSE` on
    rw [if_pos hpreimage, Option.bind_some, run_push spend hrecipient, if_pos (hactive _),
      opChecksig, run_plain spend (by decide) (by decide), if_pos (hactive _),
      activeStep_checksig, Option.bind_some, opElse, run_else, Bool.not_true,
      run_push spend hnumber, hidle, opChecklocktimeverify, if_neg Bool.false_ne_true,
      run_plain spend (by decide) (by decide), hidle, if_neg Bool.false_ne_true, opDrop,
      run_plain spend (by decide) (by decide), hidle, if_neg Bool.false_ne_true,
      run_push spend hrefund, hidle, if_neg Bool.false_ne_true,
      run_plain spend (by decide) (by decide), hidle, if_neg Bool.false_ne_true, opEndif,
      run_endif, run, decide_eq_true hpreimage, Bool.true_and]
    cases spend.checkSig signature p.recipient <;> rfl
  · rw [if_neg hpreimage, decide_eq_false hpreimage]
    rfl

/-- The refunding branch asks for the lock time and the funder's signature. -/
theorem refund_unlocks (signature : Bytes) :
    unlocks spend (scriptOf p number) [[], signature] =
      (decide (number.length ≤ 5 ∧ 0 ≤ numberOf number ∧ spend.Waits (numberOf number)) &&
        spend.checkSig signature p.refund) := by
  have hhashlock : (bytesOf32 p.hashlock).length ≤ 75 := by rw [length_bytesOf32]; decide
  have hactive (stack : List Bytes) : Machine.active ⟨stack, [true]⟩ = true := rfl
  have hidle (stack : List Bytes) : Machine.active ⟨stack, [false]⟩ = false := rfl
  have hbranch : castToBool [] = false := rfl
  -- the claiming branch is skipped up to `OP_ELSE`
  rw [unlocks, scriptOf, opIf, run_if spend rfl rfl, hbranch, opSha256,
    run_plain spend (by decide) (by decide), hidle, if_neg Bool.false_ne_true,
    run_push spend hhashlock, hidle, if_neg Bool.false_ne_true, opEqualverify,
    run_plain spend (by decide) (by decide), hidle, if_neg Bool.false_ne_true,
    run_push spend hrecipient, hidle, if_neg Bool.false_ne_true, opChecksig,
    run_plain spend (by decide) (by decide), hidle, if_neg Bool.false_ne_true, opElse, run_else,
    Bool.not_false, run_push spend hnumber, if_pos (hactive _), opChecklocktimeverify,
    run_plain spend (by decide) (by decide), if_pos (hactive _), activeStep_checklocktimeverify]
  by_cases hwaits : number.length ≤ 5 ∧ 0 ≤ numberOf number ∧ spend.Waits (numberOf number)
  · rw [if_pos hwaits, Option.bind_some, opDrop, run_plain spend (by decide) (by decide),
      if_pos (hactive _), activeStep_drop, Option.bind_some, run_push spend hrefund,
      if_pos (hactive _), run_plain spend (by decide) (by decide), if_pos (hactive _),
      activeStep_checksig, Option.bind_some, opEndif, run_endif, run, decide_eq_true hwaits,
      Bool.true_and]
    cases spend.checkSig signature p.refund <;> rfl
  · rw [if_neg hwaits, decide_eq_false hwaits]
    rfl

end

/-! ### The lock time -/

/-- The cast of the lock time keeps its value below `2 ^ 63` and makes it negative from there
on. -/
theorem toInt_timelock (timelock : UInt64) :
    timelock.toInt64.toInt =
      if timelock.toNat < 2 ^ 63 then (timelock.toNat : ℤ) else timelock.toNat - 2 ^ 64 := by
  have hcond := BitVec.toInt_eq_toNat_cond timelock.toBitVec
  show timelock.toBitVec.toInt = _
  rw [hcond]
  have hnat : timelock.toBitVec.toNat = timelock.toNat := rfl
  rw [hnat]
  split_ifs with hcast hbound hbound
  · rfl
  · omega
  · omega
  · rfl

/-- Whatever the lock time is, the refunding branch opens from it on and never before: a lock time
that the cast makes negative is later than that of any transaction, and Bitcoin refuses it. -/
theorem refund_waits {p : HtlcParams} {number : Bytes}
    (hnumber : scriptNum p.timelock.toInt64 = some number) (spend : Spend) :
    (number.length ≤ 5 ∧ 0 ≤ numberOf number ∧ spend.Waits (numberOf number)) ↔
      spend.Waits p.timelock.toNat := by
  obtain ⟨bytes, hbytes, hminimal, hvalue⟩ := exists_scriptNum p.timelock.toInt64
  rw [hnumber, Option.some.injEq] at hbytes
  subst hbytes
  rw [toInt_timelock] at hvalue
  have hlock : spend.lockTime.toNat < 2 ^ 32 := spend.lockTime.toNat_lt
  have hword : p.timelock.toNat < 2 ^ 64 := p.timelock.toNat_lt
  constructor
  · rintro ⟨-, hpos, hwaits⟩
    split_ifs at hvalue with hbound
    · rwa [hvalue] at hwaits
    · omega
  · intro hwaits
    have hle : (p.timelock.toNat : ℤ) ≤ spend.lockTime.toNat := hwaits.2.1
    rw [if_pos (by omega)] at hvalue
    have hsmall : (numberOf number).natAbs < 256 ^ 4 := by omega
    exact ⟨hminimal.length_le hsmall, by omega, by rwa [hvalue]⟩

/-- The refunding branch of a script asks for the lock time of its parameters. -/
theorem refund_unlocks_of_redeemScript {p : HtlcParams} {script : Bytes}
    (hscript : redeemScript p = some (.ok script)) (spend : Spend) (signature : Bytes) :
    unlocks spend script [[], signature] =
      (decide (spend.Waits p.timelock.toNat) && spend.checkSig signature p.refund) := by
  obtain ⟨number, hnumber, hlength, hrecipient, hrefund, rfl⟩ := exists_scriptOf hscript
  rw [refund_unlocks spend hlength hrecipient hrefund,
    decide_eq_decide.mpr (refund_waits hnumber spend)]

/-- A transaction states its lock time in 32 bits, so some transaction opens the refunding branch at
a lock time exactly when it fits them. -/
theorem refund_opens_iff {p : HtlcParams} {script : Bytes}
    (hscript : redeemScript p = some (.ok script)) :
    (∃ spend signature, spend.lockTime.toNat = p.timelock.toNat ∧
        unlocks spend script [[], signature] = true) ↔ p.timelock.toNat < 2 ^ 32 := by
  constructor
  · rintro ⟨spend, signature, hlock, -⟩
    rw [← hlock]
    exact spend.lockTime.toNat_lt
  · intro hbound
    have hlock : (UInt32.ofNat p.timelock.toNat).toNat = p.timelock.toNat :=
      UInt32.toNat_ofNat_of_lt' hbound
    refine ⟨⟨UInt32.ofNat p.timelock.toNat, 0, id, fun _ _ ↦ true⟩, [], hlock, ?_⟩
    rw [refund_unlocks_of_redeemScript hscript, Bool.and_true, decide_eq_true_eq]
    have hsequence : (0 : UInt32) ≠ 0xffffffff := by decide
    exact ⟨by rw [hlock]; exact Iff.rfl, by rw [hlock], hsequence⟩

/-- The script holds the lock time, as a minimal script number that is read back as it, and its
refunding branch opens at that lock time and never earlier, exactly when the lock time is below
`2 ^ 32`. From there on no transaction can state the lock time, and from `2 ^ 63` on the script does
not hold it either. -/
theorem lockTime_faithful_iff {p : HtlcParams} {script : Bytes}
    (hscript : redeemScript p = some (.ok script)) :
    (∃ number, scriptNum p.timelock.toInt64 = some number ∧ script = scriptOf p number ∧
        MinimalNumber number ∧ numberOf number = p.timelock.toNat ∧
        (∃ spend signature, spend.lockTime.toNat = p.timelock.toNat ∧
          unlocks spend script [[], signature] = true) ∧
        ∀ spend signature, unlocks spend script [[], signature] =
          (decide (spend.Waits p.timelock.toNat) && spend.checkSig signature p.refund)) ↔
      p.timelock.toNat < 2 ^ 32 := by
  constructor
  · rintro ⟨-, -, -, -, -, hopens, -⟩
    exact (refund_opens_iff hscript).mp hopens
  · intro hbound
    obtain ⟨number, hnumber, -, -, -, hshape⟩ := exists_scriptOf hscript
    obtain ⟨bytes, hbytes, hminimal, hvalue⟩ := exists_scriptNum p.timelock.toInt64
    obtain rfl := Option.some.inj (hnumber.symm.trans hbytes)
    rw [toInt_timelock, if_pos (by omega)] at hvalue
    exact ⟨number, hnumber, hshape, hminimal, hvalue, (refund_opens_iff hscript).mpr hbound,
      refund_unlocks_of_redeemScript hscript⟩

/-- The parameters that the source's tests use, with a lock time. -/
def sampleParams (timelock : UInt64) : HtlcParams :=
  ⟨0, List.replicate 33 2, List.replicate 33 3, timelock⟩

theorem exists_redeemScript (timelock : UInt64) :
    ∃ script, redeemScript (sampleParams timelock) = some (.ok script) := by
  obtain ⟨number, -, -, hredeem⟩ := redeemScript_eq (sampleParams timelock)
  exact ⟨_, hredeem⟩

theorem lockTime_faithful_sample :
    ∃ script, redeemScript (sampleParams 800000) = some (.ok script) ∧
      (∃ number, scriptNum (sampleParams 800000).timelock.toInt64 = some number ∧
        script = scriptOf (sampleParams 800000) number ∧ MinimalNumber number ∧
        numberOf number = (sampleParams 800000).timelock.toNat) ∧
      (∃ spend signature, spend.lockTime.toNat = 800000 ∧
        unlocks spend script [[], signature] = true) ∧
      ∀ spend signature, unlocks spend script [[], signature] = true →
        800000 ≤ spend.lockTime.toNat := by
  obtain ⟨script, hscript⟩ := exists_redeemScript 800000
  obtain ⟨number, hnumber, hshape, hminimal, hvalue, hopens, hexact⟩ :=
    (lockTime_faithful_iff hscript).mpr (by decide)
  refine ⟨script, hscript, ⟨number, hnumber, hshape, hminimal, hvalue⟩, hopens, ?_⟩
  intro spend signature hunlocks
  rw [hexact, Bool.and_eq_true, decide_eq_true_eq] at hunlocks
  exact Int.ofNat_le.mp hunlocks.1.2.1

/-- The greatest lock time is accepted and written as a negative number. -/
theorem lockTime_negative :
    ∃ script, redeemScript (sampleParams 0xffffffffffffffff) = some (.ok script) ∧
      ∃ number,
        scriptNum (sampleParams 0xffffffffffffffff).timelock.toInt64 = some number ∧
        script = scriptOf (sampleParams 0xffffffffffffffff) number ∧ numberOf number < 0 ∧
        numberOf number ≠ (sampleParams 0xffffffffffffffff).timelock.toNat := by
  obtain ⟨number, hnumber, -, hredeem⟩ := redeemScript_eq (sampleParams 0xffffffffffffffff)
  obtain ⟨bytes, hbytes, -, hvalue⟩ :=
    exists_scriptNum (sampleParams 0xffffffffffffffff).timelock.toInt64
  rw [hnumber, Option.some.injEq] at hbytes
  subst hbytes
  have hbound : ¬ (sampleParams 0xffffffffffffffff).timelock.toNat < 2 ^ 63 := by decide
  have hword := (sampleParams 0xffffffffffffffff).timelock.toNat_lt
  rw [toInt_timelock, if_neg hbound] at hvalue
  exact ⟨_, hredeem, number, hnumber, rfl, by omega, by omega⟩

end Latebra.Bridge
