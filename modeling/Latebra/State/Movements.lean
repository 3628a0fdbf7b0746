import Latebra.State.CurveTrades
import Latebra.State.Pools
import Latebra.State.StakingEvents
import Latebra.State.Worth

/-!
# Movements of value

What the movements that the transactions are made of do to the worth of a ledger: debits and credits
of public and of confidential balances. A public credit stops at the largest word, and so it is exact
only where there is room: `Roomy` says that no account holds as much as a word can.
-/

set_option autoImplicit false
set_option relaxedAutoImplicit false

namespace Latebra.State

open Foundation Crypto Latebra.Types Contracts

variable {C : CryptoSuite}

/-- A sum that did not stop at the largest word is exact. -/
theorem toNat_saturatingAdd_of_room {a b : UInt64} (hroom : (saturatingAdd a b).toNat + 1 < 2 ^ 64) :
    (saturatingAdd a b).toNat = a.toNat + b.toNat := by
  rw [toNat_saturatingAdd] at hroom ⊢
  omega

namespace LedgerState

/-- What an account holds in the open of a token: its public balance, and of native LAT its stake as
well. -/
def openly (s : LedgerState C) (id : Bytes32) (token : UInt32) : ℕ :=
  ((s.accountOr id).pub token).toNat + if token = LAT_TOKEN then s.stakeHeld id else 0

/-- No account holds in the open as much of a token as a word can. -/
def Roomy (s : LedgerState C) : Prop := ∀ id token, s.openly id token + 1 < 2 ^ 64

variable {secret : Bytes32 → ℤ} {token key : UInt32} {s s' s₁ : LedgerState C} {id : Bytes32}
  {acct : Account C} {amount next : UInt64}

theorem Roomy.pub_lt (hs : s.Roomy) (id : Bytes32) (token : UInt32) :
    ((s.accountOr id).pub token).toNat + 1 < 2 ^ 64 := by
  have hroom := hs id token
  unfold openly at hroom
  omega

theorem Roomy.stake_lt (hs : s.Roomy) (id : Bytes32) :
    ((s.accountOr id).pub LAT_TOKEN).toNat + s.stakeHeld id + 1 < 2 ^ 64 := by
  have hroom := hs id LAT_TOKEN
  unfold openly at hroom
  rwa [if_pos rfl] at hroom

theorem Roomy.of_same (hs : s.Roomy) (haccount : s'.account = s.account)
    (hvalidator : s'.validator = s.validator) : s'.Roomy := by
  intro id token
  have hroom := hs id token
  unfold openly accountOr stakeHeld bonded unbonding validatorOr at hroom ⊢
  rwa [haccount, hvalidator]

theorem accountOr_of_some (hacct : s.account id = some acct) : s.accountOr id = acct := by
  rw [accountOr, hacct, Option.getD_some]

theorem accountOr_setAccount (s : LedgerState C) (id other : Bytes32) (acct : Account C) :
    (s.setAccount id acct).accountOr other = if other = id then acct else s.accountOr other := by
  unfold accountOr
  rw [setAccount_account, Function.update_apply]
  split <;> rfl

/-! ### Gains one after another -/

namespace Gains

variable {gain more : C.Point}

theorem trans (hfirst : Gains secret token s s₁ gain) (hsecond : Gains secret token s₁ s' more) :
    Gains secret token s s' (gain + more) := Shifts.trans hfirst hsecond

theorem gain_eq (hgains : Gains secret token s s' gain) (heq : gain = more) :
    Gains secret token s s' more := Shifts.gain_eq hgains heq

/-- A step to a state with the same places. -/
theorem of_places (hgains : Gains secret token s s₁ gain) (haccount : s'.account = s₁.account)
    (hpool : s'.pool = s₁.pool) (hcurve : s'.curve = s₁.curve)
    (hvalidator : s'.validator = s₁.validator) (hhtlc : s'.htlc = s₁.htlc) :
    Gains secret token s s' gain :=
  (hgains.trans (of_same haccount hpool hcurve hvalidator hhtlc)).gain_eq (add_zero gain)

end Gains

/-- The gain of a write of a registered account. -/
theorem gains_account (hacct : s.account id = some acct) (after : Account C) {gain : C.Point}
    (hworth : after.worth (secret id) token = acct.worth (secret id) token + gain) :
    Gains secret token s (s.setAccount id after) gain := by
  refine (gains_setAccount s id after).gain_eq ?_
  rw [accountOr_of_some hacct, hworth, add_sub_cancel_left]

/-! ### Public balances -/

/-- The gain of a write of a registered account that differs in the open. -/
theorem gains_public (hacct : s.account id = some acct) {after : Account C}
    (hbalance : after.balance token = acct.balance token)
    (hpending : after.pending token = acct.pending token) :
    Gains secret token s (s.setAccount id after)
      (coins C ((after.pub token).toNat - (acct.pub token).toNat : ℤ)) :=
  gains_account hacct after (Account.worth_of_pub _ hbalance hpending)

/-- A public debit that is covered. -/
theorem gains_debited (hacct : s.account id = some acct) {total : UInt64}
    (hcovered : total ≤ acct.pub key) :
    Gains secret token s (s.debited id acct key total next)
      (coins C (if token = key then -(total.toNat : ℤ) else 0)) := by
  apply gains_account hacct
  rw [Account.worth_withNonce, Account.worth_setPublic,
    toNat_sub_of_toNat_le (UInt64.le_iff_toNat_le.mp hcovered)]
  have hle := UInt64.le_iff_toNat_le.mp hcovered
  by_cases htoken : token = key
  · rw [if_pos htoken, if_pos htoken]
    congr 2
    omega
  · rw [if_neg htoken, if_neg htoken]

/-- A public credit of a registered account. -/
theorem gains_creditedAccount (hacct : s.account id = some acct)
    (hroom : (saturatingAdd (acct.pub key) amount).toNat + 1 < 2 ^ 64) :
    Gains secret token s
      (s.setAccount id (acct.setPublic key (saturatingAdd (acct.pub key) amount)))
      (coins C (if token = key then (amount.toNat : ℤ) else 0)) := by
  apply gains_account hacct
  rw [Account.worth_setPublic, toNat_saturatingAdd_of_room hroom]
  by_cases htoken : token = key
  · rw [if_pos htoken, if_pos htoken]
    congr 2
    omega
  · rw [if_neg htoken, if_neg htoken]

theorem pub_credited_self (s : LedgerState C) (id : Bytes32) (key : UInt32) (amount : UInt64) :
    ((s.credited id key amount).accountOr id).pub key =
      saturatingAdd ((s.accountOr id).pub key) amount := by
  unfold credited
  split
  · next hzero => rw [hzero, saturatingAdd_zero]
  · show ((s.setAccount id _).accountOr id).pub key = _
    rw [accountOr_setAccount, if_pos rfl, Account.pub_setPublic, if_pos rfl]

theorem pub_credited_le (s : LedgerState C) (id other : Bytes32) (key token : UInt32)
    (amount : UInt64) :
    ((s.accountOr other).pub token).toNat ≤
      (((s.credited id key amount).accountOr other).pub token).toNat := by
  unfold credited
  split
  · exact le_rfl
  · show _ ≤ (((s.setAccount id _).accountOr other).pub token).toNat
    rw [accountOr_setAccount]
    by_cases hother : other = id
    · subst hother
      rw [if_pos rfl, Account.pub_setPublic]
      by_cases htoken : token = key
      · subst htoken
        have hlt := ((s.accountOr other).pub token).toNat_lt
        rw [if_pos rfl, toNat_saturatingAdd]
        omega
      · rw [if_neg htoken]
    · rw [if_neg hother]

/-- A public credit, which registers the account if need be. -/
theorem gains_credited (s : LedgerState C) (id : Bytes32) (key : UInt32) (amount : UInt64)
    (hroom : (((s.credited id key amount).accountOr id).pub key).toNat + 1 < 2 ^ 64) :
    Gains secret token s (s.credited id key amount)
      (coins C (if token = key then (amount.toNat : ℤ) else 0)) := by
  rw [pub_credited_self] at hroom
  unfold credited
  split
  · next hzero =>
    have hnothing : (if token = key then (amount.toNat : ℤ) else 0) = 0 := by
      rw [hzero]
      simp
    rw [hnothing, coins_zero]
    exact .of_same rfl rfl rfl rfl rfl
  · refine ((gains_setAccount s id _).gain_eq ?_).of_places rfl rfl rfl rfl rfl
    rw [Account.worth_setPublic, toNat_saturatingAdd_of_room hroom, add_sub_cancel_left]
    by_cases htoken : token = key
    · rw [if_pos htoken, if_pos htoken]
      congr 1
      omega
    · rw [if_neg htoken, if_neg htoken]

/-! ### Confidential balances -/

/-- A credit of a pending balance. -/
theorem gains_pendingCredited (s : LedgerState C) (id : Bytes32) (key : UInt32)
    (credit : Ciphertext C.Point) :
    Gains secret token s (s.pendingCredited (s.accountOr id) id key credit)
      (if token = key then sealedValue (secret id) credit else 0) := by
  refine (gains_setAccount s id _).gain_eq ?_
  rw [Account.worth_setPending, sealedValue_add, add_sub_cancel_left]
  by_cases htoken : token = key
  · rw [if_pos htoken, if_pos htoken, add_sub_cancel_left]
  · rw [if_neg htoken, if_neg htoken]

/-- A credit of the spendable confidential balance with a public amount. -/
theorem gains_rewarded (s : LedgerState C) (miner : Bytes32) (key : UInt32) (amount : UInt64) :
    Gains secret token s (s.rewarded miner key amount)
      (coins C (if token = key then (amount.toNat : ℤ) else 0)) := by
  unfold rewarded
  split
  · next hzero =>
    have hnothing : (if token = key then (amount.toNat : ℤ) else 0) = 0 := by
      rw [hzero]
      simp
    rw [hnothing, coins_zero]
    exact .of_same rfl rfl rfl rfl rfl
  · refine ((gains_setAccount s miner _).gain_eq ?_).of_places rfl rfl rfl rfl rfl
    rw [Account.worth_set, sealedValue_add, sealedValue_mint, add_sub_cancel_left]
    by_cases htoken : token = key
    · rw [if_pos htoken, if_pos htoken, add_sub_cancel_left]
    · rw [if_neg htoken, if_neg htoken, coins_zero]

/-- The debit of the sender of a confidential transfer: what its ciphertext encrypts, and the fee. -/
theorem gains_debitedConfidential {xfer : SolventTransfer C.Point C.SolventProof}
    (hacct : s.account (C.keyToBytes xfer.sender) = some acct) :
    Gains secret token s (s.debitedConfidential xfer acct key next)
      (if token = key then
        -sealedValue (secret (C.keyToBytes xfer.sender)) xfer.senderCiphertext -
          coins C xfer.fee.toNat
      else 0) := by
  apply gains_account hacct
  rw [Account.worth_withNonce, Account.worth_set]
  congr 1
  by_cases htoken : token = key
  · rw [if_pos htoken, if_pos htoken]
    by_cases hfee : xfer.fee > 0
    · rw [if_pos hfee, sealedValue_sub, sealedValue_sub, sealedValue_mint]
      abel
    · have hzero : xfer.fee.toNat = 0 := by
        rw [gt_iff_lt, UInt64.lt_iff_toNat_lt, UInt64.toNat_zero] at hfee
        omega
      rw [if_neg hfee, sealedValue_sub, hzero, Nat.cast_zero, coins_zero]
      abel
  · rw [if_neg htoken, if_neg htoken]

/-- The debits of a ring. -/
theorem gains_ring {debits : List (PublicKey C.Point × Ciphertext C.Point)}
    (hmembers : ∀ debit ∈ debits, (s.account (C.keyToBytes debit.1)).isSome) :
    Gains secret token s (debits.foldl (fun t debit ↦ t.ringDebited key debit) s)
      (if token = key then
        -(debits.map fun debit ↦ sealedValue (secret (C.keyToBytes debit.1)) debit.2).sum
      else 0) := by
  induction debits generalizing s with
  | nil => simpa using Gains.of_same rfl rfl rfl rfl rfl
  | cons debit rest ih =>
    obtain ⟨a, ha⟩ := Option.isSome_iff_exists.mp (hmembers debit List.mem_cons_self)
    have hdebited : s.ringDebited key debit =
        s.setAccount (C.keyToBytes debit.1) (a.set key (C.sub (a.balance key) debit.2)) := by
      simp [ringDebited, ha]
    have hfirst : Gains secret token s (s.ringDebited key debit)
        (if token = key then -sealedValue (secret (C.keyToBytes debit.1)) debit.2 else 0) := by
      rw [hdebited]
      apply gains_account ha
      rw [Account.worth_set, sealedValue_sub]
      congr 1
      by_cases htoken : token = key
      · rw [if_pos htoken, if_pos htoken]
        abel
      · rw [if_neg htoken, if_neg htoken]
    rw [List.foldl_cons]
    refine (hfirst.trans (ih fun other hother ↦ ?_)).gain_eq ?_
    · rw [hdebited, setAccount_account, Function.update_apply]
      split
      · rfl
      · exact hmembers other (List.mem_cons_of_mem _ hother)
    · by_cases htoken : token = key
      · rw [if_pos htoken, if_pos htoken, if_pos htoken, List.map_cons, List.sum_cons]
        abel
      · rw [if_neg htoken, if_neg htoken, if_neg htoken, add_zero]

end LedgerState

end Latebra.State
