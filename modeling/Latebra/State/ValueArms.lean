import Latebra.State.Movements

/-!
# What each transaction does to the worth

One lemma for each transaction variant, from its outcome: the worth of a ledger in a token goes down
by the fee that the transaction pays in it, and up by what the transaction issues. A confidential
transfer is taken at its word (`Truthful`): its proof states that what its ciphertexts encrypt adds
up. Credits are exact because the state after the transaction is roomy.
-/

set_option autoImplicit false
set_option relaxedAutoImplicit false

namespace Latebra.State

open Foundation Crypto Latebra.Types Contracts

variable {C : CryptoSuite}

/-- What the proof of a confidential transaction states: its ciphertexts encrypt amounts that add
up. The sender loses what the receiver gains, and the ring of an anonymous transfer loses what its
output gains and the fee. -/
def Truthful : Transaction C → Prop
  | .solventTransfer _ xfer | .unshield _ _ _ xfer _ =>
    ∃ amount, Encrypts xfer.sender xfer.senderCiphertext amount ∧
      Encrypts xfer.receiver xfer.receiverCiphertext amount
  | .anonTransfer _ xfer =>
    ∃ debits amount, (xfer.ring.zip xfer.enc).Forall₂ (fun pair debit ↦ Encrypts pair.1 pair.2 debit)
        debits ∧
      Encrypts xfer.output.oneTime xfer.credit amount ∧ debits.sum = amount + xfer.fee.toNat
  | _ => True

/-- The secret keys of accounts, by the bytes of their public keys. -/
def OpensKeys (C : CryptoSuite) (secret : Bytes32 → ℤ) : Prop :=
  ∀ key : PublicKey C.Point, secret (C.keyToBytes key) • C.basePoint = key.point

/-- What the debits of a ring encrypt together. -/
theorem sum_sealedValue {secret : Bytes32 → ℤ} (hkeys : OpensKeys C secret)
    {pairs : List (PublicKey C.Point × Ciphertext C.Point)} {debits : List ℕ}
    (hdebits : pairs.Forall₂ (fun pair debit ↦ Encrypts pair.1 pair.2 debit) debits) :
    (pairs.map fun pair ↦ sealedValue (secret (C.keyToBytes pair.1)) pair.2).sum =
      coins C debits.sum := by
  induction hdebits with
  | nil => simp
  | cons hpair _ ih =>
    rw [List.map_cons, List.sum_cons, List.sum_cons, ih, hpair.sealedValue_eq (hkeys _), Nat.cast_add,
      coins_add]

namespace LedgerState

variable {secret : Bytes32 → ℤ} {token key : UInt32} {s s' : LedgerState C} {r : Unit}

/-- The room that a written account is left with. -/
theorem Roomy.written_lt (hroom : s'.Roomy) {t : LedgerState C} {id : Bytes32} {after : Account C}
    (haccount : s'.account = (t.setAccount id after).account) (token : UInt32) :
    (after.pub token).toNat + 1 < 2 ^ 64 := by
  have hlt := hroom.pub_lt id token
  rwa [accountOr, haccount, setAccount_account, Function.update_self, Option.getD_some] at hlt

/-- The room that a credited account is left with. -/
theorem Roomy.credit_lt (hroom : s'.Roomy) {t : LedgerState C} {id : Bytes32} {acct : Account C}
    {amount : UInt64}
    (hafter : s' = t.setAccount id (acct.setPublic key (saturatingAdd (acct.pub key) amount))) :
    (saturatingAdd (acct.pub key) amount).toNat + 1 < 2 ^ 64 := by
  have hlt := hroom.written_lt (congrArg account hafter) key
  rwa [Account.pub_setPublic, if_pos rfl] at hlt

/-- An account that was written is the one to be credited. -/
theorem gains_pendingOf {id : Bytes32} {acct : Account C} (hacct : s.account id = some acct)
    (credit : Ciphertext C.Point) :
    Gains secret token s (s.pendingCredited acct id key credit)
      (if token = key then sealedValue (secret id) credit else 0) := by
  rw [← accountOr_of_some hacct]
  exact gains_pendingCredited s id key credit

/-! ### Transfers -/

theorem gains_publicTransfer {tx : Transaction C} {fromId toId : Bytes32}
    {amount fee nonce : UInt64} {sig : Bytes64} (hroom : s'.Roomy)
    (h : Runs (applyPublicTransfer tx key fromId toId amount fee nonce sig) s r s') :
    Gains secret token s s' (coins C (if token = key then -(fee.toNat : ℤ) else 0)) := by
  obtain ⟨sender, receiver, total, next, -, hsender, -, htotal, hcovered, -, hreceiver, hafter⟩ :=
    applyPublicTransfer_outcome h
  have hcredit : Gains secret token (s.debited fromId sender key total next) s'
      (coins C (if token = key then (amount.toNat : ℤ) else 0)) := by
    have hlt := hroom.credit_lt hafter
    rw [hafter]
    exact gains_creditedAccount hreceiver hlt
  refine ((gains_debited hsender hcovered).trans hcredit).gain_eq ?_
  rw [checkedAdd_eq_some] at htotal
  rw [← coins_add]
  congr 1
  split_ifs <;> omega

theorem gains_shield {tx : Transaction C} {fromId toId : Bytes32} {amount fee nonce : UInt64}
    {sig : Bytes64} (h : Runs (applyShield tx key fromId toId amount fee nonce sig) s r s') :
    Gains secret token s s' (coins C (if token = key then -(fee.toNat : ℤ) else 0)) := by
  obtain ⟨sender, receiver, total, next, -, hsender, -, htotal, hcovered, -, hreceiver, rfl⟩ :=
    applyShield_outcome h
  refine ((gains_debited hsender hcovered).trans (gains_pendingOf hreceiver _)).gain_eq ?_
  rw [checkedAdd_eq_some] at htotal
  rw [sealedValue_mint, ← coins_zero, ← apply_ite (coins C), ← coins_add]
  congr 1
  split_ifs <;> omega

theorem gains_shieldStealth {tx : Transaction C} {fromId oneTime : Bytes32}
    {amount fee nonce : UInt64} {sig : Bytes64}
    (h : Runs (applyShieldStealth tx key fromId oneTime amount fee nonce sig) s r s') :
    Gains secret token s s' (coins C (if token = key then -(fee.toNat : ℤ) else 0)) := by
  obtain ⟨sender, total, next, -, hsender, -, htotal, hcovered, -, rfl⟩ :=
    applyShieldStealth_outcome h
  refine ((gains_debited hsender hcovered).trans (gains_pendingCredited _ _ _ _)).gain_eq ?_
  rw [checkedAdd_eq_some] at htotal
  rw [sealedValue_mint, ← coins_zero, ← apply_ite (coins C), ← coins_add]
  congr 1
  split_ifs <;> omega

theorem gains_solventTransfer {pre : Option (ProofPass C)}
    {xfer : SolventTransfer C.Point C.SolventProof} (hkeys : OpensKeys C secret)
    (htruthful : Truthful (.solventTransfer key xfer))
    (h : Runs (applySolventTransfer pre key xfer) s r s') :
    Gains secret token s s' (coins C (if token = key then -(xfer.fee.toNat : ℤ) else 0)) := by
  obtain ⟨sender, receiver, next, hsender, -, -, -, hreceiver, rfl⟩ :=
    applySolventTransfer_outcome h
  obtain ⟨amount, hdebit, hcredit⟩ := htruthful
  refine ((gains_debitedConfidential hsender).trans (gains_pendingOf hreceiver _)).gain_eq ?_
  by_cases htoken : token = key
  · rw [if_pos htoken, if_pos htoken, if_pos htoken, coins_neg, hdebit.sealedValue_eq (hkeys _),
      hcredit.sealedValue_eq (hkeys _)]
    abel
  · rw [if_neg htoken, if_neg htoken, if_neg htoken, add_zero, coins_zero]

theorem gains_unshield {tx : Transaction C} {pre : Option (ProofPass C)} {toId : Bytes32}
    {amount : UInt64} {xfer : SolventTransfer C.Point C.SolventProof} {sig : Bytes64}
    (hroom : s'.Roomy) (hkeys : OpensKeys C secret)
    (htruthful : Truthful (.unshield key toId amount xfer sig))
    (h : Runs (applyUnshield tx pre key toId amount xfer sig) s r s') :
    Gains secret token s s' (coins C (if token = key then -(xfer.fee.toNat : ℤ) else 0)) := by
  obtain ⟨sender, next, -, hview, hsender, -, -, hreveals, -, rfl⟩ := applyUnshield_outcome h
  obtain ⟨hidden, hdebit, hcredit⟩ := htruthful
  refine ((gains_debitedConfidential hsender).trans
    (gains_credited _ _ _ _ (hroom.pub_lt toId key))).gain_eq ?_
  have hshown : coins C hidden = coins C amount.toNat := by
    have hpoint : (C.viewSecret : ℤ) • C.basePoint = xfer.receiver.point := by
      rw [hview, natCast_zsmul]
      rfl
    rw [← hcredit.sealedValue_eq hpoint, sealedValue, natCast_zsmul, ← of_decide_eq_true hreveals,
      sub_sub_cancel]
    exact (natCast_zsmul ..).symm
  by_cases htoken : token = key
  · rw [if_pos htoken, if_pos htoken, if_pos htoken, coins_neg, hdebit.sealedValue_eq (hkeys _),
      hshown]
    abel
  · rw [if_neg htoken, if_neg htoken, if_neg htoken, coins_zero, add_zero]

theorem gains_anonTransfer {pre : Option (ProofPass C)} {height : UInt64}
    {xfer : AnonTransfer C.Point C.AnonProof} (hkeys : OpensKeys C secret)
    (htruthful : Truthful (.anonTransfer key xfer))
    (h : Runs (applyAnonTransfer pre height key xfer) s r s') :
    Gains secret token s s' (coins C (if token = key then -(xfer.fee.toNat : ℤ) else 0)) := by
  obtain ⟨s₁, -, -, hbalances, -, -, hmembers, -, rfl, rfl⟩ := applyAnonTransfer_outcome h
  obtain ⟨debits, amount, hdebits, hcredit, htotal⟩ := htruthful
  have hregistered : ∀ debit ∈ xfer.ring.zip xfer.enc,
      (s.account (C.keyToBytes debit.1)).isSome := by
    intro debit hdebit
    have hring : debit.1 ∈ (xfer.ring.zip xfer.balances).map Prod.fst := by
      rw [List.map_fst_zip hbalances.ge]
      exact (List.of_mem_zip hdebit).1
    obtain ⟨entry, hentry, hsame⟩ := List.mem_map.mp hring
    obtain ⟨acct, hacct, -⟩ := hmembers entry hentry
    rw [← hsame, hacct]
    rfl
  refine (((gains_ring hregistered).trans (gains_pendingCredited _ _ _ _)).of_places
    rfl rfl rfl rfl rfl).gain_eq ?_
  by_cases htoken : token = key
  · rw [if_pos htoken, if_pos htoken, if_pos htoken, coins_neg, sum_sealedValue hkeys hdebits,
      htotal, hcredit.sealedValue_eq (hkeys _), Nat.cast_add, coins_add]
    abel
  · rw [if_neg htoken, if_neg htoken, if_neg htoken, coins_zero, add_zero]

theorem gains_rollover {tx : Transaction C} {id : Bytes32} {nonce : UInt64} {sig : Bytes64}
    (h : Runs (applyRollover tx id nonce sig) s r s') : Gains secret token s s' 0 := by
  obtain ⟨acct, next, -, hacct, -, rfl⟩ := applyRollover_outcome h
  apply gains_account hacct
  rw [Account.worth_withNonce, Account.worth_foldl_mergePending, add_zero]

/-! ### Tokens and contracts -/

/-- A flat fee, paid from a public balance. -/
theorem worth_flatFee {acct : Account C} (hfee : FLAT_TX_FEE ≤ acct.pub LAT_TOKEN) (id : ℤ) :
    (acct.setPublic LAT_TOKEN (acct.pub LAT_TOKEN - FLAT_TX_FEE)).worth id token =
      acct.worth id token + coins C (if token = LAT_TOKEN then -(FLAT_TX_FEE.toNat : ℤ) else 0) := by
  rw [Account.worth_setPublic, toNat_sub_of_toNat_le (UInt64.le_iff_toNat_le.mp hfee)]
  have hle := UInt64.le_iff_toNat_le.mp hfee
  congr 2
  split_ifs <;> omega

theorem gains_createToken {tx : Transaction C} {ticker : Text} {creator : Bytes32}
    {supply : UInt64} {sig : Bytes64}
    (h : Runs (applyCreateToken tx ticker creator supply sig) s r s') :
    Gains secret token s s' (coins C ((if token = s.nextTokenId then (supply.toNat : ℤ) else 0) +
      if token = LAT_TOKEN then -(FLAT_TX_FEE.toNat : ℤ) else 0)) := by
  obtain ⟨norm, acct, next, -, -, -, hacct, hfee, -, -, rfl⟩ := applyCreateToken_outcome h
  refine (gains_account hacct _ ?_).of_places rfl rfl rfl rfl rfl
  rw [Account.worth_set, worth_flatFee hfee, sealedValue_add, sealedValue_mint,
    Account.balance_setPublic, add_sub_cancel_left, ← coins_zero, ← apply_ite (coins C), add_assoc,
    ← coins_add, add_comm (if token = LAT_TOKEN then _ else _)]

theorem gains_deployContract {tx : Transaction C} {deployer : Bytes32} {code : Bytes}
    {sig : Bytes64} (h : Runs (applyDeployContract tx deployer code sig) s r s') :
    Gains secret token s s'
      (coins C (if token = LAT_TOKEN then -(FLAT_TX_FEE.toNat : ℤ) else 0)) := by
  obtain ⟨acct, -, hacct, hfee, -, rfl⟩ := applyDeployContract_outcome h
  exact (gains_account hacct _ (worth_flatFee hfee _)).of_places rfl rfl rfl rfl rfl

theorem gains_callContract {tx : Transaction C} {addr caller : Bytes32} {input nonce : UInt64}
    {sig : Bytes64} (h : Runs (applyCallContract tx addr caller input nonce sig) s r s') :
    Gains secret token s s'
      (coins C (if token = LAT_TOKEN then -(FLAT_TX_FEE.toNat : ℤ) else 0)) := by
  obtain ⟨acct, c, storage, next, -, hacct, -, -, hfee, -, rfl⟩ := applyCallContract_outcome h
  exact (gains_debited hacct hfee).of_places rfl rfl rfl rfl rfl

/-! ### Escrows -/

theorem held_escrow (id : Bytes32) : s.held secret token (.escrow id) =
    coins C ((s.htlc id).elim 0 (Htlc.amountOf · token)) := by
  cases hopen : s.htlc id <;> simp [held, hopen]

theorem gains_htlcLock {tx : Transaction C} {height : UInt64} {fromId toId : Bytes32}
    {amount : UInt64} {hashlock : Bytes32} {expiry fee nonce : UInt64} {sig : Bytes64}
    (h : Runs (applyHtlcLock tx height key fromId toId amount hashlock expiry fee nonce sig)
      s r s') :
    Gains secret token s s' (coins C (if token = LAT_TOKEN then -(fee.toNat : ℤ) else 0)) := by
  obtain ⟨acct, latDebit, paid, next, -, hacct, -, hfree, hdebit, hlat, htok, rfl, rfl⟩ :=
    applyHtlcLock_outcome h
  have hlat' := UInt64.le_iff_toNat_le.mp hlat
  have hpaid := toNat_sub_of_toNat_le hlat'
  refine ((gains_public hacct ?_ ?_).trans (gains_setHtlc _ _ _)).gain_eq ?_
  · split <;> simp
  · split <;> simp
  · rw [held_escrow, setAccount_htlc, hfree, ← coins_sub, ← coins_add]
    congr 1
    by_cases hkey : key = LAT_TOKEN
    · rw [if_pos hkey, checkedAdd_eq_some] at hdebit
      simp only [if_pos hkey, Account.pub_withNonce, Account.pub_setPublic, Option.elim_some,
        Option.elim_none, Htlc.amountOf]
      split_ifs <;> simp_all
    · rw [if_neg hkey, Option.some.injEq] at hdebit
      have htok' := UInt64.le_iff_toNat_le.mp (htok hkey)
      have hrest := toNat_sub_of_toNat_le htok'
      simp only [if_neg hkey, Account.pub_withNonce, Account.pub_setPublic, Option.elim_some,
        Option.elim_none, Htlc.amountOf]
      split_ifs <;> simp_all

/-- The release of an escrow to one of its sides. -/
theorem gains_release {id payee : Bytes32} {escrow : Htlc} (hopen : s.htlc id = some escrow)
    (hroom : ((s.setHtlc id none).credited payee escrow.token escrow.amount).Roomy) :
    Gains secret token s ((s.setHtlc id none).credited payee escrow.token escrow.amount) 0 := by
  refine ((gains_setHtlc s id none).trans
    (gains_credited _ _ _ _ (hroom.pub_lt payee escrow.token))).gain_eq ?_
  rw [held_escrow, hopen, ← coins_sub, ← coins_add, ← coins_zero]
  congr 1
  simp only [Option.elim_some, Option.elim_none, Htlc.amountOf]
  split_ifs <;> omega

/-! ### Staking -/

/-- What a release takes out of a staking record. -/
theorem released_amount {v after : Validator} {height released : UInt64}
    (hrelease : releaseMatured v height = some (released, after)) :
    after.staked = v.staked ∧
      released.toNat + unbondingTotal after.unbonding = unbondingTotal v.unbonding := by
  obtain ⟨rfl, hreleased⟩ := releaseMatured_outcome hrelease
  exact ⟨rfl, hreleased⟩

/-- What a release adds to a public balance fits. -/
theorem Roomy.released_lt {id : Bytes32} {acct : Account C} {after : Validator}
    {height released : UInt64} (hroom : s.Roomy) (hacct : s.account id = some acct)
    (hrelease : releaseMatured (s.validatorOr id) height = some (released, after)) :
    (acct.pub LAT_TOKEN).toNat + (s.validatorOr id).staked.toNat + released.toNat < 2 ^ 64 ∧
      (saturatingAdd (acct.pub LAT_TOKEN) released).toNat =
        (acct.pub LAT_TOKEN).toNat + released.toNat := by
  obtain ⟨-, hreleased⟩ := released_amount hrelease
  have hlt := hroom.stake_lt id
  rw [accountOr_of_some hacct] at hlt
  change _ + ((s.validatorOr id).staked.toNat + unbondingTotal (s.validatorOr id).unbonding) + 1 < _
    at hlt
  exact ⟨by omega, toNat_saturatingAdd_of_lt (by omega)⟩

theorem gains_stake {tx : Transaction C} {height : UInt64} {id : Bytes32} {amount nonce : UInt64}
    {sig : Bytes64} (hroom : s.Roomy) (h : Runs (applyStake tx height id amount nonce sig) s r s') :
    Gains secret token s s' 0 := by
  obtain ⟨acct, released, val, next, -, hacct, -, hrelease, hcovered, -, rfl⟩ :=
    applyStake_outcome h
  obtain ⟨hstaked, hreleased⟩ := released_amount hrelease
  obtain ⟨hlt, havailable⟩ := hroom.released_lt hacct hrelease
  have hamount := UInt64.le_iff_toNat_le.mp hcovered
  have hrest := toNat_sub_of_toNat_le hamount
  have hbonded : (saturatingAdd val.staked amount).toNat =
      (s.validatorOr id).staked.toNat + amount.toNat := by
    rw [toNat_saturatingAdd_of_lt (by rw [hstaked]; omega), hstaked]
  refine ((gains_public hacct (by simp) (by simp)).trans (gains_setValidator _ _ _)).gain_eq ?_
  rw [← coins_add, ← coins_zero]
  congr 1
  show _ + (_ - (s.validatorOr id).amountOf token) = _
  simp only [Account.pub_withNonce, Account.pub_setPublic, Validator.amountOf]
  split_ifs with htoken
  · subst htoken
    omega
  · omega

theorem gains_unstake {tx : Transaction C} {height : UInt64} {id : Bytes32}
    {amount nonce : UInt64} {sig : Bytes64} (hroom : s.Roomy)
    (h : Runs (applyUnstake tx height id amount nonce sig) s r s') :
    Gains secret token s s' 0 := by
  obtain ⟨acct, released, val, release, next, -, hacct, -, hrelease, hcovered, -, -, rfl⟩ :=
    applyUnstake_outcome h
  obtain ⟨hstaked, hreleased⟩ := released_amount hrelease
  obtain ⟨hlt, havailable⟩ := hroom.released_lt hacct hrelease
  have hamount := UInt64.le_iff_toNat_le.mp hcovered
  have hrest := toNat_sub_of_toNat_le hamount
  have hentry : unbondingTotal (if 0 < amount then [(amount, release)] else []) = amount.toNat := by
    split
    · simp
    · next hzero =>
      rw [UInt64.lt_iff_toNat_lt, UInt64.toNat_zero] at hzero
      rw [unbondingTotal_nil]
      omega
  refine ((gains_public hacct (by simp) (by simp)).trans (gains_setValidator _ _ _)).gain_eq ?_
  rw [← coins_add, ← coins_zero]
  congr 1
  show _ + (_ - (s.validatorOr id).amountOf token) = _
  rw [hstaked] at hamount hrest
  simp only [Account.pub_withNonce, Account.pub_setPublic, Validator.amountOf,
    unbondingTotal_append, hentry, hstaked]
  split_ifs with htoken
  · subst htoken
    omega
  · omega

theorem slash_amounts {id : Bytes32} {unbonding total : UInt64} (hlt : s.stakeHeld id < 2 ^ 64)
    (hsum : checkedSum ((s.validatorOr id).unbonding.map Prod.fst) = some unbonding)
    (htotal : total = saturatingAdd (s.validatorOr id).staked unbonding) (hpos : total ≠ 0) :
    (slashAmount total).toNat = s.penalty id ∧ s.penalty id ≤ s.stakeHeld id ∧
      (slashReward (slashAmount total)).toNat = s.penalty id * SLASH_REWARD_BPS / 10000 := by
  have hunbonding : unbonding.toNat = unbondingTotal (s.unbonding id) := checkedSum_amounts hsum
  have hfits : (s.validatorOr id).staked.toNat + unbonding.toNat < 2 ^ 64 := by
    rwa [hunbonding]
  have hstake : total.toNat = s.stakeHeld id := by
    rw [htotal, toNat_saturatingAdd_of_lt hfits, hunbonding]
    rfl
  have hpenalty : (slashAmount total).toNat = s.penalty id := by
    rw [toNat_slashAmount, hstake, penalty]
    show _ = max 1 (s.stakeHeld id * 1000 / 10000)
    omega
  have hle := slashAmount_le hpos
  rw [hpenalty, hstake] at hle
  have hshare : s.penalty id * SLASH_REWARD_BPS / 10000 < 2 ^ 64 := by
    show s.penalty id * 500 / 10000 < _
    omega
  exact ⟨hpenalty, hle, by rw [slashReward, hpenalty, UInt64.toNat_ofNat_of_lt' hshare]⟩

theorem gains_slashPaid {beneficiary : Bytes32} {reward : UInt64}
    (hroom : (s.slashPaid beneficiary reward).Roomy) :
    Gains secret token s (s.slashPaid beneficiary reward) (coins C (if token = LAT_TOKEN then
      if (s.account beneficiary).isSome then (reward.toNat : ℤ) else 0 else 0)) := by
  by_cases hpos : 0 < reward
  · cases hacct : s.account beneficiary with
    | none =>
      have hsame : s.slashPaid beneficiary reward = s := by
        rw [slashPaid, if_pos hpos, hacct]
      rw [hsame, Option.isSome_none, if_neg Bool.false_ne_true, ite_self, coins_zero]
      exact .of_same rfl rfl rfl rfl rfl
    | some acct =>
      have hafter : s.slashPaid beneficiary reward = s.setAccount beneficiary
          (acct.setPublic LAT_TOKEN (saturatingAdd (acct.pub LAT_TOKEN) reward)) := by
        rw [slashPaid, if_pos hpos, hacct]
      rw [Option.isSome_some, if_pos rfl, hafter]
      exact gains_creditedAccount hacct (hroom.credit_lt hafter)
  · have hnone : reward.toNat = 0 := by
      rw [UInt64.lt_iff_toNat_lt, UInt64.toNat_zero] at hpos
      omega
    rw [slashPaid, if_neg hpos, hnone, Nat.cast_zero, ite_self, ite_self, coins_zero]
    exact .of_same rfl rfl rfl rfl rfl

/-- A penalty takes from the stake, and pays a registered submitter. The rest of it is burned. -/
theorem gains_slashEvidence {id beneficiary : Bytes32} {voteHeight : UInt64}
    {blockA blockB : Bytes32} {sigA sigB : Bytes64} (hroom : s.Roomy) (hroom' : s'.Roomy)
    (h : Runs (applySlashEvidence id beneficiary voteHeight blockA sigA blockB sigB) s r s') :
    Gains secret token s s' (coins C (if token = LAT_TOKEN then
      (s.slashingReward id beneficiary : ℤ) - s.penalty id else 0)) := by
  obtain ⟨unbonding, total, -, -, -, -, hsum, htotal, hpos, rfl⟩ := applySlashEvidence_outcome h
  have hlt := hroom.stake_lt id
  obtain ⟨hpenalty, hle, hreward⟩ := slash_amounts (by omega) hsum htotal hpos
  have htaken : (slashAmount total).toNat ≤
      (s.validatorOr id).staked.toNat + unbondingTotal (s.validatorOr id).unbonding := by
    rwa [hpenalty]
  have hrest := slashValidator_total htaken
  refine ((gains_setValidator _ _ _).trans (gains_slashPaid hroom')).gain_eq ?_
  rw [← coins_add]
  congr 1
  show _ + (if token = LAT_TOKEN then if (s.account beneficiary).isSome then _ else _ else _) = _
  unfold slashingReward
  simp only [Validator.amountOf, hreward]
  by_cases htoken : token = LAT_TOKEN
  · rw [if_pos htoken, if_pos htoken, if_pos htoken, if_pos htoken]
    split_ifs <;> omega
  · rw [if_neg htoken, if_neg htoken, if_neg htoken, if_neg htoken]
    rfl

/-! ### Pools -/

theorem held_pool (key : UInt32) : s.held secret token (.pool key) =
    coins C ((s.pool key).elim 0 (Pool.amountOf · token)) := by
  cases hpool : s.pool key <;> simp [held, hpool]

/-- A pool that is there after a write of it has shares. -/
theorem supply_ne_zero {t : LedgerState C} {after : Pool} (htoken : after.token = key)
    (hopen : ((t.setPool after).pool key).isSome) : after.lpSupply ≠ 0 := by
  intro hzero
  rw [setPool_pool, htoken, if_pos hzero, Function.update_self] at hopen
  exact Bool.false_ne_true hopen

theorem token_of_deposit {before : Option Pool} (hkeyed : ∀ p, before = some p → p.token = key)
    {latAmount tokAmount tokUsed minted : UInt64} {after : Pool}
    (hplanned : DepositPlanned before key latAmount tokAmount after tokUsed minted) :
    after.token = key := by
  cases before with
  | none =>
    obtain ⟨-, rfl, -, -⟩ := hplanned
    rfl
  | some p => exact hplanned.1.trans (hkeyed p rfl)

/-- A pool that is opened has shares. -/
theorem supply_of_opening {latAmount tokAmount tokUsed minted : UInt64} {after : Pool}
    (hplanned : DepositPlanned none key latAmount tokAmount after tokUsed minted) :
    after.lpSupply ≠ 0 := by
  obtain ⟨hminimum, rfl, -, -⟩ := hplanned
  intro hzero
  change isqrt _ = 0 at hzero
  rw [hzero] at hminimum
  exact absurd hminimum (by decide)

/-- What a deposit brings to the pool. -/
theorem gains_deposited {before : Option Pool} (hkeyed : ∀ p, before = some p → p.token = key)
    {latAmount tokAmount tokUsed minted : UInt64} {after : Pool}
    (hplanned : DepositPlanned before key latAmount tokAmount after tokUsed minted)
    (hbefore : s.pool key = before) (hsupply : after.lpSupply ≠ 0) :
    Gains secret token s (s.setPool after)
      (coins C ((if token = LAT_TOKEN then (latAmount.toNat : ℤ) else 0) +
        if token = key then (tokUsed.toNat : ℤ) else 0)) := by
  have htoken := token_of_deposit hkeyed hplanned
  refine (gains_setPool s hsupply).gain_eq ?_
  rw [htoken, held_pool, hbefore, ← coins_sub]
  congr 1
  cases before with
  | none =>
    obtain ⟨-, rfl, rfl, -⟩ := hplanned
    exact sub_zero _
  | some p =>
    obtain ⟨-, hlat, htok, -⟩ := hplanned
    rw [checkedAdd_eq_some] at hlat htok
    simp only [Option.elim_some, Pool.amountOf, htoken, hkeyed p rfl]
    split_ifs <;> omega

/-- The gain of a pool that goes on with other reserves. -/
theorem gains_repooled {p after : Pool} (hpool : s.pool key = some p) (hkeyed : p.token = key)
    (htoken : after.token = p.token) (hopen : ((s.setPool after).pool key).isSome) :
    Gains secret token s (s.setPool after)
      (coins C ((if token = LAT_TOKEN then (after.lat.toNat : ℤ) - p.lat.toNat else 0) +
        if token = key then (after.tok.toNat : ℤ) - p.tok.toNat else 0)) := by
  have hafter := htoken.trans hkeyed
  refine (gains_setPool s (supply_ne_zero hafter hopen)).gain_eq ?_
  rw [hafter, held_pool, hpool, ← coins_sub]
  congr 1
  simp only [Option.elim_some, Pool.amountOf, hafter, hkeyed]
  split_ifs <;> omega

/-- What an account pays in LAT and in a token, and what a pool or a curve takes in. -/
theorem gains_sides {id : Bytes32} {acct after : Account C} (hkey : key ≠ LAT_TOKEN)
    (hacct : s.account id = some acct) (hbalance : after.balance token = acct.balance token)
    (hpending : after.pending token = acct.pending token)
    (hothers : token ≠ LAT_TOKEN → token ≠ key → after.pub token = acct.pub token)
    {lat tok : ℤ} (hside : Gains secret token (s.setAccount id after) s'
      (coins C ((if token = LAT_TOKEN then lat else 0) + if token = key then tok else 0)))
    {latGain tokGain : ℤ}
    (hlat : (after.pub LAT_TOKEN).toNat - (acct.pub LAT_TOKEN).toNat + lat = latGain)
    (htok : (after.pub key).toNat - (acct.pub key).toNat + tok = tokGain) :
    Gains secret token s s'
      (coins C ((if token = LAT_TOKEN then latGain else 0) + if token = key then tokGain else 0)) := by
  refine ((gains_public hacct hbalance hpending).trans hside).gain_eq ?_
  rw [← coins_add]
  congr 1
  by_cases htoken : token = LAT_TOKEN
  · subst htoken
    rw [if_pos rfl, if_neg hkey.symm, if_pos rfl, if_neg hkey.symm, add_zero, add_zero]
    exact hlat
  · by_cases htraded : token = key
    · subst htraded
      rw [if_neg htoken, if_pos rfl, if_neg htoken, if_pos rfl, zero_add, zero_add]
      exact htok
    · rw [if_neg htoken, if_neg htraded, if_neg htoken, if_neg htraded, hothers htoken htraded,
        sub_self]
      rfl

/-- A trade with a pool, in which the trader pays a fee. -/
theorem gains_traded {id : Bytes32} {acct after : Account C} (hkey : key ≠ LAT_TOKEN)
    (hacct : s.account id = some acct) (hbalance : after.balance token = acct.balance token)
    (hpending : after.pending token = acct.pending token)
    (hothers : token ≠ LAT_TOKEN → token ≠ key → after.pub token = acct.pub token)
    {lat tok : ℤ} (hpool : Gains secret token (s.setAccount id after) s'
      (coins C ((if token = LAT_TOKEN then lat else 0) + if token = key then tok else 0)))
    {fee : UInt64}
    (hlat : (after.pub LAT_TOKEN).toNat - (acct.pub LAT_TOKEN).toNat + lat = -(fee.toNat : ℤ))
    (htok : (after.pub key).toNat - (acct.pub key).toNat + tok = 0) :
    Gains secret token s s' (coins C (if token = LAT_TOKEN then -(fee.toNat : ℤ) else 0)) := by
  have hgain := gains_sides hkey hacct hbalance hpending hothers hpool hlat htok
  rwa [ite_self, add_zero] at hgain

theorem gains_addLiquidity {tx : Transaction C} {provider : Bytes32}
    {latAmount tokAmount fee nonce : UInt64} {sig : Bytes64} (hshares : s.SharesBacked)
    (hopen : s.pool key ≠ none → (s'.pool key).isSome)
    (h : Runs (applyAddLiquidity tx key provider latAmount tokAmount fee nonce sig) s r s') :
    Gains secret token s s' (coins C (if token = LAT_TOKEN then -(fee.toNat : ℤ) else 0)) := by
  obtain ⟨acct, paid, after, tokUsed, minted, latTotal, shares, next, -, hkey, hacct, -, hplanned,
    htotal, hlat, htok, hpaid, -, rfl⟩ := applyAddLiquidity_outcome h
  have hsupply : after.lpSupply ≠ 0 := by
    by_cases hpool : s.pool key = none
    · exact supply_of_opening (hpool ▸ hplanned)
    · exact supply_ne_zero (token_of_deposit (hshares.keyed key) hplanned) (hopen hpool)
  have hdeposit : Gains secret token ((s.debited provider paid key tokUsed next).setLp key provider
      shares) _ _ := gains_deposited (hshares.keyed key) hplanned rfl hsupply
  subst hpaid
  rw [checkedAdd_eq_some] at htotal
  have hlat' := UInt64.le_iff_toNat_le.mp hlat
  have htok' := UInt64.le_iff_toNat_le.mp htok
  have hlatRest := toNat_sub_of_toNat_le hlat'
  have htokRest := toNat_sub_of_toNat_le htok'
  refine gains_traded hkey hacct ?_ ?_ ?_
    hdeposit ?_ ?_
  · simp
  · simp
  · simp +contextual
  · simp only [Account.pub_withNonce, Account.pub_setPublic, if_neg hkey.symm, if_pos]
    omega
  · simp only [Account.pub_withNonce, Account.pub_setPublic, if_neg hkey, if_pos]
    omega

theorem gains_removeLiquidity {tx : Transaction C} {provider : Bytes32}
    {lpAmount fee nonce : UInt64} {sig : Bytes64} (hkey : key ≠ LAT_TOKEN)
    (hshares : s.SharesBacked) (hroom : s'.Roomy) (hopen : (s'.pool key).isSome)
    (h : Runs (applyRemoveLiquidity tx key provider lpAmount fee nonce sig) s r s') :
    Gains secret token s s' (coins C (if token = LAT_TOKEN then -(fee.toNat : ℤ) else 0)) := by
  obtain ⟨acct, paid, returned, p, after, latOut, tokOut, next, -, hacct, -, hpool, -, hfee, rfl,
    htoken, hlat, htok, -, rfl, rfl⟩ := applyRemoveLiquidity_outcome h
  rw [checkedSub_eq_some] at hlat htok
  have hfee' := UInt64.le_iff_toNat_le.mp hfee
  have hrest := toNat_sub_of_toNat_le hfee'
  have hroomLat := hroom.written_lt rfl LAT_TOKEN
  have hroomTok := hroom.written_lt rfl key
  simp only [Account.pub_withNonce, Account.pub_setPublic, if_neg hkey, if_neg hkey.symm, if_pos]
    at hroomLat hroomTok
  have hpaidLat := toNat_saturatingAdd_of_room hroomLat
  have hpaidTok := toNat_saturatingAdd_of_room hroomTok
  refine gains_traded hkey hacct ?_ ?_ ?_
    (gains_repooled hpool (hshares.keyed key p hpool) htoken hopen) ?_ ?_
  · simp
  · simp
  · simp +contextual
  · simp only [Account.pub_withNonce, Account.pub_setPublic, if_neg hkey.symm, if_pos]
    omega
  · simp only [Account.pub_withNonce, Account.pub_setPublic, if_neg hkey, if_pos]
    omega

theorem gains_swap {tx : Transaction C} {trader : Bytes32} {latIn : Bool}
    {amountIn minOut fee nonce : UInt64} {sig : Bytes64} (hkey : key ≠ LAT_TOKEN)
    (hshares : s.SharesBacked) (hroom : s'.Roomy) (hopen : (s'.pool key).isSome)
    (h : Runs (applySwap tx key trader latIn amountIn minOut fee nonce sig) s r s') :
    Gains secret token s s' (coins C (if token = LAT_TOKEN then -(fee.toNat : ℤ) else 0)) := by
  have hgain {t : LedgerState C} {p : Pool} {lat tok : UInt64} (hpool : s.pool key = some p)
      (hbefore : t.pool = s.pool)
      (hafter : ((t.setPool { p with lat := lat, tok := tok }).pool key).isSome) :
      Gains secret token t (t.setPool { p with lat := lat, tok := tok }) _ :=
    gains_repooled ((congrFun hbefore key).trans hpool) (hshares.keyed key p hpool) rfl hafter
  cases latIn with
  | true =>
    obtain ⟨acct, paid, p, debit, tokOut, lat, tok, next, -, hacct, -, hpool, hlat, htok, hdebit,
      hcovered, rfl, rfl⟩ := applySwap_outcome_latIn h
    rw [checkedAdd_eq_some] at hlat hdebit
    rw [checkedSub_eq_some] at htok
    have hcovered' := UInt64.le_iff_toNat_le.mp hcovered
    have hrest := toNat_sub_of_toNat_le hcovered'
    have hroomTok := hroom.written_lt rfl key
    simp only [Account.pub_withNonce, Account.pub_setPublic, if_neg hkey, if_pos] at hroomTok
    have hpaidTok := toNat_saturatingAdd_of_room hroomTok
    refine gains_traded hkey hacct ?_ ?_ ?_ (hgain hpool rfl hopen) ?_ ?_
    · simp
    · simp
    · simp +contextual
    · simp only [Account.pub_withNonce, Account.pub_setPublic, if_neg hkey.symm, if_pos]
      omega
    · simp only [Account.pub_withNonce, Account.pub_setPublic, if_neg hkey, if_pos]
      omega
  | false =>
    obtain ⟨acct, paid, spent, p, latOut, tokLeft, lat, tok, next, -, hacct, -, hpool, htok, hlat,
      hcovered, rfl, hleft, rfl, rfl⟩ := applySwap_outcome_tokIn h
    rw [checkedAdd_eq_some] at htok
    rw [checkedSub_eq_some] at hlat hleft
    rw [Account.pub_setPublic, if_neg hkey] at hleft
    have hcovered' := UInt64.le_iff_toNat_le.mp hcovered
    have hrest := toNat_sub_of_toNat_le hcovered'
    have hroomLat := hroom.written_lt rfl LAT_TOKEN
    simp only [Account.pub_withNonce, Account.pub_setPublic, if_neg hkey.symm, if_pos] at hroomLat
    have hpaidLat := toNat_saturatingAdd_of_room hroomLat
    refine gains_traded hkey hacct ?_ ?_ ?_ (hgain hpool rfl hopen) ?_ ?_
    · simp
    · simp
    · simp +contextual
    · simp only [Account.pub_withNonce, Account.pub_setPublic, if_neg hkey.symm, if_pos]
      omega
    · simp only [Account.pub_withNonce, Account.pub_setPublic, if_neg hkey, if_pos]
      omega

/-! ### Curves -/

/-- The gain of a curve that goes on with another reserve. -/
theorem gains_recurved {before : Option CurvePool} {after : Curve} (hbefore : s.curve key = before) :
    Gains secret token s (s.setCurve (CurvePool.fromMath key after))
      (coins C (if token = LAT_TOKEN then
        (after.realLat.toNat : ℤ) - (before.getD (CurvePool.genesis key)).realLat.toNat else 0)) := by
  refine (gains_setCurve s _).gain_eq ?_
  have hheld : s.held secret token (.curve key) =
      coins C ((before.getD (CurvePool.genesis key)).amountOf token) := by
    rw [← hbefore]
    cases hcurve : s.curve key with
    | none =>
      have hgenesis : (CurvePool.genesis key).amountOf token = 0 := ite_self 0
      simp [held, hcurve, hgenesis]
    | some c => simp [held, hcurve]
  show _ - s.held secret token (.curve key) = _
  rw [hheld, ← coins_sub]
  congr 1
  unfold CurvePool.amountOf
  split_ifs
  · rfl
  · rfl

/-- The creator of a token is paid, and its curve goes on with another reserve. -/
theorem gains_settled {creator : Bytes32} {cut : UInt64} {c : CurvePool} {after : Curve}
    (hcurve : (s.curve key).getD (CurvePool.genesis key) = c)
    (hroom : ((s.credited creator LAT_TOKEN cut).setCurve (CurvePool.fromMath key after)).Roomy) :
    Gains secret token s
      ((s.credited creator LAT_TOKEN cut).setCurve (CurvePool.fromMath key after))
      (coins C ((if token = LAT_TOKEN then (cut.toNat + after.realLat.toNat - c.realLat.toNat : ℤ)
        else 0) + if token = key then 0 else 0)) := by
  have hsame : (s.credited creator LAT_TOKEN cut).curve key = s.curve key := by
    rw [credited_curve]
  refine ((gains_credited s creator LAT_TOKEN cut (hroom.pub_lt creator LAT_TOKEN)).trans
    (gains_recurved hsame)).gain_eq ?_
  rw [hcurve, ← coins_add, ite_self, add_zero]
  congr 1
  split_ifs <;> omega

/-- The room that a trader is left with when the creator of the token is paid after him. -/
theorem Roomy.settled_lt {t : LedgerState C} {id creator : Bytes32} {after : Account C}
    {cut : UInt64} {c : CurvePool}
    (hroom : (((t.setAccount id after).credited creator LAT_TOKEN cut).setCurve c).Roomy)
    (token : UInt32) : (after.pub token).toNat + 1 < 2 ^ 64 := by
  have hle := pub_credited_le (t.setAccount id after) creator id LAT_TOKEN token cut
  rw [accountOr_setAccount, if_pos rfl] at hle
  have hlt := hroom.pub_lt id token
  change (((credited _ _ _ _).accountOr id).pub token).toNat + 1 < _ at hlt
  omega

theorem gains_curveBuy {trader creator : Bytes32} {acct : Account C} {c : CurvePool}
    {amount minOut fee : UInt64} (hkey : key ≠ LAT_TOKEN) (hacct : s.account trader = some acct)
    (hcurve : (s.curve key).getD (CurvePool.genesis key) = c) (hroom : s'.Roomy)
    (h : Runs (curveBuy key trader creator acct c.math amount minOut fee) s r s') :
    ∃ fill after, c.math.applyBuy amount = some (some (fill, after)) ∧
      Gains secret token s s' (coins C ((if token = LAT_TOKEN then -(fee.toNat : ℤ) else 0) +
        if token = key then (fill.out.toNat : ℤ) else 0)) := by
  obtain ⟨fill, after, debit, paid, next, hbuy, hdebit, hcovered, rfl, rfl⟩ := curveBuy_outcome h
  obtain ⟨-, hbought⟩ := Curve.applyBuy_bought hbuy
  rw [checkedAdd_eq_some] at hdebit
  have hcovered' := UInt64.le_iff_toNat_le.mp hcovered
  have hrest := toNat_sub_of_toNat_le hcovered'
  have hroomTok := hroom.settled_lt key
  simp only [Account.pub_withNonce, Account.pub_setPublic, if_neg hkey, if_pos] at hroomTok
  have hpaidTok := toNat_saturatingAdd_of_room hroomTok
  have hcut : fill.fee.toNat ≤ amount.toNat := by
    rw [hbought.fee_eq]
    exact Nat.div_le_self _ _
  have hreserve := hbought.realLat_eq
  change after.realLat.toNat = c.realLat.toNat + _ at hreserve
  refine ⟨fill, after, hbuy, gains_sides hkey hacct ?_ ?_ ?_ (gains_settled hcurve hroom) ?_ ?_⟩
  · simp
  · simp
  · simp +contextual
  · simp only [Account.pub_withNonce, Account.pub_setPublic, if_neg hkey.symm, if_pos]
    omega
  · simp only [Account.pub_withNonce, Account.pub_setPublic, if_neg hkey, if_pos]
    omega

theorem gains_curveSell {trader creator : Bytes32} {acct : Account C} {c : CurvePool}
    {amount minOut fee : UInt64} (hkey : key ≠ LAT_TOKEN) (hacct : s.account trader = some acct)
    (hcurve : (s.curve key).getD (CurvePool.genesis key) = c) (hroom : s'.Roomy)
    (h : Runs (curveSell key trader creator acct c.math amount minOut fee) s r s') :
    ∃ fill after, c.math.applySell amount (acct.pub key) = some (some (fill, after)) ∧
      Gains secret token s s' (coins C ((if token = LAT_TOKEN then -(fee.toNat : ℤ) else 0) +
        if token = key then -(amount.toNat : ℤ) else 0)) := by
  obtain ⟨fill, after, gross, paid, sold, next, hsell, hgross, hsolvent, hheld, hcovered, rfl, rfl,
    rfl⟩ := curveSell_outcome h
  rw [checkedAdd_eq_some] at hgross
  have hsolvent' := UInt64.le_iff_toNat_le.mp hsolvent
  obtain ⟨-, hamount, hsold⟩ := Curve.applySell_sold hsell (by omega)
  have hcovered' := UInt64.le_iff_toNat_le.mp hcovered
  have hrest := toNat_sub_of_toNat_le hcovered'
  have hleft := toNat_sub_of_toNat_le hamount
  have hroomLat := hroom.settled_lt LAT_TOKEN
  simp only [Account.pub_withNonce, Account.pub_setPublic, if_neg hkey.symm, if_pos] at hroomLat
  have hpaidLat := toNat_saturatingAdd_of_room hroomLat
  have hreserve := hsold.realLat_eq
  change after.realLat.toNat + _ = c.realLat.toNat at hreserve
  refine ⟨fill, after, hsell, gains_sides hkey hacct ?_ ?_ ?_ (gains_settled hcurve hroom) ?_ ?_⟩
  · simp
  · simp
  · simp +contextual
  · simp only [Account.pub_withNonce, Account.pub_setPublic, if_neg hkey.symm, if_pos]
    omega
  · simp only [Account.pub_withNonce, Account.pub_setPublic, if_neg hkey, if_pos]
    omega

/-- A trade on a curve issues the tokens that it buys, and burns those that it sells. -/
theorem gains_curveTrade {tx : Transaction C} {trader : Bytes32} {isBuy : Bool}
    {amount minOut fee nonce : UInt64} {sig : Bytes64} (hroom : s'.Roomy)
    (h : Runs (applyCurveTrade tx key trader isBuy amount minOut fee nonce sig) s r s') :
    ∃ trade, s.quote key (.curveTrade key trader isBuy amount minOut fee nonce sig) = some trade ∧
      Gains secret token s s' (coins C ((if token = LAT_TOKEN then -(fee.toNat : ℤ) else 0) +
        if token = key then (trade.bought : ℤ) - trade.sold else 0)) := by
  obtain ⟨tokenMeta, acct, c, -, hkey, -, hacct, -, hcurve, -, htrade⟩ := applyCurveTrade_outcome h
  have hpriced : (s.curve key).getD (CurvePool.genesis key) = c := by
    rcases hcurve with hopen | ⟨hnone, -, rfl⟩
    · rw [hopen, Option.getD_some]
    · rw [hnone, Option.getD_none]
  rcases htrade with ⟨rfl, hbuy⟩ | ⟨rfl, hsell⟩
  · obtain ⟨fill, after, hfill, hgains⟩ := gains_curveBuy hkey hacct hpriced hroom hbuy
    refine ⟨⟨trader, true, amount, fee, fill⟩, ?_, ?_⟩
    · simp [quote, priced, hpriced, hfill]
    · simpa [CurveFill.bought, CurveFill.sold] using hgains
  · obtain ⟨fill, after, hfill, hgains⟩ := gains_curveSell hkey hacct hpriced hroom hsell
    refine ⟨⟨trader, false, amount, fee, fill⟩, ?_, ?_⟩
    · simp [quote, priced, hpriced, hacct, hfill]
    · simpa [CurveFill.bought, CurveFill.sold] using hgains

end LedgerState

end Latebra.State
