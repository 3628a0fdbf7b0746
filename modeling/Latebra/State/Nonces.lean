import Latebra.State.Reachability

/-!
# Spend nonces

Most transactions carry the nonce of the account that pays for them. Such a transaction succeeds only
at the current nonce of its account and leaves a larger one behind, and no operation ever lowers a
nonce or removes an account. So no such transaction succeeds twice, whatever happens in between
(`Reachable.no_replay`). The transactions without a nonce are protected by what they leave behind: a
nullifier, a ticker or a contract address that is taken from then on.
-/

set_option autoImplicit false
set_option relaxedAutoImplicit false

namespace Latebra.State

open Foundation Crypto Latebra.Types Contracts

variable {C : CryptoSuite}

/-- The account and the nonce that a transaction spends, if it carries a nonce. -/
def spendOf : Transaction C → Option (Bytes32 × UInt64)
  | .solventTransfer _ xfer => some (C.keyToBytes xfer.sender, xfer.nonce)
  | .rollover id nonce _ => some (id, nonce)
  | .callContract _ caller _ nonce _ => some (caller, nonce)
  | .publicTransfer _ fromId _ _ _ nonce _ => some (fromId, nonce)
  | .shield _ fromId _ _ _ nonce _ => some (fromId, nonce)
  | .unshield _ _ _ xfer _ => some (C.keyToBytes xfer.sender, xfer.nonce)
  | .shieldStealth _ fromId _ _ _ _ nonce _ => some (fromId, nonce)
  | .stake id _ nonce _ => some (id, nonce)
  | .unstake id _ nonce _ => some (id, nonce)
  | .addLiquidity _ provider _ _ _ nonce _ => some (provider, nonce)
  | .removeLiquidity _ provider _ _ nonce _ => some (provider, nonce)
  | .swap _ trader _ _ _ _ nonce _ => some (trader, nonce)
  | .curveTrade _ trader _ _ _ _ nonce _ => some (trader, nonce)
  | .htlcLock _ fromId _ _ _ _ _ nonce _ => some (fromId, nonce)
  | _ => none

theorem lt_of_checkedAdd_one {nonce next : UInt64} (hnext : checkedAdd nonce 1 = some next) :
    nonce < next := by
  have hsum := checkedAdd_eq_some.mp hnext
  have hone : (1 : UInt64).toNat = 1 := rfl
  rw [UInt64.lt_iff_toNat_lt]
  omega

namespace LedgerState

variable {s s₁ s' : LedgerState C} {r : Unit}

/-- No account is removed, and no nonce goes down. -/
def AccountsGrow (s s' : LedgerState C) : Prop :=
  ∀ id acct, s.account id = some acct →
    ∃ acct', s'.account id = some acct' ∧ acct.nonce ≤ acct'.nonce

/-- The nonce of an account is past a value. -/
def NonceUsed (s : LedgerState C) (id : Bytes32) (nonce : UInt64) : Prop :=
  ∃ acct, s.account id = some acct ∧ nonce < acct.nonce

/-- A step spends the current nonce of an account. -/
structure Spends (s s' : LedgerState C) (id : Bytes32) (nonce : UInt64) : Prop where
  current : ∃ acct, s.account id = some acct ∧ nonce = acct.nonce
  grows : s.AccountsGrow s'
  used : s'.NonceUsed id nonce

namespace AccountsGrow

theorem refl (s : LedgerState C) : s.AccountsGrow s := fun _ acct hacct ↦ ⟨acct, hacct, UInt64.le_refl _⟩

theorem trans (hfirst : s.AccountsGrow s₁) (hnext : s₁.AccountsGrow s') : s.AccountsGrow s' := by
  intro id acct hacct
  obtain ⟨acct₁, hacct₁, hle₁⟩ := hfirst id acct hacct
  obtain ⟨acct', hacct', hle'⟩ := hnext id acct₁ hacct₁
  exact ⟨acct', hacct', UInt64.le_trans hle₁ hle'⟩

theorem of_same (hsame : s'.account = s.account) : s.AccountsGrow s' := by
  intro id acct hacct
  exact ⟨acct, by rw [hsame, hacct], UInt64.le_refl _⟩

theorem after_same (hgrows : s₁.AccountsGrow s') (hsame : s₁.account = s.account) :
    s.AccountsGrow s' :=
  (of_same hsame).trans hgrows

/-- A write of an account that does not lower its nonce. -/
theorem set {id : Bytes32} {new : Account C}
    (hle : ∀ acct, s.account id = some acct → acct.nonce ≤ new.nonce) :
    s.AccountsGrow (s.setAccount id new) := by
  intro other acct hacct
  rw [setAccount_account, Function.update_apply]
  split
  · next heq =>
    rw [heq] at hacct
    exact ⟨new, rfl, hle acct hacct⟩
  · exact ⟨acct, hacct, UInt64.le_refl _⟩

/-- A write of an account that is there, with its nonce. -/
theorem set_of_eq {id : Bytes32} {acct new : Account C} (hacct : s.account id = some acct)
    (hnonce : new.nonce = acct.nonce) : s.AccountsGrow (s.setAccount id new) := by
  refine set fun other hother ↦ ?_
  rw [← Option.some.inj (hacct.symm.trans hother), hnonce]
  exact UInt64.le_refl _

theorem set_accountOr (id : Bytes32) {new : Account C}
    (hnonce : new.nonce = (s.accountOr id).nonce) : s.AccountsGrow (s.setAccount id new) := by
  refine set fun acct hacct ↦ ?_
  rw [hnonce, accountOr, hacct, Option.getD_some]
  exact UInt64.le_refl _

theorem credited (s : LedgerState C) (id : Bytes32) (token : UInt32) (amount : UInt64) :
    s.AccountsGrow (s.credited id token amount) := by
  unfold LedgerState.credited
  split
  · exact refl s
  · exact set_accountOr id rfl

theorem pendingCredited (s : LedgerState C) (id : Bytes32) (token : UInt32)
    (credit : Ciphertext C.Point) :
    s.AccountsGrow (s.pendingCredited (s.accountOr id) id token credit) :=
  set_accountOr id rfl

theorem rewarded (s : LedgerState C) (id : Bytes32) (token : UInt32) (amount : UInt64) :
    s.AccountsGrow (s.rewarded id token amount) := by
  unfold LedgerState.rewarded
  split
  · exact refl s
  · exact set_accountOr id rfl

theorem slashPaid (s : LedgerState C) (beneficiary : Bytes32) (reward : UInt64) :
    s.AccountsGrow (s.slashPaid beneficiary reward) := by
  unfold LedgerState.slashPaid
  split
  · split
    · next hacct => exact set_of_eq hacct rfl
    · exact refl s
  · exact refl s

theorem ringDebited (s : LedgerState C) (token : UInt32)
    (debit : PublicKey C.Point × Ciphertext C.Point) :
    s.AccountsGrow (s.ringDebited token debit) := by
  unfold LedgerState.ringDebited
  split
  · next hacct => exact set_of_eq hacct rfl
  · exact refl s

theorem foldl_ringDebited (s : LedgerState C) (token : UInt32)
    (debits : List (PublicKey C.Point × Ciphertext C.Point)) :
    s.AccountsGrow (debits.foldl (fun t debit ↦ t.ringDebited token debit) s) := by
  induction debits generalizing s with
  | nil => exact refl s
  | cons debit rest ih => exact (ringDebited s token debit).trans (ih _)

/-- A used nonce stays used. -/
theorem nonceUsed (hgrows : s.AccountsGrow s') {id : Bytes32} {nonce : UInt64}
    (hused : s.NonceUsed id nonce) : s'.NonceUsed id nonce := by
  obtain ⟨acct, hacct, hlt⟩ := hused
  obtain ⟨acct', hacct', hle⟩ := hgrows id acct hacct
  exact ⟨acct', hacct', UInt64.lt_of_lt_of_le hlt hle⟩

end AccountsGrow

namespace Spends

/-- The write of the payer's account with the next nonce. -/
theorem set {id : Bytes32} {nonce next : UInt64} {acct new : Account C}
    (hacct : s.account id = some acct) (hnonce : nonce = acct.nonce)
    (hnext : checkedAdd acct.nonce 1 = some next) (hnew : new.nonce = next) :
    s.Spends (s.setAccount id new) id nonce where
  current := ⟨acct, hacct, hnonce⟩
  grows := by
    refine AccountsGrow.set fun other hother ↦ ?_
    rw [← Option.some.inj (hacct.symm.trans hother), hnew]
    exact UInt64.le_of_lt (lt_of_checkedAdd_one hnext)
  used := by
    refine ⟨new, ?_, ?_⟩
    · rw [setAccount_account, Function.update_self]
    · rw [hnonce, hnew]
      exact lt_of_checkedAdd_one hnext

theorem trans {id : Bytes32} {nonce : UInt64} (hspends : s.Spends s₁ id nonce)
    (hgrows : s₁.AccountsGrow s') : s.Spends s' id nonce :=
  ⟨hspends.current, hspends.grows.trans hgrows, hgrows.nonceUsed hspends.used⟩

end Spends

theorem nonce_foldl_mergePending (keys : List UInt32) (acct : Account C) :
    (keys.foldl mergePending acct).nonce = acct.nonce := by
  induction keys generalizing acct with
  | nil => rfl
  | cons key rest ih => exact ih (mergePending acct key)

/-! ### What each spend does to its account -/

theorem rollover_spends {tx : Transaction C} {id : Bytes32} {nonce : UInt64} {sig : Bytes64}
    (h : Runs (applyRollover tx id nonce sig) s r s') : s.Spends s' id nonce := by
  simp [applyRollover] at h
  obtain ⟨-, acct, hacct, hnonce, next, hnext, -, rfl⟩ := h
  rw [nonce_foldl_mergePending] at hnext
  exact .set hacct hnonce hnext rfl

theorem addLiquidity_spends {tx : Transaction C} {token : UInt32} {provider : Bytes32}
    {latAmount tokAmount fee nonce : UInt64} {sig : Bytes64}
    (h : Runs (applyAddLiquidity tx token provider latAmount tokAmount fee nonce sig) s r s') :
    s.Spends s' provider nonce := by
  simp [applyAddLiquidity, -Account.pub_setPublic] at h
  obtain ⟨-, -, -, acct, hacct, hnonce, pool, tokUsed, minted, _, hplan, latTotal, -, -, next,
    hnext, -, shares, -, rfl⟩ := h
  obtain ⟨rfl, -⟩ := planDeposit_outcome hplan
  exact (Spends.set hacct hnonce hnext rfl).trans (.of_same rfl)

theorem removeLiquidity_spends {tx : Transaction C} {token : UInt32} {provider : Bytes32}
    {lpAmount fee nonce : UInt64} {sig : Bytes64}
    (h : Runs (applyRemoveLiquidity tx token provider lpAmount fee nonce sig) s r s') :
    s.Spends s' provider nonce := by
  simp [applyRemoveLiquidity, -Account.pub_setPublic] at h
  obtain ⟨-, -, acct, hacct, hnonce, p, -, -, latShare, -, tokShare, -, -, -, next, hnext, lat, -,
    tok, -, supply, -, -, rfl⟩ := h
  exact (Spends.set hacct hnonce hnext rfl).trans (.of_same rfl)

theorem swap_spends {tx : Transaction C} {token : UInt32} {trader : Bytes32} {latIn : Bool}
    {amountIn minOut fee nonce : UInt64} {sig : Bytes64}
    (h : Runs (applySwap tx token trader latIn amountIn minOut fee nonce sig) s r s') :
    s.Spends s' trader nonce := by
  cases latIn with
  | true =>
    simp [applySwap, -Account.pub_setPublic] at h
    obtain ⟨-, -, acct, hacct, hnonce, p, -, _, -, -, lat, -, latIn, -, -, next, hnext, tok, -, -,
      rfl⟩ := h
    exact (Spends.set hacct hnonce hnext rfl).trans (.of_same rfl)
  | false =>
    simp [applySwap, -Account.pub_setPublic] at h
    obtain ⟨-, -, acct, hacct, hnonce, p, -, _, -, -, tok, -, -, tokLeft, -, next, hnext, lat, -, -,
      rfl⟩ := h
    exact (Spends.set hacct hnonce hnext rfl).trans (.of_same rfl)

theorem curveBuy_spends {token : UInt32} {trader creator : Bytes32} {acct : Account C}
    {math : Curve} {amount minOut fee : UInt64} (hacct : s.account trader = some acct)
    (h : Runs (curveBuy token trader creator acct math amount minOut fee) s r s') :
    s.Spends s' trader acct.nonce := by
  simp [curveBuy, -Account.pub_setPublic] at h
  obtain ⟨fill, after, -, -, latDebit, -, -, next, hnext, -, _, s₁, hcredit, rfl⟩ := h
  rw [creditPublic_outcome hcredit]
  exact ((Spends.set hacct rfl hnext rfl).trans (.credited _ creator LAT_TOKEN fill.fee)).trans
    (.of_same rfl)

theorem curveSell_spends {token : UInt32} {trader creator : Bytes32} {acct : Account C}
    {math : Curve} {amount minOut fee : UInt64} (hacct : s.account trader = some acct)
    (h : Runs (curveSell token trader creator acct math amount minOut fee) s r s') :
    s.Spends s' trader acct.nonce := by
  simp [curveSell, -Account.pub_setPublic] at h
  obtain ⟨-, fill, after, -, gross, -, -, -, -, next, hnext, -, _, s₁, hcredit, rfl⟩ := h
  rw [creditPublic_outcome hcredit]
  exact ((Spends.set hacct rfl hnext rfl).trans (.credited _ creator LAT_TOKEN fill.fee)).trans
    (.of_same rfl)

theorem curveTrade_spends {tx : Transaction C} {token : UInt32} {trader : Bytes32}
    {isBuy : Bool} {amount minOut fee nonce : UInt64} {sig : Bytes64}
    (h : Runs (applyCurveTrade tx token trader isBuy amount minOut fee nonce sig) s r s') :
    s.Spends s' trader nonce := by
  obtain ⟨tokenMeta, acct, c, -, -, -, hacct, rfl, -, -, ⟨-, hbuy⟩ | ⟨-, hsell⟩⟩ :=
    applyCurveTrade_outcome h
  · exact curveBuy_spends hacct hbuy
  · exact curveSell_spends hacct hsell

theorem htlcLock_spends {tx : Transaction C} {height : UInt64} {token : UInt32}
    {fromId toId : Bytes32} {amount : UInt64} {hashlock : Bytes32} {expiry fee nonce : UInt64}
    {sig : Bytes64}
    (h : Runs (applyHtlcLock tx height token fromId toId amount hashlock expiry fee nonce sig)
      s r s') : s.Spends s' fromId nonce := by
  simp [applyHtlcLock, -Account.pub_setPublic] at h
  obtain ⟨-, -, -, acct, hacct, hnonce, -, latDebit, -, -, next, hnext, -, rfl⟩ := h
  by_cases htoken : token = LAT_TOKEN
  · simp only [htoken, if_true] at hnext
    exact (Spends.set hacct hnonce hnext rfl).trans (.of_same rfl)
  · simp only [htoken, if_false] at hnext
    exact (Spends.set hacct hnonce hnext rfl).trans (.of_same rfl)

/-- A transaction with a nonce spends it, and the others lower no nonce. -/
theorem applyInner_accounts {tx : Transaction C} {height : UInt64}
    (hrun : Runs (applyInner tx height none) s () s') :
    match spendOf tx with
    | some (id, nonce) => s.Spends s' id nonce
    | none => s.AccountsGrow s' := by
  cases tx with
  | register pubkey powNonce =>
    obtain ⟨hnone, rfl⟩ := register_outcome hrun
    refine AccountsGrow.set fun acct hacct ↦ ?_
    rw [hnone] at hacct
    exact nomatch hacct
  | createToken ticker creator supply sig =>
    obtain ⟨norm, acct, next, -, -, -, hacct, -, -, -, rfl⟩ := applyCreateToken_outcome hrun
    exact (AccountsGrow.of_same rfl).trans (.set_of_eq hacct rfl)
  | solventTransfer token xfer =>
    obtain ⟨sender, receiver, next, hsender, hnonce, -, hnext, hreceiver, rfl⟩ :=
      applySolventTransfer_outcome hrun
    exact (Spends.set hsender hnonce hnext rfl).trans (.set_of_eq hreceiver rfl)
  | rollover id nonce sig => exact rollover_spends hrun
  | deployContract deployer code sig =>
    obtain ⟨acct, -, hacct, -, -, rfl⟩ := applyDeployContract_outcome hrun
    have hpaid : s.AccountsGrow (s.setAccount deployer
        (acct.setPublic LAT_TOKEN (acct.pub LAT_TOKEN - FLAT_TX_FEE))) := .set_of_eq hacct rfl
    exact hpaid.trans (.of_same rfl)
  | callContract addr caller input nonce sig =>
    obtain ⟨acct, c, storage, next, -, hacct, hnonce, -, -, hnext, rfl⟩ :=
      applyCallContract_outcome hrun
    exact (Spends.set hacct hnonce hnext rfl).trans (.of_same rfl)
  | publicTransfer token fromId toId amount fee nonce sig =>
    obtain ⟨sender, receiver, total, next, -, hsender, hnonce, -, -, hnext, hreceiver, rfl⟩ :=
      applyPublicTransfer_outcome hrun
    exact (Spends.set hsender hnonce hnext rfl).trans (.set_of_eq hreceiver rfl)
  | shield token fromId toId amount fee nonce sig =>
    obtain ⟨sender, receiver, total, next, -, hsender, hnonce, -, -, hnext, hreceiver, rfl⟩ :=
      applyShield_outcome hrun
    exact (Spends.set hsender hnonce hnext rfl).trans (.set_of_eq hreceiver rfl)
  | unshield token toId amount xfer sig =>
    obtain ⟨sender, next, -, -, hsender, hnonce, -, -, hnext, rfl⟩ := applyUnshield_outcome hrun
    exact (Spends.set hsender hnonce hnext rfl).trans (.credited _ toId token amount)
  | shieldStealth token fromId ephemeral oneTime amount fee nonce sig =>
    obtain ⟨sender, total, next, -, hsender, hnonce, -, -, hnext, rfl⟩ :=
      applyShieldStealth_outcome hrun
    exact (Spends.set hsender hnonce hnext rfl).trans (.pendingCredited _ oneTime token _)
  | anonTransfer token xfer =>
    obtain ⟨s₁, -, -, -, -, -, -, -, rfl, rfl⟩ := applyAnonTransfer_outcome hrun
    refine (AccountsGrow.foldl_ringDebited s token (xfer.ring.zip xfer.enc)).trans ?_
    have hcredit := AccountsGrow.pendingCredited
      ((xfer.ring.zip xfer.enc).foldl (fun t debit ↦ t.ringDebited token debit) s)
      (C.keyToBytes xfer.output.oneTime) token xfer.credit
    exact hcredit.trans (.of_same rfl)
  | stake id amount nonce sig =>
    obtain ⟨acct, released, val, next, -, hacct, hnonce, -, -, hnext, rfl⟩ :=
      applyStake_outcome hrun
    exact (Spends.set hacct hnonce hnext rfl).trans (.of_same rfl)
  | unstake id amount nonce sig =>
    obtain ⟨acct, released, val, release, next, -, hacct, hnonce, -, -, -, hnext, rfl⟩ :=
      applyUnstake_outcome hrun
    exact (Spends.set hacct hnonce hnext rfl).trans (.of_same rfl)
  | slashEvidence id beneficiary voteHeight blockA sigA blockB sigB =>
    obtain ⟨unbonding, total, -, -, -, -, -, -, -, rfl⟩ := applySlashEvidence_outcome hrun
    exact (AccountsGrow.slashPaid _ beneficiary _).after_same rfl
  | addLiquidity => exact addLiquidity_spends hrun
  | removeLiquidity => exact removeLiquidity_spends hrun
  | swap => exact swap_spends hrun
  | curveTrade => exact curveTrade_spends hrun
  | htlcLock => exact htlcLock_spends hrun
  | htlcClaim id preimage =>
    obtain ⟨lock, -, -, -, rfl⟩ := applyHtlcClaim_outcome hrun
    exact (AccountsGrow.credited _ lock.toId lock.token lock.amount).after_same rfl
  | htlcRefund id =>
    obtain ⟨lock, -, -, rfl⟩ := applyHtlcRefund_outcome hrun
    exact (AccountsGrow.credited _ lock.fromId lock.token lock.amount).after_same rfl

theorem applyInner_spends {tx : Transaction C} {height : UInt64} {id : Bytes32} {nonce : UInt64}
    (hspend : spendOf tx = some (id, nonce)) (hrun : Runs (applyInner tx height none) s () s') :
    s.Spends s' id nonce := by
  have haccounts := applyInner_accounts hrun
  rwa [hspend] at haccounts

theorem applyInner_accountsGrow {tx : Transaction C} {height : UInt64}
    (hrun : Runs (applyInner tx height none) s () s') : s.AccountsGrow s' := by
  have haccounts := applyInner_accounts hrun
  split at haccounts
  · exact haccounts.grows
  · exact haccounts

/-! ### What is taken stays taken -/

/-- Nothing that protects from a replay is ever given back: accounts and their nonces, nullifiers,
tickers and contract addresses. -/
structure Keeps (s s' : LedgerState C) : Prop where
  accounts : s.AccountsGrow s'
  nullifiers : ∀ nf, s.nullifier nf = true → s'.nullifier nf = true
  tickers : ∀ norm, s.ticker norm ≠ none → s'.ticker norm ≠ none
  contracts : ∀ id, s.contract id ≠ none → s'.contract id ≠ none

theorem Keeps.of_accounts (haccounts : s.AccountsGrow s') (hnullifier : s'.nullifier = s.nullifier)
    (hticker : s'.ticker = s.ticker) (hcontract : s'.contract = s.contract) : s.Keeps s' where
  accounts := haccounts
  nullifiers nf hseen := by rwa [hnullifier]
  tickers norm htaken := by rwa [hticker]
  contracts id htaken := by rwa [hcontract]

theorem Runs.nullifier_eq {tx : Transaction C} {height : UInt64}
    (hrun : Runs (applyInner tx height none) s () s') (hkind : ¬ writesOf tx .nullifier) :
    s'.nullifier = s.nullifier :=
  (congrArg LedgerState.nullifier (hrun.slice_eq hkind) :)

theorem Runs.ticker_eq {tx : Transaction C} {height : UInt64}
    (hrun : Runs (applyInner tx height none) s () s') (hkind : ¬ writesOf tx .token) :
    s'.ticker = s.ticker :=
  (congrArg LedgerState.ticker (hrun.slice_eq hkind) :)

theorem Runs.contract_eq {tx : Transaction C} {height : UInt64}
    (hrun : Runs (applyInner tx height none) s () s') (hkind : ¬ writesOf tx .contract) :
    s'.contract = s.contract :=
  (congrArg LedgerState.contract (hrun.slice_eq hkind) :)

/-- An update with something present takes nothing away. -/
theorem update_ne_none {α β : Type} [DecidableEq α] (f : α → Option β) (key other : α) (value : β)
    (htaken : f other ≠ none) : Function.update f key (some value) other ≠ none := by
  rw [Function.update_apply]
  split
  · exact Option.some_ne_none value
  · exact htaken

theorem nullifier_foldl_ringDebited (s : LedgerState C) (token : UInt32)
    (debits : List (PublicKey C.Point × Ciphertext C.Point)) :
    (debits.foldl (fun t debit ↦ t.ringDebited token debit) s).nullifier = s.nullifier := by
  induction debits generalizing s with
  | nil => rfl
  | cons debit rest ih =>
    rw [List.foldl_cons, ih, ringDebited]
    split <;> rfl

/-- What an anonymous transfer does to the nullifiers. -/
theorem anonTransfer_nullifier {height : UInt64} {token : UInt32}
    {xfer : AnonTransfer C.Point C.AnonProof}
    (hrun : Runs (applyAnonTransfer none height token xfer) s r s') :
    s.nullifier (C.nullifier xfer) = false ∧
      s'.nullifier = Function.update s.nullifier (C.nullifier xfer) true := by
  obtain ⟨s₁, -, hfresh, -, -, -, -, -, rfl, rfl⟩ := applyAnonTransfer_outcome hrun
  refine ⟨hfresh, ?_⟩
  rw [setNullifier_nullifier]
  exact congrArg (Function.update · _ true) (nullifier_foldl_ringDebited s token _)

theorem applyInner_keeps {tx : Transaction C} {height : UInt64}
    (hrun : Runs (applyInner tx height none) s () s') : s.Keeps s' := by
  have haccounts := applyInner_accountsGrow hrun
  cases tx with
  | createToken ticker creator supply sig =>
    have hnullifier := Runs.nullifier_eq hrun (by simp [writesOf])
    have hcontract := Runs.contract_eq hrun (by simp [writesOf])
    obtain ⟨norm, acct, next, -, -, -, -, -, -, -, rfl⟩ := applyCreateToken_outcome hrun
    exact ⟨haccounts, fun nf hseen ↦ by rwa [hnullifier],
      fun other htaken ↦ update_ne_none s.ticker norm other _ htaken,
      fun id htaken ↦ by rwa [hcontract]⟩
  | deployContract deployer code sig =>
    have hnullifier := Runs.nullifier_eq hrun (by simp [writesOf])
    have hticker := Runs.ticker_eq hrun (by simp [writesOf])
    obtain ⟨acct, -, -, -, -, rfl⟩ := applyDeployContract_outcome hrun
    exact ⟨haccounts, fun nf hseen ↦ by rwa [hnullifier], fun other htaken ↦ by rwa [hticker],
      fun id htaken ↦ update_ne_none s.contract _ id _ htaken⟩
  | callContract addr caller input nonce sig =>
    have hnullifier := Runs.nullifier_eq hrun (by simp [writesOf])
    have hticker := Runs.ticker_eq hrun (by simp [writesOf])
    obtain ⟨acct, c, storage, next, -, -, -, -, -, -, rfl⟩ := applyCallContract_outcome hrun
    exact ⟨haccounts, fun nf hseen ↦ by rwa [hnullifier], fun other htaken ↦ by rwa [hticker],
      fun id htaken ↦ update_ne_none s.contract addr id _ htaken⟩
  | anonTransfer token xfer =>
    have hticker := Runs.ticker_eq hrun (by simp [writesOf])
    have hcontract := Runs.contract_eq hrun (by simp [writesOf])
    obtain ⟨-, hnullifier⟩ := anonTransfer_nullifier hrun
    refine ⟨haccounts, fun nf hseen ↦ ?_, fun other htaken ↦ by rwa [hticker],
      fun id htaken ↦ by rwa [hcontract]⟩
    rw [hnullifier, Function.update_apply]
    split
    · rfl
    · exact hseen
  | _ =>
    exact .of_accounts haccounts (Runs.nullifier_eq hrun (by simp [writesOf]))
      (Runs.ticker_eq hrun (by simp [writesOf])) (Runs.contract_eq hrun (by simp [writesOf]))

namespace Keeps

theorem refl (s : LedgerState C) : s.Keeps s := .of_accounts (.refl s) rfl rfl rfl

theorem trans (hfirst : s.Keeps s₁) (hnext : s₁.Keeps s') : s.Keeps s' where
  accounts := hfirst.accounts.trans hnext.accounts
  nullifiers nf hseen := hnext.nullifiers nf (hfirst.nullifiers nf hseen)
  tickers norm htaken := hnext.tickers norm (hfirst.tickers norm htaken)
  contracts id htaken := hnext.contracts id (hfirst.contracts id htaken)

end Keeps

theorem Step.keeps (hstep : Step s s') : s.Keeps s' := by
  cases hstep with
  | register id hrun =>
    have hgrows : s.AccountsGrow s' := by
      obtain ⟨hnone, rfl⟩ := register_outcome hrun
      refine AccountsGrow.set fun acct hacct ↦ ?_
      rw [hnone] at hacct
      exact nomatch hacct
    obtain ⟨-, rfl⟩ := register_outcome hrun
    exact .of_accounts hgrows rfl rfl rfl
  | creditPublic id token amount hrun =>
    rw [creditPublic_outcome hrun]
    refine .of_accounts (.credited s id token amount) ?_ ?_ ?_ <;>
      · unfold credited
        split <;> rfl
  | rewardMiner miner token amount hrun =>
    rw [rewardMiner_outcome hrun]
    refine .of_accounts (.rewarded s miner token amount) ?_ ?_ ?_ <;>
      · unfold rewarded
        split <;> rfl
  | creditGenesis id amount hrun =>
    obtain ⟨acct, hacct, rfl⟩ := creditGenesis_outcome hrun
    have hgrows : s.AccountsGrow (s.setAccount id (acct.set LAT_TOKEN
        (C.add (acct.balance LAT_TOKEN) (C.mint amount)))) := .set_of_eq hacct rfl
    exact .of_accounts hgrows rfl rfl rfl
  | apply tx height hrun =>
    exact (applyInner_keeps hrun).trans (.of_accounts (.of_same rfl) rfl rfl rfl)
  | commit => exact .of_accounts (.of_same rfl) rfl rfl rfl

end LedgerState

namespace Ledger

variable {L L₁ L₂ : Ledger C}

/-- Over a run nothing that protects from a replay is given back. -/
theorem ReachesBy.keeps {ok : Ledger C → LedgerOp C → Prop} (hrun : ReachesBy ok L₁ L₂)
    (hL₁ : L₁.Reachable) : L₁.view.Keeps L₂.view := by
  refine hrun.invariant hL₁ (fun s ↦ L₁.view.Keeps s) (.refl _) ?_
  intro M _ op s' _ hperforms hkept
  rcases hperforms.step with hstep | rfl
  · exact hkept.trans hstep.keeps
  · exact hkept

/-- A transaction that succeeds at the end of a run, on the objects. -/
theorem Reachable.runs_of_ok_after (hL : L.Reachable) {tx tx' : Transaction C}
    {height height' : UInt64} {L₃ : Ledger C} (hok : L.applyAt tx height = (.ok (), L₁))
    (hrun : ReachesBy (fun _ _ ↦ True) L₁ L₂) (hagain : L₂.applyAt tx' height' = (.ok (), L₃)) :
    ∃ s₁ s₃, LedgerState.Runs (applyInner tx height none) L.view () s₁ ∧ s₁.Keeps L₂.view ∧
      LedgerState.Runs (applyInner tx' height' none) L₂.view () s₃ := by
  obtain ⟨hL₁, -, s₁, hfirst, hview⟩ := hL.runs_of_ok hok
  have hkept : s₁.Keeps L₂.view := by
    have hmarked : s₁.Keeps L₁.view := by
      rw [hview]
      exact .of_accounts (.of_same rfl) rfl rfl rfl
    exact hmarked.trans (hrun.keeps hL₁)
  obtain ⟨-, -, s₃, hlast, -⟩ := (hrun.reachable hL₁).runs_of_ok hagain
  exact ⟨s₁, s₃, hfirst, hkept, hlast⟩

/-- No replay over whole runs. The nonce of an account never decreases. A transaction with a nonce
succeeds at most once, and so does an anonymous transfer for its nullifier, the creation of a token
for its normalized ticker, and a deployment for its deployer and code. -/
theorem Reachable.no_replay (hL : L.Reachable) :
    (∀ L', ReachesBy (fun _ _ ↦ True) L L' → ∀ id acct, L.view.account id = some acct →
      ∃ acct', L'.view.account id = some acct' ∧ acct.nonce ≤ acct'.nonce) ∧
    (∀ tx tx' spend, spendOf tx = some spend → spendOf tx' = some spend →
      ∀ height L₁ L₂ height', L.applyAt tx height = (.ok (), L₁) →
        ReachesBy (fun _ _ ↦ True) L₁ L₂ → (L₂.applyAt tx' height').1 ≠ .ok ()) ∧
    (∀ token token' xfer xfer', C.nullifier xfer = C.nullifier xfer' →
      ∀ height L₁ L₂ height', L.applyAt (.anonTransfer token xfer) height = (.ok (), L₁) →
        ReachesBy (fun _ _ ↦ True) L₁ L₂ →
          (L₂.applyAt (.anonTransfer token' xfer') height').1 ≠ .ok ()) ∧
    (∀ ticker ticker' creator creator' supply supply' sig sig',
      normalizeTicker ticker = normalizeTicker ticker' →
      ∀ height L₁ L₂ height',
        L.applyAt (.createToken ticker creator supply sig) height = (.ok (), L₁) →
        ReachesBy (fun _ _ ↦ True) L₁ L₂ →
          (L₂.applyAt (.createToken ticker' creator' supply' sig') height').1 ≠ .ok ()) ∧
    ∀ deployer code sig sig' height L₁ L₂ height',
      L.applyAt (.deployContract deployer code sig) height = (.ok (), L₁) →
        ReachesBy (fun _ _ ↦ True) L₁ L₂ →
          (L₂.applyAt (.deployContract deployer code sig') height').1 ≠ .ok () := by
  refine ⟨fun L' hrun ↦ (hrun.keeps hL).accounts, ?_, ?_, ?_, ?_⟩
  · rintro tx tx' ⟨id, nonce⟩ hspend hspend' height L₁ L₂ height' hok hrun hagain
    obtain ⟨s₁, s₃, hfirst, hkept, hlast⟩ :=
      hL.runs_of_ok_after hok hrun (applyAt_of_ok hagain)
    obtain ⟨acct, hacct, hlt⟩ :=
      hkept.accounts.nonceUsed (LedgerState.applyInner_spends hspend hfirst).used
    obtain ⟨current, hcurrent, hnonce⟩ := (LedgerState.applyInner_spends hspend' hlast).current
    obtain rfl := Option.some.inj (hacct.symm.trans hcurrent)
    rw [hnonce] at hlt
    exact UInt64.lt_irrefl _ hlt
  · intro token token' xfer xfer' hsame height L₁ L₂ height' hok hrun hagain
    obtain ⟨s₁, s₃, hfirst, hkept, hlast⟩ :=
      hL.runs_of_ok_after hok hrun (applyAt_of_ok hagain)
    obtain ⟨-, hseen⟩ := LedgerState.anonTransfer_nullifier hfirst
    obtain ⟨hfresh, -⟩ := LedgerState.anonTransfer_nullifier hlast
    have hstill := hkept.nullifiers (C.nullifier xfer) (by rw [hseen, Function.update_self])
    rw [hsame, hfresh] at hstill
    exact nomatch hstill
  · intro ticker ticker' creator creator' supply supply' sig sig' hsame height L₁ L₂ height' hok
      hrun hagain
    obtain ⟨s₁, s₃, hfirst, hkept, hlast⟩ :=
      hL.runs_of_ok_after hok hrun (applyAt_of_ok hagain)
    obtain ⟨norm, _, _, -, hnorm, -, -, -, -, -, rfl⟩ := applyCreateToken_outcome hfirst
    obtain ⟨norm', _, _, -, hnorm', hfree, -⟩ := applyCreateToken_outcome hlast
    obtain rfl : norm = norm' := Option.some.inj (hnorm.symm.trans (hsame.trans hnorm'))
    exact hkept.tickers norm (by simp) hfree
  · intro deployer code sig sig' height L₁ L₂ height' hok hrun hagain
    obtain ⟨s₁, s₃, hfirst, hkept, hlast⟩ :=
      hL.runs_of_ok_after hok hrun (applyAt_of_ok hagain)
    obtain ⟨_, -, -, -, -, rfl⟩ := applyDeployContract_outcome hfirst
    obtain ⟨_, -, -, -, hfree, -⟩ := applyDeployContract_outcome hlast
    exact hkept.contracts _ (by simp) hfree

def registered : Ledger freeSuite := (new.register 5).2

/-- A rollover is refused the second time. -/
theorem no_replay_rollover :
    ((registered.applyAt (.rollover 5 0 5) 1).2.applyAt (.rollover 5 0 5) 2).1 ≠ .ok () := by
  have hstep : (new : Ledger freeSuite).step (.register 5) = some registered :=
    step_register (by decide +kernel)
  have hreach : registered.Reachable := ReachesBy.refl.step (.register 5) trivial hstep
  have hok : registered.applyAt (.rollover 5 0 5) 1 =
      (.ok (), (registered.applyAt (.rollover 5 0 5) 1).2) := applyAt_of_ok (by decide +kernel)
  exact (Reachable.no_replay hreach).2.1 (.rollover 5 0 5) (.rollover 5 0 5) (5, 0) rfl rfl 1 _ _ 2
    hok .refl

end Ledger

end Latebra.State
