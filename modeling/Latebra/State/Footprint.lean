import Latebra.State.LedgerState

/-!
# What a transaction can write

Every ledger command writes records of fixed kinds, and every transaction variant issues only
commands that write the kinds of its own list, `writesOf`. `applyInner_writes` says so once for all
variants, and `slice_applyInner` reads off the frame: a run of a transaction leaves
every kind of object that is not on the list exactly as it was, whether it succeeds or not.
-/

set_option autoImplicit false
set_option relaxedAutoImplicit false

namespace Latebra.State

open Foundation Crypto Latebra.Types Contracts

variable {C : CryptoSuite}

/-- The kinds of objects of a ledger. The token kind stands for the token records with their index
and the next token id. -/
inductive RecordKind where
  | account
  | token
  | contract
  | nullifier
  | validator
  | pool
  | curve
  | lp
  | htlc
deriving DecidableEq

/-- Whether a command writes objects of a kind. -/
def LedgerCommand.Writes : LedgerCommand C → RecordKind → Prop
  | .putAccount _ _, kind => kind = .account
  | .setNextTokenId _, kind => kind = .token
  | .putToken _, kind => kind = .token
  | .putContract _ _, kind => kind = .contract
  | .insertNullifier _, kind => kind = .nullifier
  | .putValidator _ _, kind => kind = .validator
  | .putPool _, kind => kind = .pool
  | .putCurve _, kind => kind = .curve
  | .putLp _ _ _, kind => kind = .lp
  | .putHtlc _ _, kind => kind = .htlc
  | .deleteHtlc _, kind => kind = .htlc
  | _, _ => False

/-- The kinds of objects that a transaction may write. -/
def writesOf : Transaction C → RecordKind → Prop
  | .createToken .., kind => kind = .account ∨ kind = .token
  | .deployContract .., kind => kind = .account ∨ kind = .contract
  | .callContract .., kind => kind = .account ∨ kind = .contract
  | .anonTransfer .., kind => kind = .account ∨ kind = .nullifier
  | .stake .., kind => kind = .account ∨ kind = .validator
  | .unstake .., kind => kind = .account ∨ kind = .validator
  | .slashEvidence .., kind => kind = .account ∨ kind = .validator
  | .addLiquidity .., kind => kind = .account ∨ kind = .pool ∨ kind = .lp
  | .removeLiquidity .., kind => kind = .account ∨ kind = .pool ∨ kind = .lp
  | .swap .., kind => kind = .account ∨ kind = .pool
  | .curveTrade .., kind => kind = .account ∨ kind = .curve
  | .htlcLock .., kind => kind = .account ∨ kind = .htlc
  | .htlcClaim .., kind => kind = .account ∨ kind = .htlc
  | .htlcRefund .., kind => kind = .account ∨ kind = .htlc
  | _, kind => kind = .account

/-- A command that writes only these kinds. -/
def LedgerCommand.WritesIn (kinds : RecordKind → Prop) (c : LedgerCommand C) : Prop :=
  ∀ kind, c.Writes kind → kinds kind

section Arms

open Program LedgerM

variable {kinds : RecordKind → Prop}

theorem checkRing_writes (token : UInt32) (seen : List Bytes32)
    (ring : List (PublicKey C.Point × Ciphertext C.Point)) :
    (checkRing token seen ring).Uses (LedgerCommand.WritesIn kinds) := by
  induction ring generalizing seen with
  | nil => trivial
  | cons entry rest ih =>
    simp [checkRing, account, command, perform, ih, LedgerCommand.WritesIn, LedgerCommand.Writes]

theorem debitRing_writes (haccount : kinds .account) (token : UInt32)
    (debits : List (PublicKey C.Point × Ciphertext C.Point)) :
    (debitRing token debits).Uses (LedgerCommand.WritesIn kinds) := by
  refine Uses.forEach fun debit _ ↦ ?_
  simp [account, putAccount, command, perform, LedgerCommand.WritesIn, LedgerCommand.Writes,
    haccount]

theorem planDeposit_writes (pool : Option Pool) (token : UInt32) (latAmount tokAmount : UInt64) :
    (planDeposit (C := C) pool token latAmount tokAmount).Uses (LedgerCommand.WritesIn kinds) := by
  cases pool <;> simp [planDeposit, -bind_pure_comp]

theorem loadCurve_writes (existing : Option CurvePool) (token : UInt32) (isBuy : Bool) :
    (loadCurve (C := C) existing token isBuy).Uses (LedgerCommand.WritesIn kinds) := by
  cases existing <;> simp [loadCurve]

/-- Every transaction issues only commands that write the kinds of its own list. -/
theorem applyInner_writes (tx : Transaction C) (height : UInt64) (pre : Option (ProofPass C)) :
    (applyInner tx height pre).Uses (LedgerCommand.WritesIn (writesOf tx)) := by
  cases tx with
  | anonTransfer token xfer =>
    have haccount : writesOf (.anonTransfer token xfer : Transaction C) .account := .inl rfl
    simp only [applyInner, applyAnonTransfer, nullifierSeen, command, perform, issue_bind,
      done_bind, uses_issue, uses_rejectIf_bind]
    refine fun _ ↦ ⟨fun _ h ↦ h.elim, fun _ _ _ ↦ Uses.bind (checkRing_writes _ _ _) fun _ ↦ ?_⟩
    rw [uses_rejectIf_bind]
    refine fun _ ↦ Uses.bind (debitRing_writes haccount _ _) fun _ ↦ ?_
    simp [creditPendingOf, account, putAccount, insertNullifier, command, perform,
      LedgerCommand.WritesIn, LedgerCommand.Writes, writesOf]
  | addLiquidity token provider latAmount tokAmount fee nonce sig =>
    simp [applyInner, applyAddLiquidity, checkSig, account, pool, tokenById, command, perform,
      LedgerCommand.WritesIn, LedgerCommand.Writes]
    intros
    refine Uses.bind (planDeposit_writes _ _ _ _) fun plan ↦ ?_
    simp [lpShares, putAccount, putLp, putPool, command, perform, LedgerCommand.WritesIn,
      LedgerCommand.Writes, writesOf]
  | curveTrade token trader isBuy amount minOut fee nonce sig =>
    simp [applyInner, applyCurveTrade, checkSig, account, curve, tokenById, command, perform,
      LedgerCommand.WritesIn, LedgerCommand.Writes]
    intros
    refine Uses.bind (loadCurve_writes _ _ _) fun plan ↦ ?_
    simp [curveBuy, curveSell, creditPublic, account, putAccount, putCurve, mark, command,
      perform, LedgerCommand.WritesIn, LedgerCommand.Writes, writesOf]
  | slashEvidence validatorId beneficiary voteHeight blockA sigA blockB sigB =>
    simp [applyInner, applySlashEvidence, account, putAccount, validator, putValidator, command,
      perform, LedgerCommand.WritesIn, LedgerCommand.Writes, writesOf]
  | _ =>
    simp [applyInner, register, applyCreateToken, applySolventTransfer, applyRollover,
      applyDeployContract, applyCallContract, applyPublicTransfer, applyShield, applyUnshield,
      applyShieldStealth, applyStake, applyUnstake, applyRemoveLiquidity, applySwap, applyHtlcLock,
      applyHtlcClaim, applyHtlcRefund, debitConfidential, creditPendingOf, debitPublic, checkSig,
      account, isRegistered, nextTokenId, tickerTaken, contract, hasContract, validator, pool,
      lpShares, htlc, putAccount, setNextTokenId, putToken, putContract, putValidator, putPool,
      putLp, putHtlc, deleteHtlc, mark, creditPublic, command, perform, LedgerCommand.WritesIn,
      LedgerCommand.Writes, writesOf]

/-! ### Frames -/

/-- A state with the objects of one kind only. -/
def LedgerState.slice (kind : RecordKind) (s : LedgerState C) : LedgerState C :=
  let empty : LedgerState C := LedgerState.new
  match kind with
  | .account => { empty with account := s.account }
  | .token =>
    { empty with
      nextTokenId := s.nextTokenId, token := s.token, ticker := s.ticker,
      metaRecord := s.metaRecord }
  | .contract => { empty with contract := s.contract }
  | .nullifier => { empty with nullifier := s.nullifier }
  | .validator => { empty with validator := s.validator }
  | .pool => { empty with pool := s.pool }
  | .curve => { empty with curve := s.curve }
  | .lp => { empty with lp := s.lp }
  | .htlc => { empty with htlc := s.htlc }

theorem slice_of_not_writes {c : LedgerCommand C} {kind : RecordKind} (hkind : ¬ c.Writes kind)
    {s s' : LedgerState C} {reply : c.Reply}
    (hexec : LedgerState.handler.exec c s = some (reply, s')) : s'.slice kind = s.slice kind := by
  cases c <;> simp [LedgerState.handler] at hexec <;> obtain ⟨-, rfl⟩ := hexec <;>
    cases kind <;> first | rfl | exact absurd rfl hkind

/-- A run of a transaction, failed or not, leaves every kind of object alone that the transaction
does not write. -/
theorem slice_applyInner {tx : Transaction C} (height : UInt64) (pre : Option (ProofPass C))
    {kind : RecordKind} (hkind : ¬ writesOf tx kind) (s : LedgerState C) :
    ((applyInner tx height pre).run LedgerState.handler s).2.slice kind = s.slice kind :=
  (applyInner_writes tx height pre).preserving (LedgerState.slice kind)
    (fun _ hc _ _ _ hexec ↦ slice_of_not_writes (fun hw ↦ hkind (hc kind hw)) hexec) s

/-! ### Checks before writes -/

/-- The commands that change the ledger. -/
def LedgerCommand.IsWrite : LedgerCommand C → Prop
  | .account _ | .isRegistered _ | .nextTokenId | .tokenById _ | .tickerTaken _ | .contract _
  | .hasContract _ | .nullifierSeen _ | .validator _ | .pool _ | .curve _ | .lpShares _ _
  | .htlc _ => False
  | _ => True

theorem checkRing_reads (token : UInt32) (seen : List Bytes32)
    (ring : List (PublicKey C.Point × Ciphertext C.Point)) :
    (checkRing token seen ring).Uses fun c : LedgerCommand C ↦ ¬ c.IsWrite := by
  induction ring generalizing seen with
  | nil => trivial
  | cons entry rest ih =>
    have hread : ¬ (LedgerCommand.account (C.keyToBytes entry.1) : LedgerCommand C).IsWrite :=
      not_false
    simp [checkRing, account, command, perform, ih, hread]

theorem debitRing_infallible (token : UInt32)
    (debits : List (PublicKey C.Point × Ciphertext C.Point)) :
    (debitRing token debits).ChecksFirst LedgerCommand.IsWrite True := by
  unfold debitRing
  induction debits with
  | nil => trivial
  | cons debit rest ih =>
    refine ChecksFirst.bind_of_written ?_ fun _ ↦ ih
    simp [account, putAccount, command, perform]

theorem loadCurve_reads (existing : Option CurvePool) (token : UInt32) (isBuy : Bool) :
    (loadCurve (C := C) existing token isBuy).Uses fun c : LedgerCommand C ↦ ¬ c.IsWrite := by
  cases existing <;> simp [loadCurve]

/-- Every transaction but a deposit makes all its checks before its first write. -/
theorem applyInner_checksFirst (tx : Transaction C) (height : UInt64)
    (pre : Option (ProofPass C))
    (hdeposit : ∀ token provider latAmount tokAmount fee nonce sig,
      tx ≠ .addLiquidity token provider latAmount tokAmount fee nonce sig) :
    (applyInner tx height pre).ChecksFirst LedgerCommand.IsWrite False := by
  cases tx with
  | addLiquidity => exact absurd rfl (hdeposit _ _ _ _ _ _ _)
  | anonTransfer token xfer =>
    simp only [applyInner, applyAnonTransfer, nullifierSeen, command, perform, issue_bind,
      done_bind, checksFirst_issue, checksFirst_rejectIf_bind]
    refine ⟨by simp, fun _ reply ↦ ⟨by simp [LedgerCommand.IsWrite], fun _ ↦
      ⟨by simp [LedgerCommand.IsWrite], fun _ ↦ ?_⟩⟩⟩
    refine ChecksFirst.bind (checkRing_reads _ _ _) (by simp [LedgerCommand.IsWrite]) fun _ ↦ ?_
    rw [checksFirst_rejectIf_bind]
    refine ⟨by simp [LedgerCommand.IsWrite], fun _ ↦ ?_⟩
    refine ChecksFirst.bind_of_written (debitRing_infallible _ _) fun _ ↦ ?_
    simp [creditPendingOf, account, putAccount, insertNullifier, command, perform]
  | curveTrade token trader isBuy amount minOut fee nonce sig =>
    simp [applyInner, applyCurveTrade, checkSig, account, curve, tokenById, command, perform, LedgerCommand.IsWrite]
    intros
    refine ChecksFirst.bind (loadCurve_reads _ _ _) (by simp) fun plan ↦ ?_
    simp [curveBuy, curveSell, creditPublic, account, putAccount, putCurve, mark, command,
      perform, LedgerCommand.IsWrite]
  | _ =>
    simp [applyInner, register, applyCreateToken, applySolventTransfer, applyRollover,
      applyDeployContract, applyCallContract, applyPublicTransfer, applyShield, applyUnshield,
      applyShieldStealth, applyStake, applyUnstake, applySlashEvidence, applyRemoveLiquidity,
      applySwap, applyHtlcLock, applyHtlcClaim, applyHtlcRefund, debitConfidential,
      creditPendingOf, debitPublic, checkSig, account, isRegistered, nextTokenId, tickerTaken,
      contract, hasContract, validator, pool, lpShares, htlc, putAccount, setNextTokenId,
      putToken, putContract, putValidator, putPool, putLp, putHtlc, deleteHtlc, mark,
      creditPublic, command, perform, LedgerCommand.IsWrite]

end Arms

end Latebra.State
