import Latebra.Foundation.CommandProgram
import Latebra.State.Records

/-!
# The commands of the ledger

The ledger's transitions are programs over the reads and writes of its object records. This module
fixes the alphabet of these commands, the errors that a transition can report, and the transitions
that are not transactions: registration, the credit of a public balance, and the credit of a
confidential balance.
-/

set_option autoImplicit false
set_option relaxedAutoImplicit false

namespace Latebra.State

open Foundation Crypto Latebra.Types

inductive LedgerError where
  | alreadyRegistered
  | senderNotRegistered
  | receiverNotRegistered
  | creatorNotRegistered
  | invalidProof
  | invalidTicker
  | tickerTaken
  | badNonce
  | contractExists
  | noSuchContract
  | contractFailed
  | badSignature
  | insufficientPublicBalance
  | wrongUnshieldReceiver
  | unshieldAmountMismatch
  | wrongEpoch
  | nullifierSeen
  | badRing
  | staleRingBalance
  | insufficientStake
  | badEvidence
  | nothingToSlash
  | badPoolToken
  | poolNotFound
  | insufficientLiquidity
  | slippageExceeded
  | htlcNotFound
  | htlcExpired
  | htlcNotExpired
  | badPreimage
  | htlcExists
  | zeroAmount
  | curveNotFound
  | curveGraduated
  | curveInsolvent
deriving DecidableEq, Repr

/-- The reads and writes of the ledger. -/
inductive LedgerCommand (C : CryptoSuite) where
  | account (id : Bytes32)
  | putAccount (id : Bytes32) (a : Account C)
  | isRegistered (id : Bytes32)
  | nextTokenId
  | setNextTokenId (id : UInt32)
  | tokenById (id : UInt32)
  | putToken (t : TokenMeta)
  | tickerTaken (norm : Text)
  | contract (id : Bytes32)
  | putContract (id : Bytes32) (c : Contract)
  | hasContract (id : Bytes32)
  | nullifierSeen (nf : Bytes32)
  | insertNullifier (nf : Bytes32)
  | validator (id : Bytes32)
  | putValidator (id : Bytes32) (v : Validator)
  | pool (token : UInt32)
  | putPool (p : Pool)
  | curve (token : UInt32)
  | putCurve (c : CurvePool)
  | lpShares (token : UInt32) (provider : Bytes32)
  | putLp (token : UInt32) (provider : Bytes32) (shares : UInt64)
  | htlc (id : Bytes32)
  | putHtlc (id : Bytes32) (h : Htlc)
  | deleteHtlc (id : Bytes32)
  | mark (key : DirtyKey)

/-- What each command answers with. -/
@[reducible]
def LedgerCommand.Reply {C : CryptoSuite} : LedgerCommand C → Type
  | account _ => Option (Account C)
  | isRegistered _ | tickerTaken _ | hasContract _ | nullifierSeen _ => Bool
  | nextTokenId => UInt32
  | tokenById _ => Option TokenMeta
  | contract _ => Option Contract
  | validator _ => Option Validator
  | pool _ => Option Pool
  | curve _ => Option CurvePool
  | lpShares _ _ => UInt64
  | htlc _ => Option Htlc
  | _ => Unit

/-- The command alphabet of the ledger. -/
@[reducible]
def ledgerAlphabet (C : CryptoSuite) : Alphabet := ⟨LedgerCommand C, LedgerCommand.Reply⟩

/-- Ledger transitions. -/
abbrev LedgerM (C : CryptoSuite) (α : Type) := Program (ledgerAlphabet C) LedgerError α

namespace LedgerM

variable {C : CryptoSuite}

/-- Issue one ledger command. -/
abbrev command (c : LedgerCommand C) : LedgerM C c.Reply :=
  Program.perform (S := ledgerAlphabet C) c

def account (id : Bytes32) : LedgerM C (Option (Account C)) := command (.account id)
def putAccount (id : Bytes32) (a : Account C) : LedgerM C Unit := command (.putAccount id a)
def isRegistered (id : Bytes32) : LedgerM C Bool := command (.isRegistered id)
def nextTokenId : LedgerM C UInt32 := command .nextTokenId
def setNextTokenId (id : UInt32) : LedgerM C Unit := command (.setNextTokenId id)
def tokenById (id : UInt32) : LedgerM C (Option TokenMeta) := command (.tokenById id)
def putToken (t : TokenMeta) : LedgerM C Unit := command (.putToken t)
def tickerTaken (norm : Text) : LedgerM C Bool := command (.tickerTaken norm)
def contract (id : Bytes32) : LedgerM C (Option Contract) := command (.contract id)
def putContract (id : Bytes32) (c : Contract) : LedgerM C Unit := command (.putContract id c)
def hasContract (id : Bytes32) : LedgerM C Bool := command (.hasContract id)
def nullifierSeen (nf : Bytes32) : LedgerM C Bool := command (.nullifierSeen nf)
def insertNullifier (nf : Bytes32) : LedgerM C Unit := command (.insertNullifier nf)
def validator (id : Bytes32) : LedgerM C (Option Validator) := command (.validator id)
def putValidator (id : Bytes32) (v : Validator) : LedgerM C Unit := command (.putValidator id v)
def pool (token : UInt32) : LedgerM C (Option Pool) := command (.pool token)
def putPool (p : Pool) : LedgerM C Unit := command (.putPool p)
def curve (token : UInt32) : LedgerM C (Option CurvePool) := command (.curve token)
def putCurve (c : CurvePool) : LedgerM C Unit := command (.putCurve c)
def lpShares (token : UInt32) (provider : Bytes32) : LedgerM C UInt64 :=
  command (.lpShares token provider)
def putLp (token : UInt32) (provider : Bytes32) (shares : UInt64) : LedgerM C Unit :=
  command (.putLp token provider shares)
def htlc (id : Bytes32) : LedgerM C (Option Htlc) := command (.htlc id)
def putHtlc (id : Bytes32) (h : Htlc) : LedgerM C Unit := command (.putHtlc id h)
def deleteHtlc (id : Bytes32) : LedgerM C Unit := command (.deleteHtlc id)
def mark (key : DirtyKey) : LedgerM C Unit := command (.mark key)

/-- Register a new account. -/
def register (id : Bytes32) : LedgerM C Unit := do
  Program.rejectIf (← isRegistered id) .alreadyRegistered
  putAccount id Account.default
  mark (.account id)

/-- Credit a public balance, registering the account if needed. -/
def creditPublic (id : Bytes32) (token : UInt32) (amount : UInt64) : LedgerM C Unit :=
  if amount = 0 then pure ()
  else do
    let acct := (← account id).getD Account.default
    putAccount id (acct.setPublic token (saturatingAdd (acct.pub token) amount))
    mark (.account id)

/-- Credit a confidential balance with a public amount, registering the account if needed. -/
def rewardMiner (miner : Bytes32) (token : UInt32) (amount : UInt64) : LedgerM C Unit :=
  if amount = 0 then pure ()
  else do
    let acct := (← account miner).getD Account.default
    putAccount miner (acct.set token (C.add (acct.balance token) (C.mint amount)))
    mark (.account miner)

/-- Genesis premine of native LAT. -/
def creditGenesis (id : Bytes32) (amount : UInt64) : LedgerM C Unit := do
  let acct ← Program.okOr (← account id) .receiverNotRegistered
  putAccount id (acct.set LAT_TOKEN (C.add (acct.balance LAT_TOKEN) (C.mint amount)))
  mark (.account id)

/-! ### Errors of the commands -/

section Errors

variable {σ : Type} {handler : Handler (ledgerAlphabet C) σ} {state : σ} {e : LedgerError}

@[simp]
theorem failsWith_account (id : Bytes32) : ¬ Program.FailsWith handler (account id) state e :=
  Program.failsWith_perform handler (.account id) state e

@[simp]
theorem failsWith_putAccount (id : Bytes32) (a : Account C) :
    ¬ Program.FailsWith handler (putAccount id a) state e :=
  Program.failsWith_perform handler (.putAccount id a) state e

@[simp]
theorem failsWith_tokenById (id : UInt32) :
    ¬ Program.FailsWith handler (tokenById id) state e :=
  Program.failsWith_perform handler (.tokenById id) state e

@[simp]
theorem failsWith_curve (token : UInt32) : ¬ Program.FailsWith handler (curve token) state e :=
  Program.failsWith_perform handler (.curve token) state e

@[simp]
theorem failsWith_putCurve (c : CurvePool) : ¬ Program.FailsWith handler (putCurve c) state e :=
  Program.failsWith_perform handler (.putCurve c) state e

@[simp]
theorem failsWith_mark (key : DirtyKey) : ¬ Program.FailsWith handler (mark key) state e :=
  Program.failsWith_perform handler (.mark key) state e

/-- A credit is never refused. -/
@[simp]
theorem failsWith_creditPublic (id : Bytes32) (token : UInt32) (amount : UInt64) :
    ¬ Program.FailsWith handler (creditPublic id token amount) state e := by
  simp [creditPublic]

/-- A miner's reward is never refused. -/
@[simp]
theorem failsWith_rewardMiner (miner : Bytes32) (token : UInt32) (amount : UInt64) :
    ¬ Program.FailsWith handler (rewardMiner miner token amount) state e := by
  simp [rewardMiner]

end Errors

end LedgerM

end Latebra.State
