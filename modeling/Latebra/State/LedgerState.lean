import Latebra.State.Ledger

/-!
# The ledger as a mathematical state

`LedgerState` is what the ledger is for: partial functions from ids to objects, the next token id,
and the set of entries whose leaf is to be recomputed. `LedgerState.handler` gives the ledger
commands their meaning on it, and every transition can be run and reasoned about there, without
encodings, caches or overlays.

A write of an object too large for its record panics, as it does on the encoded ledger, and a
drained validator, pool or share is no object at all.
-/

set_option autoImplicit false
set_option relaxedAutoImplicit false

namespace Latebra.State

open Foundation Crypto Latebra.Types

/-- The objects of a ledger. -/
@[ext]
structure LedgerState (C : CryptoSuite) where
  nextTokenId : UInt32
  account : Bytes32 → Option (Account C)
  token : UInt32 → Option TokenMeta
  ticker : Text → Option Bytes
  contract : Bytes32 → Option Contract
  nullifier : Bytes32 → Bool
  validator : Bytes32 → Option Validator
  pool : UInt32 → Option Pool
  curve : UInt32 → Option CurvePool
  lp : UInt32 → Bytes32 → UInt64
  htlc : Bytes32 → Option Htlc
  /-- The stored copy of the next token id. -/
  metaRecord : Option UInt32
  /-- The entries whose leaf is to be recomputed. -/
  dirty : Set DirtyKey

namespace LedgerState

variable {C : CryptoSuite}

/-- The empty ledger. Its next token id is still to be committed. -/
def new : LedgerState C where
  nextTokenId := 1
  account _ := none
  token _ := none
  ticker _ := none
  contract _ := none
  nullifier _ := false
  validator _ := none
  pool _ := none
  curve _ := none
  lp _ _ := 0
  htlc _ := none
  metaRecord := none
  dirty := {.metaRecord}

section Updates

variable (s : LedgerState C)

@[simps -fullyApplied]
def setAccount (id : Bytes32) (a : Account C) : LedgerState C :=
  { s with account := Function.update s.account id (some a) }

@[simps -fullyApplied]
def setNextTokenId (id : UInt32) : LedgerState C := { s with nextTokenId := id }

@[simps -fullyApplied]
def setToken (t : TokenMeta) : LedgerState C :=
  { s with
    token := Function.update s.token t.id (some t)
    ticker := Function.update s.ticker t.ticker (some (u32Be t.id))
    metaRecord := some s.nextTokenId }

@[simps -fullyApplied]
def setContract (id : Bytes32) (c : Contract) : LedgerState C :=
  { s with contract := Function.update s.contract id (some c) }

@[simps -fullyApplied]
def setNullifier (nf : Bytes32) : LedgerState C :=
  { s with nullifier := Function.update s.nullifier nf true }

@[simps -fullyApplied]
def setValidator (id : Bytes32) (v : Validator) : LedgerState C :=
  { s with validator := Function.update s.validator id (if v.Drained then none else some v) }

@[simps -fullyApplied]
def setPool (p : Pool) : LedgerState C :=
  { s with pool := Function.update s.pool p.token (if p.lpSupply = 0 then none else some p) }

@[simps -fullyApplied]
def setCurve (c : CurvePool) : LedgerState C :=
  { s with curve := Function.update s.curve c.token (some c) }

@[simps -fullyApplied]
def setLp (token : UInt32) (provider : Bytes32) (shares : UInt64) : LedgerState C :=
  { s with lp := Function.update s.lp token (Function.update (s.lp token) provider shares) }

@[simps -fullyApplied]
def setHtlc (id : Bytes32) (h : Option Htlc) : LedgerState C :=
  { s with htlc := Function.update s.htlc id h }

@[simps -fullyApplied]
def setDirty (key : DirtyKey) : LedgerState C := { s with dirty := insert key s.dirty }

end Updates

/-- The meaning of the ledger commands on objects. -/
def handler : Handler (ledgerAlphabet C) (LedgerState C) where
  exec
    | .account id, s => some (s.account id, s)
    | .putAccount id a, s => if a.Fits then some ((), s.setAccount id a) else none
    | .isRegistered id, s => some ((s.account id).isSome, s)
    | .nextTokenId, s => some (s.nextTokenId, s)
    | .setNextTokenId id, s => some ((), s.setNextTokenId id)
    | .tokenById id, s => some (s.token id, s)
    | .putToken t, s => if t.Fits then some ((), s.setToken t) else none
    | .tickerTaken norm, s => some ((s.ticker norm).isSome, s)
    | .contract id, s => some (s.contract id, s)
    | .putContract id c, s => if c.Fits then some ((), s.setContract id c) else none
    | .hasContract id, s => some ((s.contract id).isSome, s)
    | .nullifierSeen nf, s => some (s.nullifier nf, s)
    | .insertNullifier nf, s => some ((), s.setNullifier nf)
    | .validator id, s => some (s.validator id, s)
    | .putValidator id v, s => if v.Drained ∨ v.Fits then some ((), s.setValidator id v) else none
    | .pool token, s => some (s.pool token, s)
    | .putPool p, s => some ((), s.setPool p)
    | .curve token, s => some (s.curve token, s)
    | .putCurve c, s => some ((), s.setCurve c)
    | .lpShares token provider, s => some (s.lp token provider, s)
    | .putLp token provider shares, s => some ((), s.setLp token provider shares)
    | .htlc id, s => some (s.htlc id, s)
    | .putHtlc id h, s => some ((), s.setHtlc id (some h))
    | .deleteHtlc id, s => some ((), s.setHtlc id none)
    | .mark key, s => some ((), s.setDirty key)

/-- A successful run on objects. -/
abbrev Runs {α : Type} (program : LedgerM C α) (s : LedgerState C) (value : α)
    (s' : LedgerState C) : Prop :=
  Program.Returns handler program s value s'

theorem runs_of_ok {α : Type} {program : LedgerM C α} {s : LedgerState C} {value : α}
    (hok : (program.run handler s).1 = .ok value) :
    Runs program s value (program.run handler s).2 :=
  Prod.ext hok rfl

section Rules

open Program

variable (s s' : LedgerState C)

theorem runs_command (c : LedgerCommand C) (r : c.Reply) :
    Runs (LedgerM.command c) s r s' ↔ handler.exec c s = some (r, s') :=
  returns_perform handler c s s' r

@[simp]
theorem runs_account (id : Bytes32) (r : Option (Account C)) :
    Runs (LedgerM.account id) s r s' ↔ r = s.account id ∧ s' = s :=
  (runs_command s s' (.account id) r).trans (by simp [handler, eq_comm])

@[simp]
theorem runs_isRegistered (id : Bytes32) (r : Bool) :
    Runs (LedgerM.isRegistered id) s r s' ↔ r = (s.account id).isSome ∧ s' = s :=
  (runs_command s s' (.isRegistered id) r).trans (by simp [handler, eq_comm])

@[simp]
theorem runs_nextTokenId (r : UInt32) :
    Runs LedgerM.nextTokenId s r s' ↔ r = s.nextTokenId ∧ s' = s :=
  (runs_command s s' .nextTokenId r).trans (by simp [handler, eq_comm])

@[simp]
theorem runs_tokenById (id : UInt32) (r : Option TokenMeta) :
    Runs (LedgerM.tokenById id) s r s' ↔ r = s.token id ∧ s' = s :=
  (runs_command s s' (.tokenById id) r).trans (by simp [handler, eq_comm])

@[simp]
theorem runs_tickerTaken (norm : Text) (r : Bool) :
    Runs (LedgerM.tickerTaken norm) s r s' ↔ r = (s.ticker norm).isSome ∧ s' = s :=
  (runs_command s s' (.tickerTaken norm) r).trans (by simp [handler, eq_comm])

@[simp]
theorem runs_contract (id : Bytes32) (r : Option Contract) :
    Runs (LedgerM.contract id) s r s' ↔ r = s.contract id ∧ s' = s :=
  (runs_command s s' (.contract id) r).trans (by simp [handler, eq_comm])

@[simp]
theorem runs_hasContract (id : Bytes32) (r : Bool) :
    Runs (LedgerM.hasContract id) s r s' ↔ r = (s.contract id).isSome ∧ s' = s :=
  (runs_command s s' (.hasContract id) r).trans (by simp [handler, eq_comm])

@[simp]
theorem runs_nullifierSeen (nf : Bytes32) (r : Bool) :
    Runs (LedgerM.nullifierSeen nf) s r s' ↔ r = s.nullifier nf ∧ s' = s :=
  (runs_command s s' (.nullifierSeen nf) r).trans (by simp [handler, eq_comm])

@[simp]
theorem runs_validator (id : Bytes32) (r : Option Validator) :
    Runs (LedgerM.validator id) s r s' ↔ r = s.validator id ∧ s' = s :=
  (runs_command s s' (.validator id) r).trans (by simp [handler, eq_comm])

@[simp]
theorem runs_pool (token : UInt32) (r : Option Pool) :
    Runs (LedgerM.pool token) s r s' ↔ r = s.pool token ∧ s' = s :=
  (runs_command s s' (.pool token) r).trans (by simp [handler, eq_comm])

@[simp]
theorem runs_curve (token : UInt32) (r : Option CurvePool) :
    Runs (LedgerM.curve token) s r s' ↔ r = s.curve token ∧ s' = s :=
  (runs_command s s' (.curve token) r).trans (by simp [handler, eq_comm])

@[simp]
theorem runs_lpShares (token : UInt32) (provider : Bytes32) (r : UInt64) :
    Runs (LedgerM.lpShares token provider) s r s' ↔ r = s.lp token provider ∧ s' = s :=
  (runs_command s s' (.lpShares token provider) r).trans (by simp [handler, eq_comm])

@[simp]
theorem runs_htlc (id : Bytes32) (r : Option Htlc) :
    Runs (LedgerM.htlc id) s r s' ↔ r = s.htlc id ∧ s' = s :=
  (runs_command s s' (.htlc id) r).trans (by simp [handler, eq_comm])

@[simp]
theorem runs_putAccount (id : Bytes32) (a : Account C) (r : Unit) :
    Runs (LedgerM.putAccount id a) s r s' ↔ a.Fits ∧ s' = s.setAccount id a :=
  (runs_command s s' (.putAccount id a) r).trans (by simp [handler, eq_comm])

@[simp]
theorem runs_setNextTokenId (id : UInt32) (r : Unit) :
    Runs (LedgerM.setNextTokenId id) s r s' ↔ s' = s.setNextTokenId id :=
  (runs_command s s' (.setNextTokenId id) r).trans (by simp [handler, eq_comm])

@[simp]
theorem runs_putToken (t : TokenMeta) (r : Unit) :
    Runs (LedgerM.putToken t) s r s' ↔ t.Fits ∧ s' = s.setToken t :=
  (runs_command s s' (.putToken t) r).trans (by simp [handler, eq_comm])

@[simp]
theorem runs_putContract (id : Bytes32) (c : Contract) (r : Unit) :
    Runs (LedgerM.putContract id c) s r s' ↔ c.Fits ∧ s' = s.setContract id c :=
  (runs_command s s' (.putContract id c) r).trans (by simp [handler, eq_comm])

@[simp]
theorem runs_insertNullifier (nf : Bytes32) (r : Unit) :
    Runs (LedgerM.insertNullifier nf) s r s' ↔ s' = s.setNullifier nf :=
  (runs_command s s' (.insertNullifier nf) r).trans (by simp [handler, eq_comm])

@[simp]
theorem runs_putValidator (id : Bytes32) (v : Validator) (r : Unit) :
    Runs (LedgerM.putValidator id v) s r s' ↔
      (v.Drained ∨ v.Fits) ∧ s' = s.setValidator id v :=
  (runs_command s s' (.putValidator id v) r).trans (by simp [handler, eq_comm])

@[simp]
theorem runs_putPool (p : Pool) (r : Unit) :
    Runs (LedgerM.putPool p) s r s' ↔ s' = s.setPool p :=
  (runs_command s s' (.putPool p) r).trans (by simp [handler, eq_comm])

@[simp]
theorem runs_putCurve (c : CurvePool) (r : Unit) :
    Runs (LedgerM.putCurve c) s r s' ↔ s' = s.setCurve c :=
  (runs_command s s' (.putCurve c) r).trans (by simp [handler, eq_comm])

@[simp]
theorem runs_putLp (token : UInt32) (provider : Bytes32) (shares : UInt64) (r : Unit) :
    Runs (LedgerM.putLp token provider shares) s r s' ↔ s' = s.setLp token provider shares :=
  (runs_command s s' (.putLp token provider shares) r).trans (by simp [handler, eq_comm])

@[simp]
theorem runs_putHtlc (id : Bytes32) (h : Htlc) (r : Unit) :
    Runs (LedgerM.putHtlc id h) s r s' ↔ s' = s.setHtlc id (some h) :=
  (runs_command s s' (.putHtlc id h) r).trans (by simp [handler, eq_comm])

@[simp]
theorem runs_deleteHtlc (id : Bytes32) (r : Unit) :
    Runs (LedgerM.deleteHtlc id) s r s' ↔ s' = s.setHtlc id none :=
  (runs_command s s' (.deleteHtlc id) r).trans (by simp [handler, eq_comm])

@[simp]
theorem runs_mark (key : DirtyKey) (r : Unit) :
    Runs (LedgerM.mark key) s r s' ↔ s' = s.setDirty key :=
  (runs_command s s' (.mark key) r).trans (by simp [handler, eq_comm])

end Rules

end LedgerState

end Latebra.State
