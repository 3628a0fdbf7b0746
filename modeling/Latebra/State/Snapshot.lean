import Latebra.State.CanonicalRecords

/-!
# Ledger snapshots

A snapshot is one byte string for the whole ledger: a version tag, the next token id, and nine
sections, one for each kind of record. A section is a four-byte count and the records in key order,
each as its id and its body, where the body does not repeat the id. Decoding reads the sections and
puts the objects one after the other into an empty ledger, through the write functions of the
ledger, so that an object that is written twice is overwritten, and a drained one is deleted. The
commitment of the ledger is computed from scratch at the end.
-/

set_option autoImplicit false
set_option relaxedAutoImplicit false

namespace Latebra.State

open Foundation Crypto Latebra.Types Contracts

variable {C : CryptoSuite}

/-- Version tag heading every ledger snapshot encoding. -/
def LEDGER_MAGIC : Bytes := ascii "LATLEDG6"

/-- The sections of a snapshot. -/
inductive SnapshotSection where
  | accounts
  | tokens
  | contracts
  | nullifiers
  | validators
  | pools
  | lps
  | htlcs
  | curves
deriving DecidableEq

namespace SnapshotSection

/-- The sections in the order of the encoding. -/
def all : List SnapshotSection :=
  [accounts, tokens, contracts, nullifiers, validators, pools, lps, htlcs, curves]

/-- The tag of the records of a section. -/
def tag : SnapshotSection → UInt8
  | accounts => REC_ACCOUNT
  | tokens => REC_TOKEN
  | contracts => REC_CONTRACT
  | nullifiers => REC_NULLIFIER
  | validators => REC_VALIDATOR
  | pools => REC_POOL
  | lps => REC_LP
  | htlcs => REC_HTLC
  | curves => REC_CURVE

/-- What a section holds of one record. The bodies of tokens, pools and curves repeat the id, and
the body of a nullifier says nothing. -/
def written : SnapshotSection → Bytes × Bytes → Bytes
  | tokens, entry | pools, entry | curves, entry => entry.2
  | nullifiers, entry => entry.1.drop 1
  | _, entry => entry.1.drop 1 ++ entry.2

theorem mem_all (sec : SnapshotSection) : sec ∈ all := by
  cases sec <;> decide

theorem tag_injective : Function.Injective tag := by
  intro first second heq
  cases first <;> cases second <;> first | rfl | exact absurd heq (by decide)

end SnapshotSection

namespace Ledger

/-- One section of a snapshot. Of the number of its records the low four bytes are kept. -/
def encodeSection (L : Ledger C) (sec : SnapshotSection) : Bytes :=
  leBytes 4 (L.scan sec.tag).length ++ (L.scan sec.tag).flatMap sec.written

/-- Canonical snapshot encoding of the full ledger. -/
def encode (L : Ledger C) : Bytes :=
  LEDGER_MAGIC ++ u32Le L.nextTokenId ++ SnapshotSection.all.flatMap L.encodeSection

end Ledger

/-- One object of a snapshot. -/
inductive SnapshotEntry (C : CryptoSuite) where
  | account (id : Bytes32) (a : Account C)
  | token (t : TokenMeta)
  | contract (id : Bytes32) (c : Contract)
  | nullifier (nf : Bytes32)
  | validator (id : Bytes32) (v : Validator)
  | pool (p : Pool)
  | lp (token : UInt32) (provider : Bytes32) (shares : UInt64)
  | htlc (id : Bytes32) (h : Htlc)
  | curve (c : CurvePool)

namespace SnapshotEntry

/-- The section of an object. -/
def sec : SnapshotEntry C → SnapshotSection
  | account _ _ => .accounts
  | token _ => .tokens
  | contract _ _ => .contracts
  | nullifier _ => .nullifiers
  | validator _ _ => .validators
  | pool _ => .pools
  | lp _ _ _ => .lps
  | htlc _ _ => .htlcs
  | curve _ => .curves

/-- The state entry of an object. -/
def key : SnapshotEntry C → DirtyKey
  | account id _ => .account id
  | token t => .token t.id
  | contract id _ => .contract id
  | nullifier nf => .nullifier nf
  | validator id _ => .validator id
  | pool p => .pool p.token
  | lp paired provider _ => .lp paired provider
  | htlc id _ => .htlc id
  | curve c => .curve c.token

/-- The write of an object. -/
def put : SnapshotEntry C → LedgerCommand C
  | account id a => .putAccount id a
  | token t => .putToken t
  | contract id c => .putContract id c
  | nullifier nf => .insertNullifier nf
  | validator id v => .putValidator id v
  | pool p => .putPool p
  | lp paired provider shares => .putLp paired provider shares
  | htlc id h => .putHtlc id h
  | curve c => .putCurve c

/-- Write an object and flag its entry. -/
def restore (entry : SnapshotEntry C) : LedgerM C Unit := do
  let _ ← LedgerM.command entry.put
  LedgerM.mark entry.key

end SnapshotEntry

section Readers

variable (C)

/-- One entry of a section. A pool without shares and a share of zero are never encoded. -/
def readEntry : SnapshotSection → Reader (SnapshotEntry C)
  | .accounts => do
    let id ← Reader.arr32
    let a ← readAccount C
    return .account id a
  | .tokens => do
    let t ← readToken
    return .token t
  | .contracts => do
    let id ← Reader.arr32
    let c ← readContract
    return .contract id c
  | .nullifiers => do
    let nf ← Reader.arr32
    return .nullifier nf
  | .validators => do
    let id ← Reader.arr32
    let v ← readValidator
    return .validator id v
  | .pools => do
    let p ← readPool
    if p.lpSupply = 0 then Reader.failure else return .pool p
  | .lps => do
    let bytes ← Reader.take 4
    let token ← Reader.ofOption (u32OfBe bytes)
    let provider ← Reader.arr32
    let shares ← Reader.u64
    if shares = 0 then Reader.failure else return .lp token provider shares
  | .htlcs => do
    let id ← Reader.arr32
    let h ← readHtlc
    return .htlc id h
  | .curves => do
    let c ← readCurve
    return .curve c

/-- The entries of several sections. -/
def readSections : List SnapshotSection → Reader (List (SnapshotEntry C))
  | [] => pure []
  | sec :: rest => do
    let entries ← readCounted (readEntry C sec)
    let others ← readSections rest
    return entries ++ others

/-- The next token id and the entries of a snapshot. -/
def readSnapshot : Reader (UInt32 × List (SnapshotEntry C)) := do
  let magic ← Reader.take 8
  if magic = LEDGER_MAGIC then
    let nextTokenId ← Reader.u32
    let entries ← readSections C SnapshotSection.all
    return (nextTokenId, entries)
  else Reader.failure

end Readers

namespace Ledger

/-- The empty ledger that a snapshot is decoded into. -/
def blank (nextTokenId : UInt32) : Ledger C :=
  putRecord { (new : Ledger C) with nextTokenId := nextTokenId } (.committed .metaRecord)
    (u32Le nextTokenId)

/-- Decode a snapshot. There is none on malformed input. -/
def decode (b : Bytes) : Outcome Unit (Ledger C) :=
  match (readSnapshot C).complete b with
  | none => .err ()
  | some (nextTokenId, entries) =>
    match (Program.forEach entries SnapshotEntry.restore).run handler (blank nextTokenId) with
    | (.ok _, L) =>
      match L.stateRoot with
      | none => .panicked
      | some (_, L) => .ok L
    | _ => .panicked

end Ledger

end Latebra.State
