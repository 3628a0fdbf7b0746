import Latebra.Foundation.LocalSteps
import Latebra.State.Ledger

/-!
# Parallel application of a block

The transactions of a block are applied with the transparent lane spread over worker threads.
Registrations, public transfers and shields say in their own bytes which accounts they touch
(`accessSet`). A run of consecutive such transactions is cut into waves of transactions that touch
no account in common (`scheduleWaves`), and the chunks of a wave are applied each on its own clone of
the ledger; the account records of a chunk are then written back. Every other transaction is a
barrier, applied in its place.

Proofs of confidential transfers are verified beforehand where that can pay. The evidence says
against which balance the proof was verified, and the ledger uses it only when the balance at the
transaction's position is the same.

The number of workers is what the machine has. It is a parameter.
-/

set_option autoImplicit false
set_option relaxedAutoImplicit false

namespace Latebra.State

open Foundation Crypto Latebra.Types

variable {C : CryptoSuite}

/-- The accounts that a transaction of the parallel lane may read or write. The other transactions
are barriers. -/
def accessSet : Transaction C → Option (List Bytes32)
  | .register pubkey _ => some [pubkey]
  | .publicTransfer _ fromId toId _ _ _ _ => some [fromId, toId]
  | .shield _ fromId toId _ _ _ _ => some [fromId, toId]
  | _ => none

/-- Waves below this size are applied serially. -/
def MIN_PARALLEL : ℕ := 8

/-! ### Proofs verified beforehand -/

/-- A proof to verify: an anonymous one, or a solvent one against a balance. -/
inductive ProofJob (C : CryptoSuite) where
  | anon (token : UInt32) (xfer : AnonTransfer C.Point C.AnonProof)
  | solvent (token : UInt32) (xfer : SolventTransfer C.Point C.SolventProof)
      (balance : Ciphertext C.Point)

/-- The evidence that a job yields. A proof that fails yields none. -/
def ProofJob.evidence : ProofJob C → Option (ProofPass C)
  | anon token xfer => if C.anonVerify xfer token then some .anon else none
  | solvent token xfer balance =>
    if C.solventVerify xfer token balance then some (.againstBalance balance) else none

/-- The job of a solvent proof, unless an earlier transaction writes its sender. -/
def solventJob (written : List Bytes32) (token : UInt32)
    (xfer : SolventTransfer C.Point C.SolventProof) : LedgerM C (List (ProofJob C)) :=
  let sender := C.keyToBytes xfer.sender
  if sender ∈ written then pure []
  else do
    let acct ← LedgerM.account sender
    return (acct.map fun a ↦ ProofJob.solvent token xfer (a.balance token)).toList

/-- The proofs of a transaction that are worth verifying beforehand. -/
def proofJobs (written : List Bytes32) : Transaction C → LedgerM C (List (ProofJob C))
  | .anonTransfer token xfer => pure [.anon token xfer]
  | .solventTransfer token xfer => solventJob written token xfer
  | .unshield token _ _ xfer _ => solventJob written token xfer
  | _ => pure []

/-- The accounts that a transaction is predicted to write. -/
def predictedWrites (nextTokenId : UInt32) (tx : Transaction C) : List Bytes32 :=
  (Ledger.dirtyKeysFor nextTokenId tx).filterMap fun key ↦
    match key with
    | .account id => some id
    | _ => none

/-- The jobs of a block, each with the index of its transaction. -/
def collectJobs (nextTokenId : UInt32) (written : List Bytes32) :
    List (Transaction C × ℕ) → LedgerM C (List (ℕ × ProofJob C))
  | [] => pure []
  | (tx, index) :: rest => do
    let jobs ← proofJobs written tx
    let later ← collectJobs nextTokenId (written ++ predictedWrites nextTokenId tx) rest
    return jobs.map (fun job ↦ (index, job)) ++ later

/-- Verify the confidential proofs of a block ahead of its application. A single proof gains
nothing. -/
def preverifyConfidential (txs : List (Transaction C)) : LedgerM C (List (ℕ × ProofPass C)) := do
  let next ← LedgerM.nextTokenId
  let jobs ← collectJobs next [] txs.zipIdx
  if jobs.length < 2 then return []
  else return jobs.filterMap fun job ↦ job.2.evidence.map fun pass ↦ (job.1, pass)

/-! ### Waves -/

/-- The first wave that a toucher of an account may use, and the waves so far. -/
structure Schedule where
  nextWave : FMap Bytes32 ℕ
  waves : List (List ℕ)

namespace Schedule

def empty : Schedule := ⟨∅, []⟩

/-- The first wave that a toucher of an account may use. -/
def next (schedule : Schedule) (id : Bytes32) : ℕ := schedule.nextWave[id]?.getD 0

/-- The earliest wave for an access set. -/
def waveFor (schedule : Schedule) (set : List Bytes32) : ℕ :=
  (set.map schedule.next).foldl max 0

/-- Put one transaction into the earliest wave after the last one that touched any of its
accounts. -/
def place (schedule : Schedule) (k : ℕ) (set : List Bytes32) : Schedule :=
  let w := schedule.waveFor set
  let waves := if w = schedule.waves.length then schedule.waves ++ [[]] else schedule.waves
  { nextWave := set.foldl (fun map id ↦ map.insert id (w + 1)) schedule.nextWave
    waves := waves.modify w fun wave ↦ wave ++ [k] }

end Schedule

/-- Earliest-wave list scheduling of access sets. -/
def scheduleWaves (sets : List (List Bytes32)) : List (List ℕ) :=
  (sets.zipIdx.foldl (fun schedule entry ↦ schedule.place entry.2 entry.1) Schedule.empty).waves

namespace Ledger

/-! ### Workers -/

/-- The raw account record that a worker hands back. -/
def accountRecord (L : Ledger C) (id : Bytes32) : Option Bytes :=
  L.record (.committed (.account id))

/-- Write an account record back. It bypasses the typed write, so the cached account is dropped. -/
def adoptAccountRecord (L : Ledger C) (id : Bytes32) (bytes : Bytes) : Ledger C :=
  { L.putRecord (.committed (.account id)) bytes with cache := L.cache.erase id }.mark (.account id)

/-- A transaction of a run: its index in the run, and the accounts that it may touch. -/
structure LaneTx (C : CryptoSuite) where
  index : ℕ
  tx : Transaction C
  set : List Bytes32

/-- How a worker ends: with the records of the accounts that its chunk may touch, with the error of
one of its transactions, or in a panic. -/
def runChunk (height : UInt64) (view : Ledger C) :
    List (LaneTx C) → List Bytes32 → Outcome (ℕ × LedgerError) (List (Bytes32 × Bytes))
  | [], touched => .ok (touched.dedup.filterMap fun id ↦ (view.accountRecord id).map fun b ↦ (id, b))
  | entry :: rest, touched =>
    match view.applyAt entry.tx height with
    | (.ok _, view) => runChunk height view rest (touched ++ entry.set)
    | (.err e, _) => .err (entry.index, e)
    | (.panicked, _) => .panicked

/-- The error of the transaction that comes first. -/
def firstError (results : List (Outcome (ℕ × LedgerError) (List (Bytes32 × Bytes)))) :
    Option (ℕ × LedgerError) :=
  results.foldl
    (fun found result ↦
      match result, found with
      | .err failed, none => some failed
      | .err failed, some before => if failed.1 < before.1 then some failed else some before
      | _, _ => found)
    none

/-- What the workers hand back. -/
def written (results : List (Outcome (ℕ × LedgerError) (List (Bytes32 × Bytes)))) :
    List (Bytes32 × Bytes) :=
  results.flatMap fun result ↦
    match result with
    | .ok records => records
    | _ => []

/-- Whether a worker panicked. -/
def isPanic : Outcome (ℕ × LedgerError) (List (Bytes32 × Bytes)) → Bool
  | .panicked => true
  | _ => false

/-- Apply the transactions of one wave. A small wave is applied serially. The chunks of a larger one
are applied each on its own clone, and their account records are written back. -/
def executeWave (workers : ℕ) (height : UInt64) (wave : List (LaneTx C)) :
    Transition LedgerError (Ledger C) := fun L ↦
  let workers := min workers wave.length
  if wave.length < MIN_PARALLEL ∨ workers < 2 then
    Transition.each (fun entry L ↦ L.applyAt entry.tx height) wave L
  else
    let chunkLen := (wave.length + workers - 1) / workers
    let results := (wave.toChunks chunkLen).map fun chunk ↦ runChunk height L.clone chunk []
    if results.any isPanic then (.panicked, L)
    else
      match firstError results with
      | some (_, e) => (.err e, L)
      | none =>
        (.ok (), (written results).foldl (fun L entry ↦ L.adoptAccountRecord entry.1 entry.2) L)

/-- Apply a run of transactions of the parallel lane, wave after wave. -/
def applyRun (workers : ℕ) (height : UInt64) (run : List (Transaction C)) :
    Transition LedgerError (Ledger C) :=
  let entries := run.zipIdx.map fun entry ↦
    (⟨entry.2, entry.1, (accessSet entry.1).getD []⟩ : LaneTx C)
  let waves := scheduleWaves (entries.map LaneTx.set)
  Transition.each (fun wave ↦ executeWave workers height (wave.filterMap fun k ↦ entries[k]?)) waves

/-- A maximal run of the parallel lane, or a barrier with its index in the block. -/
inductive Lane (C : CryptoSuite) where
  | barrier (tx : Transaction C) (index : ℕ)
  | run (txs : List (Transaction C))

/-- Split a block into runs and barriers. -/
def lanes : List (Transaction C × ℕ) → List (Lane C)
  | [] => []
  | (tx, index) :: rest =>
    match accessSet tx with
    | none => .barrier tx index :: lanes rest
    | some _ =>
      match lanes rest with
      | .run txs :: later => .run (tx :: txs) :: later
      | later => .run [tx] :: later

/-- Apply a block's transactions, the transparent lane across all workers. -/
def applyBlockParallel (workers : ℕ) (txs : List (Transaction C)) (height : UInt64) :
    Transition LedgerError (Ledger C) := fun L ↦
  match (preverifyConfidential txs).run handler L with
  | (.ok preverified, L) =>
    Transition.each
      (fun lane ↦
        match lane with
        | .barrier tx index => fun L ↦
          L.applyAtWith tx height ((preverified.find? fun entry ↦ entry.1 = index).map Prod.snd)
        | .run txs => applyRun workers height txs)
      (lanes txs.zipIdx) L
  | (.err e, L) => (.err e, L)
  | (.panicked, L) => (.panicked, L)

/-- Apply a block's transactions one by one. -/
def applySequential (txs : List (Transaction C)) (height : UInt64) :
    Transition LedgerError (Ledger C) :=
  Transition.each (fun tx L ↦ L.applyAt tx height) txs

end Ledger

end Latebra.State
