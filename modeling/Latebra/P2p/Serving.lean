import Latebra.Chain.Serving
import Latebra.P2p.AddressBook

/-!
# Serving a connection

`answer` is what a node replies to the messages that read its chain: those of block sync, of fast
sync and of wallets. Fast sync is served from a copy of the state that the node makes for the
connection when the manifest is asked for. `serve` adds the messages by which nodes get to know each
other, which write to the address book. Messages that write to the chain or to the pool are not
among these.

`servedBy` is the connection of a client to such a node. Either side reads what the other wrote,
which fails for a message that is longer than `MAX_MSG_BYTES` or does not decode (`deliver`).
-/

set_option autoImplicit false
set_option relaxedAutoImplicit false

namespace Latebra.P2p

open Foundation Crypto Latebra.Types State Chain

/-- The version of the protocol, which both sides of a handshake have to speak. -/
def PROTOCOL_VERSION : UInt32 := 3

/-- Budget of a state chunk. -/
def STATE_CHUNK_BYTES : ℕ := 1024 * 1024

/-- Why a call over a connection failed. -/
inductive IoError where
  /-- The connection broke down. -/
  | connection
  | invalidData (text : String)
  | invalidBlock (error : ChainError)
deriving DecidableEq

/-! ### The wire -/

/-- What the other side reads of a message. A body of `2 ^ 32` bytes or more does not fit the length
in front of it, and breaks the connection. -/
def deliver (m : Msg) : Except IoError Msg :=
  let body := m.encode
  if 2 ^ 32 ≤ body.length then .error .connection
  else if MAX_MSG_BYTES < body.length then .error (.invalidData "message too large")
  else
    match Msg.decode body with
    | some m => .ok m
    | none => .error (.invalidData "bad message")

/-- A message within the bounds arrives as it was sent, or not at all. -/
theorem deliver_eq_ok {m read : Msg} (hfits : m.Fits) :
    deliver m = .ok read ↔ read = m ∧ m.encode.length ≤ MAX_MSG_BYTES := by
  unfold deliver
  dsimp only
  rw [Msg.decode_encode hfits]
  split_ifs with hframe hlong
  · have hmax : MAX_MSG_BYTES < 2 ^ 32 := by decide
    exact iff_of_false (fun heq ↦ nomatch heq) (fun h ↦ absurd h.2 (by omega))
  · exact iff_of_false (fun heq ↦ nomatch heq) (fun h ↦ absurd h.2 (by omega))
  · rw [Except.ok.injEq, eq_comm, and_iff_left (by omega)]

/-- A message of a few words arrives. -/
theorem deliver_short {m : Msg} (hfits : m.Fits) (hlength : m.encode.length ≤ 100) :
    deliver m = .ok m := by
  have hmax : 100 ≤ MAX_MSG_BYTES := by decide
  exact (deliver_eq_ok hfits).mpr ⟨rfl, hlength.trans hmax⟩

/-- A connection: what the client reads after it has written a message. -/
abbrev Connection (σ : Type) := σ → Msg → Except IoError (Msg × σ)

/-! ### The answers of a node -/

/-- The chunks that a connection is served from. -/
abbrev StateSync := Option (List (List (Bytes × Bytes)))

/-- Cut records into chunks below the budget, behind a chunk that has been begun. A chunk has one
record at least, so a record above the budget is a chunk of its own. -/
def cutChunks : List (Bytes × Bytes) → ℕ → List (Bytes × Bytes) → List (List (Bytes × Bytes))
  | begun, _, [] => [begun]
  | begun, used, record :: rest =>
    let cost := record.1.length + record.2.length
    if STATE_CHUNK_BYTES < used + cost ∧ begun ≠ [] then
      begun :: cutChunks [record] cost rest
    else cutChunks (begun ++ [record]) (used + cost) rest

section Answers

variable {S : ChainSuite}

/-- Reads of the ledger that answer a message. -/
def query : Msg → Option (LedgerM S.toCryptoSuite Msg)
  | .getBalance id token => some do
    return .balanceReply ((← LedgerM.account id).map fun a ↦
      bytesOf64 (S.ciphertextToBytes (a.balance token)))
  | .getPending id token => some do
    return .balanceReply ((← LedgerM.account id).map fun a ↦
      bytesOf64 (S.ciphertextToBytes (a.pending token)))
  | .getNonce id => some do
    return .nonceReply ((← LedgerM.account id).map fun a ↦ a.nonce)
  | .getPublicBalance id token => some do
    return .publicBalanceReply ((← LedgerM.account id).map fun a ↦ a.pub token)
  | .getStake id => some do
    let validator := (← LedgerM.validator id).getD .default
    return .stakeReply validator.staked validator.unbonding
  | .getPool token => some do
    return .poolReply ((← LedgerM.pool token).map fun p ↦ (p.lat, p.tok, p.lpSupply))
  | .getLpShares token id => some do
    return .publicBalanceReply (some (← LedgerM.lpShares token id))
  | .getHtlc id => some do
    return .htlcReply (← LedgerM.htlc id)
  | .getCurve token => some do
    return .curveReply ((← LedgerM.curve token).map fun c ↦ (c.vlat, c.vtok, c.realLat, c.graduated))
  | .getContractStorage contract key => some do
    return .contractStorageReply (((← LedgerM.contract contract).bind fun c ↦ c.storage[key]?).getD 0)
  | .hasContract id => some do
    return .ack (← LedgerM.hasContract id)
  | _ => none

/-- The accounts with a confidential balance of a token. There is none when a record is corrupt. -/
def ringCandidates (L : Ledger S.toCryptoSuite) (token : UInt32) :
    Option (List (Bytes32 × Ciphertext S.Point)) :=
  let candidate (entry : Bytes × Bytes) : Option (Option (Bytes32 × Ciphertext S.Point)) :=
    match bytes32Of (entry.1.drop 1) with
    | none => some none
    | some id =>
      (decodeAccount S.toCryptoSuite entry.2).map fun a ↦ a.balances[token]?.map fun ct ↦ (id, ct)
  ((L.scan REC_ACCOUNT).mapM candidate).map List.reduceOption

/-- A part of the candidates below the caps, evenly spaced over all of them. -/
def strided (all : List (Bytes32 × Ciphertext S.Point)) (max : UInt32) :
    List (Bytes32 × Bytes64) :=
  let cap := min (min max.toNat MAX_RING_CANDIDATES) all.length
  (List.range cap).filterMap fun i ↦
    all[i * all.length / cap]?.map fun entry ↦ (entry.1, S.ciphertextToBytes entry.2)

/-- The answer of a node to a message that reads its chain. There is none to another message, and
none when a record of the ledger is corrupt. -/
def answer (chain : Blockchain S) (chunks : StateSync) (m : Msg) : Option (Msg × StateSync) :=
  match m with
  | .getTip => some (.tip chain.activeHeight, chunks)
  | .getBlock height => some (.block (chain.blockBytes height), chunks)
  | .findCommon ids =>
    some (.commonHeight ((ids.filterMap chain.activeHeightOf).foldl max 0), chunks)
  | .blockAnnounce id _ => some (.ack (!chain.tree.contains id), chunks)
  | .getFinalized => some (.finalizedReply chain.finalized, chunks)
  | .getStateManifest =>
    match chain.stateSyncPayload with
    | some (anchorHeight, anchorId, records) =>
      let chunks := cutChunks [] 0 records
      some (.stateManifest anchorHeight anchorId (UInt64.ofNat records.length)
        (UInt32.ofNat chunks.length), some chunks)
    | none => some (.stateManifest 0 0 0 0, chunks)
  | .getStateChunk n =>
    some (.stateChunk ((chunks.bind fun chunks ↦ chunks[n.toNat]?).getD []), chunks)
  | .getHtlcs => some (.htlcsReply chain.activeState.htlcs, chunks)
  | .getRingCandidates token max =>
    (ringCandidates chain.activeState token).map fun all ↦
      (.ringCandidates (strided all max), chunks)
  | m =>
    (query m).bind fun program ↦
      match program.run Ledger.handler chain.activeState with
      | (.ok reply, _) => some (reply, chunks)
      | _ => none

/-- The answer of a node that has an address book, and the book after it. -/
def serve (chain : Blockchain S) (book : AddressBook) (chunks : StateSync) (m : Msg) :
    Option (Msg × AddressBook × StateSync) :=
  match m with
  | .hello addr =>
    let (added, book) := book.addPeer addr
    some (.ack added, book, chunks)
  | .getPeers => some (.peers book.addrs, book, chunks)
  | .handshake version genesis addr =>
    let accepted : Bool := version = PROTOCOL_VERSION ∧ genesis = chain.genesisId
    let book := if accepted then (book.addPeer addr).2 else book
    some (.handshakeAck PROTOCOL_VERSION chain.genesisId accepted, book, chunks)
  | m => (answer chain chunks m).map fun reply ↦ (reply.1, book, reply.2)

/-- The connection to a node whose chain does not change. A message that the node cannot read, or
does not answer, breaks it. -/
def servedBy (chain : Blockchain S) : Connection StateSync := fun chunks m ↦
  match deliver m with
  | .error _ => .error .connection
  | .ok request =>
    match answer chain chunks request with
    | none => .error .connection
    | some (reply, chunks) => (deliver reply).map fun read ↦ (read, chunks)

/-- What comes back over the connection is the answer as it arrives. -/
theorem servedBy_eq {chain : Blockchain S} {chunks chunks' : StateSync} {request reply : Msg}
    (hrequest : deliver request = .ok request)
    (hanswer : answer chain chunks request = some (reply, chunks')) :
    servedBy chain chunks request = (deliver reply).map fun read ↦ (read, chunks') := by
  rw [servedBy, hrequest]
  dsimp only
  rw [hanswer]

end Answers

end Latebra.P2p
