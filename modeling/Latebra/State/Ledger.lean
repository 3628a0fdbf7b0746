import Latebra.State.ApplyInner

/-!
# The ledger

`Ledger` is the ledger as the code holds it: the encoded object records under a copy-on-write
overlay, the nodes of the commitment trie, the current root with the entries that changed since it
was computed, and the read cache of decoded accounts. `Ledger.handler` gives the ledger commands
their meaning on it, so that `applyAtWith`, `register` and the credits are the transition programs
run on the encoded state.

`stateRoot` reconciles the changed entries into the trie. `fromRecords` rebuilds a ledger, and its
commitment, from nothing but a set of object records.

A record that is read and does not decode stops the node, and so does a record with a list that its
four-byte count cannot express.
-/

set_option autoImplicit false
set_option relaxedAutoImplicit false

namespace Latebra.State

open Foundation Crypto Latebra.Types Contracts

/-- Upper bound on cached account records. -/
def ACCOUNT_CACHE_CAP : ℕ := 65536

/-- Default upper bound on the validator set. -/
def DEFAULT_MAX_VALIDATORS : ℕ := 64

instance {C : CryptoSuite} (a : Account C) : Decidable a.Fits :=
  inferInstanceAs (Decidable (_ ∧ _ ∧ _))

instance (c : Contract) : Decidable c.Fits := inferInstanceAs (Decidable (_ ∧ _))

instance (v : Validator) : Decidable v.Fits := inferInstanceAs (Decidable (_ < _))

instance (t : TokenMeta) : Decidable t.Fits := inferInstanceAs (Decidable (_ < _))

/-- The staking record of an account that has neither stake nor unbonding entries left. -/
def Validator.Drained (v : Validator) : Prop := v.staked = 0 ∧ v.unbonding = []

instance (v : Validator) : Decidable v.Drained := inferInstanceAs (Decidable (_ ∧ _))

/-- The nodes of the commitment trie, in two layers. Nodes are stored under their own hash and are
never deleted through the overlay, so this column has no tombstones. -/
structure NodeOverlay (C : CryptoSuite) where
  base : TrieScheme.Nodes Bytes32 Bytes C.Digest
  top : TrieScheme.Nodes Bytes32 Bytes C.Digest

namespace NodeOverlay

variable {C : CryptoSuite}

def new (base : TrieScheme.Nodes Bytes32 Bytes C.Digest) : NodeOverlay C := ⟨base, fun _ ↦ none⟩

def get (nodes : NodeOverlay C) : TrieScheme.Nodes Bytes32 Bytes C.Digest :=
  fun hash ↦ (nodes.top hash).or (nodes.base hash)

def write (nodes : NodeOverlay C) (batch : TrieScheme.Batch Bytes32 Bytes C.Digest) :
    NodeOverlay C :=
  { nodes with top := TrieScheme.write nodes.top batch }

def flush (nodes : NodeOverlay C) : NodeOverlay C := new nodes.get

end NodeOverlay

/-- The full ledger. -/
structure Ledger (C : CryptoSuite) where
  nextTokenId : UInt32
  /-- The object records. -/
  objects : OverlayMap Bytes Bytes
  /-- The nodes of the commitment trie. -/
  nodes : NodeOverlay C
  /-- The root that was computed last. -/
  root : C.Digest
  /-- The entries that changed since. -/
  dirty : List DirtyKey
  /-- Decoded account records. -/
  cache : FMap Bytes32 (Account C)
  maxValidators : ℕ

namespace Ledger

variable {C : CryptoSuite}

/-- A ledger over committed records and trie nodes, with the meta record still to be committed. -/
def withStore (objects : FMap Bytes Bytes) (nodes : TrieScheme.Nodes Bytes32 Bytes C.Digest) :
    Ledger C where
  nextTokenId := 1
  objects := .new objects
  nodes := .new nodes
  root := C.trie.emptyRoot
  dirty := [.metaRecord]
  cache := ∅
  maxValidators := DEFAULT_MAX_VALIDATORS

/-- An empty ledger over an in-memory store. -/
def new : Ledger C := withStore ∅ fun _ ↦ none

/-- Fold uncommitted writes into the base of the store. -/
def flush (L : Ledger C) : Ledger C :=
  { L with objects := L.objects.flush, nodes := L.nodes.flush }

/-- A clone shares the base and copies the uncommitted writes. The read cache starts empty. -/
def clone (L : Ledger C) : Ledger C := { L with cache := ∅ }

/-! ### Object records -/

section Records

variable (L : Ledger C)

/-- Read one record. -/
def record (key : RecordKey) : Option Bytes := L.objects.get key.bytes

def putRecord (key : RecordKey) (body : Bytes) : Ledger C :=
  { L with objects := L.objects.put key.bytes body }

def deleteRecord (key : RecordKey) : Ledger C :=
  { L with objects := L.objects.delete key.bytes }

/-- Keep a decoded account in the read cache, clearing the cache when it is full. -/
def cached (id : Bytes32) (a : Account C) : Ledger C :=
  { L with
    cache := (if ACCOUNT_CACHE_CAP ≤ L.cache.size then ∅ else L.cache).insert id a }

/-- Flag one state entry for the next root computation. -/
def mark (key : DirtyKey) : Ledger C := { L with dirty := L.dirty.insert key }

def markAll (keys : List DirtyKey) : Ledger C := keys.foldl mark L

/-- A record decoded. A record that does not decode is a corrupt store. -/
def decoded {α : Type} (decode : Bytes → Option α) (key : RecordKey) :
    Option (Option α × Ledger C) :=
  match L.record key with
  | none => some (none, L)
  | some bytes => (decode bytes).map fun value ↦ (some value, L)

/-- Read one account record: from the cache, then from the store. -/
def account (id : Bytes32) : Option (Option (Account C) × Ledger C) :=
  match L.cache[id]? with
  | some a => some (some a, L)
  | none =>
    match L.record (.committed (.account id)) with
    | none => some (none, L)
    | some bytes => (decodeAccount C bytes).map fun a ↦ (some a, L.cached id a)

/-- Write one account record to the store and to the cache. -/
def putAccount (id : Bytes32) (a : Account C) : Option (Unit × Ledger C) :=
  if a.Fits then
    some ((), (L.putRecord (.committed (.account id)) (encodeAccount a)).cached id a)
  else none

/-- Write one token record, its ticker index and the meta record. -/
def putToken (t : TokenMeta) : Option (Unit × Ledger C) :=
  if t.Fits then
    some ((), ((L.putRecord (.committed (.token t.id)) (encodeToken t)).putRecord
      (.ticker t.ticker) (u32Be t.id)).putRecord (.committed .metaRecord) (u32Le L.nextTokenId))
  else none

def putContract (id : Bytes32) (c : Contract) : Option (Unit × Ledger C) :=
  if c.Fits then some ((), L.putRecord (.committed (.contract id)) (encodeContract c)) else none

/-- Write one validator record. A drained record is deleted. -/
def putValidator (id : Bytes32) (v : Validator) : Option (Unit × Ledger C) :=
  if v.Drained then some ((), L.deleteRecord (.committed (.validator id)))
  else if v.Fits then some ((), L.putRecord (.committed (.validator id)) (encodeValidator v))
  else none

/-- Write one pool record. A drained pool is deleted. -/
def putPool (p : Pool) : Ledger C :=
  if p.lpSupply = 0 then L.deleteRecord (.committed (.pool p.token))
  else L.putRecord (.committed (.pool p.token)) (encodePool p)

/-- One provider's LP shares, zero when there is no readable record. -/
def lpShares (token : UInt32) (provider : Bytes32) : UInt64 :=
  ((L.record (.committed (.lp token provider))).bind u64OfLe).getD 0

/-- Write one LP-share record. Zero shares are deleted. -/
def putLp (token : UInt32) (provider : Bytes32) (shares : UInt64) : Ledger C :=
  if shares = 0 then L.deleteRecord (.committed (.lp token provider))
  else L.putRecord (.committed (.lp token provider)) (u64Le shares)

end Records

/-- The meaning of the ledger commands on encoded records. -/
def handler : Handler (ledgerAlphabet C) (Ledger C) where
  exec
    | .account id, L => L.account id
    | .putAccount id a, L => L.putAccount id a
    | .isRegistered id, L =>
      some (L.cache[id]?.isSome || (L.record (.committed (.account id))).isSome, L)
    | .nextTokenId, L => some (L.nextTokenId, L)
    | .setNextTokenId id, L => some ((), { L with nextTokenId := id })
    | .tokenById id, L => L.decoded decodeToken (.committed (.token id))
    | .putToken t, L => L.putToken t
    | .tickerTaken norm, L => some ((L.record (.ticker norm)).isSome, L)
    | .contract id, L => L.decoded decodeContract (.committed (.contract id))
    | .putContract id c, L => L.putContract id c
    | .hasContract id, L => some ((L.record (.committed (.contract id))).isSome, L)
    | .nullifierSeen nf, L => some ((L.record (.committed (.nullifier nf))).isSome, L)
    | .insertNullifier nf, L => some ((), L.putRecord (.committed (.nullifier nf)) [1])
    | .validator id, L => L.decoded decodeValidator (.committed (.validator id))
    | .putValidator id v, L => L.putValidator id v
    | .pool token, L => L.decoded decodePool (.committed (.pool token))
    | .putPool p, L => some ((), L.putPool p)
    | .curve token, L => L.decoded decodeCurve (.committed (.curve token))
    | .putCurve c, L => some ((), L.putRecord (.committed (.curve c.token)) (encodeCurve c))
    | .lpShares token provider, L => some (L.lpShares token provider, L)
    | .putLp token provider shares, L => some ((), L.putLp token provider shares)
    | .htlc id, L => L.decoded decodeHtlc (.committed (.htlc id))
    | .putHtlc id h, L => some ((), L.putRecord (.committed (.htlc id)) (encodeHtlc h))
    | .deleteHtlc id, L => some ((), L.deleteRecord (.committed (.htlc id)))
    | .mark key, L => some ((), L.mark key)

/-! ### Transitions -/

/-- The state entries that a successfully applied transaction may have changed. -/
def dirtyKeysFor (nextTokenId : UInt32) : Transaction C → List DirtyKey
  | .register pubkey _ => [.account pubkey]
  | .createToken _ creator _ _ =>
    [.account creator, .token (if nextTokenId = 0 then 0 else nextTokenId - 1), .metaRecord]
  | .solventTransfer _ xfer =>
    [.account (C.keyToBytes xfer.sender), .account (C.keyToBytes xfer.receiver)]
  | .rollover accountId _ _ => [.account accountId]
  | .deployContract deployer code _ =>
    [.contract (Vm.contractId C.blake3 deployer code), .account deployer]
  | .callContract contract caller _ _ _ => [.contract contract, .account caller]
  | .publicTransfer _ fromId toId _ _ _ _ => [.account fromId, .account toId]
  | .shield _ fromId toId _ _ _ _ => [.account fromId, .account toId]
  | .unshield _ toId _ xfer _ => [.account (C.keyToBytes xfer.sender), .account toId]
  | .shieldStealth _ fromId _ oneTime _ _ _ _ => [.account fromId, .account oneTime]
  | .anonTransfer _ xfer =>
    xfer.ring.map (fun member ↦ .account (C.keyToBytes member)) ++
      [.account (C.keyToBytes xfer.output.oneTime), .nullifier (C.nullifier xfer)]
  | .stake validator _ _ _ => [.account validator, .validator validator]
  | .unstake validator _ _ _ => [.account validator, .validator validator]
  | .slashEvidence validator _ _ _ _ _ _ => [.validator validator]
  | .addLiquidity token provider _ _ _ _ _ => [.account provider, .pool token, .lp token provider]
  | .removeLiquidity token provider _ _ _ _ =>
    [.account provider, .pool token, .lp token provider]
  | .swap token trader _ _ _ _ _ _ => [.account trader, .pool token]
  | .curveTrade token trader _ _ _ _ _ _ => [.account trader, .curve token]
  | .htlcLock token fromId toId amount hashlock expiry _ nonce _ =>
    [.account fromId, .htlc (htlcId C token fromId toId amount hashlock expiry nonce)]
  | .htlcClaim id _ => [.htlc id]
  | .htlcRefund id => [.htlc id]

/-- Apply a transaction, with optional evidence of the parallel pre-pass. On success the entries it
touched are flagged for the next root computation. -/
def applyAtWith (L : Ledger C) (tx : Transaction C) (height : UInt64)
    (pre : Option (ProofPass C)) : Outcome LedgerError Unit × Ledger C :=
  match (applyInner tx height pre).run handler L with
  | (.ok _, L') => (.ok (), L'.markAll (dirtyKeysFor L'.nextTokenId tx))
  | failed => failed

/-- Apply a transaction in the block at `height`. -/
def applyAt (L : Ledger C) (tx : Transaction C) (height : UInt64) :
    Outcome LedgerError Unit × Ledger C :=
  L.applyAtWith tx height none

def register (L : Ledger C) (id : Bytes32) : Outcome LedgerError Unit × Ledger C :=
  (LedgerM.register id).run handler L

def creditPublic (L : Ledger C) (id : Bytes32) (token : UInt32) (amount : UInt64) :
    Outcome LedgerError Unit × Ledger C :=
  (LedgerM.creditPublic id token amount).run handler L

def rewardMiner (L : Ledger C) (miner : Bytes32) (token : UInt32) (amount : UInt64) :
    Outcome LedgerError Unit × Ledger C :=
  (LedgerM.rewardMiner miner token amount).run handler L

def creditGenesis (L : Ledger C) (id : Bytes32) (amount : UInt64) :
    Outcome LedgerError Unit × Ledger C :=
  (LedgerM.creditGenesis id amount).run handler L

/-! ### State commitment -/

/-- The trie path of a kind of entry. -/
def trieKeyOf (C : CryptoSuite) (tag : String) (body : Bytes) : Bytes32 :=
  C.blake3 (ascii "LAT-trie/" ++ ascii tag ++ body)

/-- The trie path of a state entry. -/
def trieKey (C : CryptoSuite) : DirtyKey → Bytes32
  | .account id => trieKeyOf C "acct" (bytesOf32 id)
  | .token id => trieKeyOf C "tokn" (u32Le id)
  | .contract id => trieKeyOf C "ctrt" (bytesOf32 id)
  | .nullifier nf => trieKeyOf C "null" (bytesOf32 nf)
  | .validator id => trieKeyOf C "val" (bytesOf32 id)
  | .pool token => trieKeyOf C "pool" (u32Le token)
  | .curve token => trieKeyOf C "curv" (u32Le token)
  | .lp token provider => trieKeyOf C "lp" (u32Le token ++ bytesOf32 provider)
  | .htlc id => trieKeyOf C "htlc" (bytesOf32 id)
  | .metaRecord => trieKeyOf C "meta" []

/-- The bytes that an account leaf commits. -/
def accountLeafPreimage (id : Bytes32) (a : Account C) : Bytes :=
  ascii "LAT-state-acct" ++ bytesOf32 id ++ u64Le a.nonce ++ encodeCtMap a.balances ++
    encodeCtMap a.pendings ++ encodeU64Map a.publics

def tokenLeafPreimage (t : TokenMeta) : Bytes :=
  ascii "LAT-state-token" ++ u32Le t.id ++ leBytes 4 (Text.asBytes t.ticker).length ++
    Text.asBytes t.ticker ++ bytesOf32 t.creator ++ u64Le t.supply

def contractLeafPreimage (id : Bytes32) (c : Contract) : Bytes :=
  ascii "LAT-state-contract" ++ bytesOf32 id ++ leBytes 4 c.code.length ++ c.code ++
    leBytes 4 c.storage.toList.length ++
      c.storage.toList.flatMap fun slot ↦ u64Le slot.1 ++ u64Le slot.2

def validatorLeafPreimage (id : Bytes32) (v : Validator) : Bytes :=
  ascii "LAT-state-val" ++ bytesOf32 id ++ encodeValidator v

def poolLeafPreimage (p : Pool) : Bytes := ascii "LAT-state-pool" ++ encodePool p

def curveLeafPreimage (c : CurvePool) : Bytes := ascii "LAT-state-curve" ++ encodeCurve c

def lpLeafPreimage (token : UInt32) (provider : Bytes32) (shares : UInt64) : Bytes :=
  ascii "LAT-state-lp" ++ u32Le token ++ bytesOf32 provider ++ u64Le shares

def htlcLeafPreimage (id : Bytes32) (h : Htlc) : Bytes :=
  ascii "LAT-state-htlc" ++ bytesOf32 id ++ encodeHtlc h

/-- The current leaf value of one state entry; none when the entry no longer exists. -/
def leafValue : DirtyKey → LedgerM C (Option Bytes)
  | .account id => return (← LedgerM.account id).map (accountLeafPreimage id)
  | .token id => return (← LedgerM.tokenById id).map tokenLeafPreimage
  | .contract id => return (← LedgerM.contract id).map (contractLeafPreimage id)
  | .nullifier nf => return if ← LedgerM.nullifierSeen nf then some [1] else none
  | .validator id => return (← LedgerM.validator id).map (validatorLeafPreimage id)
  | .pool token => return (← LedgerM.pool token).map poolLeafPreimage
  | .curve token => return (← LedgerM.curve token).map curveLeafPreimage
  | .lp token provider => do
    let shares ← LedgerM.lpShares token provider
    return if shares > 0 then some (lpLeafPreimage token provider shares) else none
  | .htlc id => return (← LedgerM.htlc id).map (htlcLeafPreimage id)
  | .metaRecord => return some (u32Le (← LedgerM.nextTokenId))

/-- The node writes that update or remove one leaf of the commitment trie, with the new root. -/
def leafWrites (L : Ledger C) (key : Bytes32) (value : Option Bytes) :
    Option (C.Digest × TrieScheme.Batch Bytes32 Bytes C.Digest) :=
  match value with
  | some v => C.trie.upsert L.nodes.get key v C.trie.keyBits L.root
  | none => C.trie.delete L.nodes.get key C.trie.keyBits L.root

/-- Update or remove one leaf of the commitment trie. -/
def setLeaf (L : Ledger C) (key : Bytes32) (value : Option Bytes) : Option (Ledger C) :=
  (L.leafWrites key value).map fun written ↦
    { L with nodes := L.nodes.write written.2, root := written.1 }

/-- Recompute the leaves of a list of entries, one after the other. -/
def reconcile (L : Ledger C) : List DirtyKey → Option (Ledger C)
  | [] => some L
  | key :: rest =>
    match (leafValue key).run handler L with
    | (.ok value, L') => do (← L'.setLeaf (trieKey C key) value).reconcile rest
    | _ => none

/-- The canonical state root, with the pending changes reconciled. The code visits the changed
entries in the unspecified order of a hash set; here they are visited in the order of the list. -/
def stateRoot (L : Ledger C) : Option (C.Digest × Ledger C) :=
  if L.dirty = [] then some (L.root, L)
  else do
    let L' ← L.reconcile L.dirty
    return (L'.root, { L' with dirty := [] })

/-! ### Boot from records -/

/-- The records of one kind, in ascending key order. -/
def scan (L : Ledger C) (tag : UInt8) : List (Bytes × Bytes) :=
  L.objects.merged.entriesWhere fun key ↦ key.head? = some tag

/-- Every object record, key-ordered. -/
def objectRecords (L : Ledger C) : List (Bytes × Bytes) := L.objects.merged.toList

/-- The records of one kind whose key is a 32-byte id and whose body decodes. -/
def scanById (L : Ledger C) (tag : UInt8) {α : Type} (decode : Bytes → Option α)
    (key : Bytes32 → DirtyKey) : Option (List DirtyKey) :=
  (L.scan tag).mapM fun entry ↦ do
    let id ← bytes32Of (entry.1.drop 1)
    let _ ← decode entry.2
    return key id

/-- The token records, each under its own id. -/
def scanTokens (L : Ledger C) : Option (List TokenMeta) :=
  (L.scan REC_TOKEN).mapM fun entry ↦ do
    let t ← decodeToken entry.2
    if entry.1.drop 1 = u32Be t.id then some t else none

/-- The pool records, each under its own token id. -/
def scanPools (L : Ledger C) : Option (List DirtyKey) :=
  (L.scan REC_POOL).mapM fun entry ↦ do
    let p ← decodePool entry.2
    if entry.1.drop 1 = u32Be p.token then some (.pool p.token) else none

/-- The LP-share records. -/
def scanLps (L : Ledger C) : Option (List DirtyKey) :=
  (L.scan REC_LP).mapM fun entry ↦ do
    let token ← u32OfBe ((entry.1.drop 1).take 4)
    let provider ← bytes32Of (entry.1.drop 5)
    let _ ← u64OfLe entry.2
    return .lp token provider

/-- Every record of the scanned kinds decoded, with the tokens and the entries to commit. -/
def scanRecords (L : Ledger C) : Option (List TokenMeta × List DirtyKey) := do
  let accounts ← L.scanById REC_ACCOUNT (decodeAccount C) .account
  let tokens ← L.scanTokens
  let contracts ← L.scanById REC_CONTRACT decodeContract .contract
  let nullifiers ← L.scanById REC_NULLIFIER some .nullifier
  let validators ← L.scanById REC_VALIDATOR decodeValidator .validator
  let pools ← L.scanPools
  let lps ← L.scanLps
  let htlcs ← L.scanById REC_HTLC decodeHtlc .htlc
  return (tokens, .metaRecord :: (accounts ++ tokens.map (fun t ↦ .token t.id) ++ contracts ++
    nullifiers ++ validators ++ pools ++ lps ++ htlcs))

/-- The ticker index rebuilt from the tokens. -/
def indexTickers (L : Ledger C) (tokens : List TokenMeta) : Ledger C :=
  tokens.foldl (fun L t ↦ L.putRecord (.ticker t.ticker) (u32Be t.id)) L

/-- Boot a ledger from object records, with its commitment rebuilt from them. There is none when
there are no records or one of them is malformed. -/
def fromRecords (objects : FMap Bytes Bytes) (nodes : TrieScheme.Nodes Bytes32 Bytes C.Digest) :
    Outcome Unit (Ledger C) :=
  let prepared : Option (Ledger C) := do
    if objects.isEmpty then none
    let nextTokenId ← match objects[recKey REC_META []]? with
      | some body => u32OfLe body
      | none => some 1
    let ledger := { withStore objects nodes with nextTokenId := nextTokenId }
    let (tokens, dirty) ← ledger.scanRecords
    return (ledger.indexTickers tokens).markAll dirty
  match prepared with
  | none => .err ()
  | some ledger =>
    match ledger.stateRoot with
    | none => .panicked
    | some (_, ledger) => .ok ledger

/-! ### Queries -/

/-- The current spend nonce of an account. -/
def nonce (L : Ledger C) (id : Bytes32) : Option (Option UInt64) :=
  (L.account id).map fun answer ↦ answer.1.map Account.nonce

/-- A token's metadata by ticker. -/
def token (L : Ledger C) (ticker : Text) : Option (Option TokenMeta) :=
  match (do
    let norm ← normalizeTicker ticker
    let index ← L.record (.ticker norm)
    u32OfBe index) with
  | none => some none
  | some id => (L.decoded decodeToken (.committed (.token id))).map Prod.fst

/-- Number of tokens registered. -/
def tokenCount (L : Ledger C) : ℕ := (L.scan REC_TICKER).length

/-- Every live pool. -/
def pools (L : Ledger C) : List Pool := (L.scan REC_POOL).filterMap fun entry ↦ decodePool entry.2

/-- Every live bonding curve. -/
def curves (L : Ledger C) : List CurvePool :=
  (L.scan REC_CURVE).filterMap fun entry ↦ decodeCurve entry.2

/-- Every open escrow. -/
def htlcs (L : Ledger C) : List (Bytes32 × Htlc) :=
  (L.scan REC_HTLC).filterMap fun entry ↦ do
    return (← bytes32Of (entry.1.drop 1), ← decodeHtlc entry.2)

/-- The order of the validator set: stake descending, then id ascending. -/
def validatorLe (a b : Bytes32 × UInt64) : Bool :=
  a.2 > b.2 || (a.2 = b.2 && a.1 ≤ b.1)

/-- The bonded validators that are not tombstoned. -/
def eligible (L : Ledger C) : List (Bytes32 × UInt64) :=
  (L.scan REC_VALIDATOR).filterMap fun entry ↦ do
    let id ← bytes32Of (entry.1.drop 1)
    let v ← decodeValidator entry.2
    if v.tombstoned = false ∧ MIN_VALIDATOR_STAKE ≤ v.staked then some (id, v.staked) else none

/-- The deterministic validator set at the current state. -/
def validatorSet (L : Ledger C) : List (Bytes32 × UInt64) :=
  (L.eligible.mergeSort validatorLe).take L.maxValidators

end Ledger

end Latebra.State
