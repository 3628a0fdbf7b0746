import Latebra.State.Records
import Latebra.Types.Wire

/-!
# The messages that peers exchange

`Msg.encode` writes a message as a tag byte and the fields of its variant, and `Msg.decode` reads
one back. Most variants are read from the front of their bytes, whatever follows; four of them have
to end where their fields do. The decoder bounds the lengths that a peer may claim. An encoder that
has the same bound cuts its list off there, and a few variants are encoded without the bound of
their decoder, or with counts of 32 bits.

`Msg.Fits` says that a message keeps within these bounds, and `decode_encode_iff` that it reads back
exactly then.
-/

set_option autoImplicit false
set_option relaxedAutoImplicit false

namespace Latebra.P2p

open Foundation Latebra.Types State

/-- The largest message on the wire. -/
def MAX_MSG_BYTES : ℕ := 4 * 1024 * 1024

/-- The most peer addresses that a node keeps, and sends in one message. -/
def MAX_PEERS : ℕ := 64

/-- The longest peer address. -/
def MAX_PEER_ADDR_LEN : ℕ := 128

/-- The most ids in a locator. -/
def MAX_LOCATOR_IDS : ℕ := 64

/-- The most unbonding entries that are accepted in a reply. -/
def MAX_UNBONDING_ENTRIES : ℕ := 1024

/-- The most ring candidates in a reply. -/
def MAX_RING_CANDIDATES : ℕ := 64

/-- The messages between peers, and between a client and a node. -/
inductive Msg where
  | getTip
  | tip (height : UInt64)
  | getBlock (height : UInt64)
  | block (bytes : Option Bytes)
  | newBlock (bytes : Bytes)
  | ack (ok : Bool)
  | submitTx (bytes : Bytes)
  | getBalance (id : Bytes32) (token : UInt32)
  | balanceReply (bytes : Option Bytes)
  | getNonce (id : Bytes32)
  | nonceReply (nonce : Option UInt64)
  | getPending (id : Bytes32) (token : UInt32)
  | hello (addr : Text)
  | getPeers
  | peers (list : List Text)
  | findCommon (ids : List Bytes32)
  | commonHeight (height : UInt64)
  | getPublicBalance (id : Bytes32) (token : UInt32)
  | publicBalanceReply (amount : Option UInt64)
  | getRingCandidates (token max : UInt32)
  | ringCandidates (list : List (Bytes32 × Bytes64))
  | handshake (version : UInt32) (genesis : Bytes32) (addr : Text)
  | handshakeAck (version : UInt32) (genesis : Bytes32) (accepted : Bool)
  | getContractStorage (contract : Bytes32) (key : UInt64)
  | contractStorageReply (val : UInt64)
  | hasContract (id : Bytes32)
  | finalityVote (bytes : Bytes)
  | finalityCert (bytes : Bytes)
  | getFinalized
  | finalizedReply (watermark : Option (UInt64 × Bytes32))
  | getStake (id : Bytes32)
  | stakeReply (staked : UInt64) (unbonding : List (UInt64 × UInt64))
  | getPool (token : UInt32)
  | poolReply (pool : Option (UInt64 × UInt64 × UInt64))
  | getLpShares (token : UInt32) (id : Bytes32)
  | getHtlc (id : Bytes32)
  | htlcReply (htlc : Option Htlc)
  | getHtlcs
  | htlcsReply (locks : List (Bytes32 × Htlc))
  | getCurve (token : UInt32)
  | curveReply (curve : Option (UInt64 × UInt64 × UInt64 × Bool))
  | newTx (bytes : Bytes)
  | blockAnnounce (id : Bytes32) (height : UInt64)
  | getStateManifest
  | stateManifest (anchorHeight : UInt64) (anchorId : Bytes32) (recordCount : UInt64)
    (chunkCount : UInt32)
  | getStateChunk (n : UInt32)
  | stateChunk (records : List (Bytes × Bytes))

namespace Msg

/-! ### Encoding -/

/-- A value that may be absent, behind a byte that says so. -/
def encodeOption {α : Type} (encode : α → Bytes) : Option α → Bytes
  | none => [0]
  | some a => 1 :: encode a

/-- An address, cut off at the bound. -/
def encodeAddr (addr : Text) : Bytes :=
  let b := Text.asBytes addr
  UInt8.ofNat (min b.length MAX_PEER_ADDR_LEN) :: b.take (min b.length MAX_PEER_ADDR_LEN)

/-- The terms of a lock. -/
def encodeHtlc (h : Htlc) : Bytes :=
  u32Le h.token ++ bytesOf32 h.fromId ++ bytesOf32 h.toId ++ u64Le h.amount ++
    bytesOf32 h.hashlock ++ u64Le h.expiry

/-- The reserves and the share supply of a pool. -/
def encodePool (p : UInt64 × UInt64 × UInt64) : Bytes := u64Le p.1 ++ u64Le p.2.1 ++ u64Le p.2.2

/-- The reserves of a bonding curve, and whether it has graduated. -/
def encodeCurve (c : UInt64 × UInt64 × UInt64 × Bool) : Bytes :=
  u64Le c.1 ++ u64Le c.2.1 ++ u64Le c.2.2.1 ++ Transaction.flagByte c.2.2.2

/-- A byte string behind its length. -/
def encodeChunk (bytes : Bytes) : Bytes := leBytes 4 bytes.length ++ bytes

/-- The wire form of a message. -/
def encode : Msg → Bytes
  | getTip => [0]
  | tip height => 1 :: u64Le height
  | getBlock height => 2 :: u64Le height
  | block bytes => 3 :: encodeOption (fun b ↦ b) bytes
  | newBlock bytes => 4 :: bytes
  | ack ok => 5 :: Transaction.flagByte ok
  | submitTx bytes => 6 :: bytes
  | getBalance id token => 7 :: (bytesOf32 id ++ u32Le token)
  | balanceReply bytes => 8 :: encodeOption (fun b ↦ b) bytes
  | getNonce id => 9 :: bytesOf32 id
  | nonceReply nonce => 10 :: encodeOption u64Le nonce
  | getPending id token => 11 :: (bytesOf32 id ++ u32Le token)
  | hello addr => 12 :: Text.asBytes addr
  | getPeers => [13]
  | peers list =>
    14 :: UInt8.ofNat (min list.length MAX_PEERS) :: (list.take MAX_PEERS).flatMap encodeAddr
  | findCommon ids =>
    15 :: UInt8.ofNat (min ids.length MAX_LOCATOR_IDS) ::
      (ids.take MAX_LOCATOR_IDS).flatMap bytesOf32
  | commonHeight height => 16 :: u64Le height
  | getPublicBalance id token => 17 :: (bytesOf32 id ++ u32Le token)
  | publicBalanceReply amount => 18 :: encodeOption u64Le amount
  | getRingCandidates token max => 19 :: (u32Le token ++ u32Le max)
  | ringCandidates list =>
    let n := min list.length MAX_RING_CANDIDATES
    20 :: (leBytes 4 n ++
      (list.take n).flatMap fun entry ↦ bytesOf32 entry.1 ++ bytesOf64 entry.2)
  | handshake version genesis addr =>
    21 :: (u32Le version ++ bytesOf32 genesis ++ encodeAddr addr)
  | handshakeAck version genesis accepted =>
    22 :: (u32Le version ++ bytesOf32 genesis ++ Transaction.flagByte accepted)
  | getContractStorage contract key => 23 :: (bytesOf32 contract ++ u64Le key)
  | contractStorageReply val => 24 :: u64Le val
  | hasContract id => 25 :: bytesOf32 id
  | finalityVote bytes => 26 :: bytes
  | finalityCert bytes => 27 :: bytes
  | getFinalized => [28]
  | finalizedReply watermark =>
    29 :: encodeOption (fun entry ↦ u64Le entry.1 ++ bytesOf32 entry.2) watermark
  | getStake id => 30 :: bytesOf32 id
  | stakeReply staked unbonding =>
    31 :: (u64Le staked ++ leBytes 4 unbonding.length ++
      unbonding.flatMap fun entry ↦ u64Le entry.1 ++ u64Le entry.2)
  | newTx bytes => 32 :: bytes
  | blockAnnounce id height => 33 :: (bytesOf32 id ++ u64Le height)
  | getStateManifest => [34]
  | stateManifest anchorHeight anchorId recordCount chunkCount =>
    35 :: (u64Le anchorHeight ++ bytesOf32 anchorId ++ u64Le recordCount ++ u32Le chunkCount)
  | getStateChunk n => 36 :: u32Le n
  | stateChunk records =>
    37 :: (leBytes 4 records.length ++
      records.flatMap fun entry ↦ encodeChunk entry.1 ++ encodeChunk entry.2)
  | getPool token => 38 :: u32Le token
  | poolReply pool => 39 :: encodeOption encodePool pool
  | getLpShares token id => 40 :: (u32Le token ++ bytesOf32 id)
  | getHtlc id => 41 :: bytesOf32 id
  | htlcReply htlc => 42 :: encodeOption encodeHtlc htlc
  | getHtlcs => [43]
  | htlcsReply locks =>
    44 :: (leBytes 4 locks.length ++
      locks.flatMap fun lock ↦ bytesOf32 lock.1 ++ encodeHtlc lock.2)
  | getCurve token => 45 :: u32Le token
  | curveReply curve => 46 :: encodeOption encodeCurve curve

/-! ### Decoding -/

open Reader (u8 u32 u64 arr32 arr64 take ofOption many)

/-- A value that may be absent. -/
def readOption {α : Type} (reader : Reader α) : Reader (Option α) := do
  let byte ← u8
  if byte = 0 then return none
  else if byte = 1 then do return some (← reader)
  else Reader.failure

/-- The next byte as a flag, every other byte than zero standing for true. -/
def readBool : Reader Bool := do
  let byte ← u8
  return byte ≠ 0

/-- A count with a bound. -/
def atMost (bound : ℕ) (count : Reader ℕ) : Reader ℕ := do
  let n ← count
  if n ≤ bound then return n else Reader.failure

/-- A count of one byte. -/
def readCount : Reader ℕ := do
  let byte ← u8
  return byte.toNat

/-- An address behind its length. -/
def readAddr : Reader Text := do
  let len ← atMost MAX_PEER_ADDR_LEN readCount
  ofOption (Text.fromUtf8 (← take len))

/-- The terms of a lock. -/
def readHtlc : Reader Htlc := do
  return ⟨← u32, ← arr32, ← arr32, ← u64, ← arr32, ← u64⟩

/-- The reserves and the share supply of a pool. -/
def readPool : Reader (UInt64 × UInt64 × UInt64) := do
  return (← u64, ← u64, ← u64)

/-- The reserves of a bonding curve, and whether it has graduated, strictly zero or one. -/
def readCurve : Reader (UInt64 × UInt64 × UInt64 × Bool) := do
  return (← u64, ← u64, ← u64, ← readFlag)

/-- A byte string behind its length. -/
def readChunk : Reader Bytes := do
  let len ← readLen
  take len

/-- Nothing may be left. -/
def atEnd : Reader Unit := fun input ↦ if input = [] then some ((), []) else none

/-- The fields after the tag byte. -/
def readBody (tag : UInt8) : Reader Msg :=
  match tag.toNat with
  | 0 => return getTip
  | 1 => return tip (← u64)
  | 2 => return getBlock (← u64)
  | 3 => return block (← readOption readRest)
  | 4 => return newBlock (← readRest)
  | 5 => return ack (← readBool)
  | 6 => return submitTx (← readRest)
  | 7 => return getBalance (← arr32) (← u32)
  | 8 => return balanceReply (← readOption readRest)
  | 9 => return getNonce (← arr32)
  | 10 => return nonceReply (← readOption u64)
  | 11 => return getPending (← arr32) (← u32)
  | 12 => do
    let bytes ← readRest
    if bytes.length ≤ MAX_PEER_ADDR_LEN then return hello (← ofOption (Text.fromUtf8 bytes))
    else Reader.failure
  | 13 => return getPeers
  | 14 => do
    let count ← atMost MAX_PEERS readCount
    return peers (← many count readAddr)
  | 15 => do
    let count ← atMost MAX_LOCATOR_IDS readCount
    return findCommon (← many count arr32)
  | 16 => return commonHeight (← u64)
  | 17 => return getPublicBalance (← arr32) (← u32)
  | 18 => return publicBalanceReply (← readOption u64)
  | 19 => return getRingCandidates (← u32) (← u32)
  | 20 => do
    let count ← atMost MAX_RING_CANDIDATES readLen
    return ringCandidates (← many count do return (← arr32, ← arr64))
  | 21 => return handshake (← u32) (← arr32) (← readAddr)
  | 22 => return handshakeAck (← u32) (← arr32) (← readBool)
  | 23 => return getContractStorage (← arr32) (← u64)
  | 24 => return contractStorageReply (← u64)
  | 25 => return hasContract (← arr32)
  | 26 => return finalityVote (← readRest)
  | 27 => return finalityCert (← readRest)
  | 28 => return getFinalized
  | 29 => return finalizedReply (← readOption do return (← u64, ← arr32))
  | 30 => return getStake (← arr32)
  | 31 => do
    let staked ← u64
    let count ← atMost MAX_UNBONDING_ENTRIES readLen
    let unbonding ← many count do return (← u64, ← u64)
    atEnd
    return stakeReply staked unbonding
  | 32 => return newTx (← readRest)
  | 33 => do
    let id ← arr32
    let height ← u64
    atEnd
    return blockAnnounce id height
  | 34 => return getStateManifest
  | 35 => do
    let anchorHeight ← u64
    let anchorId ← arr32
    let recordCount ← u64
    let chunkCount ← u32
    atEnd
    return stateManifest anchorHeight anchorId recordCount chunkCount
  | 36 => return getStateChunk (← u32)
  | 37 => do
    let count ← readLen
    let records ← many count do return (← readChunk, ← readChunk)
    atEnd
    return stateChunk records
  | 38 => return getPool (← u32)
  | 39 => return poolReply (← readOption readPool)
  | 40 => return getLpShares (← u32) (← arr32)
  | 41 => return getHtlc (← arr32)
  | 42 => return htlcReply (← readOption readHtlc)
  | 43 => return getHtlcs
  | 44 => do
    let count ← readLen
    let locks ← many count do return (← arr32, ← readHtlc)
    atEnd
    return htlcsReply locks
  | 45 => return getCurve (← u32)
  | 46 => return curveReply (← readOption readCurve)
  | _ => Reader.failure

/-- Decode a message. Bytes behind the fields are left alone. -/
def decode : Bytes → Option Msg
  | [] => none
  | tag :: rest => (readBody tag rest).map Prod.fst

/-- The bounds that a message has to keep to be read back. -/
def Fits : Msg → Prop
  | hello addr | handshake _ _ addr => (Text.asBytes addr).length ≤ MAX_PEER_ADDR_LEN
  | peers list =>
    list.length ≤ MAX_PEERS ∧ ∀ addr ∈ list, (Text.asBytes addr).length ≤ MAX_PEER_ADDR_LEN
  | findCommon ids => ids.length ≤ MAX_LOCATOR_IDS
  | ringCandidates list => list.length ≤ MAX_RING_CANDIDATES
  | stakeReply _ unbonding => unbonding.length ≤ MAX_UNBONDING_ENTRIES
  | stateChunk records =>
    records.length < 2 ^ 32 ∧
      ∀ entry ∈ records, entry.1.length < 2 ^ 32 ∧ entry.2.length < 2 ^ 32
  | htlcsReply locks => locks.length < 2 ^ 32
  | _ => True

/-! ### Round trip -/

section RoundTrip

open Reader (Reads bind_eq_some pure_eq_some ofOption_eq_some take_eq_some)

variable {α β : Type}

/-- The reader returns the value and uses up the bytes. -/
def Ends (reader : Reader α) (value : α) (bytes : Bytes) : Prop :=
  reader bytes = some (value, [])

theorem ends_bind {reader : Reader α} {next : α → Reader β} {value : α} {result : β}
    {bytes bytes' : Bytes} (hfirst : Reads reader value bytes)
    (hnext : Ends (next value) result bytes') : Ends (reader >>= next) result (bytes ++ bytes') :=
  (hfirst.bind_apply next bytes').trans hnext

theorem ends_pure (value : α) : Ends (pure value) value [] := rfl

theorem ends_atEnd (value : α) : Ends (atEnd >>= fun _ ↦ pure value) value [] := rfl

/-- One field and nothing else. -/
theorem ends_field {reader : Reader α} {value : α} {bytes : Bytes} (hread : Reads reader value bytes)
    (variant : α → β) : Ends (reader >>= fun a ↦ pure (variant a)) (variant value) bytes := by
  have hends : Ends (reader >>= fun a ↦ pure (variant a)) (variant value) (bytes ++ []) :=
    ends_bind hread (ends_pure (variant value))
  rwa [List.append_nil] at hends

theorem reads_none (reader : Reader α) : Reads (readOption reader) none [0] :=
  (Reads.u8 0).bind (Reads.pure none)

theorem reads_some {reader : Reader α} {value : α} {bytes : Bytes}
    (hread : Reads reader value bytes) : Reads (readOption reader) (some value) (1 :: bytes) := by
  have htail : Reads (reader >>= fun a ↦ pure (some a)) (some value) (bytes ++ []) :=
    hread.bind (Reads.pure _)
  rw [List.append_nil] at htail
  exact (Reads.u8 1).bind htail

/-- A value that may be absent reads back when its encoding does. -/
theorem reads_option {reader : Reader α} {encode : α → Bytes}
    (hreads : ∀ value, Reads reader value (encode value)) (value : Option α) :
    Reads (readOption reader) value (encodeOption encode value) := by
  cases value with
  | none => exact reads_none reader
  | some value => exact reads_some (hreads value)

theorem reads_bool (flag : Bool) : Reads readBool flag (Transaction.flagByte flag) := by
  cases flag <;> exact (Reads.u8 _).bind (Reads.pure _)

theorem reads_atMost {bound n : ℕ} {count : Reader ℕ} {bytes : Bytes} (hn : n ≤ bound)
    (hread : Reads count n bytes) : Reads (atMost bound count) n bytes := by
  have htail : Reads (if n ≤ bound then pure n else Reader.failure) n [] := by
    rw [if_pos hn]
    exact Reads.pure n
  have hbind : Reads (atMost bound count) n (bytes ++ []) := hread.bind htail
  rwa [List.append_nil] at hbind

theorem reads_count {n : ℕ} (hn : n < 256) : Reads readCount n [UInt8.ofNat n] := by
  have hbind : Reads readCount (UInt8.ofNat n).toNat ([UInt8.ofNat n] ++ []) :=
    (Reads.u8 _).bind (Reads.pure _)
  rwa [UInt8.toNat_ofNat_of_lt' hn] at hbind

/-- A count of one byte that keeps its bound. -/
theorem reads_count_atMost {bound n : ℕ} (hbound : bound < 256) (hn : n ≤ bound) :
    Reads (atMost bound readCount) n [UInt8.ofNat (min n bound)] := by
  rw [min_eq_left hn]
  exact reads_atMost hn (reads_count (hn.trans_lt hbound))

theorem reads_addr {addr : Text} (hfits : (Text.asBytes addr).length ≤ MAX_PEER_ADDR_LEN) :
    Reads readAddr addr (encodeAddr addr) := by
  have hcount : Reads (atMost MAX_PEER_ADDR_LEN readCount) (Text.asBytes addr).length
      [UInt8.ofNat (min (Text.asBytes addr).length MAX_PEER_ADDR_LEN)] :=
    reads_count_atMost (by decide) hfits
  have hread : Reads readAddr addr
      ([UInt8.ofNat (min (Text.asBytes addr).length MAX_PEER_ADDR_LEN)] ++
        (Text.asBytes addr ++ [])) :=
    hcount.bind ((Reads.take _).bind (Reads.ofOption (Text.fromUtf8_asBytes addr)))
  rw [List.append_nil] at hread
  rw [encodeAddr]
  rwa [min_eq_left hfits, List.take_length, ← min_eq_left hfits]

theorem reads_htlc (h : Htlc) : Reads readHtlc h (encodeHtlc h) := by
  have hread : Reads readHtlc h (u32Le h.token ++ (bytesOf32 h.fromId ++ (bytesOf32 h.toId ++
      (u64Le h.amount ++ (bytesOf32 h.hashlock ++ (u64Le h.expiry ++ [])))))) :=
    (Reads.u32 _).bind ((Reads.arr32 _).bind ((Reads.arr32 _).bind ((Reads.u64 _).bind
      ((Reads.arr32 _).bind ((Reads.u64 _).bind (Reads.pure _))))))
  simpa only [encodeHtlc, List.append_assoc, List.append_nil] using hread

theorem reads_pool (p : UInt64 × UInt64 × UInt64) : Reads readPool p (encodePool p) := by
  have hread : Reads readPool p (u64Le p.1 ++ (u64Le p.2.1 ++ (u64Le p.2.2 ++ []))) :=
    (Reads.u64 _).bind ((Reads.u64 _).bind ((Reads.u64 _).bind (Reads.pure _)))
  simpa only [encodePool, List.append_assoc, List.append_nil] using hread

theorem reads_curve (c : UInt64 × UInt64 × UInt64 × Bool) :
    Reads readCurve c (encodeCurve c) := by
  have hread : Reads readCurve c (u64Le c.1 ++ (u64Le c.2.1 ++ (u64Le c.2.2.1 ++
      (Transaction.flagByte c.2.2.2 ++ [])))) :=
    (Reads.u64 _).bind ((Reads.u64 _).bind ((Reads.u64 _).bind
      ((Transaction.reads_flag _).bind (Reads.pure _))))
  simpa only [encodeCurve, List.append_assoc, List.append_nil] using hread

theorem reads_chunk {bytes : Bytes} (hlength : bytes.length < 2 ^ 32) :
    Reads readChunk bytes (encodeChunk bytes) :=
  (Transaction.reads_len hlength).bind (Reads.take bytes)

/-- Two fields. -/
theorem reads_pair {first : Reader α} {second : Reader β} {value : α × β} {bytes bytes' : Bytes}
    (hfirst : Reads first value.1 bytes) (hsecond : Reads second value.2 bytes') :
    Reads (do return (← first, ← second)) value (bytes ++ bytes') := by
  have hread : Reads (first >>= fun a ↦ second >>= fun b ↦ pure (a, b)) value
      (bytes ++ (bytes' ++ [])) := hfirst.bind (hsecond.bind (Reads.pure _))
  rwa [List.append_nil] at hread

variable {m : Msg} {body : Bytes}

/-- A message reads back when its fields do. -/
theorem decode_of_ends (tag : UInt8) (hends : Ends (readBody tag) m body)
    (hencode : m.encode = tag :: body) : decode m.encode = some m := by
  rw [hencode, decode, hends]
  rfl

/-- A message within the bounds reads back. -/
theorem decode_encode (hfits : m.Fits) : decode m.encode = some m := by
  cases m with
  | getTip | getPeers | getFinalized | getStateManifest | getHtlcs => rfl
  | newBlock | submitTx | finalityVote | finalityCert | newTx => rfl
  | block bytes | balanceReply bytes => cases bytes <;> rfl
  | tip height => exact decode_of_ends 1 (ends_field (Reads.u64 height) _) rfl
  | getBlock height => exact decode_of_ends 2 (ends_field (Reads.u64 height) _) rfl
  | ack ok => exact decode_of_ends 5 (ends_field (reads_bool ok) _) rfl
  | getBalance id token =>
    exact decode_of_ends 7 (ends_bind (Reads.arr32 id) (ends_field (Reads.u32 token) _)) rfl
  | getNonce id => exact decode_of_ends 9 (ends_field (Reads.arr32 id) _) rfl
  | nonceReply nonce =>
    exact decode_of_ends 10 (ends_field (reads_option Reads.u64 nonce) _) rfl
  | getPending id token =>
    exact decode_of_ends 11 (ends_bind (Reads.arr32 id) (ends_field (Reads.u32 token) _)) rfl
  | hello addr =>
    have hread : readBody 12 (Text.asBytes addr) = some (hello addr, []) := by
      change (if (Text.asBytes addr).length ≤ MAX_PEER_ADDR_LEN then _ else Reader.failure) _ = _
      have hshort : (Text.asBytes addr).length ≤ MAX_PEER_ADDR_LEN := hfits
      rw [if_pos hshort]
      exact ends_field (Reads.ofOption (Text.fromUtf8_asBytes addr)) hello
    exact decode_of_ends 12 hread rfl
  | peers list =>
    have hcount := @reads_count_atMost MAX_PEERS _ (by decide) hfits.1
    refine decode_of_ends 14 (ends_bind hcount (ends_field (Reads.many fun addr haddr ↦
      reads_addr (hfits.2 addr haddr)) _)) ?_
    rw [encode, List.take_of_length_le hfits.1]
    rfl
  | findCommon ids =>
    have hcount := @reads_count_atMost MAX_LOCATOR_IDS _ (by decide) hfits
    refine decode_of_ends 15 (ends_bind hcount (ends_field (Reads.many fun id _ ↦
      Reads.arr32 id) _)) ?_
    rw [encode, List.take_of_length_le hfits]
    rfl
  | commonHeight height => exact decode_of_ends 16 (ends_field (Reads.u64 height) _) rfl
  | getPublicBalance id token =>
    exact decode_of_ends 17 (ends_bind (Reads.arr32 id) (ends_field (Reads.u32 token) _)) rfl
  | publicBalanceReply amount =>
    exact decode_of_ends 18 (ends_field (reads_option Reads.u64 amount) _) rfl
  | getRingCandidates token max =>
    exact decode_of_ends 19 (ends_bind (Reads.u32 token) (ends_field (Reads.u32 max) _)) rfl
  | ringCandidates list =>
    have hshort : list.length ≤ MAX_RING_CANDIDATES := hfits
    have hlength : list.length < 2 ^ 32 := hshort.trans_lt (by decide)
    have hcount := reads_atMost hshort (Transaction.reads_len hlength)
    refine decode_of_ends 20 (ends_bind hcount (ends_field (Reads.many fun entry _ ↦
      reads_pair (Reads.arr32 entry.1) (Reads.arr64 entry.2)) _)) ?_
    rw [encode, min_eq_left hshort, List.take_length]
  | handshake version genesis addr =>
    refine decode_of_ends 21 (ends_bind (Reads.u32 version) (ends_bind (Reads.arr32 genesis)
      (ends_field (reads_addr hfits) _))) ?_
    simp [encode]
  | handshakeAck version genesis accepted =>
    refine decode_of_ends 22 (ends_bind (Reads.u32 version) (ends_bind (Reads.arr32 genesis)
      (ends_field (reads_bool accepted) _))) ?_
    simp [encode]
  | getContractStorage contract key =>
    exact decode_of_ends 23 (ends_bind (Reads.arr32 contract) (ends_field (Reads.u64 key) _)) rfl
  | contractStorageReply val => exact decode_of_ends 24 (ends_field (Reads.u64 val) _) rfl
  | hasContract id => exact decode_of_ends 25 (ends_field (Reads.arr32 id) _) rfl
  | finalizedReply watermark =>
    exact decode_of_ends 29 (ends_field (reads_option (fun entry ↦
      reads_pair (Reads.u64 entry.1) (Reads.arr32 entry.2)) watermark) _) rfl
  | getStake id => exact decode_of_ends 30 (ends_field (Reads.arr32 id) _) rfl
  | stakeReply staked unbonding =>
    have hshort : unbonding.length ≤ MAX_UNBONDING_ENTRIES := hfits
    have hlength : unbonding.length < 2 ^ 32 := hshort.trans_lt (by decide)
    have hcount := reads_atMost hshort (Transaction.reads_len hlength)
    refine decode_of_ends 31 (ends_bind (Reads.u64 staked) (ends_bind hcount (ends_bind
      (Reads.many fun entry _ ↦ reads_pair (Reads.u64 entry.1) (Reads.u64 entry.2))
        (ends_atEnd _)))) ?_
    simp [encode]
  | blockAnnounce id height =>
    refine decode_of_ends 33 (ends_bind (Reads.arr32 id) (ends_bind (Reads.u64 height)
      (ends_atEnd _))) ?_
    simp [encode]
  | stateManifest anchorHeight anchorId recordCount chunkCount =>
    refine decode_of_ends 35 (ends_bind (Reads.u64 anchorHeight) (ends_bind (Reads.arr32 anchorId)
      (ends_bind (Reads.u64 recordCount) (ends_bind (Reads.u32 chunkCount) (ends_atEnd _))))) ?_
    simp [encode]
  | getStateChunk n => exact decode_of_ends 36 (ends_field (Reads.u32 n) _) rfl
  | stateChunk records =>
    refine decode_of_ends 37 (ends_bind (Transaction.reads_len hfits.1) (ends_bind
      (Reads.many fun entry hentry ↦ reads_pair (reads_chunk (hfits.2 entry hentry).1)
        (reads_chunk (hfits.2 entry hentry).2)) (ends_atEnd _))) ?_
    simp [encode]
  | getPool token => exact decode_of_ends 38 (ends_field (Reads.u32 token) _) rfl
  | poolReply pool =>
    exact decode_of_ends 39 (ends_field (reads_option reads_pool pool) _) rfl
  | getLpShares token id =>
    exact decode_of_ends 40 (ends_bind (Reads.u32 token) (ends_field (Reads.arr32 id) _)) rfl
  | getHtlc id => exact decode_of_ends 41 (ends_field (Reads.arr32 id) _) rfl
  | htlcReply htlc => exact decode_of_ends 42 (ends_field (reads_option reads_htlc htlc) _) rfl
  | htlcsReply locks =>
    refine decode_of_ends 44 (ends_bind (Transaction.reads_len hfits) (ends_bind
      (Reads.many fun lock _ ↦ reads_pair (Reads.arr32 lock.1) (reads_htlc lock.2))
        (ends_atEnd _))) ?_
    simp [encode]
  | getCurve token => exact decode_of_ends 45 (ends_field (Reads.u32 token) _) rfl
  | curveReply curve => exact decode_of_ends 46 (ends_field (reads_option reads_curve curve) _) rfl

/-! ### What is read keeps the bounds -/

theorem atMost_eq_some {bound n : ℕ} {count : Reader ℕ} {input rest : Bytes} :
    atMost bound count input = some (n, rest) ↔ count input = some (n, rest) ∧ n ≤ bound := by
  unfold atMost
  rw [bind_eq_some]
  constructor
  · rintro ⟨value, mid, hcount, hvalue⟩
    split at hvalue
    · next hle =>
      obtain ⟨rfl, rfl⟩ := pure_eq_some.mp hvalue
      exact ⟨hcount, hle⟩
    · cases hvalue
  · rintro ⟨hcount, hle⟩
    refine ⟨n, rest, hcount, ?_⟩
    rw [if_pos hle]
    rfl

/-- A list that is read has as many entries as were asked for, each of them read. -/
theorem of_many {reader : Reader α} {good : α → Prop}
    (hgood : ∀ {input value rest}, reader input = some (value, rest) → good value) {n : ℕ}
    {values : List α} {input rest : Bytes} (hread : many n reader input = some (values, rest)) :
    values.length = n ∧ ∀ value ∈ values, good value := by
  induction n generalizing values input with
  | zero =>
    obtain ⟨rfl, rfl⟩ := pure_eq_some.mp hread
    exact ⟨rfl, fun _ hmem ↦ absurd hmem List.not_mem_nil⟩
  | succ n ih =>
    unfold many at hread
    simp only [bind_eq_some, pure_eq_some] at hread
    obtain ⟨first, mid, hfirst, others, mid', hothers, rfl, rfl⟩ := hread
    obtain ⟨hlength, hrest⟩ := ih hothers
    refine ⟨congrArg Nat.succ hlength, ?_⟩
    exact List.forall_mem_cons.mpr ⟨hgood hfirst, hrest⟩

theorem length_of_many {reader : Reader α} {n : ℕ} {values : List α} {input rest : Bytes}
    (hread : many n reader input = some (values, rest)) : values.length = n :=
  (of_many (fun _ ↦ trivial) hread).1

theorem length_of_readAddr {addr : Text} {input rest : Bytes}
    (hread : readAddr input = some (addr, rest)) :
    (Text.asBytes addr).length ≤ MAX_PEER_ADDR_LEN := by
  unfold readAddr at hread
  simp only [bind_eq_some, atMost_eq_some, take_eq_some, ofOption_eq_some,
    Text.fromUtf8_eq_some] at hread
  obtain ⟨len, mid, ⟨-, hlen⟩, bytes, mid', ⟨rfl, -⟩, haddr, -⟩ := hread
  rwa [haddr]

theorem length_of_readChunk {bytes input rest : Bytes}
    (hread : readChunk input = some (bytes, rest)) : bytes.length < 2 ^ 32 := by
  unfold readChunk at hread
  simp only [bind_eq_some, take_eq_some, Transaction.readLen_eq_some] at hread
  obtain ⟨len, mid, ⟨hlen, -⟩, rfl, -⟩ := hread
  exact hlen

/-- A key and a value that are read have lengths of 32 bits. -/
theorem length_of_chunks {entry : Bytes × Bytes} {input rest : Bytes}
    (hread : (do return (← readChunk, ← readChunk) : Reader (Bytes × Bytes)) input =
      some (entry, rest)) : entry.1.length < 2 ^ 32 ∧ entry.2.length < 2 ^ 32 := by
  obtain ⟨key, mid, hkey, hread⟩ := bind_eq_some.mp hread
  obtain ⟨value, mid, hvalue, hread⟩ := bind_eq_some.mp hread
  obtain rfl := (pure_eq_some.mp hread).1
  exact ⟨length_of_readChunk hkey, length_of_readChunk hvalue⟩

/-- A message that reads back comes from the fields behind its tag. -/
theorem readBody_of_decode {tag : UInt8} (hencode : m.encode = tag :: body)
    (hdecode : decode m.encode = some m) : ∃ rest, readBody tag body = some (m, rest) := by
  rw [hencode, decode, Option.map_eq_some_iff] at hdecode
  obtain ⟨⟨read, rest⟩, hread, rfl⟩ := hdecode
  exact ⟨rest, hread⟩

/-- A message that reads back keeps the bounds. -/
theorem fits_of_decode (hdecode : decode m.encode = some m) : m.Fits := by
  cases m with
  | hello addr =>
    obtain ⟨rest, hread⟩ := readBody_of_decode rfl hdecode
    change (if (Text.asBytes addr).length ≤ MAX_PEER_ADDR_LEN then _ else Reader.failure) _ = _
      at hread
    show (Text.asBytes addr).length ≤ MAX_PEER_ADDR_LEN
    by_contra hlong
    rw [if_neg hlong] at hread
    cases hread
  | peers list =>
    obtain ⟨rest, hread⟩ := readBody_of_decode rfl hdecode
    change (atMost MAX_PEERS readCount >>= fun count ↦ many count readAddr >>= fun list ↦
      pure (peers list)) _ = _ at hread
    simp only [bind_eq_some, atMost_eq_some, pure_eq_some, peers.injEq] at hread
    obtain ⟨count, mid, ⟨-, hcount⟩, list, mid', hlist, rfl, -⟩ := hread
    obtain ⟨rfl, haddrs⟩ := of_many length_of_readAddr hlist
    exact ⟨hcount, haddrs⟩
  | findCommon ids =>
    obtain ⟨rest, hread⟩ := readBody_of_decode rfl hdecode
    change (atMost MAX_LOCATOR_IDS readCount >>= fun count ↦ many count arr32 >>= fun ids ↦
      pure (findCommon ids)) _ = _ at hread
    simp only [bind_eq_some, atMost_eq_some, pure_eq_some, findCommon.injEq] at hread
    obtain ⟨count, mid, ⟨-, hcount⟩, ids, mid', hids, rfl, -⟩ := hread
    exact (length_of_many hids).trans_le hcount
  | ringCandidates list =>
    obtain ⟨rest, hread⟩ := readBody_of_decode rfl hdecode
    change (atMost MAX_RING_CANDIDATES readLen >>= fun count ↦
      many count (do return (← arr32, ← arr64)) >>= fun list ↦ pure (ringCandidates list)) _ = _
      at hread
    rw [bind_eq_some] at hread
    obtain ⟨count, mid, hcount, hrest⟩ := hread
    obtain ⟨list, mid', hlist, hvariant⟩ := bind_eq_some.mp hrest
    obtain ⟨rfl, -⟩ := ringCandidates.inj (pure_eq_some.mp hvariant).1
    exact (length_of_many hlist).trans_le (atMost_eq_some.mp hcount).2
  | handshake version genesis addr =>
    obtain ⟨rest, hread⟩ := readBody_of_decode rfl hdecode
    change (u32 >>= fun version ↦ arr32 >>= fun genesis ↦ readAddr >>= fun addr ↦
      pure (handshake version genesis addr)) _ = _ at hread
    simp only [bind_eq_some, pure_eq_some, handshake.injEq] at hread
    obtain ⟨version, mid, -, genesis, mid', -, addr, mid'', haddr, ⟨-, -, rfl⟩, -⟩ := hread
    exact length_of_readAddr haddr
  | stakeReply staked unbonding =>
    obtain ⟨rest, hread⟩ := readBody_of_decode rfl hdecode
    change (u64 >>= fun staked ↦ atMost MAX_UNBONDING_ENTRIES readLen >>= fun count ↦
      many count (do return (← u64, ← u64)) >>= fun unbonding ↦ atEnd >>= fun _ ↦
        pure (stakeReply staked unbonding)) _ = _ at hread
    obtain ⟨staked, mid, -, hread⟩ := bind_eq_some.mp hread
    obtain ⟨count, mid, hcount, hread⟩ := bind_eq_some.mp hread
    obtain ⟨unbonding, mid, hunbonding, hread⟩ := bind_eq_some.mp hread
    obtain ⟨-, mid, -, hread⟩ := bind_eq_some.mp hread
    obtain ⟨-, rfl⟩ := stakeReply.inj (pure_eq_some.mp hread).1
    exact (length_of_many hunbonding).trans_le (atMost_eq_some.mp hcount).2
  | stateChunk records =>
    obtain ⟨rest, hread⟩ := readBody_of_decode rfl hdecode
    change (readLen >>= fun count ↦ many count (do return (← readChunk, ← readChunk)) >>=
      fun records ↦ atEnd >>= fun _ ↦ pure (stateChunk records)) _ = _ at hread
    obtain ⟨count, mid, hcount, hread⟩ := bind_eq_some.mp hread
    obtain ⟨records, mid, hrecords, hread⟩ := bind_eq_some.mp hread
    obtain ⟨-, mid, -, hread⟩ := bind_eq_some.mp hread
    obtain rfl := stateChunk.inj (pure_eq_some.mp hread).1
    obtain ⟨rfl, hshort⟩ := of_many length_of_chunks hrecords
    exact ⟨(Transaction.readLen_eq_some.mp hcount).1, hshort⟩
  | htlcsReply locks =>
    obtain ⟨rest, hread⟩ := readBody_of_decode rfl hdecode
    change (readLen >>= fun count ↦ many count (do return (← arr32, ← readHtlc)) >>= fun locks ↦
      atEnd >>= fun _ ↦ pure (htlcsReply locks)) _ = _ at hread
    obtain ⟨count, mid, hcount, hread⟩ := bind_eq_some.mp hread
    obtain ⟨locks, mid, hlocks, hread⟩ := bind_eq_some.mp hread
    obtain ⟨-, mid, -, hread⟩ := bind_eq_some.mp hread
    obtain rfl := htlcsReply.inj (pure_eq_some.mp hread).1
    exact (length_of_many hlocks).trans_lt (Transaction.readLen_eq_some.mp hcount).1
  | _ => trivial

/-- A message reads back exactly when it keeps the bounds. -/
theorem decode_encode_iff : decode m.encode = some m ↔ m.Fits :=
  ⟨fits_of_decode, decode_encode⟩

end RoundTrip

end Msg

end Latebra.P2p
