import Latebra.State.Parallel
import Latebra.Types.Wire

/-!
# Blocks

A block is a header with a list of transactions. This module has its wire form, the rules that a
block is held to without looking at the ledger (`checkTx`, the proof of work, the difficulty that a
block's children have to meet), and its transition of the ledger, `applyBlockState`: the
transactions, then the coinbase and the fees of the miner, then the check of the state root that the
header commits.

`Block.decode_encode` is the round trip of a block whose transactions all have a wire form, and
`Block.decode_eq_some` says that a block has no second one.
-/

set_option autoImplicit false
set_option relaxedAutoImplicit false

namespace Latebra.Chain

open Foundation Crypto Latebra.Types State

/-! ### Consensus parameters -/

/-- Target seconds between blocks. -/
def TARGET_BLOCK_TIME_SECS : UInt64 := 3

/-- The factor by which difficulty can change from one block to the next. -/
def RETARGET_CLAMP : UInt64 := 2

/-- Leading zero bits that a registration has to show. -/
def REGISTRATION_POW_BITS : ℕ := 8

def GENESIS_TIMESTAMP : UInt64 := 1750000000

/-- Minimum fee of a transfer. -/
def MIN_TRANSFER_FEE : UInt64 := 1000

/-- Cap on deployed contract bytecode. -/
def MAX_CONTRACT_CODE_BYTES : ℕ := 24 * 1024

/-- Cap on the transactions of one block. -/
def MAX_TXS_PER_BLOCK : ℕ := 1000

/-- Initial block reward. -/
def INITIAL_BLOCK_REWARD : UInt64 := 5000000

/-- Blocks between reward halvings. -/
def HALVING_INTERVAL : UInt64 := 131072

inductive ChainError where
  | orphanBlock
  | badHeight
  | badTxRoot
  | badStateRoot
  | badPow
  | badRegistrationPow
  | ledger (error : LedgerError)
  | storage
  | feeTooLow
  | oversizedContract
  | tooManyTxs
  | ringTooLarge
deriving DecidableEq, Repr

/-- The coinbase reward at a height. -/
def emission (height : UInt64) : UInt64 :=
  let halvings := height / HALVING_INTERVAL
  if 64 ≤ halvings then 0 else INITIAL_BLOCK_REWARD >>> halvings

/-! ### Proof of work -/

/-- Number of leading zero bits of a byte string. -/
def leadingZeroBits : Bytes → ℕ
  | [] => 0
  | byte :: rest => if byte = 0 then 8 + leadingZeroBits rest else 7 - byte.toNat.log2

def meetsBits (hash : Bytes32) (bits : ℕ) : Bool := bits ≤ leadingZeroBits (bytesOf32 hash)

/-- Top 64 bits of a hash. -/
def hashToU64 (hash : Bytes32) : UInt64 := UInt64.ofNat (beValue ((bytesOf32 hash).take 8))

/-- Whether a hash meets a block difficulty. -/
def meetsDifficulty (hash : Bytes32) (difficulty : UInt64) : Bool :=
  if difficulty ≤ 1 then true else hashToU64 hash ≤ maxU64 / difficulty

/-- A word kept between two bounds. -/
def clamp (value lo hi : UInt64) : UInt64 :=
  if value < lo then lo else if hi < value then hi else value

/-- The difficulty of the next block, from the current one and the seconds the last block took. -/
def retarget (current actualSecs : UInt64) : UInt64 :=
  let actual := max actualSecs 1
  let raw := UInt64.ofNat (current.toNat * TARGET_BLOCK_TIME_SECS.toNat / actual.toNat)
  let lo := current / RETARGET_CLAMP
  let hi := if current.toNat * RETARGET_CLAMP.toNat < 2 ^ 64 then current * RETARGET_CLAMP else maxU64
  max (clamp raw lo hi) 1

theorem one_le_max (word : UInt64) : 0 < (max word 1).toNat := by
  have hle : 1 ≤ max word 1 := by
    rw [UInt64.max_def]
    split
    · exact UInt64.le_refl 1
    · next hnot => exact UInt64.le_of_lt (UInt64.not_le.mp hnot)
  exact UInt64.le_iff_toNat_le.mp hle

/-- A difficulty is never zero. -/
theorem retarget_pos (current actualSecs : UInt64) : 0 < (retarget current actualSecs).toNat :=
  one_le_max _

section Blocks

variable (S : ChainSuite)

def registrationPowHash (pubkey : Bytes32) (nonce : UInt64) : Bytes32 :=
  S.blake3 (ascii "LAT-REG" ++ bytesOf32 pubkey ++ u64Le nonce)

/-- Whether a registration solved its proof of work. -/
def verifyRegistrationPow (pubkey : Bytes32) (nonce : UInt64) : Bool :=
  meetsBits (registrationPowHash S pubkey nonce) REGISTRATION_POW_BITS

/-- The fee floor, of whatever kind the fee is. -/
def checkFee (fee : UInt64) : Except ChainError Unit :=
  if fee < MIN_TRANSFER_FEE then throw .feeTooLow else pure ()

/-- The consensus rules of a single transaction. -/
def checkTx : Transaction S.toCryptoSuite → Except ChainError Unit
  | .register pubkey powNonce =>
    if verifyRegistrationPow S pubkey powNonce then pure () else throw .badRegistrationPow
  | .solventTransfer _ xfer => checkFee xfer.fee
  | .publicTransfer _ _ _ _ fee _ _ => checkFee fee
  | .shield _ _ _ _ fee _ _ => checkFee fee
  | .shieldStealth _ _ _ _ _ fee _ _ => checkFee fee
  | .addLiquidity _ _ _ _ fee _ _ => checkFee fee
  | .removeLiquidity _ _ _ fee _ _ => checkFee fee
  | .swap _ _ _ _ _ fee _ _ => checkFee fee
  | .curveTrade _ _ _ _ _ fee _ _ => checkFee fee
  | .htlcLock _ _ _ _ _ _ fee _ _ => checkFee fee
  | .unshield _ _ _ xfer _ => checkFee xfer.fee
  | .deployContract _ code _ =>
    if MAX_CONTRACT_CODE_BYTES < code.length then throw .oversizedContract else pure ()
  | .anonTransfer _ xfer => do
    checkFee xfer.fee
    if MAX_RING_SIZE < xfer.ring.length then throw .ringTooLarge
  | _ => pure ()

/-! ### Headers and blocks -/

structure BlockHeader where
  prevHash : Bytes32
  height : UInt64
  timestamp : UInt64
  txRoot : Bytes32
  /-- The commitment of the ledger after the block. -/
  stateRoot : Bytes32
  /-- The account that receives the coinbase. Zero means no reward. -/
  miner : Bytes32
  nonce : UInt64
deriving DecidableEq

namespace BlockHeader

/-- Canonical encoding. -/
def encode (header : BlockHeader) : Bytes :=
  bytesOf32 header.prevHash ++ (u64Le header.height ++ (u64Le header.timestamp ++
    (bytesOf32 header.txRoot ++ (bytesOf32 header.stateRoot ++ (bytesOf32 header.miner ++
      u64Le header.nonce)))))

/-- The id of a block: the proof-of-work hash of its header. -/
def id (header : BlockHeader) : Bytes32 := S.powHash header.encode

/-- Read a header. -/
def read : Reader BlockHeader := do
  return ⟨← Reader.arr32, ← Reader.u64, ← Reader.u64, ← Reader.arr32, ← Reader.arr32,
    ← Reader.arr32, ← Reader.u64⟩

theorem reads_encode (header : BlockHeader) : Reader.Reads read header header.encode := by
  have hreads : Reader.Reads read header (bytesOf32 header.prevHash ++ (u64Le header.height ++
      (u64Le header.timestamp ++ (bytesOf32 header.txRoot ++ (bytesOf32 header.stateRoot ++
        (bytesOf32 header.miner ++ (u64Le header.nonce ++ []))))))) :=
    (Reader.Reads.arr32 _).bind ((Reader.Reads.u64 _).bind ((Reader.Reads.u64 _).bind
      ((Reader.Reads.arr32 _).bind ((Reader.Reads.arr32 _).bind ((Reader.Reads.arr32 _).bind
        ((Reader.Reads.u64 _).bind (Reader.Reads.pure _)))))))
  rwa [List.append_nil] at hreads

end BlockHeader

structure Block where
  header : BlockHeader
  txs : List (Transaction S.toCryptoSuite)

/-- Commitment over the transactions of a block. -/
def txRoot (txs : List (Transaction S.toCryptoSuite)) : Bytes32 :=
  S.blake3 (ascii "LAT-txroot" ++ txs.flatMap fun tx ↦ bytesOf32 (S.blake3 tx.encode))

/-- The hash that identifies a transaction. -/
def txHash (tx : Transaction S.toCryptoSuite) : Bytes32 := S.blake3 tx.encode

variable {S}

namespace Block

/-- The id of the block. -/
def id (block : Block S) : Bytes32 := block.header.id S

/-- A transaction behind its length. -/
def encodeTx (tx : Transaction S.toCryptoSuite) : Bytes := leBytes 4 tx.encode.length ++ tx.encode

/-- Canonical wire encoding. -/
def encode (block : Block S) : Bytes :=
  block.header.encode ++ (leBytes 4 block.txs.length ++ block.txs.flatMap encodeTx)

/-- Read a transaction behind its length. -/
def readTx : Reader (Transaction S.toCryptoSuite) := do
  let len ← readLen
  let bytes ← Reader.take len
  Reader.ofOption (Transaction.decode S bytes)

/-- Decode a block from its wire encoding. -/
def decode (bytes : Bytes) : Option (Block S) :=
  Reader.complete (do
    let header ← BlockHeader.read
    let count ← readLen
    let txs ← Reader.many count readTx
    return ⟨header, txs⟩) bytes

/-- A block that has a wire form. -/
structure Transmissible (block : Block S) : Prop where
  count : block.txs.length < 2 ^ 32
  txs : ∀ tx ∈ block.txs, tx.Transmissible S ∧ tx.encode.length < 2 ^ 32

theorem reads_encodeTx {tx : Transaction S.toCryptoSuite} (hfits : tx.Transmissible S)
    (hlength : tx.encode.length < 2 ^ 32) : Reader.Reads readTx tx (encodeTx tx) := by
  have hreads : Reader.Reads readTx tx
      (leBytes 4 tx.encode.length ++ (tx.encode ++ [])) :=
    (Transaction.reads_len hlength).bind ((Reader.Reads.take _).bind
      (Reader.Reads.ofOption (Transaction.decode_encode hfits)))
  rwa [List.append_nil] at hreads

/-- A block that has a wire form reads back. -/
theorem decode_encode {block : Block S} (hfits : block.Transmissible) :
    decode block.encode = some block := by
  have htxs := Reader.Reads.many fun tx htx ↦
    reads_encodeTx (hfits.txs tx htx).1 (hfits.txs tx htx).2
  have hreads : Reader.Reads (do
      let header ← BlockHeader.read
      let count ← readLen
      let txs ← Reader.many count (readTx (S := S))
      return (⟨header, txs⟩ : Block S)) block
      (block.header.encode ++ (leBytes 4 block.txs.length ++
        (block.txs.flatMap encodeTx ++ []))) :=
    (BlockHeader.reads_encode _).bind ((Transaction.reads_len hfits.count).bind
      (htxs.bind (Reader.Reads.pure _)))
  rw [List.append_nil] at hreads
  exact Reader.complete_of_reads hreads

theorem readTx_exact : Reader.Exact (readTx (S := S))
    (fun tx ↦ tx.Transmissible S ∧ tx.encode.length < 2 ^ 32) encodeTx := by
  intro input tx rest
  unfold readTx
  simp only [Reader.bind_eq_some, Transaction.readLen_eq_some, Reader.take_eq_some,
    Reader.ofOption_eq_some, Transaction.decode_eq_some]
  constructor
  · rintro ⟨len, -, ⟨hlen, rfl⟩, bytes, -, ⟨rfl, rfl⟩, ⟨hfits, rfl⟩, rfl⟩
    refine ⟨⟨hfits, hlen⟩, ?_⟩
    rw [encodeTx, List.append_assoc]
  · rintro ⟨⟨hfits, hlen⟩, rfl⟩
    refine ⟨_, _, ⟨hlen, ?_⟩, tx.encode, rest, ⟨rfl, rfl⟩, ⟨hfits, rfl⟩, rfl⟩
    rw [encodeTx, List.append_assoc]

/-- A byte string is read as a block exactly when it is its encoding, and only a block that has a wire
form is read. -/
theorem decode_eq_some {block : Block S} {bytes : Bytes} :
    decode bytes = some block ↔ block.Transmissible ∧ block.encode = bytes := by
  constructor
  · intro hread
    unfold decode BlockHeader.read at hread
    simp only [Reader.complete_eq_some, Reader.bind_eq_some, Reader.pure_eq_some,
      Reader.arr32_eq_some, Reader.u64_eq_some, Transaction.readLen_eq_some] at hread
    obtain ⟨header, body, ⟨prevHash, -, rfl, height, -, rfl, timestamp, -, rfl, root, -, rfl,
      stateRoot, -, rfl, miner, -, rfl, nonce, -, rfl, rfl, rfl⟩, count, mid, ⟨hcount, rfl⟩, txs, last,
        hmany, rfl, rfl⟩ := hread
    obtain ⟨⟨rfl, htxs⟩, rfl⟩ := (readTx_exact.many _ _ _ _).mp hmany
    exact ⟨⟨hcount, htxs⟩, by simp [encode, BlockHeader.encode]⟩
  · rintro ⟨hfits, rfl⟩
    exact decode_encode hfits

end Block

/-! ### The transition of a block -/

/-- The fee that a transaction pays out of a confidential balance. -/
def confidentialFee : Transaction S.toCryptoSuite → Option (UInt32 × UInt64)
  | .solventTransfer token xfer => if xfer.fee > 0 then some (token, xfer.fee) else none
  | .unshield token _ _ xfer _ => if xfer.fee > 0 then some (token, xfer.fee) else none
  | .anonTransfer token xfer => if xfer.fee > 0 then some (token, xfer.fee) else none
  | _ => none

/-- The fee that a transaction pays out of a public balance. -/
def publicFee : Transaction S.toCryptoSuite → Option (UInt32 × UInt64)
  | .publicTransfer token _ _ _ fee _ _ => if fee > 0 then some (token, fee) else none
  | .shield token _ _ _ fee _ _ => if fee > 0 then some (token, fee) else none
  | .shieldStealth token _ _ _ _ fee _ _ => if fee > 0 then some (token, fee) else none
  | .addLiquidity _ _ _ _ fee _ _ => if fee > 0 then some (LAT_TOKEN, fee) else none
  | .removeLiquidity _ _ _ fee _ _ => if fee > 0 then some (LAT_TOKEN, fee) else none
  | .swap _ _ _ _ _ fee _ _ => if fee > 0 then some (LAT_TOKEN, fee) else none
  | .curveTrade _ _ _ _ _ fee _ _ => if fee > 0 then some (LAT_TOKEN, fee) else none
  | .htlcLock _ _ _ _ _ _ fee _ _ => if fee > 0 then some (LAT_TOKEN, fee) else none
  | .createToken _ _ _ _ => some (LAT_TOKEN, FLAT_TX_FEE)
  | .deployContract _ _ _ => some (LAT_TOKEN, FLAT_TX_FEE)
  | .callContract _ _ _ _ _ => some (LAT_TOKEN, FLAT_TX_FEE)
  | _ => none

/-- Pay the miner the coinbase and the fees of the transactions. -/
def rewardBlock (txs : List (Transaction S.toCryptoSuite)) (miner : Bytes32) (height : UInt64) :
    Transition LedgerError (Ledger S.toCryptoSuite) :=
  if miner = 0 then Transition.skip
  else
    Transition.andThen (fun state ↦ state.rewardMiner miner LAT_TOKEN (emission height))
      (Transition.andThen
        (Transition.each (fun fee state ↦ state.rewardMiner miner fee.1 fee.2)
          (txs.filterMap confidentialFee))
        (Transition.each (fun fee state ↦ state.creditPublic miner fee.1 fee.2)
          (txs.filterMap publicFee)))

/-- Apply the transactions of a block, then pay its miner. -/
def applyTxsAndReward (workers : ℕ) (txs : List (Transaction S.toCryptoSuite)) (miner : Bytes32)
    (height : UInt64) : Transition ChainError (Ledger S.toCryptoSuite) :=
  Transition.mapErr .ledger
    (Transition.andThen (Ledger.applyBlockParallel workers txs height)
      (rewardBlock txs miner height))

/-- Check the state root that a header commits. -/
def checkStateRoot (stateRoot : Bytes32) : Transition ChainError (Ledger S.toCryptoSuite) :=
  fun state ↦
    match state.stateRoot with
    | none => (.panicked, state)
    | some (root, state) =>
      if S.digestBytes root ≠ stateRoot then (.err .badStateRoot, state) else (.ok (), state)

/-- The full state transition of a block. -/
def applyBlockState (workers : ℕ) (block : Block S) :
    Transition ChainError (Ledger S.toCryptoSuite) :=
  Transition.andThen
    (applyTxsAndReward workers block.txs block.header.miner block.header.height)
    (checkStateRoot block.header.stateRoot)

end Blocks

end Latebra.Chain
