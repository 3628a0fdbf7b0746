import Latebra.Chain.Block
import Latebra.Crypto.TransferCodec
import Latebra.Foundation.PrioritySelection

/-!
# Transaction mempool

The pool of submitted transactions that are not mined yet. It refuses transactions under the fee
floor, deduplicates by the hashes ever seen, keeps one anonymous spend for each nullifier, is capped,
and drains highest fee first.

Refusals come one after the other, and the replacement of a conflicting spend is carried out between
two of them: a spend that outbids a pooled one and whose hash was already seen is refused, and the
pooled one is gone (`unchanged_iff`). Removals in the middle of the pool put its newest transaction
into the gap, so that submission order among equal fees lasts only as long as no such removal happens
(`Reaches.sublist_log`); everything else that `drain` promises holds of every pool.
-/

set_option autoImplicit false
set_option relaxedAutoImplicit false

namespace Latebra.Chain

open Foundation Crypto Latebra.Types State

/-- Cap on the transactions that the pool holds. -/
def MAX_MEMPOOL_TXS : ℕ := 8192

/-- Cap on the hashes that are remembered. -/
def MAX_SEEN : ℕ := 2 ^ 16

variable {S : ChainSuite}

/-- The anonymous-spend nullifier of a transaction, if it has one. -/
def txNullifier : Transaction S.toCryptoSuite → Option Bytes32
  | .anonTransfer _ xfer => some (S.nullifier xfer)
  | _ => none

/-- The fee that a transaction pays its block's miner. -/
def txFee : Transaction S.toCryptoSuite → UInt64
  | .solventTransfer _ xfer => xfer.fee
  | .unshield _ _ _ xfer _ => xfer.fee
  | .anonTransfer _ xfer => xfer.fee
  | .publicTransfer _ _ _ _ fee _ _ => fee
  | .shield _ _ _ _ fee _ _ => fee
  | .shieldStealth _ _ _ _ _ fee _ _ => fee
  | .addLiquidity _ _ _ _ fee _ _ => fee
  | .removeLiquidity _ _ _ fee _ _ => fee
  | .swap _ _ _ _ _ fee _ _ => fee
  | .curveTrade _ _ _ _ _ fee _ _ => fee
  | .htlcLock _ _ _ _ _ _ fee _ _ => fee
  | .createToken .. => FLAT_TX_FEE
  | .deployContract .. => FLAT_TX_FEE
  | .callContract .. => FLAT_TX_FEE
  | _ => 0

/-- Whether the pool refuses a transaction for its fee. Curve trades are not on the list. -/
def underpays : Transaction S.toCryptoSuite → Bool
  | .solventTransfer _ xfer => xfer.fee < MIN_TRANSFER_FEE
  | .publicTransfer _ _ _ _ fee _ _ => fee < MIN_TRANSFER_FEE
  | .shield _ _ _ _ fee _ _ => fee < MIN_TRANSFER_FEE
  | .shieldStealth _ _ _ _ _ fee _ _ => fee < MIN_TRANSFER_FEE
  | .unshield _ _ _ xfer _ => xfer.fee < MIN_TRANSFER_FEE
  | .anonTransfer _ xfer => xfer.fee < MIN_TRANSFER_FEE
  | .addLiquidity _ _ _ _ fee _ _ => fee < MIN_TRANSFER_FEE
  | .removeLiquidity _ _ _ fee _ _ => fee < MIN_TRANSFER_FEE
  | .swap _ _ _ _ _ fee _ _ => fee < MIN_TRANSFER_FEE
  | .htlcLock _ _ _ _ _ _ fee _ _ => fee < MIN_TRANSFER_FEE
  | _ => false

/-- Whether a transaction deploys more code than consensus allows. -/
def oversized : Transaction S.toCryptoSuite → Bool
  | .deployContract _ code _ => MAX_CONTRACT_CODE_BYTES < code.length
  | _ => false

structure Mempool (S : ChainSuite) where
  txs : List (Transaction S.toCryptoSuite)
  /-- The hashes ever seen. -/
  seen : FMap Bytes32 Unit

namespace Mempool

def new : Mempool S := ⟨[], ∅⟩

/-- The position of a pooled spend with the nullifier of a transaction. -/
def conflictOf (pool : Mempool S) (tx : Transaction S.toCryptoSuite) : Option ℕ :=
  match txNullifier tx with
  | none => none
  | some nf => pool.txs.findIdx? fun pooled ↦ txNullifier pooled = some nf

/-- The fee of the transaction at a position. -/
def feeAt (pool : Mempool S) (i : ℕ) : UInt64 := (pool.txs[i]?.map txFee).getD 0

/-- Take the transaction at a position out, with the newest one put into its place. -/
def removeAt (pool : Mempool S) (i : ℕ) : Mempool S := { pool with txs := swapRemove pool.txs i }

/-- The position of the cheapest transaction, the first one of several. -/
def cheapest (pool : Mempool S) : Option ℕ :=
  ((List.range pool.txs.length).argmin fun i ↦ (pool.feeAt i).toNat)

/-- Remember a transaction and put it at the end of the pool. -/
def push (pool : Mempool S) (tx : Transaction S.toCryptoSuite) : Mempool S where
  txs := pool.txs ++ [tx]
  seen := (if MAX_SEEN ≤ pool.seen.size then ∅ else pool.seen).insert (txHash S tx) ()

/-- The checks of a transaction that no longer conflicts with a pooled one. -/
def addFresh (pool : Mempool S) (tx : Transaction S.toCryptoSuite) : Bool × Mempool S :=
  if oversized tx then (false, pool)
  else if pool.seen[txHash S tx]?.isSome then (false, pool)
  else if MAX_MEMPOOL_TXS ≤ pool.txs.length then
    match pool.cheapest with
    | some i =>
      if pool.feeAt i < txFee tx then (true, (pool.removeAt i).push tx) else (false, pool)
    | none => (false, pool)
  else (true, pool.push tx)

/-- Add a transaction, and say whether it was taken. -/
def add (pool : Mempool S) (tx : Transaction S.toCryptoSuite) : Bool × Mempool S :=
  if underpays tx then (false, pool)
  else
    match pool.conflictOf tx with
    | some i =>
      if pool.feeAt i < txFee tx then (pool.removeAt i).addFresh tx else (false, pool)
    | none => pool.addFresh tx

/-- Take up to `max` transactions out, highest fee first. -/
def drain (pool : Mempool S) (max : ℕ) : List (Transaction S.toCryptoSuite) × Mempool S :=
  let n := min max pool.txs.length
  if n = 0 then ([], pool)
  else
    (PrioritySelection.picked (fun tx ↦ (txFee tx).toNat) n pool.txs,
      { pool with txs := PrioritySelection.left (fun tx ↦ (txFee tx).toNat) n pool.txs })

/-- Drop the transactions of a block, and the spends whose nullifier one of them has used. -/
def removeIncluded (pool : Mempool S) (included : List (Transaction S.toCryptoSuite)) : Mempool S :=
  { pool with
    txs := pool.txs.filter fun tx ↦ txHash S tx ∉ included.map (txHash S) ∧
      ∀ nf ∈ txNullifier tx, nf ∉ included.filterMap txNullifier }

/-- Whether a transaction may still be mined in the epoch of a height. -/
def inEpoch (height : UInt64) : Transaction S.toCryptoSuite → Bool
  | .anonTransfer _ xfer => xfer.epoch = epochOf height
  | _ => true

/-- Drop the anonymous spends that are not of the epoch of the next block. -/
def pruneExpired (pool : Mempool S) (nextHeight : UInt64) : Mempool S :=
  { pool with txs := pool.txs.filter (inEpoch nextHeight) }

end Mempool

/-! ### Runs -/

/-- One operation on a pool. -/
inductive MempoolOp (S : ChainSuite) where
  | add (tx : Transaction S.toCryptoSuite)
  | drain (max : ℕ)
  | removeIncluded (included : List (Transaction S.toCryptoSuite))
  | pruneExpired (nextHeight : UInt64)

namespace Mempool

variable {pool : Mempool S} {tx : Transaction S.toCryptoSuite}
  {log : List (Transaction S.toCryptoSuite)}

/-- The pool after one operation. -/
def step (pool : Mempool S) : MempoolOp S → Mempool S
  | .add tx => (pool.add tx).2
  | .drain max => (pool.drain max).2
  | .removeIncluded included => pool.removeIncluded included
  | .pruneExpired nextHeight => pool.pruneExpired nextHeight

/-- The transactions that one operation takes into the pool. -/
def taken (pool : Mempool S) : MempoolOp S → List (Transaction S.toCryptoSuite)
  | .add tx => if (pool.add tx).1 then [tx] else []
  | _ => []

/-- The pools that runs from the empty one reach when every operation of the run satisfies `ok` on
the pool it is applied to, with the transactions that were taken, in the order of submission. -/
inductive Reaches (ok : Mempool S → MempoolOp S → Prop) :
    List (Transaction S.toCryptoSuite) → Mempool S → Prop where
  | new : Reaches ok [] new
  | step {log : List (Transaction S.toCryptoSuite)} {pool : Mempool S} (op : MempoolOp S) :
    Reaches ok log pool → ok pool op → Reaches ok (log ++ pool.taken op) (pool.step op)

/-- The pools that runs reach. -/
abbrev Reachable (log : List (Transaction S.toCryptoSuite)) (pool : Mempool S) : Prop :=
  Reaches (fun _ _ ↦ True) log pool

/-! ### Capacity -/

theorem length_removeAt (pool : Mempool S) (i : ℕ) :
    (pool.removeAt i).txs.length = pool.txs.length - 1 :=
  length_swapRemove pool.txs i

theorem length_push (pool : Mempool S) (tx : Transaction S.toCryptoSuite) :
    (pool.push tx).txs.length = pool.txs.length + 1 := by
  simp [push]

theorem length_addFresh (hlength : pool.txs.length ≤ MAX_MEMPOOL_TXS) :
    (pool.addFresh tx).2.txs.length ≤ MAX_MEMPOOL_TXS := by
  have hmax : MAX_MEMPOOL_TXS = 8192 := rfl
  unfold addFresh
  split_ifs with hsize hseen hfull
  · exact hlength
  · exact hlength
  · split
    · split
      · rw [length_push, length_removeAt]
        omega
      · exact hlength
    · exact hlength
  · rw [length_push]
    omega

theorem length_add (hlength : pool.txs.length ≤ MAX_MEMPOOL_TXS) :
    (pool.add tx).2.txs.length ≤ MAX_MEMPOOL_TXS := by
  unfold add
  split
  · exact hlength
  · split
    · split
      · apply length_addFresh
        rw [length_removeAt]
        omega
      · exact hlength
    · exact length_addFresh hlength

theorem length_drain (pool : Mempool S) (max : ℕ) :
    (pool.drain max).2.txs.length ≤ pool.txs.length := by
  unfold drain
  dsimp only
  split
  · exact le_rfl
  · exact (PrioritySelection.left_sublist _ _ _).length_le

/-- A pool never holds more than its cap. -/
theorem Reaches.length_le {ok : Mempool S → MempoolOp S → Prop} (hpool : Reaches ok log pool) :
    pool.txs.length ≤ MAX_MEMPOOL_TXS := by
  induction hpool with
  | new => exact Nat.zero_le _
  | step op _ _ ih =>
    cases op with
    | add tx => exact length_add ih
    | drain max => exact (length_drain _ max).trans ih
    | removeIncluded included => exact (List.length_filter_le _ _).trans ih
    | pruneExpired nextHeight => exact (List.length_filter_le _ _).trans ih

/-! ### Refusals -/

/-- A transaction that pays more than the pooled spend it conflicts with. -/
def Outbids (pool : Mempool S) (tx : Transaction S.toCryptoSuite) : Prop :=
  underpays tx = false ∧ ∃ i, pool.conflictOf tx = some i ∧ pool.feeAt i < txFee tx

theorem conflictOf_lt {i : ℕ} (hconflict : pool.conflictOf tx = some i) :
    i < pool.txs.length ∧ oversized tx = false := by
  cases tx <;> simp only [conflictOf, txNullifier, reduceCtorEq] at hconflict
  exact ⟨(List.findIdx?_eq_some_iff_getElem.mp hconflict).1, rfl⟩

/-- A refusal that follows no replacement leaves the pool alone. -/
theorem addFresh_of_refused (hrefused : (pool.addFresh tx).1 = false) :
    (pool.addFresh tx).2 = pool := by
  unfold addFresh at hrefused ⊢
  split_ifs at hrefused ⊢
  · rfl
  · rfl
  · split at hrefused
    · split_ifs at hrefused ⊢
      rfl
    · rfl

/-- With room in the pool, what passes the fee checks is refused for its size or its hash alone. -/
theorem addFresh_of_room (hroom : pool.txs.length < MAX_MEMPOOL_TXS) :
    (pool.addFresh tx).1 = false ↔ oversized tx = true ∨ pool.seen[txHash S tx]?.isSome = true := by
  unfold addFresh
  split_ifs with hsize hseen hfull
  · simp [hsize]
  · simp [hseen]
  · omega
  · simp [hsize, hseen]

theorem add_of_outbids {i : ℕ} (hpaid : underpays tx = false) (hconflict : pool.conflictOf tx = some i)
    (hfee : pool.feeAt i < txFee tx) : pool.add tx = (pool.removeAt i).addFresh tx := by
  simp only [add, hpaid, Bool.false_eq_true, if_false, hconflict, if_pos hfee]

/-- A transaction that does not outbid a conflicting one is refused without a trace. -/
theorem add_of_not_outbids (hbid : ¬ pool.Outbids tx) (hrefused : (pool.add tx).1 = false) :
    (pool.add tx).2 = pool := by
  unfold add at hrefused ⊢
  split
  · rfl
  · next hpaid =>
    rw [if_neg hpaid] at hrefused
    cases hconflict : pool.conflictOf tx with
    | none =>
      rw [hconflict] at hrefused
      exact addFresh_of_refused hrefused
    | some i =>
      by_cases hfee : pool.feeAt i < txFee tx
      · exact absurd ⟨by simpa using hpaid, i, hconflict, hfee⟩ hbid
      · simp only [if_neg hfee]

/-- A refusal leaves the pooled transactions and their order as they were, unless the transaction
outbids a pooled spend of its nullifier and its hash was already seen. -/
theorem unchanged_iff (hpool : Reachable log pool) (tx : Transaction S.toCryptoSuite) :
    ((pool.add tx).1 = false → (pool.add tx).2.txs = pool.txs) ↔
      ¬ (pool.Outbids tx ∧ pool.seen[txHash S tx]?.isSome = true) := by
  constructor
  · rintro hclean ⟨⟨hpaid, i, hconflict, hfee⟩, hseen⟩
    obtain ⟨hi, -⟩ := conflictOf_lt hconflict
    have hcap := hpool.length_le
    have hroom : (pool.removeAt i).txs.length < MAX_MEMPOOL_TXS := by
      rw [length_removeAt]
      omega
    rw [add_of_outbids hpaid hconflict hfee] at hclean
    have hrefused := (addFresh_of_room hroom).mpr (.inr hseen)
    have hsame := hclean hrefused
    rw [addFresh_of_refused hrefused] at hsame
    have hlength := congrArg List.length hsame
    rw [length_removeAt] at hlength
    omega
  · intro hcondition hrefused
    by_cases hbid : pool.Outbids tx
    · obtain ⟨hpaid, i, hconflict, hfee⟩ := id hbid
      obtain ⟨hi, hsize⟩ := conflictOf_lt hconflict
      have hcap := hpool.length_le
      have hroom : (pool.removeAt i).txs.length < MAX_MEMPOOL_TXS := by
        rw [length_removeAt]
        omega
      rw [add_of_outbids hpaid hconflict hfee] at hrefused
      rcases (addFresh_of_room hroom).mp hrefused with hbig | hseen
      · rw [hsize] at hbig
        exact absurd hbig (by simp)
      · exact absurd ⟨hbid, hseen⟩ hcondition
    · rw [add_of_not_outbids hbid hrefused]

/-! ### Order -/

/-- The position of the pooled transaction that makes room for one whose fee and nullifier do not
stand against it. -/
def evicted (pool : Mempool S) (tx : Transaction S.toCryptoSuite) : Option ℕ :=
  if oversized tx = true ∨ pool.seen[txHash S tx]?.isSome = true ∨
    pool.txs.length < MAX_MEMPOOL_TXS then none
  else pool.cheapest.filter fun i ↦ pool.feeAt i < txFee tx

/-- The position of the pooled transaction that a newcomer removes: a spend that it outbids, or the
cheapest one of a full pool. -/
def displaced (pool : Mempool S) (tx : Transaction S.toCryptoSuite) : Option ℕ :=
  if underpays tx then none
  else
    match pool.conflictOf tx with
    | some i => if pool.feeAt i < txFee tx then some i else none
    | none => pool.evicted tx

/-- A newcomer removes no pooled transaction but the newest one. -/
def KeepsOrder (pool : Mempool S) : MempoolOp S → Prop
  | .add tx => ∀ i ∈ pool.displaced tx, i + 1 = pool.txs.length
  | _ => True

instance (pool : Mempool S) (tx : Transaction S.toCryptoSuite) :
    Decidable (pool.KeepsOrder (.add tx)) :=
  inferInstanceAs (Decidable (∀ i ∈ pool.displaced tx, i + 1 = pool.txs.length))

theorem addFresh_txs (pool : Mempool S) (tx : Transaction S.toCryptoSuite) :
    (pool.addFresh tx).2.txs = (pool.evicted tx).elim pool.txs (swapRemove pool.txs) ++
      if (pool.addFresh tx).1 then [tx] else [] := by
  by_cases hsize : oversized tx = true
  · simp [addFresh, evicted, hsize]
  by_cases hseen : pool.seen[txHash S tx]?.isSome = true
  · simp [addFresh, evicted, hsize, hseen]
  by_cases hroom : pool.txs.length < MAX_MEMPOOL_TXS
  · simp [addFresh, evicted, hsize, hseen, hroom, not_le.mpr hroom, push]
  · simp only [addFresh, evicted, hsize, hseen, hroom, if_false, or_self, Bool.false_eq_true,
      if_pos (not_lt.mp hroom)]
    cases pool.cheapest with
    | none => simp
    | some i => by_cases hfee : pool.feeAt i < txFee tx <;> simp [hfee, push, removeAt, Option.filter]

/-- What an addition does to the pooled transactions: one makes room, and the new one goes last. -/
theorem add_txs (hcap : pool.txs.length ≤ MAX_MEMPOOL_TXS) (tx : Transaction S.toCryptoSuite) :
    (pool.add tx).2.txs = (pool.displaced tx).elim pool.txs (swapRemove pool.txs) ++
      pool.taken (.add tx) := by
  by_cases hpaid : underpays tx = true
  · simp [taken, add, displaced, hpaid]
  · cases hconflict : pool.conflictOf tx with
    | none =>
      simp only [taken, add, displaced, if_neg hpaid, hconflict]
      exact pool.addFresh_txs tx
    | some i =>
      simp only [taken, add, displaced, if_neg hpaid, hconflict]
      split
      · obtain ⟨hi, -⟩ := conflictOf_lt hconflict
        have hroom : (pool.removeAt i).txs.length < MAX_MEMPOOL_TXS := by
          rw [length_removeAt]
          omega
        have hnone : (pool.removeAt i).evicted tx = none := if_pos (.inr (.inr hroom))
        rw [addFresh_txs, hnone]
        rfl
      · simp

/-- As long as newcomers remove no pooled transaction but the newest one, the pool stands in
submission order. -/
theorem Reaches.sublist_log (hpool : Reaches KeepsOrder log pool) : pool.txs.Sublist log := by
  induction hpool with
  | new => exact List.Sublist.refl _
  | @step log pool op hbefore hkeeps ih =>
    cases op with
    | add tx =>
      show (pool.add tx).2.txs.Sublist _
      rw [add_txs hbefore.length_le]
      refine List.Sublist.append ?_ (List.Sublist.refl _)
      cases hdisplaced : pool.displaced tx with
      | none => exact ih
      | some i =>
        rw [Option.elim_some, swapRemove_last _ _ (hkeeps i hdisplaced)]
        exact (List.dropLast_sublist _).trans ih
    | drain max =>
      apply List.Sublist.trans _ (List.sublist_append_left _ _)
      show (pool.drain max).2.txs.Sublist log
      unfold drain
      dsimp only
      split
      · exact ih
      · exact (PrioritySelection.left_sublist _ _ _).trans ih
    | removeIncluded included =>
      exact (List.filter_sublist.trans ih).trans (List.sublist_append_left _ _)
    | pruneExpired nextHeight =>
      exact (List.filter_sublist.trans ih).trans (List.sublist_append_left _ _)

/-- What `drain` takes out and what it leaves, also when it takes nothing. -/
theorem drain_eq (pool : Mempool S) (n : ℕ) : ∃ m ≤ n,
    (pool.drain n).1 = PrioritySelection.picked (fun tx ↦ (txFee tx).toNat) m pool.txs ∧
    (pool.drain n).2.txs = PrioritySelection.left (fun tx ↦ (txFee tx).toNat) m pool.txs := by
  refine ⟨min n pool.txs.length, min_le_left _ _, ?_⟩
  unfold drain
  dsimp only
  split
  · next hzero =>
    rw [hzero]
    simp [PrioritySelection.picked, PrioritySelection.left]
  · exact ⟨rfl, rfl⟩

/-- Draining keeps the order of the pool among the transactions of one fee, the taken ones before
those that are left. -/
theorem filter_drain (pool : Mempool S) (n : ℕ) (fee : UInt64) :
    (((pool.drain n).1 ++ (pool.drain n).2.txs).filter fun tx ↦ txFee tx = fee) =
      pool.txs.filter fun tx ↦ txFee tx = fee := by
  obtain ⟨m, -, hpicked, hleft⟩ := pool.drain_eq n
  have hstable := PrioritySelection.filter_picked_append_left
    (fun tx : Transaction S.toCryptoSuite ↦ (txFee tx).toNat) m pool.txs fee.toNat
  simp only [UInt64.toNat_inj] at hstable
  rw [hpicked, hleft, hstable]

/-- A drain takes at most as many transactions as asked for, by descending fee, none that is left
pays more than one that is taken, and the two together are the pool. As long as newcomers have
removed no pooled transaction but the newest one, the transactions of one fee, the taken ones before
those that are left, stand in submission order. -/
theorem drain_ordered (log : List (Transaction S.toCryptoSuite)) (pool : Mempool S) (n : ℕ) :
    ((pool.drain n).1.length ≤ n ∧
      (pool.drain n).1.Pairwise (fun first second ↦ txFee second ≤ txFee first) ∧
      (∀ taken ∈ (pool.drain n).1, ∀ kept ∈ (pool.drain n).2.txs, txFee kept ≤ txFee taken) ∧
      ((pool.drain n).1 ++ (pool.drain n).2.txs).Perm pool.txs) ∧
    (Reaches KeepsOrder log pool → ∀ fee : UInt64,
      (((pool.drain n).1 ++ (pool.drain n).2.txs).filter fun tx ↦ txFee tx = fee).Sublist log) := by
  constructor
  · obtain ⟨m, hm, hpicked, hleft⟩ := pool.drain_eq n
    let priority : Transaction S.toCryptoSuite → ℕ := fun tx ↦ (txFee tx).toNat
    rw [hpicked, hleft]
    refine ⟨?_, ?_, ?_, ?_⟩
    · rw [PrioritySelection.length_picked]
      exact (min_le_left _ _).trans hm
    · apply (PrioritySelection.picked_pairwise priority m pool.txs).imp
      intro first second hle
      exact UInt64.le_iff_toNat_le.mpr hle
    · intro taken htaken kept hkept
      exact UInt64.le_iff_toNat_le.mpr (PrioritySelection.priority_left_le priority htaken hkept)
    · exact PrioritySelection.picked_append_left_perm _ _ _
  · intro hordered fee
    rw [filter_drain]
    exact List.filter_sublist.trans hordered.sublist_log

/-! ### Replaced spends -/

section Examples

/-- A spend of one account in one epoch, at a fee. -/
def spendOf (fee : UInt64) :
    AnonTransfer (BitVec 256) (AnonProof (BitVec 256) Bytes32 freeTransfers.RangeProof) :=
  let link : DeltaLink (BitVec 256) Bytes32 := ⟨0, 0, 0, 0, 0, 0⟩
  let bit : ZeroOrDebit (BitVec 256) Bytes32 := ⟨0, 0, 0, 0, 0⟩
  ⟨[⟨1⟩, ⟨2⟩], [⟨0, 0⟩, ⟨0, 0⟩], [⟨0, 0⟩, ⟨0, 0⟩], ⟨0, 0⟩, fee, 0, ⟨⟨3⟩, ⟨4⟩⟩, 5,
    ⟨[0, 0], 0, 0, ⟨[], by decide⟩, [0, 0], [0, 0], [0, 0], [0, 0], [bit, bit], [link, link], link, 0,
      0⟩⟩

def spend (fee : UInt64) : Transaction freeTransfers.chainSuite.toCryptoSuite :=
  .anonTransfer 0 (spendOf fee)

/-- The pool with one spend, after a dearer one was drained. -/
def cheaperSpend : Mempool freeTransfers.chainSuite :=
  ((new.step (.add (spend 2000))).step (.drain 1)).step (.add (spend 1000))

/-- Two registrations between a spend and the spend that replaces it. -/
def replacedSpend : Mempool freeTransfers.chainSuite :=
  (((new.step (.add (spend 1000))).step (.add (.register 1 0))).step (.add (.register 2 0))).step
    (.add (spend 2000))

theorem sized_spend (fee : UInt64) : freeTransfers.chainSuite.Sized (spendOf fee) :=
  ⟨le_rfl, (by decide : 2 ≤ MAX_RING_SIZE), rfl, rfl, rfl⟩

theorem reachable_cheaperSpend : ∃ log, Reachable log cheaperSpend :=
  ⟨_, ((Reaches.new.step (.add (spend 2000)) trivial).step (.drain 1) trivial).step
    (.add (spend 1000)) trivial⟩

/-- A spend that was drained is submitted again: it is refused, and the one that had taken its place
in the pool is gone. -/
theorem pooled_spend_lost :
    (∃ log, Reachable log cheaperSpend) ∧ freeTransfers.chainSuite.Sized (spendOf 2000) ∧
      (cheaperSpend.add (spend 2000)).1 = false ∧
      (cheaperSpend.add (spend 2000)).2.txs ≠ cheaperSpend.txs := by
  have hlengths : (cheaperSpend.add (spend 2000)).1 = false ∧
      (cheaperSpend.add (spend 2000)).2.txs.length = 0 ∧ cheaperSpend.txs.length = 1 := by
    decide +kernel
  refine ⟨reachable_cheaperSpend, sized_spend 2000, hlengths.1, fun hsame ↦ ?_⟩
  rw [hsame, hlengths.2.2] at hlengths
  exact absurd hlengths.2.1 (by simp)

/-- A spend under the fee floor is refused and leaves the pool alone. -/
theorem refusal_leaves_pool :
    (cheaperSpend.add (spend 1)).1 = false ∧
      (cheaperSpend.add (spend 1)).2.txs = cheaperSpend.txs := by
  obtain ⟨log, hpool⟩ := reachable_cheaperSpend
  have hrefused : (cheaperSpend.add (spend 1)).1 = false := by decide +kernel
  refine ⟨hrefused, (unchanged_iff hpool (spend 1)).mpr ?_ hrefused⟩
  rintro ⟨⟨hpaid, -⟩, -⟩
  exact absurd hpaid (by decide)

/-- The replaced spend was submitted first, so the newest registration has moved to the front. -/
theorem registrations_reordered : ∃ log, Reachable log replacedSpend ∧
    ¬ (((replacedSpend.drain 3).1 ++ (replacedSpend.drain 3).2.txs).filter
      fun tx ↦ txFee tx = 0).Sublist log := by
  refine ⟨_, (((Reaches.new.step (.add (spend 1000)) trivial).step (.add (.register 1 0))
    trivial).step (.add (.register 2 0)) trivial).step (.add (spend 2000)) trivial, fun hsub ↦ ?_⟩
  rw [filter_drain] at hsub
  have hhashes := hsub.map (txHash freeTransfers.chainSuite)
  revert hhashes
  decide +kernel

/-- Two registrations, one of which is drained. -/
theorem registrations_in_order : ∃ log, ∃ pool : Mempool freeTransfers.chainSuite,
    Reaches KeepsOrder log pool ∧ (((pool.drain 1).1 ++ (pool.drain 1).2.txs).filter
      fun tx ↦ txFee tx = 0).Sublist log := by
  have hrun : Reaches KeepsOrder _ ((new.step (.add (.register 1 0))).step (.add (.register 2 0)) :
      Mempool freeTransfers.chainSuite) :=
    (Reaches.new.step _ (by decide +kernel)).step _ (by decide +kernel)
  exact ⟨_, _, hrun, (drain_ordered _ _ 1).2 hrun 0⟩

end Examples

end Mempool

end Latebra.Chain
