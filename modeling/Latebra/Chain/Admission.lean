import Latebra.Chain.Mempool

/-!
# What the mempool admits

The pool keeps its own list of the transactions that have to pay the fee floor, beside the list of
consensus. `meetsFloors_of_paid` compares the two: what the pool's list lets through meets the rules
of consensus, except for the curve trades, which the pool's list does not name. So a pool holds only
transactions that meet the fee floor and the cap on contract code when no curve trade under the
floor was submitted (`pool_respects_floors`), and one such trade is pooled like any other.

The rest holds in every run: the cap, one anonymous spend for each nullifier
(`Reaches.nullifiers_distinct`), and the choice of the transaction that makes room in a full pool
(`evicted_of_full`).
-/

set_option autoImplicit false
set_option relaxedAutoImplicit false

namespace Latebra.Chain

open Foundation Crypto Latebra.Types State

variable {S : ChainSuite}

/-- Consensus refuses the transaction neither for its fee nor for the size of its code. -/
def MeetsFloors (tx : Transaction S.toCryptoSuite) : Prop :=
  checkTx S tx ≠ .error .feeTooLow ∧ checkTx S tx ≠ .error .oversizedContract

/-- A curve trade that pays less than the fee floor. -/
def cheapTrade : Transaction S.toCryptoSuite → Bool
  | .curveTrade _ _ _ _ _ fee _ _ => fee < MIN_TRANSFER_FEE
  | _ => false

/-- Two transactions are not anonymous spends of one nullifier. -/
def NullifiersDiffer (first second : Transaction S.toCryptoSuite) : Prop :=
  ∀ nf, txNullifier first = some nf → txNullifier second ≠ some nf

theorem NullifiersDiffer.symm {first second : Transaction S.toCryptoSuite}
    (hdiffer : NullifiersDiffer first second) : NullifiersDiffer second first :=
  fun nf hsecond hfirst ↦ hdiffer nf hfirst hsecond

theorem pure_ne_error (e : ChainError) : (pure () : Except ChainError Unit) ≠ .error e :=
  fun hequal ↦ by cases hequal

theorem checkFee_eq_error {fee : UInt64} {e : ChainError} :
    checkFee fee = .error e ↔ fee < MIN_TRANSFER_FEE ∧ e = .feeTooLow := by
  unfold checkFee
  by_cases hfee : fee < MIN_TRANSFER_FEE
  · rw [if_pos hfee, and_iff_right hfee]
    exact ⟨fun hequal ↦ (Except.error.inj hequal).symm, fun hequal ↦ hequal ▸ rfl⟩
  · rw [if_neg hfee]
    exact iff_of_false (pure_ne_error e) fun hboth ↦ hfee hboth.1

/-- The transactions that consensus refuses for their fee or their code are those of the pool's
lists and the cheap curve trades. -/
theorem refused_of_checkTx {tx : Transaction S.toCryptoSuite} {e : ChainError}
    (hcheck : checkTx S tx = .error e) :
    (e = .feeTooLow → underpays tx = true ∨ cheapTrade tx = true) ∧
      (e = .oversizedContract → oversized tx = true) := by
  cases tx with
  | register pubkey powNonce =>
    by_cases hpow : verifyRegistrationPow S pubkey powNonce
    · exact absurd ((if_pos hpow).symm.trans hcheck) (pure_ne_error e)
    · obtain rfl : ChainError.badRegistrationPow = e :=
        Except.error.inj ((if_neg hpow).symm.trans hcheck)
      exact ⟨fun h ↦ absurd h (by simp), fun h ↦ absurd h (by simp)⟩
  | deployContract deployer code sig =>
    by_cases hsize : MAX_CONTRACT_CODE_BYTES < code.length
    · obtain rfl : ChainError.oversizedContract = e :=
        Except.error.inj ((if_pos hsize).symm.trans hcheck)
      exact ⟨fun h ↦ absurd h (by simp), fun _ ↦ decide_eq_true hsize⟩
    · exact absurd ((if_neg hsize).symm.trans hcheck) (pure_ne_error e)
  | anonTransfer token xfer =>
    have hchecks : (checkFee xfer.fee >>= fun _ ↦
        if MAX_RING_SIZE < xfer.ring.length then throw .ringTooLarge else pure ()) =
          .error e := hcheck
    by_cases hfee : xfer.fee < MIN_TRANSFER_FEE
    · rw [checkFee_eq_error.mpr ⟨hfee, rfl⟩] at hchecks
      obtain rfl : ChainError.feeTooLow = e := Except.error.inj hchecks
      exact ⟨fun _ ↦ .inl (decide_eq_true hfee), fun h ↦ absurd h (by simp)⟩
    · have hpaid : checkFee xfer.fee = pure () := if_neg hfee
      rw [hpaid, pure_bind] at hchecks
      by_cases hring : MAX_RING_SIZE < xfer.ring.length
      · obtain rfl : ChainError.ringTooLarge = e :=
          Except.error.inj ((if_pos hring).symm.trans hchecks)
        exact ⟨fun h ↦ absurd h (by simp), fun h ↦ absurd h (by simp)⟩
      · exact absurd ((if_neg hring).symm.trans hchecks) (pure_ne_error e)
  | _ => simp_all [checkTx, checkFee_eq_error, pure_ne_error, underpays, cheapTrade]

/-- What passes the pool's lists meets the rules of consensus, curve trades aside. -/
theorem meetsFloors_of_paid {tx : Transaction S.toCryptoSuite} (hpaid : underpays tx = false)
    (hsize : oversized tx = false) (htrade : cheapTrade tx = false) : MeetsFloors tx := by
  constructor
  · intro hcheck
    rcases (refused_of_checkTx hcheck).1 rfl with hunder | hcheap
    · exact absurd hunder (by simp [hpaid])
    · exact absurd hcheap (by simp [htrade])
  · intro hcheck
    exact absurd ((refused_of_checkTx hcheck).2 rfl) (by simp [hsize])

namespace Mempool

variable {pool : Mempool S} {tx : Transaction S.toCryptoSuite}
  {log : List (Transaction S.toCryptoSuite)}

/-! ### One addition -/

/-- A transaction that is taken passed the pool's lists. -/
theorem addFresh_taken (htaken : (pool.addFresh tx).1 = true) : oversized tx = false := by
  by_contra hsize
  rw [Bool.not_eq_false] at hsize
  rw [addFresh, if_pos hsize] at htaken
  exact absurd htaken (by simp)

theorem paid_of_taken (htaken : (pool.add tx).1 = true) :
    underpays tx = false ∧ oversized tx = false := by
  by_cases hpaid : underpays tx = true
  · rw [add, if_pos hpaid] at htaken
    exact absurd htaken (by simp)
  · refine ⟨by simpa using hpaid, ?_⟩
    rw [add, if_neg hpaid] at htaken
    cases hconflict : pool.conflictOf tx with
    | none =>
      rw [hconflict] at htaken
      exact addFresh_taken htaken
    | some i => exact (conflictOf_lt hconflict).2

/-- The pool after an addition holds nothing but what it held and what was taken. -/
theorem mem_add {other : Transaction S.toCryptoSuite} (hcap : pool.txs.length ≤ MAX_MEMPOOL_TXS)
    (hother : other ∈ (pool.add tx).2.txs) :
    other ∈ pool.txs ∨ (other = tx ∧ (pool.add tx).1 = true) := by
  rw [add_txs hcap, List.mem_append] at hother
  rcases hother with hkept | htaken
  · apply Or.inl
    cases hdisplaced : pool.displaced tx with
    | none => rwa [hdisplaced] at hkept
    | some i =>
      rw [hdisplaced] at hkept
      exact mem_of_mem_swapRemove hkept
  · rw [taken] at htaken
    by_cases hadmitted : (pool.add tx).1 = true
    · rw [if_pos hadmitted] at htaken
      exact Or.inr ⟨List.mem_singleton.mp htaken, hadmitted⟩
    · rw [if_neg hadmitted] at htaken
      exact absurd htaken List.not_mem_nil

/-! ### One spend for each nullifier -/

theorem differ_of_conflictOf_none (hconflict : pool.conflictOf tx = none) :
    ∀ other ∈ pool.txs, NullifiersDiffer other tx := by
  intro other hother nf hnf htx
  rw [conflictOf, htx] at hconflict
  have hnone := List.findIdx?_eq_none_iff.mp hconflict other hother
  exact absurd (decide_eq_true hnf) (by simp [hnone])

theorem nullifier_of_conflictOf {i : ℕ} (hconflict : pool.conflictOf tx = some i) :
    ∃ hi : i < pool.txs.length, ∃ nf, txNullifier tx = some nf ∧
      txNullifier pool.txs[i] = some nf := by
  cases hnf : txNullifier tx with
  | none =>
    rw [conflictOf, hnf] at hconflict
    exact absurd hconflict (by simp)
  | some nf =>
    rw [conflictOf, hnf] at hconflict
    obtain ⟨hi, hsame, -⟩ := List.findIdx?_eq_some_iff_getElem.mp hconflict
    exact ⟨hi, nf, rfl, of_decide_eq_true hsame⟩

/-- Once the spend that a newcomer outbids is gone, no other pooled one has its nullifier. -/
theorem differ_of_removed (hpool : pool.txs.Pairwise NullifiersDiffer) {i : ℕ}
    (hconflict : pool.conflictOf tx = some i) :
    ∀ other ∈ (pool.removeAt i).txs, NullifiersDiffer other tx := by
  obtain ⟨hi, nf, htx, hremoved⟩ := nullifier_of_conflictOf hconflict
  have hperm := cons_swapRemove_perm hi
  have hcons := (hperm.pairwise_iff fun {_ _} ↦ NullifiersDiffer.symm).mpr hpool
  intro other hother used hother' htx'
  rw [htx] at htx'
  obtain rfl := Option.some.inj htx'
  exact (List.pairwise_cons.mp hcons).1 other hother nf hremoved hother'

theorem pairwise_addFresh (hpool : pool.txs.Pairwise NullifiersDiffer)
    (hdiffer : ∀ other ∈ pool.txs, NullifiersDiffer other tx) :
    (pool.addFresh tx).2.txs.Pairwise NullifiersDiffer := by
  rw [addFresh_txs, List.pairwise_append]
  refine ⟨?_, ?_, ?_⟩
  · cases pool.evicted tx with
    | none => exact hpool
    | some i => exact Pairwise.swapRemove (fun _ _ ↦ NullifiersDiffer.symm) hpool i
  · split
    · exact List.pairwise_singleton _ _
    · exact List.Pairwise.nil
  · intro kept hkept new hnew
    have hmem : kept ∈ pool.txs := by
      cases hevicted : pool.evicted tx with
      | none => rwa [hevicted] at hkept
      | some i =>
        rw [hevicted] at hkept
        exact mem_of_mem_swapRemove hkept
    split at hnew
    · rw [List.mem_singleton.mp hnew]
      exact hdiffer kept hmem
    · exact absurd hnew List.not_mem_nil

theorem pairwise_add (hpool : pool.txs.Pairwise NullifiersDiffer) :
    (pool.add tx).2.txs.Pairwise NullifiersDiffer := by
  by_cases hpaid : underpays tx = true
  · rw [add, if_pos hpaid]
    exact hpool
  · rw [add, if_neg hpaid]
    cases hconflict : pool.conflictOf tx with
    | none => exact pairwise_addFresh hpool (differ_of_conflictOf_none hconflict)
    | some i =>
      show (if pool.feeAt i < txFee tx then (pool.removeAt i).addFresh tx
        else (false, pool)).2.txs.Pairwise NullifiersDiffer
      split
      · exact pairwise_addFresh (Pairwise.swapRemove (fun _ _ ↦ NullifiersDiffer.symm) hpool i)
          (differ_of_removed hpool hconflict)
      · exact hpool

/-- What one operation other than an addition leaves is part of the pool. -/
theorem step_sublist (op : MempoolOp S) :
    (∃ tx, op = .add tx) ∨ (pool.step op).txs.Sublist pool.txs := by
  cases op with
  | add tx => exact Or.inl ⟨tx, rfl⟩
  | drain max =>
    obtain ⟨m, -, -, hleft⟩ := pool.drain_eq max
    refine Or.inr ?_
    show (pool.drain max).2.txs.Sublist pool.txs
    rw [hleft]
    exact PrioritySelection.left_sublist _ _ _
  | removeIncluded included => exact Or.inr List.filter_sublist
  | pruneExpired nextHeight => exact Or.inr List.filter_sublist

/-- No two pooled anonymous spends share a nullifier. -/
theorem Reaches.nullifiers_distinct {ok : Mempool S → MempoolOp S → Prop}
    (hpool : Reaches ok log pool) : pool.txs.Pairwise NullifiersDiffer := by
  induction hpool with
  | new => exact List.Pairwise.nil
  | @step log pool op _ _ ih =>
    rcases pool.step_sublist op with ⟨tx, rfl⟩ | hsub
    · exact pairwise_add ih
    · exact ih.sublist hsub

/-! ### Room in a full pool -/

theorem feeAt_eq {i : ℕ} (hi : i < pool.txs.length) : pool.feeAt i = txFee pool.txs[i] := by
  rw [feeAt, List.getElem?_eq_getElem hi]
  rfl

/-- The cheapest transaction is in the pool and pays no more than any other. -/
theorem cheapest_le {i : ℕ} (hcheapest : pool.cheapest = some i) :
    ∃ hi : i < pool.txs.length, ∀ other ∈ pool.txs, txFee pool.txs[i] ≤ txFee other := by
  have hi : i < pool.txs.length := List.mem_range.mp (List.argmin_mem hcheapest)
  refine ⟨hi, fun other hother ↦ ?_⟩
  obtain ⟨j, hj, rfl⟩ := List.getElem_of_mem hother
  have hle := List.le_of_mem_argmin (List.mem_range.mpr hj) hcheapest
  rw [← feeAt_eq hi, ← feeAt_eq hj]
  exact UInt64.le_iff_toNat_le.mpr hle

/-- What an admission removes from a full pool: the spend that the newcomer outbids, or else the
cheapest transaction, which pays less than the newcomer. -/
theorem evicted_of_full (hcap : pool.txs.length ≤ MAX_MEMPOOL_TXS)
    (hfull : MAX_MEMPOOL_TXS ≤ pool.txs.length) (htaken : (pool.add tx).1 = true) :
    ∃ i, ∃ hi : i < pool.txs.length,
      (pool.add tx).2.txs = swapRemove pool.txs i ++ [tx] ∧ txFee pool.txs[i] < txFee tx ∧
      ((∀ other ∈ pool.txs, NullifiersDiffer other tx) →
        ∀ other ∈ pool.txs, txFee pool.txs[i] ≤ txFee other) ∧
      (¬ (∀ other ∈ pool.txs, NullifiersDiffer other tx) →
        ∃ nf, txNullifier tx = some nf ∧ txNullifier pool.txs[i] = some nf) := by
  obtain ⟨hpaid, hsize⟩ := paid_of_taken htaken
  have htxs := add_txs hcap tx
  rw [taken, if_pos htaken] at htxs
  cases hconflict : pool.conflictOf tx with
  | some i =>
    obtain ⟨hi, nf, htx, hremoved⟩ := nullifier_of_conflictOf hconflict
    have hfee : pool.feeAt i < txFee tx := by
      by_contra hdear
      simp only [add, hpaid, Bool.false_eq_true, if_false, hconflict, if_neg hdear] at htaken
    have hdisplaced : pool.displaced tx = some i := by
      simp only [displaced, hpaid, Bool.false_eq_true, if_false, hconflict, if_pos hfee]
    rw [hdisplaced] at htxs
    refine ⟨i, hi, htxs, feeAt_eq hi ▸ hfee, fun hdiffer ↦ ?_, fun _ ↦ ⟨nf, htx, hremoved⟩⟩
    exact absurd htx (hdiffer _ (List.getElem_mem hi) nf hremoved)
  | none =>
    have hfresh : (pool.addFresh tx).1 = true := by
      simpa only [add, hpaid, Bool.false_eq_true, if_false, hconflict] using htaken
    have hseen : ¬ pool.seen[txHash S tx]?.isSome = true := by
      intro hseen
      simp only [addFresh, hsize, hseen, Bool.false_eq_true, if_false, if_true] at hfresh
    simp only [addFresh, hsize, hseen, Bool.false_eq_true, if_false, if_pos hfull] at hfresh
    cases hcheapest : pool.cheapest with
    | none =>
      rw [hcheapest] at hfresh
      exact absurd hfresh (by simp)
    | some i =>
      obtain ⟨hi, hleast⟩ := cheapest_le hcheapest
      have hfee : pool.feeAt i < txFee tx := by
        by_contra hdear
        simp only [hcheapest, if_neg hdear, Bool.false_eq_true] at hfresh
      have hdisplaced : pool.displaced tx = some i := by
        simp only [displaced, hpaid, Bool.false_eq_true, if_false, hconflict, evicted, hsize,
          hseen, false_or, if_neg (not_lt.mpr hfull), hcheapest, Option.filter, hfee,
          decide_true, if_true]
      rw [hdisplaced] at htxs
      refine ⟨i, hi, htxs, feeAt_eq hi ▸ hfee, fun _ ↦ hleast, fun hsame ↦ ?_⟩
      exact absurd (differ_of_conflictOf_none hconflict) hsame

/-! ### Floors -/

/-- No curve trade under the fee floor is submitted. -/
def PaysFloor (_ : Mempool S) : MempoolOp S → Prop
  | .add tx => cheapTrade tx = false
  | _ => True

/-- In a run that submits no curve trade under the fee floor, every pooled transaction meets the
rules of consensus. In this and every run the pool keeps its cap, holds one anonymous spend for each
nullifier, and makes room for a newcomer in a full pool by removing the spend of its nullifier, or
else the transaction of the least fee, which pays less than the newcomer. -/
theorem pool_respects_floors (hpool : Reaches PaysFloor log pool) :
    (∀ tx ∈ pool.txs, MeetsFloors tx) ∧ pool.txs.length ≤ MAX_MEMPOOL_TXS ∧
      pool.txs.Pairwise NullifiersDiffer ∧
      ∀ tx, MAX_MEMPOOL_TXS ≤ pool.txs.length → (pool.add tx).1 = true →
        ∃ i, ∃ hi : i < pool.txs.length,
          (pool.add tx).2.txs = swapRemove pool.txs i ++ [tx] ∧ txFee pool.txs[i] < txFee tx ∧
          ((∀ other ∈ pool.txs, NullifiersDiffer other tx) →
            ∀ other ∈ pool.txs, txFee pool.txs[i] ≤ txFee other) ∧
          (¬ (∀ other ∈ pool.txs, NullifiersDiffer other tx) →
            ∃ nf, txNullifier tx = some nf ∧ txNullifier pool.txs[i] = some nf) := by
  refine ⟨?_, hpool.length_le, hpool.nullifiers_distinct,
    fun tx hfull htaken ↦ evicted_of_full hpool.length_le hfull htaken⟩
  induction hpool with
  | new => exact fun tx htx ↦ absurd htx List.not_mem_nil
  | @step log pool op hbefore hop ih =>
    intro other hother
    rcases pool.step_sublist op with ⟨tx, rfl⟩ | hsub
    · rcases mem_add hbefore.length_le hother with hold | ⟨rfl, htaken⟩
      · exact ih other hold
      · obtain ⟨hpaid, hsize⟩ := paid_of_taken htaken
        exact meetsFloors_of_paid hpaid hsize hop
    · exact ih other (hsub.subset hother)

section Examples

/-- A curve trade at a fee. -/
def trade (fee : UInt64) : Transaction freeTransfers.chainSuite.toCryptoSuite :=
  .curveTrade 1 1 true 10 0 fee 0 0

/-- The pool that one curve trade was submitted to. -/
def tradePool (fee : UInt64) : Mempool freeTransfers.chainSuite := new.step (.add (trade fee))

theorem tradePool_txs (fee : UInt64) : (tradePool fee).txs = [trade fee] := rfl

theorem floor_trade_pooled :
    (tradePool 1000).txs = [trade 1000] ∧ ∀ tx ∈ (tradePool 1000).txs, MeetsFloors tx := by
  have hrun : Reaches PaysFloor _ (tradePool 1000) := Reaches.new.step (.add (trade 1000)) rfl
  exact ⟨tradePool_txs 1000, (pool_respects_floors hrun).1⟩

/-- A curve trade that pays nothing is pooled, although consensus refuses it for its fee. -/
theorem cheap_trade_pooled :
    (∃ log, Reachable log (tradePool 0)) ∧ trade 0 ∈ (tradePool 0).txs ∧
      checkTx freeTransfers.chainSuite (trade 0) = .error .feeTooLow := by
  refine ⟨⟨_, Reaches.new.step (.add (trade 0)) trivial⟩, ?_, rfl⟩
  rw [tradePool_txs]
  exact List.mem_singleton_self _

end Examples

end Mempool

end Latebra.Chain
