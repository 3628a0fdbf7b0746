import Latebra.Bridge.Coordinator
import Latebra.Bridge.HashedTimelock
import Latebra.State.AppliedHistory

/-!
# Atomic swaps

A swap whose buy leg is an escrow of Latebra and whose sell leg is a lock of `HashedTimelock`, under
one hashlock. Each chain goes on by itself: anyone sends transactions to the one and messages to the
other, in any order (`Exchange`). The one chain tells time by its heights and the other by the seconds
of its blocks.

The swap is safe when the sell leg cannot be refunded while the buy leg can still be claimed
(`Clocks.Ordered`). `swap_atomic` says what this gives: a secret shown on either leg pays the other
one. It also says that nothing less does. The coordinator compares the two timelocks as numbers, which
does not order them when their units differ (`propose_not_ordered`).
-/

set_option autoImplicit false
set_option relaxedAutoImplicit false

/-! ### Histories of the contract -/

namespace Latebra.Bridge.HashedTimelock

open Foundation

variable {sha256 : Bytes → Bytes32} {hashlock : Bytes32} {done : List Done} {l : Lock}

theorem Story.closed_of_first {first : Done} (h : Story sha256 hashlock [first] l) :
    l.claimed = false ∧ l.refunded = false := by
  have hlength := h.length
  rw [if_neg h.funder_ne_zero] at hlength
  by_cases hclosed : l.claimed = true ∨ l.refunded = true
  · rw [if_pos hclosed] at hlength
    exact absurd hlength (by simp)
  · rw [not_or, Bool.not_eq_true, Bool.not_eq_true] at hclosed
    exact hclosed

/-- A lock that was paid out was paid out for a preimage. -/
theorem Story.of_claimed (h : Story sha256 hashlock done l) (hclaimed : l.claimed = true) :
    ∃ entry ∈ done, ∃ preimage, entry.call = .withdraw hashlock preimage ∧
      sha256 (bytesOf32 preimage) = hashlock := by
  cases h with
  | unused => exact absurd hclaimed (by simp [Lock.unset])
  | opened => exact absurd hclaimed (by simp)
  | @claimed first _ msg preimage _ _ hpreimage =>
    exact ⟨_, List.mem_cons_of_mem _ List.mem_cons_self, preimage, rfl, hpreimage⟩
  | refunded hfirst =>
    exact absurd (hfirst.closed_of_first.1.symm.trans hclaimed) (by simp)

/-- A lock that was refunded was refunded at its timelock or later. -/
theorem Story.of_refunded (h : Story sha256 hashlock done l) (hrefunded : l.refunded = true) :
    ∃ entry ∈ done, entry.call = .refund hashlock ∧ l.timelock ≤ entry.msg.timestamp := by
  cases h with
  | unused => exact absurd hrefunded (by simp [Lock.unset])
  | opened => exact absurd hrefunded (by simp)
  | claimed hfirst =>
    exact absurd (hfirst.closed_of_first.2.symm.trans hrefunded) (by simp)
  | refunded _ _ htime =>
    exact ⟨_, List.mem_cons_of_mem _ List.mem_cons_self, rfl, htime⟩

end Latebra.Bridge.HashedTimelock

/-! ### Histories of the ledger -/

namespace Latebra.State

open Foundation Crypto Latebra.Types

variable {C : CryptoSuite} {start L : Ledger C} {done : List (Transaction C × UInt64)}

/-- What the transactions of a run lead to, on objects. -/
theorem Ledger.Trace.applies (hstart : start.Reachable) (h : Ledger.Trace start done L) :
    L.Reachable ∧ LedgerState.Applies start.view done L.view := by
  induction h with
  | refl => exact ⟨hstart, .refl⟩
  | @apply done M M' tx height _ hok ih =>
    have hstep : M.step (.applyAt tx height) = some M' := by
      rw [Ledger.step, hok]
      rfl
    obtain ⟨-, s', hrun, hview⟩ := ih.1.view.1.applyAt_ok hok
    rw [hview]
    exact ⟨ih.1.step _ trivial hstep, ih.2.apply tx height hrun⟩
  | @refuse done M M' e tx height _ herr ih =>
    have hstep : M.step (.applyAt tx height) = some M' := by
      rw [Ledger.step, herr]
      rfl
    obtain ⟨hformed, hobjects⟩ := ih.1.view
    obtain ⟨-, hclone⟩ := hformed.clone_applyAt_err hobjects.sharesBacked herr
    rw [Ledger.view_of_clone_eq hclone]
    exact ⟨ih.1.step _ trivial hstep, ih.2⟩
  | @other done M M' op _ hop hstep ih =>
    obtain ⟨hformed, hobjects⟩ := ih.1.view
    obtain ⟨-, hperforms | hsame⟩ := hformed.performs hobjects.sharesBacked hstep
    · exact ⟨ih.1.step op trivial hstep, ih.2.other op hop hperforms⟩
    · rw [hsame]
      exact ⟨ih.1.step op trivial hstep, ih.2⟩

/-- A claim in time and against the preimage goes through, if the record of the receiver can be
written. -/
theorem Ledger.WellFormed.htlcClaim_ok (hL : L.WellFormed) {id preimage : Bytes32} {escrow : Htlc}
    {height : UInt64} (hopen : L.view.htlc id = some escrow) (hearly : height < escrow.expiry)
    (hpreimage : C.sha256 (bytesOf32 preimage) = escrow.hashlock)
    (hfits : ((L.view.accountOr escrow.toId).setPublic escrow.token
      (saturatingAdd ((L.view.accountOr escrow.toId).pub escrow.token) escrow.amount)).Fits) :
    ∃ L', L.applyAt (.htlcClaim id preimage) height = (.ok (), L') ∧ L'.view.htlc id = none ∧
      L'.view.account = (L.view.credited escrow.toId escrow.token escrow.amount).account := by
  have hruns : ∃ s', LedgerState.Runs (applyInner (.htlcClaim id preimage) height none) L.view ()
      s' := by
    by_cases hzero : escrow.amount = 0
    · refine ⟨L.view.setHtlc id none, ?_⟩
      show LedgerState.Runs (applyHtlcClaim height id preimage) L.view () _
      simp [applyHtlcClaim, LedgerM.creditPublic, hopen, hearly, hpreimage, hzero]
    · refine ⟨(L.view.setHtlc id none).credited escrow.toId escrow.token escrow.amount, ?_⟩
      show LedgerState.Runs (applyHtlcClaim height id preimage) L.view () _
      simp [applyHtlcClaim, LedgerM.creditPublic, hopen, hearly, hpreimage, hzero,
        LedgerState.credited]
      exact ⟨hfits, rfl⟩
  obtain ⟨s', hrun⟩ := hruns
  obtain ⟨L', hok, -, hview⟩ := hL.applyAt_of_runs hrun
  refine ⟨L', hok, ?_⟩
  rw [hview]
  rcases LedgerState.applyInner_htlc id hrun with ⟨other, hlock, -⟩ |
    ⟨-, paid, hpaid, hnone, hcredit⟩ | ⟨hother, -⟩
  · exact absurd hlock (by simp [lockTermsOf])
  · obtain rfl := Option.some.inj (hopen.symm.trans hpaid)
    rcases hcredit with ⟨-, -, -, -, hcredit⟩ | ⟨hrefund, -⟩
    · exact ⟨hnone, hcredit⟩
    · exact absurd hrefund (by simp)
  · exact absurd rfl hother

end Latebra.State

/-! ### Two chains -/

namespace Latebra.Bridge

open Foundation Crypto Latebra.Types State HashedTimelock

/-- The clocks of the two chains, by instants that they share: the height that a block of the one
would have, and the time that a block of the other would have. -/
structure Clocks where
  height : ℕ → UInt64
  time : ℕ → Word
  height_mono : ∀ {m n}, m ≤ n → height m ≤ height n
  time_mono : ∀ {m n}, m ≤ n → time m ≤ time n

/-- While the buy leg can be claimed, the sell leg cannot be refunded. -/
def Clocks.Ordered (clocks : Clocks) (expiry : UInt64) (timelock : Word) : Prop :=
  ∀ n, clocks.height n < expiry → clocks.time n < timelock

variable {C : CryptoSuite}

/-- The runs of the two chains up to an instant, with the transactions and the calls that succeeded. -/
inductive Exchange (clocks : Clocks) (start : Ledger C) (balance : ℕ) :
    ℕ → List (Transaction C × UInt64) → List Done → Ledger C → HashedTimelock → Prop where
  | start : Exchange clocks start balance 0 [] [] start (deployed balance)
  | wait {n m : ℕ} {done : List (Transaction C × UInt64)} {calls : List Done} {L : Ledger C}
    {c : HashedTimelock} : Exchange clocks start balance n done calls L c → n ≤ m →
      Exchange clocks start balance m done calls L c
  | apply {n : ℕ} {done : List (Transaction C × UInt64)} {calls : List Done} {L L' : Ledger C}
    {c : HashedTimelock} (tx : Transaction C) : Exchange clocks start balance n done calls L c →
      L.applyAt tx (clocks.height n) = (.ok (), L') →
      Exchange clocks start balance n (done ++ [(tx, clocks.height n)]) calls L' c
  | refuse {n : ℕ} {done : List (Transaction C × UInt64)} {calls : List Done} {L L' : Ledger C}
    {c : HashedTimelock} {e : LedgerError} (tx : Transaction C) :
    Exchange clocks start balance n done calls L c →
      L.applyAt tx (clocks.height n) = (.err e, L') →
      Exchange clocks start balance n done calls L' c
  | other {n : ℕ} {done : List (Transaction C × UInt64)} {calls : List Done} {L L' : Ledger C}
    {c : HashedTimelock} (op : LedgerOp C) : Exchange clocks start balance n done calls L c →
      (∀ tx height, op ≠ .applyAt tx height) → L.step op = some L' →
      Exchange clocks start balance n done calls L' c
  | call {n : ℕ} {done : List (Transaction C × UInt64)} {calls : List Done} {L : Ledger C}
    {c c' : HashedTimelock} {receipt : Receipt} (msg : Message) (call : Call) :
    Exchange clocks start balance n done calls L c → msg.timestamp = clocks.time n →
      c.exec C.sha256 msg call = .ok (c', receipt) →
      Exchange clocks start balance n done (calls ++ [⟨msg, call, receipt⟩]) L c'
  | force {n : ℕ} {done : List (Transaction C × UInt64)} {calls : List Done} {L : Ledger C}
    {c : HashedTimelock} (wei : ℕ) : Exchange clocks start balance n done calls L c →
      Exchange clocks start balance n done calls L { c with balance := c.balance + wei }

namespace Exchange

variable {clocks : Clocks} {start L : Ledger C} {balance n : ℕ}
  {done : List (Transaction C × UInt64)} {calls : List Done} {c : HashedTimelock}

/-- Latebra goes on as if it were alone. -/
theorem trace (h : Exchange clocks start balance n done calls L c) : Ledger.Trace start done L := by
  induction h with
  | start => exact .refl
  | apply tx _ hok ih => exact ih.apply tx _ hok
  | refuse tx _ herr ih => exact ih.refuse tx _ herr
  | other op _ hop hstep ih => exact ih.other op hop hstep
  | wait _ _ ih => exact ih
  | call _ _ _ _ _ ih => exact ih
  | force _ _ ih => exact ih

/-- The contract goes on as if it were alone. -/
theorem runs (h : Exchange clocks start balance n done calls L c) :
    ∃ forced, Runs C.sha256 (deployed balance) calls forced c := by
  induction h with
  | start => exact ⟨0, .refl⟩
  | call msg call _ _ hcall ih =>
    obtain ⟨forced, hruns⟩ := ih
    exact ⟨forced, hruns.call msg call hcall⟩
  | force wei _ ih =>
    obtain ⟨forced, hruns⟩ := ih
    exact ⟨forced + wei, hruns.force wei⟩
  | wait _ _ ih => exact ih
  | apply _ _ _ ih => exact ih
  | refuse _ _ _ ih => exact ih
  | other _ _ _ _ ih => exact ih

/-- Every transaction has the height of an instant that has passed. -/
theorem height_eq (h : Exchange clocks start balance n done calls L c) :
    ∀ entry ∈ done, ∃ m ≤ n, entry.2 = clocks.height m := by
  induction h with
  | start => exact fun entry hmem ↦ absurd hmem List.not_mem_nil
  | wait _ hle ih =>
    intro entry hmem
    obtain ⟨m, hm, heq⟩ := ih entry hmem
    exact ⟨m, hm.trans hle, heq⟩
  | @apply n _ _ _ _ _ tx _ _ ih =>
    intro entry hmem
    rcases List.mem_append.mp hmem with hearlier | hlast
    · exact ih entry hearlier
    · obtain rfl := List.mem_singleton.mp hlast
      exact ⟨n, le_rfl, rfl⟩
  | refuse _ _ _ ih => exact ih
  | other _ _ _ _ ih => exact ih
  | call _ _ _ _ _ ih => exact ih
  | force _ _ ih => exact ih

/-- Every call has the time of an instant that has passed. -/
theorem time_eq (h : Exchange clocks start balance n done calls L c) :
    ∀ entry ∈ calls, ∃ m ≤ n, entry.msg.timestamp = clocks.time m := by
  induction h with
  | start => exact fun entry hmem ↦ absurd hmem List.not_mem_nil
  | wait _ hle ih =>
    intro entry hmem
    obtain ⟨m, hm, heq⟩ := ih entry hmem
    exact ⟨m, hm.trans hle, heq⟩
  | @call n _ _ _ _ _ _ msg call _ htime _ ih =>
    intro entry hmem
    rcases List.mem_append.mp hmem with hearlier | hlast
    · exact ih entry hearlier
    · obtain rfl := List.mem_singleton.mp hlast
      exact ⟨n, le_rfl, htime⟩
  | apply _ _ _ ih => exact ih
  | refuse _ _ _ ih => exact ih
  | other _ _ _ _ ih => exact ih
  | force _ _ ih => exact ih

/-- A claim in the history came in time, and before any refund of the sell leg. -/
theorem claim_before (h : Exchange clocks start balance n done calls L c) {terms : LockTerms}
    (hstory : LedgerState.EscrowStory terms (LedgerState.aboutEscrow (terms.id C) done)
      (L.view.htlc (terms.id C))) {preimage : Bytes32} {height : UInt64}
    (hclaim : (.htlcClaim (terms.id C) preimage, height) ∈ done) :
    C.sha256 (bytesOf32 preimage) = terms.hashlock ∧
      ∃ m ≤ n, height = clocks.height m ∧ clocks.height m < terms.expiry := by
  have habout : (.htlcClaim (terms.id C) preimage, height) ∈
      LedgerState.aboutEscrow (terms.id C) done := by
    refine List.mem_filter.mpr ⟨hclaim, ?_⟩
    simp [releases]
  obtain ⟨-, hearly, hpreimage, -⟩ := hstory.of_claim habout
  obtain ⟨m, hm, heq⟩ := h.height_eq _ hclaim
  exact ⟨hpreimage, m, hm, heq, heq ▸ hearly⟩

end Exchange

/-- What a swap of an escrow against a lock of the contract comes to, in every interleaving of the two
chains. Where the clocks are ordered, a claim of the buy leg was made at an instant at which the sell
leg could not be refunded yet, and until its timelock the recipient of the sell leg has it or can
withdraw it with the preimage of the claim. Conversely a sell leg that was paid out has shown a
preimage, with which the buy leg can be claimed until its expiry. And the order is needed: at an
instant without it, with both legs open, one who paid the sell leg and knows the secret can take back
the one and claim the other. -/
theorem swap_atomic {clocks : Clocks} {start L : Ledger C} {balance n : ℕ}
    {done : List (Transaction C × UInt64)} {calls : List Done} {c : HashedTimelock}
    (hstart : start.Reachable) {terms : LockTerms} (hnew : start.view.htlc (terms.id C) = none)
    (hexchange : Exchange clocks start balance n done calls L c)
    (hfree : ∀ entry ∈ done, ∀ other, lockTermsOf entry.1 = some other →
      other.id C = terms.id C → other = terms) :
    let l := c.locks terms.hashlock
    let credit := saturatingAdd ((L.view.accountOr terms.toId).pub terms.token) terms.amount
    let writable := ((L.view.accountOr terms.toId).setPublic terms.token credit).Fits
    let claimed := (L.view.credited terms.toId terms.token terms.amount).account
    (clocks.Ordered terms.expiry l.timelock → ∀ preimage height,
      (.htlcClaim (terms.id C) preimage, height) ∈ done →
        (∃ m ≤ n, height = clocks.height m ∧ clocks.time m < l.timelock) ∧
        (clocks.time n < l.timelock → l.refunded = false ∧ (l.funder ≠ 0 → l.claimed = true ∨
          ∀ msg : Message, msg.sender = l.recipient → msg.value = 0 →
            msg.accepts msg.sender = true →
            ∃ result, c.exec C.sha256 msg (.withdraw terms.hashlock preimage) = .ok result))) ∧
    (l.claimed = true → ∃ entry ∈ calls, ∃ preimage,
      entry.call = .withdraw terms.hashlock preimage ∧
        (L.view.htlc (terms.id C) ≠ none → clocks.height n < terms.expiry → writable →
          ∃ L', L.applyAt (.htlcClaim (terms.id C) preimage) (clocks.height n) = (.ok (), L') ∧
            L'.view.htlc (terms.id C) = none ∧ L'.view.account = claimed)) ∧
    (clocks.height n < terms.expiry → l.timelock ≤ clocks.time n → writable →
      L.view.htlc (terms.id C) ≠ none → l.funder ≠ 0 → l.claimed = false → l.refunded = false →
      ∀ preimage, C.sha256 (bytesOf32 preimage) = terms.hashlock → ∃ L' c' msg receipt,
        Exchange clocks start balance n
          (done ++ [(.htlcClaim (terms.id C) preimage, clocks.height n)])
          (calls ++ [⟨msg, .refund terms.hashlock, receipt⟩]) L' c' ∧
        L'.view.account = claimed ∧ receipt.paid = some (l.funder, l.amount)) := by
  intro l credit writable claimed
  obtain ⟨hreach, happlies⟩ := hexchange.trace.applies hstart
  obtain ⟨hformed, -⟩ := hreach.view
  obtain ⟨forced, hruns⟩ := hexchange.runs
  have hescrow := happlies.escrow_story hnew hfree
  have hlock := hruns.story terms.hashlock
  have hcalls : ∀ entry ∈ about terms.hashlock calls, entry ∈ calls :=
    fun entry hmem ↦ List.mem_of_mem_filter hmem
  -- a claim that is in time goes through
  have hclaimable : ∀ preimage, C.sha256 (bytesOf32 preimage) = terms.hashlock →
      L.view.htlc (terms.id C) ≠ none → clocks.height n < terms.expiry → writable →
      ∃ L', L.applyAt (.htlcClaim (terms.id C) preimage) (clocks.height n) = (.ok (), L') ∧
        L'.view.htlc (terms.id C) = none ∧ L'.view.account = claimed := by
    intro preimage hpreimage hsome hearly hfits
    obtain ⟨escrow, hopen⟩ := Option.ne_none_iff_exists'.mp hsome
    rw [hopen] at hescrow
    obtain rfl := hescrow.of_some
    exact hformed.htlcClaim_ok hopen hearly hpreimage hfits
  refine ⟨fun hordered preimage height hclaim ↦ ?_, fun hpaid ↦ ?_, ?_⟩
  · obtain ⟨hpreimage, m, hm, hheight, hearly⟩ := hexchange.claim_before hescrow hclaim
    refine ⟨⟨m, hm, hheight, hordered m hearly⟩, fun htime ↦ ?_⟩
    have hnever : l.refunded = false := by
      rw [← Bool.not_eq_true]
      intro hrefunded
      obtain ⟨entry, hmem, -, hlate⟩ := hlock.of_refunded hrefunded
      obtain ⟨k, hk, hstamp⟩ := hexchange.time_eq entry (hcalls entry hmem)
      rw [hstamp] at hlate
      exact absurd htime (BitVec.not_lt.mpr (BitVec.le_trans hlate (clocks.time_mono hk)))
    refine ⟨hnever, fun _ ↦ or_iff_not_imp_left.mpr fun hunpaid msg hsender hvalue haccepts ↦ ?_⟩
    have hopen : ¬ (l.claimed = true ∨ l.refunded = true) := by
      rw [not_or, hnever]
      exact ⟨hunpaid, by simp⟩
    exact ⟨(_, _), withdraw_eq_ok.mpr ⟨hvalue, hsender.symm, hopen, hpreimage,
      hruns.covered hopen, hsender ▸ haccepts, rfl, rfl⟩⟩
  · obtain ⟨entry, hmem, preimage, hcall, hpreimage⟩ := hlock.of_claimed hpaid
    exact ⟨entry, hcalls entry hmem, preimage, hcall, hclaimable preimage hpreimage⟩
  · intro hearly hlate hfits hsome hfunder hunclaimed hunrefunded preimage hpreimage
    obtain ⟨L', hclaim, -, haccount⟩ := hclaimable preimage hpreimage hsome hearly hfits
    have hopen : ¬ (l.claimed = true ∨ l.refunded = true) := by
      rw [hunclaimed, hunrefunded]
      simp
    let msg : Message := ⟨l.funder, 0, clocks.time n, fun _ ↦ true, hfunder⟩
    have hrefund : c.refund msg terms.hashlock = .ok (_, _) :=
      refund_eq_ok.mpr ⟨rfl, rfl, hopen, hlate, hruns.covered hopen, rfl, rfl, rfl⟩
    have hcall := (hexchange.apply _ hclaim).call msg (.refund terms.hashlock) rfl hrefund
    exact ⟨L', _, msg, _, hcall, haccount, rfl⟩

/-- A proposal can be accepted whose clocks are not ordered: it compares a height with seconds. -/
theorem propose_not_ordered : ∃ (clocks : Clocks) (swap : Swap),
    SwapCoordinator.propose 1 (sampleParams 0).hashlock ⟨.ethereum, sampleParams 1000, 5⟩
      ⟨.latebra, sampleParams 500, 250000⟩ = .ok swap ∧
    ¬ clocks.Ordered swap.buy.params.timelock
      (BitVec.ofNat 256 swap.sell.params.timelock.toNat) := by
  refine ⟨⟨fun _ ↦ 499, fun _ ↦ 1000, fun _ ↦ UInt64.le_refl _, fun _ ↦ BitVec.le_refl _⟩, _, rfl, ?_⟩
  intro hordered
  exact absurd (hordered 0 (show (499 : UInt64) < 500 by decide))
    (show ¬ (1000 : Word) < BitVec.ofNat 256 (1000 : UInt64).toNat by decide)

/-- Clocks that show height 1 and then height 3, at one time. -/
def sampleClocks : Clocks where
  height n := if n = 0 then 1 else 3
  time _ := 50
  height_mono {m n} hle := by
    by_cases hm : m = 0
    · by_cases hn : n = 0 <;> simp [hm, hn]
    · simp [hm, show n ≠ 0 by omega]
  time_mono _ := BitVec.le_refl _

/-- The contract with the sell leg. -/
def sampleSellLeg : HashedTimelock :=
  ⟨Function.update (deployed 0).locks Ledger.paymentTerms.hashlock ⟨1, 2, 5, 100, false, false⟩, 5⟩

/-- A swap whose buy leg was claimed: the sell leg can be withdrawn with the preimage. -/
theorem swap_atomic_claimed : ∃ result, sampleSellLeg.exec freeSuite.sha256
    (sampleMessage 2 (by decide) 0 60) (.withdraw Ledger.paymentTerms.hashlock 9) = .ok result := by
  have hregister : (Ledger.new : Ledger freeSuite).step (.register 5) = some Ledger.registered :=
    Ledger.step_register (by decide +kernel)
  have hcredit : Ledger.registered.step (.creditPublic 5 LAT_TOKEN 100000) =
      some Ledger.payerFunded :=
    Ledger.step_creditPublic (by decide +kernel)
  have hreach : Ledger.payerFunded.Reachable :=
    (Ledger.ReachesBy.refl.step (.register 5) trivial hregister).step (.creditPublic _ _ _) trivial
      hcredit
  have hnew : Ledger.payerFunded.view.htlc (Ledger.paymentTerms.id freeSuite) = none := by
    decide +kernel
  have hlock : Ledger.payerFunded.applyAt (Ledger.paymentTerms.lockTx 1000 5) 1 =
      (.ok (), Ledger.escrowOpened) :=
    Ledger.applyAt_of_ok (by decide +kernel)
  have hclaim : Ledger.escrowOpened.applyAt Ledger.escrowClaim 3 = (.ok (), Ledger.escrowClaimed) :=
    Ledger.applyAt_of_ok (by decide +kernel)
  have hsell : (deployed 0).lock (sampleMessage 1 (by decide) 5 50) Ledger.paymentTerms.hashlock 2 100 =
      .ok (sampleSellLeg, ⟨.locked Ledger.paymentTerms.hashlock 2 5 100, none⟩) :=
    lock_eq_ok.mpr ⟨by decide, rfl, by decide, rfl, rfl⟩
  have hl : sampleSellLeg.locks Ledger.paymentTerms.hashlock = ⟨1, 2, 5, 100, false, false⟩ := by
    simp [sampleSellLeg]
  have hopened := (Exchange.start.call (sampleMessage 1 (by decide) 5 50)
    (.lock Ledger.paymentTerms.hashlock 2 100) rfl hsell).apply (Ledger.paymentTerms.lockTx 1000 5)
      (show Ledger.payerFunded.applyAt _ (sampleClocks.height 0) = _ from hlock)
  have hdone := (hopened.wait (Nat.zero_le 1)).apply Ledger.escrowClaim
    (show Ledger.escrowOpened.applyAt _ (sampleClocks.height 1) = _ from hclaim)
  obtain ⟨hclaimed, -, -⟩ := swap_atomic hreach hnew hdone (by
    intro entry hmem other hother _
    rcases List.mem_append.mp hmem with hfirst | hsecond
    · obtain rfl := List.mem_singleton.mp hfirst
      exact (Option.some.inj hother).symm
    · obtain rfl := List.mem_singleton.mp hsecond
      exact absurd hother (by simp [Ledger.escrowClaim, lockTermsOf]))
  rw [hl] at hclaimed
  have hordered : sampleClocks.Ordered Ledger.paymentTerms.expiry 100 :=
    fun _ _ ↦ show (50 : Word) < 100 by decide
  obtain ⟨-, hsettle⟩ := hclaimed hordered 9 3
    (List.mem_append_right _ List.mem_cons_self)
  obtain ⟨-, hpaid⟩ := hsettle (by decide)
  exact (hpaid (by decide)).resolve_left (by simp) _ rfl rfl rfl

end Latebra.Bridge
