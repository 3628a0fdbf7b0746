import Latebra.State.Nonces

/-!
# Escrows

A hash time-locked contract puts an amount aside under an id that is a hash of its terms and of the
nonce that was spent on it. It is open until one claim before its expiry, with the preimage of its
hashlock, or one refund from its expiry on, and either removes the record before it pays.

`Trace` is a run with the transactions that succeeded in it. `Trace.escrow_settled` says what a run
makes of an escrow: it is still open with its terms and no transaction released it, or exactly one
did, at a height on its side of the expiry, and paid its side. That an id never comes back rests on
the spent nonces, and on the hash of the terms being free of collisions over the locks of the run.
-/

set_option autoImplicit false
set_option relaxedAutoImplicit false

namespace Latebra.State

open Foundation Crypto Latebra.Types Contracts

variable {C : CryptoSuite}

/-- The terms of an escrow, with the nonce that was spent on it. -/
structure LockTerms where
  token : UInt32
  fromId : Bytes32
  toId : Bytes32
  amount : UInt64
  hashlock : Bytes32
  expiry : UInt64
  nonce : UInt64
deriving DecidableEq

namespace LockTerms

/-- The id of the escrow. -/
def id (C : CryptoSuite) (terms : LockTerms) : Bytes32 :=
  htlcId C terms.token terms.fromId terms.toId terms.amount terms.hashlock terms.expiry terms.nonce

/-- The record of the escrow while it is open. -/
def escrow (terms : LockTerms) : Htlc :=
  ⟨terms.token, terms.fromId, terms.toId, terms.amount, terms.hashlock, terms.expiry⟩

/-- The transaction that opens the escrow. -/
def lockTx (terms : LockTerms) (fee : UInt64) (sig : Bytes64) : Transaction C :=
  .htlcLock terms.token terms.fromId terms.toId terms.amount terms.hashlock terms.expiry fee
    terms.nonce sig

end LockTerms

/-- The terms that a transaction locks. -/
def lockTermsOf : Transaction C → Option LockTerms
  | .htlcLock token fromId toId amount hashlock expiry _ nonce _ =>
    some ⟨token, fromId, toId, amount, hashlock, expiry, nonce⟩
  | _ => none

/-- The transaction claims or refunds an escrow. -/
def Releases (id : Bytes32) : Transaction C → Prop
  | .htlcClaim id' _ => id' = id
  | .htlcRefund id' => id' = id
  | _ => False

namespace LedgerState

variable {s s' : LedgerState C}

theorem Runs.htlc_eq {tx : Transaction C} {height : UInt64}
    (hrun : Runs (applyInner tx height none) s () s') (hkind : ¬ writesOf tx .htlc) :
    s'.htlc = s.htlc :=
  (congrArg LedgerState.htlc (hrun.slice_eq hkind) :)

theorem credited_htlc (s : LedgerState C) (id : Bytes32) (token : UInt32) (amount : UInt64) :
    (s.credited id token amount).htlc = s.htlc := by
  unfold credited
  split <;> rfl

/-- A credit reads and writes accounts only. -/
theorem credited_setHtlc_account (s : LedgerState C) (key : Bytes32) (escrow : Option Htlc)
    (id : Bytes32) (token : UInt32) (amount : UInt64) :
    ((s.setHtlc key escrow).credited id token amount).account =
      (s.credited id token amount).account := by
  unfold credited
  split <;> rfl

/-- What a payout of an escrow does: before its expiry to the receiver against the preimage, and from
its expiry on back to the sender. -/
def PaidOut (s s' : LedgerState C) (escrow : Htlc) (id : Bytes32) (height : UInt64)
    (tx : Transaction C) : Prop :=
  (∃ preimage, tx = .htlcClaim id preimage ∧ height < escrow.expiry ∧
    C.sha256 (bytesOf32 preimage) = escrow.hashlock ∧
    s'.account = (s.credited escrow.toId escrow.token escrow.amount).account) ∨
  (tx = .htlcRefund id ∧ escrow.expiry ≤ height ∧
    s'.account = (s.credited escrow.fromId escrow.token escrow.amount).account)

/-- What a transaction does to the record of one escrow. -/
theorem applyInner_htlc {tx : Transaction C} {height : UInt64} (id : Bytes32)
    (hrun : Runs (applyInner tx height none) s () s') :
    (∃ terms, lockTermsOf tx = some terms ∧ terms.id C = id ∧ s.htlc id = none ∧
      s'.htlc id = some terms.escrow) ∨
    (Releases id tx ∧ ∃ escrow, s.htlc id = some escrow ∧ s'.htlc id = none ∧
      PaidOut s s' escrow id height tx) ∨
    (¬ Releases id tx ∧ (∀ terms, lockTermsOf tx = some terms → terms.id C ≠ id) ∧
      s'.htlc id = s.htlc id) := by
  cases tx with
  | htlcLock token fromId toId amount hashlock expiry fee nonce sig =>
    obtain ⟨acct, latDebit, paid, next, -, -, -, hfree, -, -, -, -, rfl⟩ :=
      applyHtlcLock_outcome hrun
    by_cases hid : htlcId C token fromId toId amount hashlock expiry nonce = id
    · refine .inl ⟨_, rfl, hid, hid ▸ hfree, ?_⟩
      rw [setHtlc_htlc, hid, Function.update_self]
      rfl
    · refine .inr (.inr ⟨not_false, ?_, ?_⟩)
      · rintro terms ⟨⟩
        exact hid
      · rw [setHtlc_htlc, Function.update_of_ne (Ne.symm hid)]
        rfl
  | htlcClaim id' preimage =>
    obtain ⟨escrow, hopen, hearly, hpreimage, rfl⟩ := applyHtlcClaim_outcome hrun
    by_cases hid : id' = id
    · obtain rfl := hid
      refine .inr (.inl ⟨rfl, escrow, hopen, ?_, .inl ⟨preimage, rfl, hearly, hpreimage, ?_⟩⟩)
      · rw [credited_htlc, setHtlc_htlc, Function.update_self]
      · exact credited_setHtlc_account s id' none _ _ _
    · refine .inr (.inr ⟨hid, fun terms hterms ↦ (by cases hterms), ?_⟩)
      rw [credited_htlc, setHtlc_htlc, Function.update_of_ne (Ne.symm hid)]
  | htlcRefund id' =>
    obtain ⟨escrow, hopen, hlate, rfl⟩ := applyHtlcRefund_outcome hrun
    by_cases hid : id' = id
    · obtain rfl := hid
      refine .inr (.inl ⟨rfl, escrow, hopen, ?_, .inr ⟨rfl, hlate, ?_⟩⟩)
      · rw [credited_htlc, setHtlc_htlc, Function.update_self]
      · exact credited_setHtlc_account s id' none _ _ _
    · refine .inr (.inr ⟨hid, fun terms hterms ↦ (by cases hterms), ?_⟩)
      rw [credited_htlc, setHtlc_htlc, Function.update_of_ne (Ne.symm hid)]
  | _ =>
    refine .inr (.inr ⟨not_false, fun terms hterms ↦ (by cases hterms), ?_⟩)
    rw [Runs.htlc_eq hrun (by simp [writesOf])]

theorem performs_htlc_eq {op : LedgerOp C} (hop : ∀ tx height, op ≠ .applyAt tx height)
    (hperforms : Ledger.Performs s s' op) : s'.htlc = s.htlc := by
  cases op with
  | applyAt tx height => exact absurd rfl (hop tx height)
  | register id =>
    obtain ⟨-, rfl⟩ := register_outcome hperforms
    rfl
  | creditPublic id token amount =>
    rw [creditPublic_outcome hperforms, credited_htlc]
  | creditGenesis id amount =>
    obtain ⟨_, -, rfl⟩ := creditGenesis_outcome hperforms
    rfl
  | rewardMiner miner token amount =>
    rw [rewardMiner_outcome hperforms, rewarded]
    split <;> rfl
  | flush | clone =>
    obtain rfl := hperforms
    rfl
  | stateRoot =>
    obtain rfl := hperforms
    rfl

end LedgerState

namespace Ledger

variable {L L₁ L₂ M M' : Ledger C}

/-- A run, with the transactions that succeeded in it and their heights. -/
inductive Trace (start : Ledger C) : List (Transaction C × UInt64) → Ledger C → Prop where
  | refl : Trace start [] start
  | apply {done : List (Transaction C × UInt64)} {M M' : Ledger C} (tx : Transaction C)
    (height : UInt64) : Trace start done M → M.applyAt tx height = (.ok (), M') →
      Trace start (done ++ [(tx, height)]) M'
  | refuse {done : List (Transaction C × UInt64)} {M M' : Ledger C} {e : LedgerError}
    (tx : Transaction C) (height : UInt64) : Trace start done M →
      M.applyAt tx height = (.err e, M') → Trace start done M'
  | other {done : List (Transaction C × UInt64)} {M M' : Ledger C} (op : LedgerOp C) :
    Trace start done M → (∀ tx height, op ≠ .applyAt tx height) → M.step op = some M' →
      Trace start done M'

variable {done : List (Transaction C × UInt64)}

theorem Trace.reaches (hrun : Trace L₁ done L₂) : ReachesBy (fun _ _ ↦ True) L₁ L₂ := by
  induction hrun with
  | refl => exact .refl
  | apply tx height _ hok ih =>
    refine ih.step (.applyAt tx height) trivial ?_
    rw [Ledger.step, hok]
    rfl
  | refuse tx height _ herr ih =>
    refine ih.step (.applyAt tx height) trivial ?_
    rw [Ledger.step, herr]
    rfl
  | other op _ _ hstep ih => exact ih.step op trivial hstep

/-- What a run that succeeded with the transactions `done` has made of an escrow that was open at its
start: it is open with its terms, or exactly one transaction released it and paid its side. -/
def EscrowSettled (start : Ledger C) (terms : LockTerms) (done : List (Transaction C × UInt64))
    (L : Ledger C) : Prop :=
  (L.view.htlc (terms.id C) = some terms.escrow ∧
    ∀ entry ∈ done, ¬ Releases (terms.id C) entry.1) ∨
  (L.view.htlc (terms.id C) = none ∧ ∃ before tx height after M M',
    done = before ++ (tx, height) :: after ∧
      (∀ entry ∈ before ++ after, ¬ Releases (terms.id C) entry.1) ∧
      Trace start before M ∧ M.applyAt tx height = (.ok (), M') ∧ Trace M' after L ∧
      LedgerState.PaidOut M.view M'.view terms.escrow (terms.id C) height tx)

/-- Transactions that neither open nor release the escrow leave it settled. -/
theorem EscrowSettled.quiet {terms : LockTerms} (hsettled : EscrowSettled L₁ terms done M)
    (later : List (Transaction C × UInt64))
    (hquiet : ∀ entry ∈ later, ¬ Releases (terms.id C) entry.1)
    (hsame : M'.view.htlc (terms.id C) = M.view.htlc (terms.id C))
    (hextend : ∀ (start : Ledger C) (past : List (Transaction C × UInt64)), Trace start past M →
      Trace start (past ++ later) M') :
    EscrowSettled L₁ terms (done ++ later) M' := by
  rcases hsettled with ⟨hopen, hnone⟩ | ⟨hclosed, before, tx, height, after, N, N', rfl, hothers,
    hbefore, hok, hafter, hpaid⟩
  · refine .inl ⟨hsame.trans hopen, ?_⟩
    intro entry hentry
    exact (List.mem_append.mp hentry).elim (hnone entry) (hquiet entry)
  · refine .inr ⟨hsame.trans hclosed, before, tx, height, after ++ later, N, N', ?_, ?_, hbefore,
      hok, hextend N' after hafter, hpaid⟩
    · rw [List.append_assoc, List.cons_append]
    · intro entry hentry
      rw [← List.append_assoc] at hentry
      exact (List.mem_append.mp hentry).elim (hothers entry) (hquiet entry)

/-- The run lemma: over a run an open escrow is settled, and no lock of the run takes its id. -/
theorem Trace.escrow_settled {terms : LockTerms} (hL₁ : L₁.Reachable)
    (hused : L₁.view.NonceUsed terms.fromId terms.nonce)
    (hopen : L₁.view.htlc (terms.id C) = some terms.escrow) (hrun : Trace L₁ done L₂)
    (hfree : Set.InjOn (LockTerms.id C)
      {other | other = terms ∨ ∃ entry ∈ done, lockTermsOf entry.1 = some other}) :
    (∀ entry ∈ done, ∀ other, lockTermsOf entry.1 = some other → other.id C ≠ terms.id C) ∧
      EscrowSettled L₁ terms done L₂ := by
  induction hrun with
  | refl =>
    refine ⟨fun entry hentry ↦ (nomatch hentry), .inl ⟨hopen, ?_⟩⟩
    exact fun entry hentry ↦ (nomatch hentry)
  | @apply done M M' tx height hbefore hok ih =>
    obtain ⟨hdistinct, hsettled⟩ := ih (hfree.mono fun other hother ↦ hother.imp_right
      fun ⟨entry, hentry, hlock⟩ ↦ ⟨entry, List.mem_append_left _ hentry, hlock⟩)
    have hM : M.Reachable := hbefore.reaches.reachable hL₁
    obtain ⟨-, -, s', htx, hview⟩ := hM.runs_of_ok hok
    have hhtlc : M'.view.htlc = s'.htlc := by rw [hview]; rfl
    have haccount : M'.view.account = s'.account := by rw [hview]; rfl
    have hlast : (tx, height) ∈ done ++ [(tx, height)] := by simp
    have hfresh : ∀ other, lockTermsOf tx = some other → other.id C ≠ terms.id C := by
      intro other hlock hsame
      -- The same id means the same terms, and their nonce is spent.
      obtain rfl : other = terms :=
        hfree (.inr ⟨(tx, height), hlast, hlock⟩) (.inl rfl) hsame
      have hspend : spendOf tx = some (other.fromId, other.nonce) := by
        cases tx with
        | htlcLock =>
          obtain rfl := Option.some.inj hlock
          rfl
        | _ => exact nomatch hlock
      obtain ⟨acct, hacct, hlt⟩ := (hbefore.reaches.keeps hL₁).accounts.nonceUsed hused
      obtain ⟨current, hcurrent, hnonce⟩ := (LedgerState.applyInner_spends hspend htx).current
      obtain rfl := Option.some.inj (hacct.symm.trans hcurrent)
      rw [hnonce] at hlt
      exact UInt64.lt_irrefl _ hlt
    refine ⟨?_, ?_⟩
    · intro entry hentry other hlock
      rcases List.mem_append.mp hentry with hearlier | hlatest
      · exact hdistinct entry hearlier other hlock
      · obtain rfl := List.mem_singleton.mp hlatest
        exact hfresh other hlock
    · rcases LedgerState.applyInner_htlc (terms.id C) htx with
        ⟨other, hlock, hsame, -, -⟩ | ⟨hreleases, escrow, hfound, hgone, hpaid⟩ |
        ⟨hother, -, hsame⟩
      · exact absurd hsame (hfresh other hlock)
      · rcases hsettled with ⟨hstill, hnone⟩ | ⟨hclosed, -⟩
        · obtain rfl := Option.some.inj (hfound.symm.trans hstill)
          refine .inr ⟨by rw [hhtlc, hgone], done, tx, height, [], M, M', rfl, ?_, hbefore, hok,
            .refl, ?_⟩
          · rwa [List.append_nil]
          · unfold LedgerState.PaidOut
            rw [haccount]
            exact hpaid
        · rw [hclosed] at hfound
          exact nomatch hfound
      · refine hsettled.quiet [(tx, height)] ?_ (by rw [hhtlc, hsame])
          fun start past hpast ↦ hpast.apply tx height hok
        intro entry hentry
        obtain rfl := List.mem_singleton.mp hentry
        exact hother
  | @refuse done M M' e tx height hbefore herr ih =>
    obtain ⟨hdistinct, hsettled⟩ := ih hfree
    have hM : M.Reachable := hbefore.reaches.reachable hL₁
    obtain ⟨hformed, hobjects⟩ := hM.view
    have hsame : M'.view = M.view :=
      view_of_clone_eq (hformed.clone_applyAt_err hobjects.sharesBacked herr).2
    have hquiet := hsettled.quiet [] (fun entry hentry ↦ (nomatch hentry)) (by rw [hsame])
      fun start past hpast ↦ by
        rw [List.append_nil]
        exact hpast.refuse tx height herr
    rw [List.append_nil] at hquiet
    exact ⟨hdistinct, hquiet⟩
  | @other done M M' op hbefore hop hstep ih =>
    obtain ⟨hdistinct, hsettled⟩ := ih hfree
    have hM : M.Reachable := hbefore.reaches.reachable hL₁
    obtain ⟨hformed, hobjects⟩ := hM.view
    have hsame : M'.view.htlc = M.view.htlc := by
      obtain ⟨-, hperformed | hview⟩ := hformed.performs hobjects.sharesBacked hstep
      · exact LedgerState.performs_htlc_eq hop hperformed
      · rw [hview]
    have hquiet := hsettled.quiet [] (fun entry hentry ↦ (nomatch hentry)) (by rw [hsame])
      fun start past hpast ↦ by
        rw [List.append_nil]
        exact hpast.other op hop hstep
    rw [List.append_nil] at hquiet
    exact ⟨hdistinct, hquiet⟩

/-- An escrow is paid out exactly once and to the right party. After a successful lock every run
leaves the escrow open with exactly its terms, or exactly one transaction of the run released it: a
claim before the expiry with the preimage of the hashlock, which credits the receiver, or a refund
from the expiry on, which credits the sender. And no other successful lock of the run has its id. -/
theorem Reachable.escrow_paid_once (hL : L.Reachable) {terms : LockTerms} {fee : UInt64}
    {sig : Bytes64} {height : UInt64}
    (hlock : L.applyAt (terms.lockTx fee sig) height = (.ok (), L₁)) (hrun : Trace L₁ done L₂)
    (hfree : Set.InjOn (LockTerms.id C)
      {other | other = terms ∨ ∃ entry ∈ done, lockTermsOf entry.1 = some other}) :
    (∀ entry ∈ done, ∀ other, lockTermsOf entry.1 = some other → other.id C ≠ terms.id C) ∧
      EscrowSettled L₁ terms done L₂ := by
  obtain ⟨hL₁, -, s', htx, hview⟩ := hL.runs_of_ok hlock
  have hspend : spendOf (terms.lockTx fee sig : Transaction C) =
      some (terms.fromId, terms.nonce) := rfl
  refine Trace.escrow_settled hL₁ ?_ ?_ hrun hfree
  · obtain ⟨acct, hacct, hlt⟩ := (LedgerState.applyInner_spends hspend htx).used
    refine ⟨acct, ?_, hlt⟩
    rw [hview]
    exact hacct
  · rcases LedgerState.applyInner_htlc (terms.id C) htx with
      ⟨other, hother, -, -, hopen⟩ | ⟨hreleases, -⟩ | ⟨-, hnot, -⟩
    · obtain rfl := Option.some.inj hother
      rw [hview]
      exact hopen
    · exact absurd hreleases not_false
    · exact absurd rfl (hnot terms rfl)

/-- An escrow of an account that holds LAT, against the hash of 9. -/
def paymentTerms : LockTerms :=
  ⟨LAT_TOKEN, 5, 6, 700, polynomialHash (bytesOf32 9), 10, 0⟩

def payerFunded : Ledger freeSuite := (registered.creditPublic 5 LAT_TOKEN 100000).2

def escrowOpened : Ledger freeSuite := (payerFunded.applyAt (paymentTerms.lockTx 1000 5) 1).2

def escrowClaim : Transaction freeSuite := .htlcClaim (paymentTerms.id freeSuite) 9

def escrowClaimed : Ledger freeSuite := (escrowOpened.applyAt escrowClaim 3).2

theorem escrow_paid_once_claimed :
    EscrowSettled escrowOpened paymentTerms [(escrowClaim, 3)] escrowClaimed := by
  have hregister : (new : Ledger freeSuite).step (.register 5) = some registered :=
    step_register (by decide +kernel)
  have hcredit : registered.step (.creditPublic 5 LAT_TOKEN 100000) = some payerFunded :=
    step_creditPublic (by decide +kernel)
  have hreach : payerFunded.Reachable :=
    (ReachesBy.refl.step (.register 5) trivial hregister).step (.creditPublic _ _ _) trivial hcredit
  have hlock : payerFunded.applyAt (paymentTerms.lockTx 1000 5) 1 = (.ok (), escrowOpened) :=
    applyAt_of_ok (by decide +kernel)
  have hclaim : escrowOpened.applyAt escrowClaim 3 = (.ok (), escrowClaimed) :=
    applyAt_of_ok (by decide +kernel)
  refine (Reachable.escrow_paid_once hreach hlock (Trace.refl.apply escrowClaim 3 hclaim) ?_).2
  rintro first (rfl | ⟨entry, hentry, hfirst⟩) second (rfl | ⟨entry', hentry', hsecond⟩) -
  · rfl
  · obtain rfl := List.mem_singleton.mp hentry'
    exact nomatch hsecond
  · obtain rfl := List.mem_singleton.mp hentry
    exact nomatch hfirst
  · obtain rfl := List.mem_singleton.mp hentry
    exact nomatch hfirst

end Ledger

end Latebra.State
