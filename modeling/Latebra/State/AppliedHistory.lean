import Latebra.State.Escrows

/-!
# Histories of transactions

`Applies` is a run of the objects of a ledger next to the transactions that were applied in it, in
their order and each with its height. What protects from replays is read off such a history: the
nonce, the nullifier, the ticker, the contract address or the account that a transaction uses up
(`usedBy`) occurs in it once (`Applies.used_once`). And the history of an escrow is a lock and at most
one release behind it (`Applies.escrow_story`).
-/

set_option autoImplicit false
set_option relaxedAutoImplicit false

namespace Latebra.State

open Foundation Crypto Latebra.Types

variable {C : CryptoSuite}

/-- Whether a transaction claims or refunds an escrow. -/
def releases (id : Bytes32) : Transaction C → Bool
  | .htlcClaim id' _ => id' = id
  | .htlcRefund id' => id' = id
  | _ => false

theorem releases_eq_true {id : Bytes32} {tx : Transaction C} :
    releases id tx = true ↔ Releases id tx := by
  cases tx <;> simp [releases, Releases]

/-- What a transaction can use up for good. -/
inductive Used where
  | account (id : Bytes32)
  | nonce (id : Bytes32) (nonce : UInt64)
  | nullifier (nf : Bytes32)
  | ticker (name : Text)
  | contract (id : Bytes32)
deriving DecidableEq

/-- What a transaction uses up. -/
def usedBy (tx : Transaction C) : Option Used :=
  match tx with
  | .register pubkey _ => some (.account pubkey)
  | .createToken ticker _ _ _ => (normalizeTicker ticker).map .ticker
  | .deployContract deployer code _ => some (.contract (Vm.contractId C.blake3 deployer code))
  | .anonTransfer _ xfer => some (.nullifier (C.nullifier xfer))
  | tx => (spendOf tx).map fun spend ↦ .nonce spend.1 spend.2

namespace LedgerState

/-- Something is used up. -/
def Holds (s : LedgerState C) : Used → Prop
  | .account id => s.account id ≠ none
  | .nonce id nonce => s.NonceUsed id nonce
  | .nullifier nf => s.nullifier nf = true
  | .ticker name => s.ticker name ≠ none
  | .contract id => s.contract id ≠ none

/-- A run of the objects, with the transactions that were applied in it. -/
inductive Applies (start : LedgerState C) : List (Transaction C × UInt64) → LedgerState C → Prop where
  | refl : Applies start [] start
  | apply {done : List (Transaction C × UInt64)} {s s' : LedgerState C} (tx : Transaction C)
    (height : UInt64) : Applies start done s → Runs (applyInner tx height none) s () s' →
      Applies start (done ++ [(tx, height)])
        (s'.marked (Ledger.dirtyKeysFor s'.nextTokenId tx))
  | other {done : List (Transaction C × UInt64)} {s s' : LedgerState C} (op : LedgerOp C) :
    Applies start done s → (∀ tx height, op ≠ .applyAt tx height) → Ledger.Performs s s' op →
      Applies start done s'

variable {start s s' : LedgerState C} {done : List (Transaction C × UInt64)}

/-! ### What is used up -/

theorem Keeps.holds (hkeeps : s.Keeps s') {used : Used} (h : s.Holds used) : s'.Holds used := by
  cases used with
  | account id =>
    obtain ⟨acct, hacct⟩ := Option.ne_none_iff_exists'.mp h
    obtain ⟨acct', hacct', -⟩ := hkeeps.accounts id acct hacct
    exact fun hnone ↦ absurd (hacct'.symm.trans hnone) (Option.some_ne_none acct')
  | nonce id nonce => exact hkeeps.accounts.nonceUsed h
  | nullifier nf => exact hkeeps.nullifiers nf h
  | ticker name => exact hkeeps.tickers name h
  | contract id => exact hkeeps.contracts id h

/-- A nonce that an account is at is not used up. -/
theorem Spends.fresh {id : Bytes32} {nonce : UInt64} (h : s.Spends s' id nonce) :
    ¬ s.NonceUsed id nonce := by
  rintro ⟨acct, hacct, hlt⟩
  obtain ⟨current, hcurrent, rfl⟩ := h.current
  obtain rfl := Option.some.inj (hacct.symm.trans hcurrent)
  exact UInt64.lt_irrefl _ hlt

/-- The step: a transaction uses up what was not used up before. -/
theorem holds_of_applyInner {tx : Transaction C} {height : UInt64} {used : Used}
    (hused : usedBy tx = some used) (hrun : Runs (applyInner tx height none) s () s') :
    ¬ s.Holds used ∧ s'.Holds used := by
  have hspent : ∀ {spend : Bytes32 × UInt64}, spendOf tx = some spend →
      ¬ s.NonceUsed spend.1 spend.2 ∧ s'.NonceUsed spend.1 spend.2 := by
    intro spend hspend
    have hspends := applyInner_spends hspend hrun
    exact ⟨hspends.fresh, hspends.used⟩
  cases tx with
  | register pubkey powNonce =>
    obtain rfl := Option.some.inj hused
    obtain ⟨hnone, rfl⟩ := register_outcome hrun
    refine ⟨not_not.mpr hnone, ?_⟩
    show ((s.setAccount pubkey Account.default).setDirty (.account pubkey)).account pubkey ≠ none
    simp
  | createToken ticker creator supply sig =>
    obtain ⟨norm, acct, next, -, hnorm, hfree, -, -, -, -, rfl⟩ := applyCreateToken_outcome hrun
    obtain rfl : Used.ticker norm = used := by
      simpa [usedBy, hnorm] using hused
    refine ⟨not_not.mpr hfree, ?_⟩
    simp [Holds]
  | deployContract deployer code sig =>
    obtain rfl := Option.some.inj hused
    obtain ⟨acct, -, -, -, hfree, rfl⟩ := applyDeployContract_outcome hrun
    refine ⟨not_not.mpr hfree, ?_⟩
    simp [Holds]
  | anonTransfer token xfer =>
    obtain rfl := Option.some.inj hused
    obtain ⟨hfresh, hseen⟩ := anonTransfer_nullifier hrun
    refine ⟨by simp [Holds, hfresh], ?_⟩
    show s'.nullifier (C.nullifier xfer) = true
    rw [hseen, Function.update_self]
  | slashEvidence | htlcClaim | htlcRefund => exact absurd hused (by simp [usedBy, spendOf])
  | _ =>
    obtain rfl := Option.some.inj hused
    exact hspent rfl

theorem keeps_marked (s : LedgerState C) (keys : List DirtyKey) : s.Keeps (s.marked keys) :=
  .of_accounts (.of_same rfl) rfl rfl rfl

theorem keeps_performs {op : LedgerOp C} (h : Ledger.Performs s s' op) : s.Keeps s' := by
  rcases h.step with hstep | rfl
  · exact hstep.keeps
  · exact .refl s'

/-- The run lemma: everything that the transactions of a history use up occurs once, and stays used
up. -/
theorem Applies.used_once (h : Applies start done s) :
    (done.filterMap fun entry ↦ usedBy entry.1).Nodup ∧
      ∀ used ∈ done.filterMap fun entry ↦ usedBy entry.1, s.Holds used := by
  induction h with
  | refl => exact ⟨List.nodup_nil, fun used hmem ↦ absurd hmem List.not_mem_nil⟩
  | @apply done s s' tx height _ hrun ih =>
    obtain ⟨hnodup, hheld⟩ := ih
    have hkeeps := (applyInner_keeps hrun).trans
      (keeps_marked s' (Ledger.dirtyKeysFor s'.nextTokenId tx))
    rw [List.filterMap_append]
    cases hused : usedBy tx with
    | none =>
      simp only [List.filterMap_cons, hused, List.filterMap_nil, List.append_nil]
      exact ⟨hnodup, fun used hmem ↦ hkeeps.holds (hheld used hmem)⟩
    | some used =>
      obtain ⟨hfresh, hnow⟩ := holds_of_applyInner hused hrun
      simp only [List.filterMap_cons, hused, List.filterMap_nil]
      constructor
      · rw [List.nodup_append_comm]
        exact List.nodup_cons.mpr ⟨fun hmem ↦ hfresh (hheld used hmem), hnodup⟩
      · intro other hother
        rcases List.mem_append.mp hother with hearlier | hlast
        · exact hkeeps.holds (hheld other hearlier)
        · obtain rfl := List.mem_singleton.mp hlast
          exact (keeps_marked s' _).holds hnow
  | other op _ _ hop ih =>
    exact ⟨ih.1, fun used hmem ↦ (keeps_performs hop).holds (ih.2 used hmem)⟩

/-! ### Escrows -/

/-- The transactions of a history that lock or release an escrow. -/
def aboutEscrow (id : Bytes32) (done : List (Transaction C × UInt64)) :
    List (Transaction C × UInt64) :=
  done.filter fun entry ↦
    ((lockTermsOf entry.1).any fun terms ↦ terms.id C = id) || releases id entry.1

/-- The history of an escrow, and its record. -/
inductive EscrowStory (terms : LockTerms) :
    List (Transaction C × UInt64) → Option Htlc → Prop where
  | unknown : EscrowStory terms [] none
  | locked (fee : UInt64) (sig : Bytes64) (height : UInt64) :
    EscrowStory terms [(terms.lockTx fee sig, height)] (some terms.escrow)
  | claimed (fee : UInt64) (sig : Bytes64) (height : UInt64) (preimage : Bytes32)
    (height' : UInt64) : height' < terms.expiry →
      C.sha256 (bytesOf32 preimage) = terms.hashlock →
      EscrowStory terms [(terms.lockTx fee sig, height),
        (.htlcClaim (terms.id C) preimage, height')] none
  | refunded (fee : UInt64) (sig : Bytes64) (height height' : UInt64) : terms.expiry ≤ height' →
      EscrowStory terms [(terms.lockTx fee sig, height), (.htlcRefund (terms.id C), height')] none

theorem aboutEscrow_append (id : Bytes32) (first later : List (Transaction C × UInt64)) :
    aboutEscrow id (first ++ later) = aboutEscrow id first ++ aboutEscrow id later :=
  List.filter_append ..

/-- An escrow that is not open and was locked before has a spent nonce. -/
theorem EscrowStory.locked_before {terms : LockTerms} {about : List (Transaction C × UInt64)}
    (h : EscrowStory terms about none) (hne : about ≠ []) :
    ∃ fee sig height, ((terms.lockTx fee sig : Transaction C), height) ∈ about := by
  cases h with
  | unknown => exact absurd rfl hne
  | claimed fee sig height => exact ⟨fee, sig, height, List.mem_cons_self⟩
  | refunded fee sig height => exact ⟨fee, sig, height, List.mem_cons_self⟩

/-- A claim in the history of an escrow: it is in time, opens the hashlock, and is the only one. -/
theorem EscrowStory.of_claim {terms : LockTerms} {about : List (Transaction C × UInt64)}
    {record : Option Htlc} {preimage : Bytes32} {height : UInt64}
    (h : EscrowStory terms about record)
    (hclaim : (.htlcClaim (terms.id C) preimage, height) ∈ about) :
    record = none ∧ height < terms.expiry ∧ C.sha256 (bytesOf32 preimage) = terms.hashlock ∧
      ∀ other later, (.htlcClaim (terms.id C) other, later) ∈ about → other = preimage := by
  cases h with
  | unknown => exact absurd hclaim List.not_mem_nil
  | locked => exact absurd hclaim (by simp [LockTerms.lockTx])
  | refunded => exact absurd hclaim (by simp [LockTerms.lockTx])
  | claimed fee sig height₀ shown height' hearly hpreimage =>
    have honly : ∀ other later, (.htlcClaim (terms.id C) other, later) ∈
        [((terms.lockTx fee sig : Transaction C), height₀),
          (.htlcClaim (terms.id C) shown, height')] → other = shown ∧ later = height' := by
      intro other later hmem
      simpa [LockTerms.lockTx] using hmem
    obtain ⟨rfl, rfl⟩ := honly preimage height hclaim
    exact ⟨rfl, hearly, hpreimage, fun other later hmem ↦ (honly other later hmem).1⟩

/-- An open escrow has its terms. -/
theorem EscrowStory.of_some {terms : LockTerms} {about : List (Transaction C × UInt64)}
    {escrow : Htlc} (h : EscrowStory terms about (some escrow)) : escrow = terms.escrow := by
  cases h
  rfl

/-- The step: a transaction that locks or releases an escrow goes on with its history. -/
theorem EscrowStory.step {terms : LockTerms} {tx : Transaction C} {height : UInt64}
    (h : EscrowStory terms (aboutEscrow (terms.id C) done) (s.htlc (terms.id C)))
    (hheld : ∀ used ∈ done.filterMap fun entry ↦ usedBy entry.1, s.Holds used)
    (hfree : ∀ other, lockTermsOf tx = some other → other.id C = terms.id C → other = terms)
    (hrun : Runs (applyInner tx height none) s () s') :
    EscrowStory terms (aboutEscrow (terms.id C) (done ++ [(tx, height)])) (s'.htlc (terms.id C)) := by
  rw [aboutEscrow_append]
  rcases applyInner_htlc (terms.id C) hrun with ⟨other, hlock, hsame, hnone, hopen⟩ |
    ⟨hreleases, escrow, hopen, hnone, hpaid⟩ | ⟨hother, hlock, hsame⟩
  · obtain rfl := hfree other hlock hsame
    obtain ⟨fee, sig, rfl⟩ : ∃ fee sig, tx = other.lockTx fee sig := by
      cases tx with
      | htlcLock =>
        obtain rfl := Option.some.inj hlock
        exact ⟨_, _, rfl⟩
      | _ => exact absurd hlock (by simp [lockTermsOf])
    have habout : aboutEscrow (other.id C) [((other.lockTx fee sig : Transaction C), height)] =
        [(other.lockTx fee sig, height)] := by
      simp [aboutEscrow, hlock]
    rw [habout, hopen]
    rw [hnone] at h
    by_cases hempty : aboutEscrow (other.id C) done = []
    · rw [hempty]
      exact .locked fee sig height
    · obtain ⟨fee', sig', height', hmem⟩ := h.locked_before hempty
      have hused : Used.nonce other.fromId other.nonce ∈
          done.filterMap fun entry ↦ usedBy entry.1 :=
        List.mem_filterMap.mpr ⟨_, List.mem_of_mem_filter hmem, rfl⟩
      have hagain : usedBy (other.lockTx fee sig : Transaction C) =
          some (.nonce other.fromId other.nonce) := rfl
      exact absurd (hheld _ hused) (holds_of_applyInner hagain hrun).1
  · have habout : aboutEscrow (terms.id C) [(tx, height)] = [(tx, height)] := by
      simp [aboutEscrow, releases_eq_true.mpr hreleases]
    rw [habout, hnone]
    rw [hopen] at h
    generalize habout' : aboutEscrow (terms.id C) done = about at h
    cases h with
    | locked fee sig height₀ =>
      rcases hpaid with ⟨preimage, rfl, hearly, hpreimage, -⟩ | ⟨rfl, hlate, -⟩
      · exact .claimed fee sig height₀ preimage height hearly hpreimage
      · exact .refunded fee sig height₀ height hlate
  · have hnot : ¬ releases (terms.id C) tx = true := fun hyes ↦ hother (releases_eq_true.mp hyes)
    have habout : aboutEscrow (terms.id C) [(tx, height)] = [] := by
      cases hterms : lockTermsOf tx with
      | none => simp [aboutEscrow, hterms, hnot]
      | some other => simp [aboutEscrow, hterms, hnot, hlock other hterms]
    rw [habout, List.append_nil, hsame]
    exact h

/-- The run lemma: the history of an escrow, when its id belongs to its terms alone. -/
theorem Applies.escrow_story {terms : LockTerms} (h : Applies start done s)
    (hstart : start.htlc (terms.id C) = none)
    (hfree : ∀ entry ∈ done, ∀ other, lockTermsOf entry.1 = some other →
      other.id C = terms.id C → other = terms) :
    EscrowStory terms (aboutEscrow (terms.id C) done) (s.htlc (terms.id C)) := by
  induction h with
  | refl =>
    rw [hstart]
    exact .unknown
  | @apply done s s' tx height hbefore hrun ih =>
    have hearlier := ih fun entry hmem ↦ hfree entry (List.mem_append_left _ hmem)
    show EscrowStory terms _ (s'.htlc (terms.id C))
    exact hearlier.step hbefore.used_once.2 (hfree (tx, height) (by simp)) hrun
  | @other done s s' op _ hop hperforms ih =>
    rw [performs_htlc_eq hop hperforms]
    exact ih hfree

end LedgerState

end Latebra.State
