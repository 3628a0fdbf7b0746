import Latebra.State.Accesses
import Latebra.State.Parallel
import Latebra.State.Reachability

/-!
# Transactions as local steps

A transaction of the parallel lane reads and writes the records and the flags of the accounts that
it names and nothing else (`applyInner_within`), and it leaves every one of them registered and
flagged (`touched_applyTx`). So it is a local step there (`local_applyTx`); every other transaction
is a local step on the whole ledger.
-/

set_option autoImplicit false
set_option relaxedAutoImplicit false

namespace Latebra.State

open Foundation Crypto Latebra.Types

variable {C : CryptoSuite}

/-- The records and the flags of some accounts. -/
def accountArea (ids : List Bytes32) : Set Coord :=
  { i | ∃ id ∈ ids, i = .object (.account id) ∨ i = .flag (.account id) }

/-- What a transaction may touch: the accounts that it names if it is in the parallel lane, and
everything otherwise. -/
def areaOf (tx : Transaction C) : Set Coord :=
  match accessSet tx with
  | some ids => accountArea ids
  | none => Set.univ

theorem object_mem_accountArea {ids : List Bytes32} {id : Bytes32} :
    .object (.account id) ∈ accountArea ids ↔ id ∈ ids := by
  constructor
  · rintro ⟨other, hother, heq | heq⟩
    · have hsame := RecordKey.bytes_injective (Coord.record.inj heq)
      rwa [DirtyKey.account.inj (RecordKey.committed.inj hsame)]
    · exact nomatch heq
  · intro hid
    exact ⟨id, hid, .inl rfl⟩

theorem flag_mem_accountArea {ids : List Bytes32} {id : Bytes32} :
    .flag (.account id) ∈ accountArea ids ↔ id ∈ ids := by
  constructor
  · rintro ⟨other, hother, heq | heq⟩
    · exact nomatch heq
    · rwa [DirtyKey.account.inj (Coord.flag.inj heq)]
  · intro hid
    exact ⟨id, hid, .inr rfl⟩

theorem disjoint_accountArea {ids ids' : List Bytes32} (h : ids.Disjoint ids') :
    Disjoint (accountArea ids) (accountArea ids') := by
  rw [Set.disjoint_left]
  rintro i ⟨id, hid, rfl | rfl⟩ hother
  · exact h hid (object_mem_accountArea.mp hother)
  · exact h hid (flag_mem_accountArea.mp hother)

section Within

variable {area : Set Coord} {id : Bytes32}

@[simp]
theorem within_account :
    (LedgerCommand.account id : LedgerCommand C).Within area ↔ .object (.account id) ∈ area := by
  simp [LedgerCommand.Within, LedgerCommand.reads, LedgerCommand.changes, LedgerCommand.updates]

@[simp]
theorem within_isRegistered :
    (LedgerCommand.isRegistered id : LedgerCommand C).Within area ↔
      .object (.account id) ∈ area := by
  simp [LedgerCommand.Within, LedgerCommand.reads, LedgerCommand.changes, LedgerCommand.updates]

@[simp]
theorem within_putAccount {a : Account C} :
    (LedgerCommand.putAccount id a).Within area ↔ .object (.account id) ∈ area := by
  simp [LedgerCommand.Within, LedgerCommand.reads, LedgerCommand.changes, LedgerCommand.updates]

@[simp]
theorem within_mark {key : DirtyKey} :
    (LedgerCommand.mark key : LedgerCommand C).Within area ↔ .flag key ∈ area := by
  simp [LedgerCommand.Within, LedgerCommand.reads, LedgerCommand.changes, LedgerCommand.updates]

end Within

/-- A transaction of the parallel lane reads and writes the accounts that it names. -/
theorem applyInner_within {tx : Transaction C} {ids : List Bytes32} (hset : accessSet tx = some ids)
    (height : UInt64) :
    (applyInner tx height none).Uses (LedgerCommand.Within (accountArea ids)) := by
  cases tx with
  | register pubkey powNonce =>
    obtain rfl := Option.some.inj hset
    simp [applyInner, LedgerM.register, LedgerM.isRegistered, LedgerM.putAccount, LedgerM.mark,
      LedgerM.command, Program.perform, object_mem_accountArea, flag_mem_accountArea]
  | publicTransfer token fromId toId amount fee nonce sig =>
    obtain rfl := Option.some.inj hset
    simp [applyInner, applyPublicTransfer, checkSig, debitPublic, LedgerM.account,
      LedgerM.isRegistered, LedgerM.putAccount, LedgerM.command, Program.perform,
      object_mem_accountArea]
  | shield token fromId toId amount fee nonce sig =>
    obtain rfl := Option.some.inj hset
    simp [applyInner, applyShield, checkSig, debitPublic, creditPendingOf, LedgerM.account,
      LedgerM.isRegistered, LedgerM.putAccount, LedgerM.command, Program.perform,
      object_mem_accountArea]
  | _ => cases hset

/-- A transaction of the parallel lane flags the accounts that it names. -/
theorem dirtyKeysFor_of_accessSet {tx : Transaction C} {ids : List Bytes32}
    (hset : accessSet tx = some ids) (next : UInt32) :
    Ledger.dirtyKeysFor next tx = ids.map .account := by
  cases tx with
  | register | publicTransfer | shield =>
    obtain rfl := Option.some.inj hset
    rfl
  | _ => cases hset

namespace Ledger

variable {L L' M : Ledger C}

theorem observe_markAll_of_notMem {keys : List DirtyKey} {i : Coord}
    (hi : ∀ key ∈ keys, i ≠ .flag key) : observe i (L.markAll keys) = observe i L := by
  unfold markAll
  induction keys generalizing L with
  | nil => rfl
  | cons key rest ih =>
    rw [List.foldl_cons, ih fun later hlater ↦ hi later (List.mem_cons_of_mem _ hlater)]
    have hother := hi key List.mem_cons_self
    rw [congrFun (observe_mark key) i, Function.update_of_ne hother]

theorem mem_dirty_markAll {keys : List DirtyKey} {key : DirtyKey} :
    key ∈ (L.markAll keys).dirty ↔ key ∈ L.dirty ∨ key ∈ keys := by
  unfold markAll
  induction keys generalizing L with
  | nil => simp
  | cons first rest ih =>
    rw [List.foldl_cons, ih]
    simp [mark, or_assoc, or_left_comm]

theorem AgreeOn.symm {area : Set Coord} {M : Ledger C} (h : AgreeOn area L M) : AgreeOn area M L :=
  ⟨h.right, h.left, fun i hi ↦ (h.agree i hi).symm⟩

theorem AgreeOn.trans {area : Set Coord} {M N : Ledger C} (h : AgreeOn area L M)
    (h' : AgreeOn area M N) : AgreeOn area L N :=
  ⟨h.left, h'.right, fun i hi ↦ (h.agree i hi).trans (h'.agree i hi)⟩

/-- Flagging the same entries keeps an agreement. -/
theorem AgreeOn.markAll {area : Set Coord} (h : AgreeOn area L M) (keys : List DirtyKey) :
    AgreeOn area (L.markAll keys) (M.markAll keys) := by
  refine ⟨(h.left.markAll keys).1, (h.right.markAll keys).1, fun i hi ↦ ?_⟩
  by_cases hflag : ∃ key ∈ keys, i = .flag key
  · obtain ⟨key, hkey, rfl⟩ := hflag
    have hmem : ∀ N : Ledger C, key ∈ (N.markAll keys).dirty := fun N ↦
      mem_dirty_markAll.mpr (.inr hkey)
    simp only [observe, hmem, if_true]
  · have hother : ∀ key ∈ keys, i ≠ .flag key := fun key hkey heq ↦ hflag ⟨key, hkey, heq⟩
    rw [observe_markAll_of_notMem hother, observe_markAll_of_notMem hother]
    exact h.agree i hi

/-- A transaction ends alike on ledgers that agree on what it reads. -/
theorem applyAtWith_agree {area : Set Coord} {tx : Transaction C} {height : UInt64}
    {pre : Option (ProofPass C)}
    (huses : (applyInner tx height pre).Uses fun c : LedgerCommand C ↦ c.reads ⊆ area)
    (hkeys : ∀ {L M : Ledger C}, AgreeOn area L M →
      dirtyKeysFor L.nextTokenId tx = dirtyKeysFor M.nextTokenId tx) (h : AgreeOn area L M) :
    (L.applyAtWith tx height pre).1 = (M.applyAtWith tx height pre).1 ∧
      AgreeOn area (L.applyAtWith tx height pre).2 (M.applyAtWith tx height pre).2 := by
  obtain ⟨houtcome, hafter⟩ := run_agree huses h
  unfold applyAtWith
  rcases hL : (applyInner tx height pre).run handler L with ⟨outcome, L₁⟩
  rcases hM : (applyInner tx height pre).run handler M with ⟨outcome', M₁⟩
  rw [hL, hM] at houtcome hafter
  obtain rfl : outcome = outcome' := houtcome
  cases outcome with
  | ok value =>
    refine ⟨rfl, ?_⟩
    dsimp only
    rw [hkeys hafter]
    exact hafter.markAll _
  | err e => exact ⟨rfl, hafter⟩
  | panicked => exact ⟨rfl, hafter⟩

theorem nextTokenId_of_agree {area : Set Coord} (harea : .nextTokenId ∈ area)
    (h : AgreeOn area L M) : L.nextTokenId = M.nextTokenId :=
  UInt32.toNat_inj.mp (Sum.inr.inj (h.agree .nextTokenId harea))

/-- Apply a transaction, as a partial step. -/
def applyTx (height : UInt64) (tx : Transaction C) : Ledger C → Option (Ledger C) :=
  Transition.after fun L ↦ L.applyAt tx height

theorem applyTx_eq_some {height : UInt64} {tx : Transaction C} :
    applyTx height tx L = some L' ↔ L.applyAt tx height = (.ok (), L') :=
  Transition.after_eq_some

/-- A transaction is a local step on what it may touch. -/
theorem local_applyTx (height : UInt64) (tx : Transaction C) :
    Local observe WellFormed (areaOf tx) (applyTx height tx) := by
  have hkeeps : ∀ {L L' : Ledger C}, L.WellFormed → applyTx height tx L = some L' →
      L'.WellFormed :=
    fun hL hrun ↦ (hL.applyAt_ok (applyTx_eq_some.mp hrun)).1
  have hcongr : ∀ {area : Set Coord},
      ((applyInner tx height none).Uses fun c : LedgerCommand C ↦ c.reads ⊆ area) →
      (∀ {L M : Ledger C}, AgreeOn area L M →
        dirtyKeysFor L.nextTokenId tx = dirtyKeysFor M.nextTokenId tx) →
      ∀ {L L' M : Ledger C}, L.WellFormed → M.WellFormed → Agree observe area L M →
        applyTx height tx L = some L' →
          ∃ M', applyTx height tx M = some M' ∧ Agree observe area L' M' := by
    intro area huses hkeys L L' M hL hM hagree hrun
    have hok := applyTx_eq_some.mp hrun
    obtain ⟨houtcome, hafter⟩ := applyAtWith_agree huses hkeys ⟨hL, hM, hagree⟩
    change (L.applyAt tx height).1 = (M.applyAt tx height).1 at houtcome
    change AgreeOn area (L.applyAt tx height).2 (M.applyAt tx height).2 at hafter
    rw [hok] at houtcome hafter
    exact ⟨(M.applyAt tx height).2, applyTx_eq_some.mpr (Prod.ext houtcome.symm rfl), hafter.agree⟩
  cases hset : accessSet tx with
  | none =>
    have harea : areaOf tx = Set.univ := by rw [areaOf, hset]
    rw [harea]
    refine ⟨hkeeps, fun _ _ i hi ↦ absurd (Set.mem_univ i) hi, ?_⟩
    refine hcongr ?_ fun h ↦ by rw [nextTokenId_of_agree (Set.mem_univ _) h]
    exact (Program.uses_true _).mono fun _ _ ↦ Set.subset_univ _
  | some ids =>
    have harea : areaOf tx = accountArea ids := by rw [areaOf, hset]
    have hwithin := applyInner_within hset height
    rw [harea]
    refine ⟨hkeeps, fun {L L'} _ hrun i hi ↦ ?_, ?_⟩
    · have hok := applyTx_eq_some.mp hrun
      have hframe := run_frame (hwithin.mono fun _ h ↦ h.2) L hi
      unfold applyAt applyAtWith at hok
      rcases hinner : (applyInner tx height none).run handler L with ⟨_ | _ | _, L₁⟩ <;>
        rw [hinner] at hok hframe
      · rw [← (Prod.mk.inj hok).2, observe_markAll_of_notMem]
        · exact hframe
        · intro key hkey heq
          rw [dirtyKeysFor_of_accessSet hset] at hkey
          obtain ⟨id, hid, rfl⟩ := List.mem_map.mp hkey
          exact hi (heq ▸ flag_mem_accountArea.mpr hid)
      · exact nomatch (Prod.mk.inj hok).1
      · exact nomatch (Prod.mk.inj hok).1
    · refine hcongr (hwithin.mono fun _ h ↦ h.1) fun _ ↦ ?_
      rw [dirtyKeysFor_of_accessSet hset, dirtyKeysFor_of_accessSet hset]

/-- A transaction of the parallel lane leaves the accounts that it names registered and flagged. -/
theorem touched_applyTx {height : UInt64} {tx : Transaction C} {ids : List Bytes32}
    (hset : accessSet tx = some ids) (hL : L.WellFormed) (hrun : applyTx height tx L = some L') :
    ∀ id ∈ ids, (L'.accountRecord id).isSome ∧ .account id ∈ L'.dirty := by
  obtain ⟨-, s, hruns, hview⟩ := hL.applyAt_ok (applyTx_eq_some.mp hrun)
  have hregistered : ∀ id ∈ ids, (s.account id).isSome := by
    cases tx with
    | register pubkey powNonce =>
      obtain rfl := Option.some.inj hset
      obtain ⟨-, rfl⟩ := register_outcome hruns
      simp
    | publicTransfer token fromId toId amount fee nonce sig =>
      obtain rfl := Option.some.inj hset
      obtain ⟨sender, receiver, total, next, -, hsender, -, -, -, -, -, rfl⟩ :=
        applyPublicTransfer_outcome hruns
      by_cases hsame : fromId = toId <;>
        simp [LedgerState.debited, Function.update_apply, hsame]
    | shield token fromId toId amount fee nonce sig =>
      obtain rfl := Option.some.inj hset
      obtain ⟨sender, receiver, total, next, -, hsender, -, -, -, -, -, rfl⟩ :=
        applyShield_outcome hruns
      by_cases hsame : fromId = toId <;>
        simp [LedgerState.debited, LedgerState.pendingCredited, Function.update_apply, hsame]
    | _ => cases hset
  intro id hid
  constructor
  · have haccount : (L'.view.account id).isSome := by
      rw [hview]
      exact hregistered id hid
    exact Option.isSome_of_isSome_bind haccount
  · have hflag : DirtyKey.account id ∈ L'.view.dirty := by
      rw [hview, LedgerState.marked, dirtyKeysFor_of_accessSet hset]
      exact .inr (List.mem_map_of_mem hid)
    exact hflag

end Ledger

end Latebra.State
