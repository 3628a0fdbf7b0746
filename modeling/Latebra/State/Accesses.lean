import Latebra.Foundation.LocalSteps
import Latebra.State.Commitment

/-!
# What a command reads and writes

A ledger is observed coordinate by coordinate: its stored records, its flags, the next token id and
the cap on the validator set. `LedgerCommand.reads` are the coordinates that the reply and the
writes of a command depend on, and `LedgerCommand.updates` is all that a command changes
(`observe_exec`). A program leaves what it does not write as it was (`run_frame`), and it is the same
on two ledgers that agree on what it reads (`run_agree`). The read cache and the trie are no coordinates: no program answers differently for
them.
-/

set_option autoImplicit false
set_option relaxedAutoImplicit false

namespace Latebra.State

open Foundation Crypto Latebra.Types

variable {C : CryptoSuite}

/-- A coordinate of a ledger. -/
inductive Coord where
  | record (key : Bytes)
  | flag (key : DirtyKey)
  | nextTokenId
  | maxValidators
deriving DecidableEq

/-- What is found at a coordinate: a record, or a number. -/
abbrev Found := Option Bytes ⊕ ℕ

/-- The coordinate of an object record. -/
abbrev Coord.object (key : DirtyKey) : Coord := .record (RecordKey.committed key).bytes

/-- The coordinates that the reply and the writes of a command depend on. -/
def LedgerCommand.reads : LedgerCommand C → Set Coord
  | .account id | .isRegistered id => {.object (.account id)}
  | .nextTokenId | .putToken _ => {.nextTokenId}
  | .tokenById id => {.object (.token id)}
  | .tickerTaken norm => {.record (RecordKey.ticker norm).bytes}
  | .contract id | .hasContract id => {.object (.contract id)}
  | .nullifierSeen nf => {.object (.nullifier nf)}
  | .validator id => {.object (.validator id)}
  | .pool token => {.object (.pool token)}
  | .curve token => {.object (.curve token)}
  | .lpShares token provider => {.object (.lp token provider)}
  | .htlc id => {.object (.htlc id)}
  | _ => ∅

/-- What a command that succeeds changes. -/
def LedgerCommand.updates (nextTokenId : UInt32) : LedgerCommand C → List (Coord × Found)
  | .putAccount id a => [(.object (.account id), .inl (some (encodeAccount a)))]
  | .setNextTokenId id => [(.nextTokenId, .inr id.toNat)]
  | .putToken t =>
    [(.object (.token t.id), .inl (some (encodeToken t))),
      (.record (RecordKey.ticker t.ticker).bytes, .inl (some (u32Be t.id))),
      (.object .metaRecord, .inl (some (u32Le nextTokenId)))]
  | .putContract id c => [(.object (.contract id), .inl (some (encodeContract c)))]
  | .insertNullifier nf => [(.object (.nullifier nf), .inl (some [1]))]
  | .putValidator id v =>
    [(.object (.validator id), .inl (if v.Drained then none else some (encodeValidator v)))]
  | .putPool p =>
    [(.object (.pool p.token), .inl (if p.lpSupply = 0 then none else some (encodePool p)))]
  | .putCurve c => [(.object (.curve c.token), .inl (some (encodeCurve c)))]
  | .putLp token provider shares =>
    [(.object (.lp token provider), .inl (if shares = 0 then none else some (u64Le shares)))]
  | .putHtlc id h => [(.object (.htlc id), .inl (some (encodeHtlc h)))]
  | .deleteHtlc id => [(.object (.htlc id), .inl none)]
  | .mark key => [(.flag key, .inr 1)]
  | _ => []

/-- The coordinates that a command may change. -/
def LedgerCommand.changes (c : LedgerCommand C) : Set Coord :=
  { i | ∃ next, ∃ update ∈ c.updates next, update.1 = i }

/-- A command that reads and writes inside a set of coordinates. -/
def LedgerCommand.Within (area : Set Coord) (c : LedgerCommand C) : Prop :=
  c.reads ⊆ area ∧ c.changes ⊆ area

/-- A list of updates, one after the other. -/
def updated (found : Coord → Found) (updates : List (Coord × Found)) : Coord → Found :=
  updates.foldl (fun found update ↦ Function.update found update.1 update.2) found

theorem updated_of_notMem {found : Coord → Found} {updates : List (Coord × Found)} {i : Coord}
    (hi : ∀ update ∈ updates, update.1 ≠ i) : updated found updates i = found i := by
  unfold updated
  induction updates generalizing found with
  | nil => rfl
  | cons update rest ih =>
    rw [List.foldl_cons, ih fun later hlater ↦ hi later (List.mem_cons_of_mem _ hlater)]
    exact Function.update_of_ne (hi update List.mem_cons_self).symm _ _

/-- Updates keep an agreement. -/
theorem updated_congr {area : Set Coord} {found found' : Coord → Found}
    {updates : List (Coord × Found)} (h : ∀ i ∈ area, found i = found' i) :
    ∀ i ∈ area, updated found updates i = updated found' updates i := by
  unfold updated
  induction updates generalizing found found' with
  | nil => exact h
  | cons update rest ih =>
    refine ih fun i hi ↦ ?_
    change Function.update found update.1 update.2 i = Function.update found' update.1 update.2 i
    by_cases hsame : i = update.1
    · rw [hsame, Function.update_self, Function.update_self]
    · rw [Function.update_of_ne hsame, Function.update_of_ne hsame, h i hi]

namespace Ledger

variable {L L' M : Ledger C}

/-- What a ledger has at a coordinate. -/
def observe : Coord → Ledger C → Found
  | .record key, L => .inl (L.objects.get key)
  | .flag key, L => .inr (if key ∈ L.dirty then 1 else 0)
  | .nextTokenId, L => .inr L.nextTokenId.toNat
  | .maxValidators, L => .inr L.maxValidators

theorem observe_clone (i : Coord) : observe i L.clone = observe i L := by
  cases i <;> rfl

theorem observe_of_clone_eq (hclone : L'.clone = L.clone) (i : Coord) :
    observe i L' = observe i L := by
  rw [← observe_clone, hclone, observe_clone]

/-- Ledgers that look the same have the same objects. -/
theorem sameObs_iff : SameObs observe L M ↔
    L.objects.merged = M.objects.merged ∧ (∀ key, key ∈ L.dirty ↔ key ∈ M.dirty) ∧
      L.nextTokenId = M.nextTokenId ∧ L.maxValidators = M.maxValidators := by
  constructor
  · intro hsame
    refine ⟨FMap.ext fun key ↦ ?_, fun key ↦ ?_, ?_, ?_⟩
    · rw [OverlayMap.lookup_merged, OverlayMap.lookup_merged]
      exact Sum.inl.inj (hsame (.record key))
    · have hflag := Sum.inr.inj (hsame (.flag key))
      split at hflag <;> split at hflag <;> simp_all
    · exact UInt32.toNat_inj.mp (Sum.inr.inj (hsame .nextTokenId))
    · exact Sum.inr.inj (hsame .maxValidators)
  · rintro ⟨hobjects, hdirty, hnext, hmax⟩ i
    cases i with
    | record key =>
      simp only [observe]
      rw [← OverlayMap.lookup_merged, hobjects, OverlayMap.lookup_merged]
    | flag key => simp only [observe, hdirty key]
    | nextTokenId => simp only [observe, hnext]
    | maxValidators => simp only [observe, hmax]

theorem record_eq_of_observe {key : RecordKey}
    (h : observe (.record key.bytes) L = observe (.record key.bytes) M) :
    L.record key = M.record key :=
  Sum.inl.inj h

theorem observe_putRecord (key : RecordKey) (body : Bytes) :
    (fun i ↦ observe i (L.putRecord key body)) =
      Function.update (fun i ↦ observe i L) (.record key.bytes) (.inl (some body)) := by
  funext i
  cases i with
  | record other =>
    rw [Function.update_apply]
    simp only [observe, putRecord, OverlayMap.get_put, Coord.record.injEq]
    split <;> rfl
  | _ => rfl

theorem observe_deleteRecord (key : RecordKey) :
    (fun i ↦ observe i (L.deleteRecord key)) =
      Function.update (fun i ↦ observe i L) (.record key.bytes) (.inl none) := by
  funext i
  cases i with
  | record other =>
    rw [Function.update_apply]
    simp only [observe, deleteRecord, OverlayMap.get_delete, Coord.record.injEq]
    split <;> rfl
  | _ => rfl

theorem observe_mark (key : DirtyKey) :
    (fun i ↦ observe i (L.mark key)) =
      Function.update (fun i ↦ observe i L) (.flag key) (.inr 1) := by
  funext i
  cases i with
  | flag other =>
    rw [Function.update_apply]
    by_cases hsame : other = key <;> simp [observe, mark, hsame]
  | _ => rfl

/-- A command changes nothing but its updates. -/
theorem observe_exec {c : LedgerCommand C} {reply : c.Reply}
    (hexec : handler.exec c L = some (reply, L')) :
    (fun i ↦ observe i L') = updated (fun i ↦ observe i L) (c.updates L.nextTokenId) := by
  by_cases hwrite : c.IsWrite
  · cases c with
    | putAccount id a =>
      obtain ⟨-, heq⟩ := Option.ite_none_right_eq_some.mp hexec
      rw [← (Prod.mk.inj (Option.some.inj heq)).2]
      refine Eq.trans ?_ (observe_putRecord (.committed (.account id)) (encodeAccount a))
      funext i
      cases i <;> rfl
    | putToken t =>
      obtain ⟨-, heq⟩ := Option.ite_none_right_eq_some.mp hexec
      rw [← (Prod.mk.inj (Option.some.inj heq)).2, observe_putRecord, observe_putRecord,
        observe_putRecord]
      rfl
    | putContract id contract =>
      obtain ⟨-, heq⟩ := Option.ite_none_right_eq_some.mp hexec
      rw [← (Prod.mk.inj (Option.some.inj heq)).2]
      exact observe_putRecord _ _
    | putValidator id v =>
      change (if v.Drained then _ else if v.Fits then _ else none) = some (reply, L') at hexec
      change _ = Function.update (fun i ↦ observe i L) _
        (Sum.inl (if v.Drained then none else some (encodeValidator v)))
      split at hexec
      · next hdrained =>
        rw [← (Prod.mk.inj (Option.some.inj hexec)).2, if_pos hdrained]
        exact observe_deleteRecord _
      · next hdrained =>
        obtain ⟨-, heq⟩ := Option.ite_none_right_eq_some.mp hexec
        rw [← (Prod.mk.inj (Option.some.inj heq)).2, if_neg hdrained]
        exact observe_putRecord _ _
    | putPool p =>
      rw [← (Prod.mk.inj (Option.some.inj hexec)).2, putPool]
      change _ = Function.update (fun i ↦ observe i L) _
        (Sum.inl (if p.lpSupply = 0 then none else some (encodePool p)))
      split
      · exact observe_deleteRecord _
      · exact observe_putRecord _ _
    | putLp token provider shares =>
      rw [← (Prod.mk.inj (Option.some.inj hexec)).2, putLp]
      change _ = Function.update (fun i ↦ observe i L) _
        (Sum.inl (if shares = 0 then none else some (u64Le shares)))
      split
      · exact observe_deleteRecord _
      · exact observe_putRecord _ _
    | setNextTokenId id =>
      rw [← (Prod.mk.inj (Option.some.inj hexec)).2]
      funext i
      cases i <;> rfl
    | insertNullifier | putCurve | putHtlc =>
      rw [← (Prod.mk.inj (Option.some.inj hexec)).2]
      exact observe_putRecord _ _
    | deleteHtlc id =>
      rw [← (Prod.mk.inj (Option.some.inj hexec)).2]
      exact observe_deleteRecord _
    | mark key =>
      rw [← (Prod.mk.inj (Option.some.inj hexec)).2]
      exact observe_mark _
    | _ => exact absurd hwrite id
  · have hnone : c.updates L.nextTokenId = [] := by
      cases c <;> first | rfl | exact absurd trivial hwrite
    rw [hnone]
    funext i
    exact observe_of_clone_eq (clone_of_not_isWrite hwrite hexec) i

/-- A command changes no other coordinate. -/
theorem observe_exec_of_notMem {c : LedgerCommand C} {reply : c.Reply}
    (hexec : handler.exec c L = some (reply, L')) {i : Coord} (hi : i ∉ c.changes) :
    observe i L' = observe i L := by
  refine (congrFun (observe_exec hexec) i).trans (updated_of_notMem fun update hupdate heq ↦ ?_)
  exact hi ⟨L.nextTokenId, update, hupdate, heq⟩

/-- Two well-formed ledgers that agree on an area. -/
structure AgreeOn (area : Set Coord) (L M : Ledger C) : Prop where
  left : L.WellFormed
  right : M.WellFormed
  agree : Agree observe area L M

/-- A command that reads inside an area answers alike where the area looks the same. -/
theorem replies_alike {area : Set Coord} {c : LedgerCommand C} (hreads : c.reads ⊆ area)
    (hagree : Agree observe area L M) :
    (LedgerState.handler.exec c L.view).map Prod.fst =
      (LedgerState.handler.exec c M.view).map Prod.fst := by
  have hrecord : ∀ key : RecordKey, .record key.bytes ∈ c.reads → L.record key = M.record key :=
    fun key hkey ↦ record_eq_of_observe (hagree _ (hreads hkey))
  cases c with
  | account id =>
    have hsame := hrecord (.committed (.account id)) rfl
    simp [LedgerState.handler, view, LedgerState.ofRecords, hsame]
  | isRegistered id =>
    have hsame := hrecord (.committed (.account id)) rfl
    simp [LedgerState.handler, view, LedgerState.ofRecords, hsame]
  | nextTokenId =>
    have hsame := UInt32.toNat_inj.mp (Sum.inr.inj (hagree .nextTokenId (hreads rfl)))
    simp [LedgerState.handler, view, LedgerState.ofRecords, hsame]
  | tokenById id =>
    have hsame := hrecord (.committed (.token id)) rfl
    simp [LedgerState.handler, view, LedgerState.ofRecords, hsame]
  | tickerTaken norm =>
    have hsame := hrecord (.ticker norm) rfl
    simp [LedgerState.handler, view, LedgerState.ofRecords, hsame]
  | contract id =>
    have hsame := hrecord (.committed (.contract id)) rfl
    simp [LedgerState.handler, view, LedgerState.ofRecords, hsame]
  | hasContract id =>
    have hsame := hrecord (.committed (.contract id)) rfl
    simp [LedgerState.handler, view, LedgerState.ofRecords, hsame]
  | nullifierSeen nf =>
    have hsame := hrecord (.committed (.nullifier nf)) rfl
    simp [LedgerState.handler, view, LedgerState.ofRecords, hsame]
  | validator id =>
    have hsame := hrecord (.committed (.validator id)) rfl
    simp [LedgerState.handler, view, LedgerState.ofRecords, hsame]
  | pool token =>
    have hsame := hrecord (.committed (.pool token)) rfl
    simp [LedgerState.handler, view, LedgerState.ofRecords, hsame]
  | curve token =>
    have hsame := hrecord (.committed (.curve token)) rfl
    simp [LedgerState.handler, view, LedgerState.ofRecords, hsame]
  | lpShares token provider =>
    have hsame := hrecord (.committed (.lp token provider)) rfl
    simp [LedgerState.handler, view, LedgerState.ofRecords, hsame]
  | htlc id =>
    have hsame := hrecord (.committed (.htlc id)) rfl
    simp [LedgerState.handler, view, LedgerState.ofRecords, hsame]
  | putAccount | putToken | putContract | putValidator =>
    simp only [LedgerState.handler]
    split <;> rfl
  | _ => rfl

/-- A command that reads inside an area keeps the agreement on it. -/
theorem agreeOn_alike {area : Set Coord} {c : LedgerCommand C} (hreads : c.reads ⊆ area) :
    Program.AnswersAlike handler handler (AgreeOn area) c := by
  rintro L M ⟨hL, hM, hagree⟩
  have hreply := replies_alike hreads hagree
  rcases answers_alike c L L.view ⟨hL, rfl⟩ with ⟨hnone, hview⟩ | ⟨reply, L', s, hexec, hview, hL'⟩
  · rw [hview, Option.map_none] at hreply
    rcases answers_alike c M M.view ⟨hM, rfl⟩ with ⟨hnone', -⟩ | ⟨_, _, _, -, hview', -⟩
    · exact .inl ⟨hnone, hnone'⟩
    · rw [hview'] at hreply
      exact nomatch hreply
  · rw [hview] at hreply
    rcases answers_alike c M M.view ⟨hM, rfl⟩ with ⟨-, hview'⟩ |
      ⟨reply', M', t, hexec', hview', hM'⟩
    · rw [hview'] at hreply
      exact nomatch hreply
    · rw [hview'] at hreply
      obtain rfl : reply = reply' := Option.some.inj hreply
      refine .inr ⟨reply, L', M', hexec, hexec', hL'.1, hM'.1, fun i hi ↦ ?_⟩
      have hupdates : c.updates L.nextTokenId = c.updates M.nextTokenId := by
        cases c with
        | putToken t =>
          have hsame := UInt32.toNat_inj.mp (Sum.inr.inj (hagree .nextTokenId (hreads rfl)))
          rw [hsame]
        | _ => rfl
      rw [congrFun (observe_exec hexec) i, congrFun (observe_exec hexec') i, hupdates]
      exact updated_congr hagree i hi

/-- A program that reads inside an area ends alike where the area looks the same, and leaves it
looking the same. -/
theorem run_agree {α : Type} {area : Set Coord} {program : LedgerM C α}
    (huses : program.Uses fun c : LedgerCommand C ↦ c.reads ⊆ area) (h : AgreeOn area L M) :
    (program.run handler L).1 = (program.run handler M).1 ∧
      AgreeOn area (program.run handler L).2 (program.run handler M).2 :=
  Program.run_related huses (fun _ hreads ↦ agreeOn_alike hreads) h

/-- A program changes nothing outside the area that it writes in. -/
theorem run_frame {α : Type} {area : Set Coord} {program : LedgerM C α}
    (huses : program.Uses fun c : LedgerCommand C ↦ c.changes ⊆ area) (L : Ledger C) {i : Coord}
    (hi : i ∉ area) : observe i (program.run handler L).2 = observe i L :=
  huses.preserving (observe i)
    (fun _ hchanges _ _ _ hexec ↦ observe_exec_of_notMem hexec fun hmem ↦ hi (hchanges hmem)) L

end Ledger

end Latebra.State
