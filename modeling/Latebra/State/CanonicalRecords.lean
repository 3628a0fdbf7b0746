import Latebra.State.DirtyEntries
import Latebra.State.Accesses

/-!
# Canonical records

Every record of a ledger that the node reaches is the encoding of an object, under the key of that
object (`Canonical`): each command writes such records alone, so every run keeps the store in this
form, and nothing else is ever stored. The leaf that an entry has in the commitment is then its
record behind a fixed prefix (`Canonical.leaf_eq`), so that two ledgers with the same leaves have
the same records.

`TickersIndexed` is the matching invariant of the one kind of record that the commitment does not
cover: the index lists the tickers of the tokens and no other, each under its one token.
-/

set_option autoImplicit false
set_option relaxedAutoImplicit false

namespace Latebra.State

open Foundation Crypto Latebra.Types Contracts

variable {C : CryptoSuite}

/-- A record body that the code writes under a key. -/
def CanonicalRecord (C : CryptoSuite) (body : Bytes) : RecordKey → Prop
  | .committed (.account _) => ∃ a : Account C, a.Fits ∧ body = encodeAccount a
  | .committed (.token id) => ∃ t : TokenMeta, t.Fits ∧ t.id = id ∧ body = encodeToken t
  | .committed (.contract _) => ∃ c : Contract, c.Fits ∧ body = encodeContract c
  | .committed (.nullifier _) => body = [1]
  | .committed (.validator _) => ∃ v : Validator, ¬ v.Drained ∧ v.Fits ∧ body = encodeValidator v
  | .committed (.pool token) => ∃ p : Pool, p.lpSupply ≠ 0 ∧ p.token = token ∧ body = encodePool p
  | .committed (.curve token) => ∃ c : CurvePool, c.token = token ∧ body = encodeCurve c
  | .committed (.lp _ _) => ∃ shares : UInt64, shares ≠ 0 ∧ body = u64Le shares
  | .committed (.htlc _) => ∃ h : Htlc, body = encodeHtlc h
  | .committed .metaRecord => ∃ id : UInt32, body = u32Le id
  | .ticker _ => ∃ id : UInt32, body = u32Be id

/-- What may be found at a coordinate: at a record, nothing, or a canonical record under its key. -/
def CanonicalAt (C : CryptoSuite) : Coord → Found → Prop
  | .record bytes, .inl (some body) => ∃ key : RecordKey, bytes = key.bytes ∧ CanonicalRecord C body key
  | _, _ => True

/-- What holds of what was found and of every update holds of what is found then. -/
theorem updated_induction {P : Coord → Found → Prop} {found : Coord → Found}
    {updates : List (Coord × Found)} (hfound : ∀ i, P i (found i))
    (hupdates : ∀ update ∈ updates, P update.1 update.2) (i : Coord) :
    P i (updated found updates i) := by
  unfold updated
  induction updates generalizing found with
  | nil => exact hfound i
  | cons update rest ih =>
    obtain ⟨hfirst, hrest⟩ := List.forall_mem_cons.mp hupdates
    apply ih _ hrest
    intro j
    dsimp only
    by_cases hsame : j = update.1
    · rw [hsame, Function.update_self]
      exact hfirst
    · rw [Function.update_of_ne hsame]
      exact hfound j

/-- A coordinate whose updates all say the same is found so, once there is one. -/
theorem updated_of_forall {found : Coord → Found} {updates : List (Coord × Found)} {i : Coord}
    {x : Found} (hsome : ∃ update ∈ updates, update.1 = i)
    (hall : ∀ update ∈ updates, update.1 = i → update.2 = x) : updated found updates i = x := by
  induction updates generalizing found with
  | nil => simp at hsome
  | cons update rest ih =>
    obtain ⟨hfirst, hrest⟩ := List.forall_mem_cons.mp hall
    show updated (Function.update found update.1 update.2) rest i = x
    by_cases hlater : ∃ later ∈ rest, later.1 = i
    · exact ih hlater hrest
    · have hnone : ∀ later ∈ rest, later.1 ≠ i := fun later hmem heq ↦ hlater ⟨later, hmem, heq⟩
      have hsame : update.1 = i := by
        obtain ⟨found, hmem, heq⟩ := hsome
        rcases List.mem_cons.mp hmem with rfl | hmem
        · exact heq
        · exact absurd heq (hnone found hmem)
      rw [updated_of_notMem hnone, hsame, Function.update_self]
      exact hfirst hsame

namespace Ledger

variable {L L' M : Ledger C}

/-- Every stored record is canonical. -/
def Canonical (L : Ledger C) : Prop := ∀ i, CanonicalAt C i (observe i L)

theorem Canonical.exists_key (hL : L.Canonical) {bytes body : Bytes}
    (hstored : L.objects.get bytes = some body) :
    ∃ key : RecordKey, bytes = key.bytes ∧ CanonicalRecord C body key := by
  have hat := hL (.record bytes)
  simp only [observe, hstored] at hat
  exact hat

theorem Canonical.record (hL : L.Canonical) {key : RecordKey} {body : Bytes}
    (hstored : L.record key = some body) : CanonicalRecord C body key := by
  obtain ⟨other, hkey, hcanonical⟩ := hL.exists_key hstored
  rwa [RecordKey.bytes_injective hkey]

/-- A canonical record under its own key. -/
theorem canonicalAt_record (key : RecordKey) {body : Bytes} (h : CanonicalRecord C body key) :
    CanonicalAt C (.record key.bytes) (.inl (some body)) :=
  ⟨key, rfl, h⟩

/-- A record that is either deleted or canonical. -/
theorem canonicalAt_ite (key : RecordKey) {gone : Prop} [Decidable gone] {body : Bytes}
    (h : ¬ gone → CanonicalRecord C body key) :
    CanonicalAt C (.record key.bytes) (.inl (if gone then none else some body)) := by
  split
  · exact trivial
  · next hpresent => exact canonicalAt_record key (h hpresent)

/-- A command that succeeds writes canonical records alone. -/
theorem canonical_updates {c : LedgerCommand C} {reply : c.Reply}
    (hexec : handler.exec c L = some (reply, L')) (n : UInt32) :
    ∀ update ∈ c.updates n, CanonicalAt C update.1 update.2 := by
  cases c <;> simp only [LedgerCommand.updates, List.mem_cons, List.not_mem_nil, or_false,
    forall_eq_or_imp, forall_eq, IsEmpty.forall_iff, implies_true]
  case putAccount id a =>
    obtain ⟨hfits, -⟩ := Option.ite_none_right_eq_some.mp hexec
    exact canonicalAt_record (.committed (.account id)) ⟨a, hfits, rfl⟩
  case putToken t =>
    obtain ⟨hfits, -⟩ := Option.ite_none_right_eq_some.mp hexec
    refine ⟨?_, ?_, ?_⟩
    · exact canonicalAt_record (.committed (.token t.id)) ⟨t, hfits, rfl, rfl⟩
    · exact canonicalAt_record (.ticker t.ticker) ⟨t.id, rfl⟩
    · exact canonicalAt_record (.committed .metaRecord) ⟨n, rfl⟩
  case putContract id contract =>
    obtain ⟨hfits, -⟩ := Option.ite_none_right_eq_some.mp hexec
    exact canonicalAt_record (.committed (.contract id)) ⟨contract, hfits, rfl⟩
  case putValidator id v =>
    apply canonicalAt_ite (.committed (.validator id))
    intro hdrained
    have hwritten : (if v.Drained then _ else if v.Fits then _ else none) = some (reply, L') := hexec
    rw [if_neg hdrained] at hwritten
    exact ⟨v, hdrained, (Option.ite_none_right_eq_some.mp hwritten).1, rfl⟩
  case putPool p =>
    exact canonicalAt_ite (.committed (.pool p.token)) fun hpos ↦ ⟨p, hpos, rfl, rfl⟩
  case putLp token provider shares =>
    exact canonicalAt_ite (.committed (.lp token provider)) fun hpos ↦ ⟨shares, hpos, rfl⟩
  case insertNullifier nf => exact canonicalAt_record (.committed (.nullifier nf)) rfl
  case putCurve curve =>
    exact canonicalAt_record (.committed (.curve curve.token)) ⟨curve, rfl, rfl⟩
  case putHtlc id h => exact canonicalAt_record (.committed (.htlc id)) ⟨h, rfl⟩
  case deleteHtlc | mark | setNextTokenId => exact trivial

theorem Canonical.exec (hL : L.Canonical) {c : LedgerCommand C} {reply : c.Reply}
    (hexec : handler.exec c L = some (reply, L')) : L'.Canonical := by
  intro i
  rw [congrFun (observe_exec hexec) i]
  exact updated_induction hL (canonical_updates hexec L.nextTokenId) i

/-- Every program keeps the records canonical, whether it succeeds or fails. -/
theorem Canonical.run (hL : L.Canonical) {α : Type} (program : LedgerM C α) :
    (program.run handler L).2.Canonical := by
  have halike : ∀ c : LedgerCommand C, Program.AnswersAlike handler handler
      (fun M N : Ledger C ↦ M = N ∧ M.Canonical) c := by
    rintro c M N ⟨rfl, hM⟩
    cases hexec : handler.exec c M with
    | none => exact .inl ⟨rfl, rfl⟩
    | some answer => exact .inr ⟨answer.1, answer.2, answer.2, rfl, rfl, rfl, hM.exec hexec⟩
  have hrun := Program.run_related program.uses_true (fun c _ ↦ halike c) ⟨rfl, hL⟩
  exact hrun.2.2

theorem Canonical.of_objects (hL : L.Canonical)
    (hobjects : ∀ bytes, L'.objects.get bytes = L.objects.get bytes) : L'.Canonical := by
  intro i
  cases i with
  | record bytes =>
    have hat := hL (.record bytes)
    simp only [observe] at hat ⊢
    rwa [hobjects bytes]
  | _ => exact trivial

theorem canonical_new : (new : Ledger C).Canonical := by
  intro i
  cases i with
  | record bytes =>
    have hnone : (new : Ledger C).objects.get bytes = none := by
      rw [← OverlayMap.lookup_merged, new, withStore, OverlayMap.merged_new, FMap.lookup_empty]
    simp only [observe, hnone]
    exact trivial
  | _ => exact trivial

theorem Canonical.markAll (hL : L.Canonical) (keys : List DirtyKey) : (L.markAll keys).Canonical := by
  unfold Ledger.markAll
  induction keys generalizing L with
  | nil => exact hL
  | cons key rest ih => exact ih (hL.of_objects fun _ ↦ rfl)

theorem Canonical.settled {outcome : Outcome LedgerError Unit × Ledger C}
    (hL : outcome.2.Canonical) (hsettled : Ledger.settled outcome = some L') : L'.Canonical := by
  rcases outcome with ⟨_ | _ | _, M⟩ <;> simp only [Ledger.settled, Option.some.injEq, reduceCtorEq]
    at hsettled <;> exact hsettled ▸ hL

/-- One operation of the node keeps the records canonical. -/
theorem Canonical.step (hL : L.Canonical) (hformed : L.WellFormed) {op : LedgerOp C}
    (hstep : L.step op = some L') : L'.Canonical := by
  cases op with
  | applyAt tx height =>
    apply Canonical.settled _ hstep
    have hrun := hL.run (applyInner tx height none)
    unfold applyAt applyAtWith
    rcases hend : (applyInner tx height none).run handler L with ⟨_ | _ | _, M⟩ <;>
      rw [hend] at hrun
    · exact Canonical.markAll hrun _
    · exact hrun
    · exact hrun
  | register id => exact (hL.run (LedgerM.register id)).settled hstep
  | creditPublic id token amount => exact (hL.run (LedgerM.creditPublic id token amount)).settled hstep
  | creditGenesis id amount => exact (hL.run (LedgerM.creditGenesis id amount)).settled hstep
  | rewardMiner miner token amount =>
    exact (hL.run (LedgerM.rewardMiner miner token amount)).settled hstep
  | flush =>
    obtain rfl := Option.some.inj hstep
    exact hL.of_objects fun bytes ↦ by
      rw [← OverlayMap.lookup_merged, ← OverlayMap.lookup_merged, flush, OverlayMap.merged_flush]
  | clone =>
    obtain rfl := Option.some.inj hstep
    exact hL.of_objects fun _ ↦ rfl
  | stateRoot =>
    obtain ⟨⟨root, M⟩, hrun, rfl⟩ := Option.map_eq_some_iff.mp hstep
    have hobjects : M.objects = L.objects :=
      (congrArg Ledger.objects (hformed.stateRoot hrun).2.2 :)
    apply hL.of_objects
    intro bytes
    rw [hobjects]

/-- Every record of a ledger that the node reaches is canonical. -/
theorem Reachable.canonical (hL : L.Reachable) : L.Canonical := by
  induction hL with
  | refl => exact canonical_new
  | step op hbefore _ hstep ih =>
    have hformed := (ReachesBy.reachable hbefore .refl).view.1
    exact ih.step hformed hstep

/-! ### Leaves -/

/-- The bytes that stand in front of a record in its leaf. -/
def leafPrefix : DirtyKey → Bytes
  | .account id => ascii "LAT-state-acct" ++ bytesOf32 id
  | .token _ => ascii "LAT-state-token"
  | .contract id => ascii "LAT-state-contract" ++ bytesOf32 id
  | .validator id => ascii "LAT-state-val" ++ bytesOf32 id
  | .pool _ => ascii "LAT-state-pool"
  | .curve _ => ascii "LAT-state-curve"
  | .lp token provider => ascii "LAT-state-lp" ++ u32Le token ++ bytesOf32 provider
  | .htlc id => ascii "LAT-state-htlc" ++ bytesOf32 id
  | .nullifier _ | .metaRecord => []

/-- The leaf of an entry is its record behind a fixed prefix. -/
theorem Canonical.leaf_eq (hL : L.Canonical) {key : DirtyKey} (hkey : key ≠ .metaRecord) :
    L.view.leaf key = (L.record (.committed key)).map (leafPrefix key ++ ·) := by
  cases hstored : L.record (.committed key) with
  | none => cases key <;> simp_all [view, LedgerState.ofRecords, LedgerState.leaf]
  | some body =>
    have hcanonical := hL.record hstored
    cases key with
    | account id =>
      obtain ⟨a, hfits, rfl⟩ := hcanonical
      have hpreimage : accountLeafPreimage id a = leafPrefix (.account id) ++ encodeAccount a := by
        simp [accountLeafPreimage, leafPrefix, encodeAccount]
      simp [view, LedgerState.ofRecords, LedgerState.leaf, hstored, decodeAccount_encodeAccount hfits,
        hpreimage]
    | token id =>
      obtain ⟨t, hfits, -, rfl⟩ := hcanonical
      have hpreimage : tokenLeafPreimage t = leafPrefix (.token id) ++ encodeToken t := by
        simp [tokenLeafPreimage, leafPrefix, encodeToken]
      simp [view, LedgerState.ofRecords, LedgerState.leaf, hstored, decodeToken_encodeToken hfits,
        hpreimage]
    | contract id =>
      obtain ⟨c, hfits, rfl⟩ := hcanonical
      have hpreimage : contractLeafPreimage id c = leafPrefix (.contract id) ++ encodeContract c := by
        simp [contractLeafPreimage, leafPrefix, encodeContract]
      simp [view, LedgerState.ofRecords, LedgerState.leaf, hstored, decodeContract_encodeContract hfits,
        hpreimage]
    | nullifier nf =>
      obtain rfl := hcanonical
      simp [view, LedgerState.ofRecords, LedgerState.leaf, hstored, leafPrefix]
    | validator id =>
      obtain ⟨v, -, hfits, rfl⟩ := hcanonical
      simp [view, LedgerState.ofRecords, LedgerState.leaf, hstored,
        decodeValidator_encodeValidator hfits, validatorLeafPreimage, leafPrefix]
    | pool token =>
      obtain ⟨p, -, -, rfl⟩ := hcanonical
      simp [view, LedgerState.ofRecords, LedgerState.leaf, hstored, decodePool_encodePool,
        poolLeafPreimage, leafPrefix]
    | curve token =>
      obtain ⟨c, -, rfl⟩ := hcanonical
      simp [view, LedgerState.ofRecords, LedgerState.leaf, hstored, decodeCurve_encodeCurve,
        curveLeafPreimage, leafPrefix]
    | lp token provider =>
      obtain ⟨shares, hpos, rfl⟩ := hcanonical
      simp [view, LedgerState.ofRecords, LedgerState.leaf, hstored, u64OfLe_u64Le, lpLeafPreimage,
        leafPrefix, UInt64.pos_iff_ne_zero.mpr hpos]
    | htlc id =>
      obtain ⟨h, rfl⟩ := hcanonical
      simp [view, LedgerState.ofRecords, LedgerState.leaf, hstored, decodeHtlc_encodeHtlc,
        htlcLeafPreimage, leafPrefix]
    | metaRecord => exact absurd rfl hkey

/-- Ledgers with the same leaves have the same committed records. -/
theorem Canonical.record_eq_of_leaf_eq (hL : L.Canonical) (hM : M.Canonical) {key : DirtyKey}
    (hkey : key ≠ .metaRecord) (hleaf : M.view.leaf key = L.view.leaf key) :
    M.record (.committed key) = L.record (.committed key) := by
  rw [hM.leaf_eq hkey, hL.leaf_eq hkey] at hleaf
  exact Option.map_injective (List.append_right_injective (leafPrefix key)) hleaf

end Ledger

/-! ### The ticker index -/

namespace LedgerState

variable {s s' : LedgerState C}

/-- The tokens stand under their own ids, below the next one, the index lists each ticker of a token
under that token and no other, and the stored copy of the next token id is right. -/
structure TickersIndexed (s : LedgerState C) : Prop where
  keyed : ∀ id t, s.token id = some t → t.id = id ∧ id.toNat < s.nextTokenId.toNat
  indexed : ∀ name body, s.ticker name = some body ↔
    ∃ id t, s.token id = some t ∧ t.ticker = name ∧ body = u32Be id
  metaCopy : ∀ id, s.metaRecord = some id → id = s.nextTokenId

/-- The invariant reads only the slice of the tokens. -/
theorem TickersIndexed.of_slice (hs : s.TickersIndexed) (hslice : s'.slice .token = s.slice .token) :
    s'.TickersIndexed := by
  have hnext : s'.nextTokenId = s.nextTokenId := (congrArg LedgerState.nextTokenId hslice :)
  have htoken : s'.token = s.token := (congrArg LedgerState.token hslice :)
  have hticker : s'.ticker = s.ticker := (congrArg LedgerState.ticker hslice :)
  have hmeta : s'.metaRecord = s.metaRecord := (congrArg LedgerState.metaRecord hslice :)
  constructor
  · rw [htoken, hnext]
    exact hs.keyed
  · rw [hticker, htoken]
    exact hs.indexed
  · rw [hmeta, hnext]
    exact hs.metaCopy

theorem tickersIndexed_new : (new : LedgerState C).TickersIndexed := by
  constructor <;> simp [new]

/-- A token is created under a fresh id and a fresh ticker. -/
theorem TickersIndexed.createToken (hs : s.TickersIndexed) {norm : Text} {creator : Bytes32}
    {supply : UInt64} (hfree : s.ticker norm = none) (hbound : s.nextTokenId.toNat + 1 < 2 ^ 32) :
    ((s.setNextTokenId (s.nextTokenId + 1)).setToken
      ⟨s.nextTokenId, norm, creator, supply⟩).TickersIndexed := by
  have hnext : (s.nextTokenId + 1).toNat = s.nextTokenId.toNat + 1 := by
    rw [UInt32.toNat_add, UInt32.toNat_one]
    exact Nat.mod_eq_of_lt hbound
  have hnone : s.token s.nextTokenId = none := by
    by_contra hsome
    obtain ⟨t, ht⟩ := Option.ne_none_iff_exists'.mp hsome
    exact absurd (hs.keyed _ t ht).2 (lt_irrefl _)
  constructor
  · intro id t ht
    simp only [setToken_token, setNextTokenId_token, Function.update_apply] at ht
    show t.id = id ∧ id.toNat < (s.nextTokenId + 1).toNat
    split at ht
    · next heq =>
      rw [← Option.some.inj ht, heq]
      exact ⟨rfl, by omega⟩
    · obtain ⟨hid, hlow⟩ := hs.keyed id t ht
      exact ⟨hid, by omega⟩
  · intro name body
    simp only [setToken_token, setToken_ticker, setNextTokenId_token, setNextTokenId_ticker]
    by_cases hname : name = norm
    · rw [hname, Function.update_self]
      constructor
      · intro hbody
        refine ⟨s.nextTokenId, _, Function.update_self .., rfl, (Option.some.inj hbody).symm⟩
      · rintro ⟨id, t, ht, hticker, rfl⟩
        rw [Function.update_apply] at ht
        split at ht
        · next heq => rw [heq]
        · have htaken := (hs.indexed norm _).mpr ⟨id, t, ht, hticker, rfl⟩
          rw [hfree] at htaken
          exact absurd htaken (by simp)
    · rw [Function.update_of_ne hname, hs.indexed name body]
      apply exists_congr
      intro id
      by_cases hid : id = s.nextTokenId
      · rw [hid, Function.update_self, hnone]
        simp [Ne.symm hname]
      · rw [Function.update_of_ne hid]
  · intro id hid
    exact (Option.some.inj hid).symm

theorem Step.tickersIndexed (hstep : Step s s') (hs : s.TickersIndexed) : s'.TickersIndexed := by
  cases hstep with
  | register id hrun =>
    obtain ⟨-, rfl⟩ := register_outcome hrun
    exact hs.of_slice rfl
  | creditPublic id token amount hrun =>
    rw [creditPublic_outcome hrun, credited]
    split <;> exact hs.of_slice rfl
  | rewardMiner miner token amount hrun =>
    rw [rewardMiner_outcome hrun, rewarded]
    split <;> exact hs.of_slice rfl
  | creditGenesis id amount hrun =>
    obtain ⟨_, -, rfl⟩ := creditGenesis_outcome hrun
    exact hs.of_slice rfl
  | apply tx height hrun =>
    cases tx with
    | createToken ticker creator supply sig =>
      obtain ⟨norm, acct, next, -, -, hfree, -, -, hbound, rfl, rfl⟩ :=
        applyCreateToken_outcome hrun
      exact (hs.createToken hfree hbound).of_slice rfl
    | _ =>
      have hsame : slice .token _ = s.slice .token := Runs.slice_eq hrun (by simp [writesOf])
      exact hs.of_slice hsame
  | commit => exact hs.of_slice rfl

/-- In every reachable state the ticker index is that of the tokens. -/
theorem Reachable.tickersIndexed (hs : Reachable s) : s.TickersIndexed := by
  induction hs with
  | new => exact tickersIndexed_new
  | step _ hstep ih => exact hstep.tickersIndexed ih

end LedgerState

end Latebra.State
