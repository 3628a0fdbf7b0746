import Latebra.State.Backing
import Latebra.State.LaneSteps

/-!
# Parallel application is sequential application

Transactions that name no account in common commute, and may as well be run apart. `Schedule.Placed` is what the earliest-wave schedule keeps: every wave is made of such
transactions, and every transaction comes in a wave after the waves of all earlier ones that it
shares an account with. Hence the waves are the run in another order, the chunks of a wave are the
wave (`alike_executeWave`), and the lanes are the block (`alike_applyBlockParallel`).

Evidence that a proof was verified beforehand never changes what a transaction does
(`applyInner_of_evidence`): it is used where the same verification would succeed, and nowhere else.
-/

set_option autoImplicit false
set_option relaxedAutoImplicit false

namespace Latebra.State

open Foundation Crypto Latebra.Types

variable {C : CryptoSuite}

/-! ### The schedule -/

namespace Schedule

theorem le_foldl_max {words : List ℕ} {start word : ℕ} (hword : word ∈ start :: words) :
    word ≤ words.foldl max start := by
  induction words generalizing start word with
  | nil => exact (List.mem_singleton.mp hword).le
  | cons first rest ih =>
    have hmax : max start first ≤ rest.foldl max (max start first) := ih List.mem_cons_self
    rcases List.mem_cons.mp hword with rfl | hrest
    · exact (le_max_left _ _).trans hmax
    · rcases List.mem_cons.mp hrest with rfl | hlater
      · exact (le_max_right _ _).trans hmax
      · exact ih (List.mem_cons_of_mem _ hlater)

theorem foldl_max_le {words : List ℕ} {start bound : ℕ} (hstart : start ≤ bound)
    (hwords : ∀ word ∈ words, word ≤ bound) : words.foldl max start ≤ bound := by
  induction words generalizing start with
  | nil => exact hstart
  | cons first rest ih =>
    exact ih (max_le hstart (hwords first List.mem_cons_self)) fun word hword ↦
      hwords word (List.mem_cons_of_mem _ hword)

theorem next_le_waveFor (schedule : Schedule) {set : List Bytes32} {id : Bytes32} (hid : id ∈ set) :
    schedule.next id ≤ schedule.waveFor set :=
  le_foldl_max (List.mem_cons_of_mem _ (List.mem_map_of_mem hid))

theorem lookup_insertAll (set : List Bytes32) (map : FMap Bytes32 ℕ) (wave : ℕ) (id : Bytes32) :
    (set.foldl (fun map id ↦ map.insert id wave) map)[id]? =
      if id ∈ set then some wave else map[id]? := by
  induction set generalizing map with
  | nil => rfl
  | cons first rest ih =>
    rw [List.foldl_cons, ih, FMap.lookup_insert]
    by_cases hrest : id ∈ rest <;> by_cases hfirst : id = first <;> simp [hrest, hfirst]

theorem next_place (schedule : Schedule) (k : ℕ) (set : List Bytes32) (id : Bytes32) :
    (schedule.place k set).next id =
      if id ∈ set then schedule.waveFor set + 1 else schedule.next id := by
  unfold next place
  rw [lookup_insertAll]
  split <;> rfl

/-- A schedule of transactions that touch some accounts: the waves of an account come before its
next one, and the transactions of a wave touch no account in common. -/
structure Placed (touch : ℕ → List Bytes32) (schedule : Schedule) : Prop where
  next_le : ∀ id, schedule.next id ≤ schedule.waves.length
  below : ∀ w wave, schedule.waves[w]? = some wave → ∀ j ∈ wave, ∀ id ∈ touch j,
    w < schedule.next id
  apart : ∀ wave ∈ schedule.waves, wave.Pairwise fun j k ↦ (touch j).Disjoint (touch k)

/-- Put a list of transactions into a schedule, one after the other. -/
def placeAll (schedule : Schedule) (list : List (List Bytes32 × ℕ)) : Schedule :=
  list.foldl (fun schedule item ↦ schedule.place item.2 item.1) schedule

variable {touch : ℕ → List Bytes32} {schedule : Schedule}

theorem placed_empty : Placed touch empty where
  next_le id := by simp [next, empty]
  below w wave hwave := by simp [empty] at hwave
  apart wave hwave := nomatch hwave

/-- One more transaction: it comes last in its wave, and the later waves share no account with
it. -/
theorem Placed.place (h : Placed touch schedule) (k : ℕ) :
    Placed touch (schedule.place k (touch k)) ∧ ∃ before after,
      schedule.waves.flatten = before ++ after ∧
      (schedule.place k (touch k)).waves.flatten = before ++ ([k] ++ after) ∧
      ∀ j ∈ after, (touch k).Disjoint (touch j) := by
  set w := schedule.waveFor (touch k) with hw
  -- The waves with room for the transaction.
  obtain ⟨waves, hwaves⟩ : ∃ waves, waves =
    if w = schedule.waves.length then schedule.waves ++ [[]] else schedule.waves := ⟨_, rfl⟩
  have hbound : w ≤ schedule.waves.length := by
    refine foldl_max_le (Nat.zero_le _) fun word hword ↦ ?_
    obtain ⟨id, -, rfl⟩ := List.mem_map.mp hword
    exact h.next_le id
  have hroom : w < waves.length := by
    rw [hwaves]
    split
    · next heq => simp [heq]
    · next hne => exact lt_of_le_of_ne hbound hne
  have hlonger : schedule.waves.length ≤ waves.length := by
    rw [hwaves]
    split <;> simp
  have hflatten : waves.flatten = schedule.waves.flatten := by
    rw [hwaves]
    split <;> simp
  have hold : ∀ (v : ℕ) (wave : List ℕ), waves[v]? = some wave → ∀ j ∈ wave,
      schedule.waves[v]? = some wave := by
    intro v wave hwave j hj
    rw [hwaves] at hwave
    split at hwave
    · rw [List.getElem?_append] at hwave
      split at hwave
      · exact hwave
      · rw [List.mem_singleton.mp (List.mem_of_getElem? hwave)] at hj
        exact absurd hj List.not_mem_nil
    · exact hwave
  have hbelow : ∀ (v : ℕ) (wave : List ℕ), waves[v]? = some wave → ∀ j ∈ wave, ∀ id ∈ touch j,
      v < schedule.next id := fun v wave hwave j hj ↦ h.below v wave (hold v wave hwave j hj) j hj
  -- A transaction that shares an account with the new one is in a wave before it.
  have hshared : ∀ (v : ℕ) (wave : List ℕ), waves[v]? = some wave → w ≤ v → ∀ j ∈ wave,
      (touch k).Disjoint (touch j) := by
    intro v wave hwave hv j hj id hid hother
    have hlate := hbelow v wave hwave j hj id hother
    have hearly := schedule.next_le_waveFor hid
    rw [← hw] at hearly
    omega
  have hplaced : (schedule.place k (touch k)).waves = waves.modify w fun wave ↦ wave ++ [k] := by
    rw [hwaves]
    rfl
  refine ⟨⟨fun id ↦ ?_, fun v wave hwave j hj id hid ↦ ?_, fun wave hwave ↦ ?_⟩, ?_⟩
  · rw [next_place, hplaced, List.length_modify]
    split
    · exact hroom
    · exact (h.next_le id).trans hlonger
  · rw [hplaced, List.getElem?_modify] at hwave
    obtain ⟨wave', hwave', heq⟩ := Option.map_eq_some_iff.mp hwave
    rw [next_place]
    by_cases hmem : j ∈ wave'
    · have hlate := hbelow v wave' hwave' j hmem id hid
      split
      · next hset =>
        have hearly := schedule.next_le_waveFor hset
        omega
      · exact hlate
    · split at heq
      · next hv =>
        rw [← heq] at hj
        have hk : j = k := by simpa [hmem] using hj
        rw [if_pos (hk ▸ hid), ← hv, hw]
        exact Nat.lt_succ_self _
      · exact absurd (heq ▸ hj) hmem
  · rw [hplaced] at hwave
    obtain ⟨v, hv⟩ := List.mem_iff_getElem?.mp hwave
    rw [List.getElem?_modify] at hv
    obtain ⟨wave', hwave', heq⟩ := Option.map_eq_some_iff.mp hv
    have hpairwise : wave'.Pairwise fun j k ↦ (touch j).Disjoint (touch k) := by
      cases wave' with
      | nil => exact List.Pairwise.nil
      | cons j rest =>
        exact h.apart _ (List.mem_of_getElem? (hold v _ hwave' j List.mem_cons_self))
    split at heq
    · next hsame =>
      rw [← heq, List.pairwise_append]
      refine ⟨hpairwise, List.pairwise_singleton _ _, fun j hj k' hk' ↦ ?_⟩
      rw [List.mem_singleton.mp hk']
      exact (hshared v wave' hwave' hsame.le j hj).symm
    · rw [← heq]
      exact hpairwise
  · refine ⟨(waves.take w).flatten ++ waves[w], (waves.drop (w + 1)).flatten, ?_, ?_, ?_⟩
    · rw [← hflatten, List.append_assoc, ← List.flatten_cons, List.getElem_cons_drop,
        ← List.flatten_append, List.take_append_drop]
    · rw [hplaced, List.modify_eq_take_cons_drop hroom]
      simp
    · intro j hj
      obtain ⟨wave, hwave, hmem⟩ := List.mem_flatten.mp hj
      obtain ⟨v, hv⟩ := List.mem_iff_getElem?.mp hwave
      rw [List.getElem?_drop] at hv
      exact hshared _ wave hv (by omega) j hmem

end Schedule

namespace Ledger

open LedgerState (Runs)

variable {L L' V V' : Ledger C} {height : UInt64}

/-- Apply the transactions of a list of lane entries. -/
abbrev applyEntries (height : UInt64) : List (LaneTx C) → Ledger C → Option (Ledger C) :=
  runAll fun entry ↦ applyTx height entry.tx

/-- Lane entries with the access sets of their transactions. -/
def Declared (entries : List (LaneTx C)) : Prop :=
  ∀ entry ∈ entries, accessSet entry.tx = some entry.set

theorem Declared.local {entries : List (LaneTx C)} (h : Declared entries) :
    ∀ entry ∈ entries,
      Local observe WellFormed (accountArea entry.set) (applyTx height entry.tx) := by
  intro entry hentry
  have hlocal := local_applyTx height entry.tx
  rwa [areaOf, h entry hentry] at hlocal

/-! ### Workers -/

/-- A list of chunks is the list that was cut. -/
theorem flatten_toChunks {α : Type} (n : ℕ) (list : List α) :
    (list.toChunks n).flatten = list := by
  have hgo : ∀ (n : ℕ) (rest : List α) (chunk : Array α) (chunks : Array (List α)),
      (List.toChunks.go n rest chunk chunks).flatten =
        chunks.toList.flatten ++ chunk.toList ++ rest := by
    intro n rest
    induction rest with
    | nil => simp [List.toChunks.go]
    | cons entry rest ih =>
      intro chunk chunks
      rw [List.toChunks.go]
      split <;> simp [ih]
  cases list with
  | nil => simp [List.toChunks]
  | cons entry rest =>
    cases n with
    | zero => simp [List.toChunks]
    | succ n => simp [List.toChunks, hgo]

/-- What a worker hands back: the records of the accounts that its chunk may touch. -/
def handBack (V : Ledger C) (touched : List Bytes32) : List (Bytes32 × Bytes) :=
  touched.dedup.filterMap fun id ↦ (V.accountRecord id).map fun body ↦ (id, body)

theorem mem_handBack {touched : List Bytes32} {id : Bytes32} {body : Bytes} :
    (id, body) ∈ V.handBack touched ↔ id ∈ touched ∧ V.accountRecord id = some body := by
  simp [handBack, and_comm]

/-- A worker succeeds exactly when the transactions of its chunk do, one after the other. -/
theorem runChunk_eq (height : UInt64) (V : Ledger C) (chunk : List (LaneTx C)) (touched : List Bytes32) :
    (∃ V', applyEntries height chunk V = some V' ∧
      runChunk height V chunk touched = .ok (V'.handBack (touched ++ chunk.flatMap LaneTx.set))) ∨
      applyEntries height chunk V = none ∧ ∀ records, runChunk height V chunk touched ≠ .ok records := by
  induction chunk generalizing V touched with
  | nil =>
    refine .inl ⟨V, rfl, ?_⟩
    simp [runChunk, handBack]
  | cons entry rest ih =>
    unfold runChunk
    rcases hrun : V.applyAt entry.tx height with ⟨_ | e | _, V₁⟩
    · have hstep : applyTx height entry.tx V = some V₁ := applyTx_eq_some.mpr hrun
      rcases ih V₁ (touched ++ entry.set) with ⟨V', hrest, hchunk⟩ | ⟨hrest, hchunk⟩
      · refine .inl ⟨V', ?_, ?_⟩
        · rw [applyEntries, runAll_cons, hstep]
          exact hrest
        · dsimp only
          rw [hchunk, List.flatMap_cons, List.append_assoc]
      · refine .inr ⟨?_, hchunk⟩
        rw [applyEntries, runAll_cons, hstep]
        exact hrest
    all_goals
      refine .inr ⟨?_, nofun⟩
      have hstep : applyTx height entry.tx V = none := by
        rw [applyTx, Transition.after, hrun]
      rw [applyEntries, runAll_cons, hstep]
      rfl

/-- The records and the flags of the accounts of a chunk, after the chunk. -/
theorem touched_of_runAll {chunk : List (LaneTx C)} (hdeclared : Declared chunk)
    (hapart : chunk.Pairwise fun entry later ↦ entry.set.Disjoint later.set) (hV : V.WellFormed)
    (hrun : applyEntries height chunk V = some V') :
    ∀ id ∈ chunk.flatMap LaneTx.set,
      (V'.accountRecord id).isSome ∧ .account id ∈ V'.dirty := by
  induction chunk generalizing V with
  | nil => exact fun id hid ↦ absurd hid List.not_mem_nil
  | cons entry rest ih =>
    rw [List.pairwise_cons] at hapart
    have hset := hdeclared entry List.mem_cons_self
    have hrestDeclared : Declared rest :=
      fun later hlater ↦ hdeclared later (List.mem_cons_of_mem _ hlater)
    rw [applyEntries, runAll_cons] at hrun
    obtain ⟨V₁, hstep, hrest⟩ := Option.bind_eq_some_iff.mp hrun
    have hV₁ := (local_applyTx height entry.tx).keeps hV hstep
    intro id hid
    rcases List.mem_append.mp (List.flatMap_cons ▸ hid) with hfirst | hlater
    · obtain ⟨hrecord, hflag⟩ := touched_applyTx hset hV hstep id hfirst
      -- The rest of the chunk does not touch the account.
      have hframe : ∀ i ∈ accountArea [id], observe i V' = observe i V₁ := by
        intro i hi
        refine (Local.runAll hrestDeclared.local).frame hV₁ hrest i ?_
        rintro ⟨later, hlater, hmem⟩
        have hdisjoint : [id].Disjoint later.set :=
          List.singleton_disjoint.mpr fun hshared ↦ hapart.1 later hlater hfirst hshared
        exact Set.disjoint_left.mp (disjoint_accountArea hdisjoint) hi hmem
      have hsame : V'.accountRecord id = V₁.accountRecord id :=
        record_eq_of_observe (hframe _ (object_mem_accountArea.mpr List.mem_cons_self))
      have hflags := Sum.inr.inj (hframe _ (flag_mem_accountArea.mpr List.mem_cons_self))
      rw [if_pos hflag] at hflags
      refine ⟨by rwa [hsame], ?_⟩
      by_contra hclean
      rw [if_neg hclean] at hflags
      exact nomatch hflags
    · exact ih hrestDeclared hapart.2 hV₁ hrest id hlater

/-! ### Records written back -/

theorem observe_adoptAccountRecord (id : Bytes32) (body : Bytes) :
    (fun i ↦ observe i (L.adoptAccountRecord id body)) =
      updated (fun i ↦ observe i L)
        [(.object (.account id), .inl (some body)), (.flag (.account id), .inr 1)] := by
  have hput : (fun i ↦ observe i { L.putRecord (.committed (.account id)) body with
      cache := L.cache.erase id }) = fun i ↦ observe i (L.putRecord (.committed (.account id)) body) := by
    funext i
    cases i <;> rfl
  rw [adoptAccountRecord, observe_mark, hput, observe_putRecord]
  rfl

theorem WellFormed.adoptAccountRecord (hL : L.WellFormed) (id : Bytes32) {body : Bytes}
    (hbody : (decodeAccount C body).isSome) : (L.adoptAccountRecord id body).WellFormed where
  records key found hfound := by
    change (L.putRecord (.committed (.account id)) body).record key = some found at hfound
    rw [record_putRecord, Function.update_apply] at hfound
    split at hfound
    · next heq =>
      rw [heq, ← Option.some.inj hfound]
      exact hbody
    · exact hL.records key found hfound
  cache other found hfound := by
    change (L.cache.erase id)[other]? = some found at hfound
    rw [FMap.lookup_erase] at hfound
    split at hfound
    · exact nomatch hfound
    · next hne =>
      have hkey : RecordKey.committed (.account other) ≠ .committed (.account id) := by
        intro heq
        exact hne (DirtyKey.account.inj (RecordKey.committed.inj heq))
      change ((L.putRecord (.committed (.account id)) body).record _).bind _ = _
      rw [record_putRecord, Function.update_of_ne hkey]
      exact hL.cache other found hfound

/-- Account records written back, all of them what a certain ledger has. -/
theorem adoptAll_spec {records : List (Bytes32 × Bytes)} {M : Ledger C} (hM : M.WellFormed)
    (hrecords : ∀ entry ∈ records,
      M.accountRecord entry.1 = some entry.2 ∧ .account entry.1 ∈ M.dirty) (hL : L.WellFormed) :
    (records.foldl (fun L entry ↦ L.adoptAccountRecord entry.1 entry.2) L).WellFormed ∧
      ∀ i, observe i (records.foldl (fun L entry ↦ L.adoptAccountRecord entry.1 entry.2) L) =
        observe i M ∨ i ∉ accountArea (records.map Prod.fst) ∧
          observe i (records.foldl (fun L entry ↦ L.adoptAccountRecord entry.1 entry.2) L) =
            observe i L := by
  induction records generalizing L with
  | nil =>
    refine ⟨hL, fun i ↦ .inr ⟨?_, rfl⟩⟩
    rintro ⟨id, hid, -⟩
    exact absurd hid List.not_mem_nil
  | cons entry rest ih =>
    obtain ⟨hrecord, hflag⟩ := hrecords entry List.mem_cons_self
    have hdecodes : (decodeAccount C entry.2).isSome := hM.records _ _ hrecord
    obtain ⟨hformed, hobserve⟩ := ih
      (fun later hlater ↦ hrecords later (List.mem_cons_of_mem _ hlater))
      (hL.adoptAccountRecord entry.1 hdecodes)
    refine ⟨hformed, fun i ↦ ?_⟩
    rw [List.foldl_cons]
    rcases hobserve i with hsame | ⟨hlater, hbefore⟩
    · exact .inl hsame
    rw [hbefore, congrFun (observe_adoptAccountRecord entry.1 entry.2) i]
    by_cases hfirst : i ∈ accountArea [entry.1]
    · left
      obtain ⟨id, hid, hi⟩ := hfirst
      obtain rfl := List.mem_singleton.mp hid
      rcases hi with rfl | rfl
      · have hother : Coord.object (.account entry.1) ≠ .flag (.account entry.1) := nofun
        simp only [updated, List.foldl_cons, List.foldl_nil]
        rw [Function.update_of_ne hother, Function.update_self]
        exact congrArg Sum.inl hrecord.symm
      · simp only [updated, List.foldl_cons, List.foldl_nil, Function.update_self, observe, hflag,
          if_true]
    · right
      constructor
      · rintro ⟨id, hid, hi⟩
        rcases List.mem_cons.mp hid with rfl | hid
        · exact hfirst ⟨entry.1, List.mem_cons_self, hi⟩
        · exact hlater ⟨id, hid, hi⟩
      · refine updated_of_notMem fun update hupdate heq ↦ hfirst ?_
        simp only [List.mem_cons, List.not_mem_nil, or_false] at hupdate
        rcases hupdate with rfl | rfl
        · exact heq ▸ object_mem_accountArea.mpr List.mem_cons_self
        · exact heq ▸ flag_mem_accountArea.mpr List.mem_cons_self

/-! ### Waves -/

theorem disjoint_footprint {chunk later : List (LaneTx C)}
    (h : ∀ entry ∈ chunk, ∀ entry' ∈ later, entry.set.Disjoint entry'.set) :
    Disjoint (footprintOf (fun entry : LaneTx C ↦ accountArea entry.set) chunk)
      (footprintOf (fun entry : LaneTx C ↦ accountArea entry.set) later) := by
  rw [Set.disjoint_left]
  rintro i ⟨entry, hentry, hi⟩ ⟨entry', hentry', hi'⟩
  exact Set.disjoint_left.mp (disjoint_accountArea (h entry hentry entry' hentry')) hi hi'

theorem firstError_eq_none {results : List (Outcome (ℕ × LedgerError) (List (Bytes32 × Bytes)))} :
    firstError results = none ↔ ∀ failed, .err failed ∉ results := by
  induction results using List.reverseRecOn with
  | nil => simp [firstError]
  | append_singleton rest result ih =>
    unfold firstError at ih ⊢
    rw [List.foldl_concat]
    cases result with
    | err failed =>
      refine iff_of_false (fun hnone ↦ ?_) fun hnone ↦ hnone failed (by simp)
      split at hnone
      · exact nomatch hnone
      · split at hnone <;> exact nomatch hnone
      · next hfirst hlater => exact hfirst failed rfl hnone
    | ok records => simpa using ih
    | panicked => simpa using ih

/-- No worker panicked or failed. -/
theorem all_ok_iff {results : List (Outcome (ℕ × LedgerError) (List (Bytes32 × Bytes)))} :
    (results.any isPanic = false ∧ firstError results = none) ↔
      ∀ result ∈ results, ∃ records, result = .ok records := by
  rw [firstError_eq_none, List.any_eq_false]
  constructor
  · rintro ⟨hpanic, herr⟩ result hresult
    cases result with
    | ok records => exact ⟨records, rfl⟩
    | err failed => exact absurd hresult (herr failed)
    | panicked => exact absurd rfl (hpanic _ hresult)
  · intro hok
    constructor
    · intro result hresult hpanic
      obtain ⟨records, rfl⟩ := hok result hresult
      exact nomatch hpanic
    · intro failed hfailed
      obtain ⟨records, heq⟩ := hok _ hfailed
      exact nomatch heq

/-- The workers of a wave, each on its own clone. -/
def workerResults (height : UInt64) (chunks : List (List (LaneTx C))) (L : Ledger C) :
    List (Outcome (ℕ × LedgerError) (List (Bytes32 × Bytes))) :=
  chunks.map fun chunk ↦ runChunk height L.clone chunk []

/-- The workers all succeed exactly when the chunks do, each from the same ledger. -/
theorem workers_ok_iff {chunks : List (List (LaneTx C))} :
    (∀ result ∈ workerResults height chunks L, ∃ records, result = .ok records) ↔
      ∀ chunk ∈ chunks, (applyEntries height chunk L.clone).isSome := by
  unfold workerResults
  rw [List.forall_mem_map]
  refine forall₂_congr fun chunk _ ↦ ?_
  rcases runChunk_eq height L.clone chunk [] with ⟨V', hrun, hchunk⟩ | ⟨hrun, hchunk⟩
  · simp [hrun, hchunk]
  · rw [hrun]
    constructor
    · rintro ⟨records, hok⟩
      exact absurd hok (hchunk records)
    · intro hsome
      exact nomatch hsome

theorem mem_written {chunks : List (List (LaneTx C))} {id : Bytes32} {body : Bytes} :
    (id, body) ∈ written (workerResults height chunks L) ↔
      ∃ chunk ∈ chunks, ∃ V', applyEntries height chunk L.clone = some V' ∧
        id ∈ chunk.flatMap LaneTx.set ∧ V'.accountRecord id = some body := by
  unfold written workerResults
  rw [List.mem_flatMap]
  constructor
  · rintro ⟨result, hresult, hmem⟩
    obtain ⟨chunk, hchunk, rfl⟩ := List.mem_map.mp hresult
    refine ⟨chunk, hchunk, ?_⟩
    rcases runChunk_eq height L.clone chunk [] with ⟨V', hrun, heq⟩ | ⟨-, hfails⟩
    · rw [heq] at hmem
      exact ⟨V', hrun, mem_handBack.mp hmem⟩
    · split at hmem
      · next records hok => exact absurd hok (hfails records)
      · exact absurd hmem List.not_mem_nil
  · rintro ⟨chunk, hchunk, V', hrun, hback⟩
    refine ⟨_, List.mem_map_of_mem hchunk, ?_⟩
    rcases runChunk_eq height L.clone chunk [] with ⟨V₁, hrun₁, heq⟩ | ⟨hnone, -⟩
    · obtain rfl := Option.some.inj (hrun.symm.trans hrun₁)
      rw [heq]
      exact mem_handBack.mpr hback
    · exact nomatch hrun.symm.trans hnone

/-- The chunks of a wave succeed one after the other exactly when each does on its own clone. -/
theorem chunks_isSome_iff (height : UInt64) {chunks : List (List (LaneTx C))} (hL : L.WellFormed)
    (hdeclared : Declared chunks.flatten)
    (hapart : chunks.flatten.Pairwise fun entry later ↦ entry.set.Disjoint later.set) :
    (applyEntries height chunks.flatten L).isSome ↔
      ∀ chunk ∈ chunks, (applyEntries height chunk L.clone).isSome := by
  rw [List.pairwise_flatten] at hapart
  refine runAll_flatten_iff
    (fun chunk hchunk entry hentry ↦ hdeclared.local entry (List.mem_flatten_of_mem hchunk hentry))
    (hapart.2.imp fun h ↦ disjoint_footprint h) hL hL.clone ?_
  exact fun chunk _ i _ ↦ (observe_clone i).symm

/-- The chunks of a wave, run apart and written back, leave what the wave leaves. -/
theorem written_spec {chunks : List (List (LaneTx C))} (hL : L.WellFormed)
    (hdeclared : Declared chunks.flatten)
    (hapart : chunks.flatten.Pairwise fun entry later ↦ entry.set.Disjoint later.set)
    (hrun : applyEntries height chunks.flatten L = some L') :
    ((written (workerResults height chunks L)).foldl
        (fun L entry ↦ L.adoptAccountRecord entry.1 entry.2) L).WellFormed ∧
      SameObs observe ((written (workerResults height chunks L)).foldl
        (fun L entry ↦ L.adoptAccountRecord entry.1 entry.2) L) L' := by
  have hsome := (chunks_isSome_iff height hL hdeclared hapart).mp (Option.isSome_iff_exists.mpr ⟨L', hrun⟩)
  rw [List.pairwise_flatten] at hapart
  have hin : ∀ chunk ∈ chunks, Declared chunk :=
    fun chunk hchunk entry hentry ↦ hdeclared entry (List.mem_flatten_of_mem hchunk hentry)
  have hlocal : ∀ chunk ∈ chunks, ∀ entry ∈ chunk,
      Local observe WellFormed (accountArea entry.set) (applyTx height entry.tx) :=
    fun chunk hchunk ↦ (hin chunk hchunk).local
  have hdisjoint := hapart.2.imp fun h ↦ disjoint_footprint h
  have hagree : ∀ chunk ∈ chunks, Agree observe
      (footprintOf (fun entry : LaneTx C ↦ accountArea entry.set) chunk) L L.clone :=
    fun chunk _ i _ ↦ (observe_clone i).symm
  obtain ⟨houter, hinner⟩ := obs_runAll_flatten hlocal hdisjoint hL hL.clone hagree hrun
  have hL' : L'.WellFormed := (Local.runAll hdeclared.local).keeps hL hrun
  have hrecords : ∀ entry ∈ written (workerResults height chunks L),
      L'.accountRecord entry.1 = some entry.2 ∧ .account entry.1 ∈ L'.dirty := by
    rintro ⟨id, body⟩ hentry
    obtain ⟨chunk, hchunk, V', hworker, hid, hbody⟩ := mem_written.mp hentry
    obtain ⟨-, hflag⟩ := touched_of_runAll (hin chunk hchunk) (hapart.1 chunk hchunk) hL.clone
      hworker id hid
    obtain ⟨toucher, htoucher, hmem⟩ := List.mem_flatMap.mp hid
    have hsame := hinner chunk hchunk V' hworker
    have hobject : L'.accountRecord id = V'.accountRecord id :=
      record_eq_of_observe (hsame _ ⟨toucher, htoucher, object_mem_accountArea.mpr hmem⟩)
    have hflags := Sum.inr.inj (hsame _ ⟨toucher, htoucher, flag_mem_accountArea.mpr hmem⟩)
    refine ⟨hobject.trans hbody, ?_⟩
    by_contra hclean
    rw [if_pos hflag, if_neg hclean] at hflags
    exact nomatch hflags
  obtain ⟨hformed, hobserve⟩ := adoptAll_spec hL' hrecords hL
  refine ⟨hformed, fun i ↦ ?_⟩
  rcases hobserve i with hsame | ⟨houtside, hbefore⟩
  · exact hsame
  rw [hbefore]
  refine (houter i fun chunk hchunk ⟨toucher, htoucher, hi⟩ ↦ houtside ?_).symm
  -- The record of a touched account is written back.
  obtain ⟨id, hid, hi⟩ := hi
  have hid' : id ∈ chunk.flatMap LaneTx.set := List.mem_flatMap.mpr ⟨toucher, htoucher, hid⟩
  obtain ⟨V', hworker⟩ := Option.isSome_iff_exists.mp (hsome chunk hchunk)
  obtain ⟨hrecord, -⟩ := touched_of_runAll (hin chunk hchunk) (hapart.1 chunk hchunk) hL.clone
    hworker id hid'
  obtain ⟨body, hbody⟩ := Option.isSome_iff_exists.mp hrecord
  have hback := mem_written.mpr ⟨chunk, hchunk, V', hworker, hid', hbody⟩
  exact ⟨id, List.mem_map_of_mem hback, hi⟩

/-- A wave is applied as its transactions are, one by one, however many workers there are. -/
theorem alike_executeWave (workers : ℕ) {wave : List (LaneTx C)} (hdeclared : Declared wave)
    (hapart : wave.Pairwise fun entry later ↦ entry.set.Disjoint later.set) :
    Alike observe WellFormed (executeWave workers height wave).after (applyEntries height wave) := by
  refine Alike.of_same (Alike.of_local (Local.runAll hdeclared.local)) fun L hL ↦ ?_
  by_cases hserial : wave.length < MIN_PARALLEL ∨ min workers wave.length < 2
  · have hafter : (executeWave workers height wave).after L = applyEntries height wave L := by
      refine Eq.trans ?_ (Transition.after_each (fun entry L ↦ L.applyAt entry.tx height) wave L)
      unfold executeWave Transition.after
      dsimp only
      rw [if_pos hserial]
    rw [hafter]
    cases hrun : applyEntries height wave L with
    | none => exact .inl ⟨rfl, rfl⟩
    | some L' =>
      have hL' := (Local.runAll hdeclared.local).keeps hL hrun
      exact .inr ⟨L', L', rfl, rfl, hL', hL', fun i ↦ rfl⟩
  · obtain ⟨chunks, hchunks⟩ : ∃ chunks, chunks = wave.toChunks
        ((wave.length + min workers wave.length - 1) / min workers wave.length) := ⟨_, rfl⟩
    have hflatten : chunks.flatten = wave := by rw [hchunks, flatten_toChunks]
    have hexecute : executeWave workers height wave L =
        if (workerResults height chunks L).any isPanic then (.panicked, L)
        else
          (firstError (workerResults height chunks L)).elim
            (.ok (), (written (workerResults height chunks L)).foldl
              (fun L entry ↦ L.adoptAccountRecord entry.1 entry.2) L)
            fun failed ↦ (.err failed.2, L) := by
      rw [hchunks]
      unfold executeWave
      dsimp only
      rw [if_neg hserial]
      unfold workerResults
      generalize firstError (List.map _ _) = failed
      rcases failed with _ | ⟨_, _⟩ <;> rfl
    have hdeclared' : Declared chunks.flatten := by rwa [hflatten]
    have hapart' : chunks.flatten.Pairwise fun entry later ↦ entry.set.Disjoint later.set := by
      rwa [hflatten]
    have hiff := chunks_isSome_iff height hL hdeclared' hapart'
    rw [← workers_ok_iff, ← all_ok_iff, hflatten] at hiff
    by_cases hok : (workerResults height chunks L).any isPanic = false ∧
        firstError (workerResults height chunks L) = none
    · obtain ⟨L', hrun⟩ := Option.isSome_iff_exists.mp (hiff.mpr hok)
      rw [← hflatten] at hrun
      obtain ⟨hformed, hsame⟩ := written_spec hL hdeclared' hapart' hrun
      have hL' := (Local.runAll hdeclared'.local).keeps hL hrun
      rw [hflatten] at hrun
      refine .inr ⟨_, L', ?_, hrun, hformed, hL', hsame⟩
      rw [Transition.after, hexecute, hok.1, hok.2]
      rfl
    · refine .inl ⟨?_, ?_⟩
      · rw [Transition.after, hexecute]
        cases hpanic : (workerResults height chunks L).any isPanic with
        | true => rfl
        | false =>
          cases herr : firstError (workerResults height chunks L) with
          | some failed => rfl
          | none => exact absurd ⟨hpanic, herr⟩ hok
      · rw [← Option.not_isSome_iff_eq_none, hiff]
        exact hok

/-! ### Runs of the parallel lane -/

section Run

variable (height) (entries : List (LaneTx C))

/-- The accounts of an entry, by its index. -/
def touchAt (k : ℕ) : List Bytes32 := (entries[k]?.map LaneTx.set).getD []

/-- The transaction of an entry, by its index. -/
def stepAt (k : ℕ) (L : Ledger C) : Option (Ledger C) :=
  match entries[k]? with
  | some entry => applyTx height entry.tx L
  | none => some L

variable {height entries}

theorem runAll_stepAt (indices : List ℕ) (L : Ledger C) :
    runAll (stepAt height entries) indices L =
      applyEntries height (indices.filterMap fun k ↦ entries[k]?) L := by
  induction indices generalizing L with
  | nil => rfl
  | cons k rest ih =>
    rw [runAll_cons, stepAt]
    cases hentry : entries[k]? with
    | none =>
      rw [List.filterMap_cons_none hentry]
      exact ih L
    | some entry =>
      rw [List.filterMap_cons_some hentry, applyEntries, runAll_cons]
      exact congrArg _ (funext ih)

theorem local_stepAt (hdeclared : Declared entries) (k : ℕ) :
    Local observe WellFormed (accountArea (touchAt entries k)) (stepAt height entries k) := by
  unfold stepAt touchAt
  cases hentry : entries[k]? with
  | none =>
    constructor
    · rintro L L' hL ⟨⟩
      exact hL
    · rintro L L' hL ⟨⟩ i -
      rfl
    · rintro L L' M hL hM hagree ⟨⟩
      exact ⟨M, rfl, hagree⟩
  | some entry => exact hdeclared.local entry (List.mem_of_getElem? hentry)

/-- The waves of the schedule apply the transactions as they come. -/
theorem placed_placeAll (height : UInt64) (hdeclared : Declared entries) {list : List (List Bytes32 × ℕ)}
    (hlist : ∀ item ∈ list, item.1 = touchAt entries item.2) {schedule : Schedule}
    (h : schedule.Placed (touchAt entries)) :
    (schedule.placeAll list).Placed (touchAt entries) ∧
      Alike observe WellFormed
        (runAll (stepAt height entries) (schedule.placeAll list).waves.flatten)
        (runAll (stepAt height entries) (schedule.waves.flatten ++ list.map Prod.snd)) := by
  have hlocal : ∀ indices : List ℕ, ∀ k ∈ indices,
      Local observe WellFormed (accountArea (touchAt entries k)) (stepAt height entries k) :=
    fun _ k _ ↦ local_stepAt hdeclared k
  induction list generalizing schedule with
  | nil =>
    refine ⟨h, ?_⟩
    rw [List.map_nil, List.append_nil]
    exact .of_local (Local.runAll (hlocal _))
  | cons item rest ih =>
    rw [Schedule.placeAll, List.foldl_cons, hlist item List.mem_cons_self]
    obtain ⟨hplaced, before, after, hwaves, hwaves', hdisjoint⟩ := h.place item.2
    obtain ⟨hfinal, halike⟩ := ih (fun later hlater ↦ hlist later (List.mem_cons_of_mem _ hlater))
      hplaced
    refine ⟨hfinal, halike.trans ?_⟩
    have hmoved : Alike observe WellFormed (runAll (stepAt height entries) ([item.2] ++ after))
        (runAll (stepAt height entries) (after ++ [item.2])) := by
      refine .append_comm (hlocal _) (hlocal _) (Set.disjoint_left.mpr ?_)
      rintro i ⟨k, hk, hi⟩ ⟨j, hj, hi'⟩
      rw [List.mem_singleton.mp hk] at hi
      exact Set.disjoint_left.mp (disjoint_accountArea (hdisjoint j hj)) hi hi'
    have hself : ∀ indices : List ℕ, Alike observe WellFormed
        (runAll (stepAt height entries) indices) (runAll (stepAt height entries) indices) :=
      fun indices ↦ .of_local (Local.runAll (hlocal indices))
    have hlast := ((hself before).append hmoved).append (hself (rest.map Prod.snd))
    rw [hwaves', hwaves, List.map_cons]
    simpa only [List.append_assoc, List.singleton_append] using hlast

theorem filterMap_getElem?_range {α : Type} (list : List α) :
    ((List.range list.length).filterMap fun k ↦ list[k]?) = list := by
  induction list using List.reverseRecOn with
  | nil => rfl
  | append_singleton rest last ih =>
    rw [List.length_append, List.length_singleton, List.range_succ, List.filterMap_append]
    congr 1
    · refine (List.filterMap_congr fun k hk ↦ ?_).trans ih
      rw [List.getElem?_append_left (List.mem_range.mp hk)]
    · simp

/-- A run of the parallel lane is applied as its transactions are, one by one. -/
theorem alike_applyRun (workers : ℕ) {run : List (Transaction C)}
    (hrun : ∀ tx ∈ run, accessSet tx ≠ none) :
    Alike observe WellFormed (applyRun workers height run).after
      (runAll (applyTx height) run) := by
  obtain ⟨entries, hentries⟩ : ∃ entries, entries = run.zipIdx.map fun entry ↦
    (⟨entry.2, entry.1, (accessSet entry.1).getD []⟩ : LaneTx C) := ⟨_, rfl⟩
  have hdeclared : Declared entries := by
    intro entry hentry
    rw [hentries] at hentry
    obtain ⟨⟨tx, k⟩, hmem, rfl⟩ := List.mem_map.mp hentry
    obtain ⟨ids, hids⟩ := Option.ne_none_iff_exists'.mp
      (hrun tx (List.mem_of_getElem? (List.mem_zipIdx_iff_getElem?.mp hmem)))
    simp [hids]
  have htxs : entries.map LaneTx.tx = run := by
    rw [hentries, List.map_map]
    exact List.zipIdx_map_fst 0 run
  obtain ⟨list, hlist⟩ : ∃ list, list = (entries.map LaneTx.set).zipIdx := ⟨_, rfl⟩
  have hitems : ∀ item ∈ list, item.1 = touchAt entries item.2 := by
    intro item hitem
    rw [hlist] at hitem
    have hget := List.mem_zipIdx_iff_getElem?.mp hitem
    rw [List.getElem?_map] at hget
    rw [touchAt, hget, Option.getD_some]
  obtain ⟨hplaced, halike⟩ :=
    placed_placeAll height hdeclared hitems Schedule.placed_empty
  obtain ⟨waves, hwaves⟩ : ∃ waves, waves = scheduleWaves (entries.map LaneTx.set) := ⟨_, rfl⟩
  have hschedule : (Schedule.empty.placeAll list).waves = waves := by
    rw [hwaves, hlist]
    rfl
  rw [hschedule] at halike
  have hapart : ∀ wave ∈ waves, (wave.filterMap fun k ↦ entries[k]?).Pairwise
      fun entry later ↦ entry.set.Disjoint later.set := by
    intro wave hwave
    rw [List.pairwise_filterMap]
    refine (hplaced.apart wave (hschedule ▸ hwave)).imp fun {j k} hjk entry hentry later hlater ↦ ?_
    rw [touchAt, touchAt, Option.mem_def.mp hentry, Option.mem_def.mp hlater] at hjk
    exact hjk
  have hfirst : (applyRun workers height run).after = runAll
      (fun wave ↦ (executeWave workers height (wave.filterMap fun k ↦ entries[k]?)).after)
      waves := by
    funext L
    rw [hwaves, hentries]
    exact Transition.after_each _ _ L
  have hwave : Alike observe WellFormed
      (runAll (fun wave ↦ (executeWave workers height (wave.filterMap fun k ↦ entries[k]?)).after)
        waves) (runAll (runAll (stepAt height entries)) waves) := by
    refine .runAll fun wave hmem ↦ ?_
    have hsame : runAll (stepAt height entries) wave =
        applyEntries height (wave.filterMap fun k ↦ entries[k]?) :=
      funext fun L ↦ runAll_stepAt wave L
    rw [hsame]
    refine alike_executeWave workers (fun entry hentry ↦ ?_) (hapart wave hmem)
    obtain ⟨k, -, hk⟩ := List.mem_filterMap.mp hentry
    exact hdeclared entry (List.mem_of_getElem? hk)
  have hlast : runAll (stepAt height entries) (Schedule.empty.waves.flatten ++ list.map Prod.snd) =
      runAll (applyTx height) run := by
    funext L
    have hindices : Schedule.empty.waves.flatten ++ list.map Prod.snd =
        List.range entries.length := by
      rw [hlist, List.zipIdx_map_snd, List.length_map, ← List.range_eq_range']
      rfl
    rw [runAll_stepAt, hindices, filterMap_getElem?_range, ← htxs]
    simp only [applyEntries, runAll, List.foldlM_map]
  rw [hfirst, ← hlast]
  refine hwave.trans ?_
  have hflatten : runAll (runAll (stepAt height entries)) waves =
      runAll (stepAt height entries) waves.flatten := funext (runAll_flatten _ waves)
  rw [hflatten]
  exact halike

end Run

end Ledger

/-! ### Evidence -/

/-- Evidence that is used for a transaction only where full verification succeeds. -/
def ProofPass.Justified (pass : ProofPass C) : Transaction C → Prop
  | .anonTransfer token xfer => preverifiedAnon (some pass) → C.anonVerify xfer token
  | .solventTransfer token xfer =>
    ∀ balance, preverifiedAgainst (some pass) balance → C.solventVerify xfer token balance
  | .unshield token _ _ xfer _ =>
    ∀ balance, preverifiedAgainst (some pass) balance → C.solventVerify xfer token balance
  | _ => True

/-- Justified evidence never changes what a transaction does. -/
theorem applyInner_of_evidence {pass : ProofPass C} {tx : Transaction C}
    (hpass : pass.Justified tx) (height : UInt64) :
    applyInner tx height (some pass) = applyInner tx height none := by
  cases tx with
  | anonTransfer token xfer =>
    have hiff : (¬ preverifiedAnon (some pass) = true ∧ ¬ C.anonVerify xfer token = true) ↔
        (¬ preverifiedAnon (C := C) none = true ∧ ¬ C.anonVerify xfer token = true) := by
      constructor
      · exact fun h ↦ ⟨Bool.false_ne_true, h.2⟩
      · exact fun h ↦ ⟨fun hused ↦ h.2 (hpass hused), h.2⟩
    simp only [applyInner, applyAnonTransfer, hiff]
  | solventTransfer token xfer =>
    have hiff : ∀ balance, (¬ preverifiedAgainst (some pass) balance = true ∧
        ¬ C.solventVerify xfer token balance = true) ↔
        (¬ preverifiedAgainst none balance = true ∧
          ¬ C.solventVerify xfer token balance = true) := by
      intro balance
      constructor
      · exact fun h ↦ ⟨Bool.false_ne_true, h.2⟩
      · exact fun h ↦ ⟨fun hused ↦ h.2 (hpass balance hused), h.2⟩
    simp only [applyInner, applySolventTransfer, hiff]
  | unshield token toId amount xfer sig =>
    have hiff : ∀ balance, (¬ preverifiedAgainst (some pass) balance = true ∧
        ¬ C.solventVerify xfer token balance = true) ↔
        (¬ preverifiedAgainst none balance = true ∧
          ¬ C.solventVerify xfer token balance = true) := by
      intro balance
      constructor
      · exact fun h ↦ ⟨Bool.false_ne_true, h.2⟩
      · exact fun h ↦ ⟨fun hused ↦ h.2 (hpass balance hused), h.2⟩
    simp only [applyInner, applyUnshield, hiff]
  | _ => rfl

/-- A job to verify a proof of a transaction. -/
def ProofJob.For : ProofJob C → Transaction C → Prop
  | .anon token xfer, tx => tx = .anonTransfer token xfer
  | .solvent token xfer _, tx =>
    tx = .solventTransfer token xfer ∨ ∃ toId amount sig, tx = .unshield token toId amount xfer sig

/-- The evidence of a job is justified. -/
theorem ProofJob.For.justified {job : ProofJob C} {tx : Transaction C} (hjob : job.For tx)
    {pass : ProofPass C} (hpass : job.evidence = some pass) : pass.Justified tx := by
  cases job with
  | anon token xfer =>
    obtain rfl : tx = .anonTransfer token xfer := hjob
    obtain ⟨hverified, -⟩ := Option.ite_none_right_eq_some.mp hpass
    exact fun _ ↦ hverified
  | solvent token xfer balance =>
    obtain ⟨hverified, heq⟩ := Option.ite_none_right_eq_some.mp hpass
    obtain rfl := Option.some.inj heq
    have hused : ∀ other, preverifiedAgainst (some (.againstBalance balance)) other →
        C.solventVerify xfer token other := by
      intro other hsame
      rw [← of_decide_eq_true hsame]
      exact hverified
    rcases hjob with rfl | ⟨toId, amount, sig, rfl⟩
    · exact hused
    · exact hused

section Jobs

open LedgerState (Runs)

theorem runs_solventJob (s : LedgerState C) (written : List Bytes32) (token : UInt32)
    (xfer : SolventTransfer C.Point C.SolventProof) :
    ∃ jobs, Runs (solventJob written token xfer) s jobs s ∧
      ∀ job ∈ jobs, ∃ balance, job = .solvent token xfer balance := by
  unfold solventJob
  dsimp only
  split
  · exact ⟨[], rfl, nofun⟩
  · refine ⟨_, rfl, fun job hjob ↦ ?_⟩
    rw [Option.mem_toList, Option.map_eq_some_iff] at hjob
    obtain ⟨acct, -, rfl⟩ := hjob
    exact ⟨_, rfl⟩

theorem runs_proofJobs (s : LedgerState C) (written : List Bytes32) (tx : Transaction C) :
    ∃ jobs, Runs (proofJobs written tx) s jobs s ∧ ∀ job ∈ jobs, job.For tx := by
  cases tx with
  | anonTransfer token xfer =>
    refine ⟨[.anon token xfer], rfl, fun job hjob ↦ ?_⟩
    obtain rfl := List.mem_singleton.mp hjob
    rfl
  | solventTransfer token xfer =>
    obtain ⟨jobs, hrun, hjobs⟩ := runs_solventJob s written token xfer
    refine ⟨jobs, hrun, fun job hjob ↦ ?_⟩
    obtain ⟨balance, rfl⟩ := hjobs job hjob
    exact .inl rfl
  | unshield token toId amount xfer sig =>
    obtain ⟨jobs, hrun, hjobs⟩ := runs_solventJob s written token xfer
    refine ⟨jobs, hrun, fun job hjob ↦ ?_⟩
    obtain ⟨balance, rfl⟩ := hjobs job hjob
    exact .inr ⟨toId, amount, sig, rfl⟩
  | _ => exact ⟨[], rfl, nofun⟩

theorem runs_collectJobs (s : LedgerState C) (next : UInt32) (written : List Bytes32)
    (txs : List (Transaction C × ℕ)) :
    ∃ jobs, Runs (collectJobs next written txs) s jobs s ∧
      ∀ item ∈ jobs, ∃ tx, (tx, item.1) ∈ txs ∧ item.2.For tx := by
  induction txs generalizing written with
  | nil => exact ⟨[], rfl, nofun⟩
  | cons first rest ih =>
    obtain ⟨tx, index⟩ := first
    obtain ⟨jobs, hrun, hjobs⟩ := runs_proofJobs s written tx
    obtain ⟨later, hlater, hrest⟩ := ih (written ++ predictedWrites next tx)
    refine ⟨jobs.map (fun job ↦ (index, job)) ++ later, ?_, fun item hitem ↦ ?_⟩
    · refine (Program.returns_bind ..).mpr ⟨jobs, s, hrun, ?_⟩
      exact (Program.returns_bind ..).mpr ⟨later, s, hlater, rfl⟩
    · rcases List.mem_append.mp hitem with hfirst | hlast
      · obtain ⟨job, hjob, rfl⟩ := List.mem_map.mp hfirst
        exact ⟨tx, List.mem_cons_self, hjobs job hjob⟩
      · obtain ⟨tx', htx', hfor⟩ := hrest item hlast
        exact ⟨tx', List.mem_cons_of_mem _ htx', hfor⟩

/-- Verifying ahead changes nothing, and all its evidence is justified. -/
theorem runs_preverifyConfidential (s : LedgerState C) (txs : List (Transaction C)) :
    ∃ evidence, Runs (preverifyConfidential txs) s evidence s ∧
      ∀ item ∈ evidence, ∀ tx, txs[item.1]? = some tx → item.2.Justified tx := by
  obtain ⟨jobs, hrun, hjobs⟩ := runs_collectJobs s s.nextTokenId [] txs.zipIdx
  have hstart : ∀ evidence, Runs (if jobs.length < 2 then pure []
      else pure (jobs.filterMap fun job ↦ job.2.evidence.map fun pass ↦ (job.1, pass)))
        s evidence s → Runs (preverifyConfidential txs) s evidence s := by
    intro evidence hlast
    refine (Program.returns_bind ..).mpr ⟨s.nextTokenId, s, by simp, ?_⟩
    exact (Program.returns_bind ..).mpr ⟨jobs, s, hrun, hlast⟩
  by_cases hfew : jobs.length < 2
  · refine ⟨[], hstart [] ?_, nofun⟩
    rw [if_pos hfew]
    rfl
  · refine ⟨_, hstart _ (by rw [if_neg hfew]; rfl), fun item hitem tx htx ↦ ?_⟩
    obtain ⟨job, hjob, hpass⟩ := List.mem_filterMap.mp hitem
    obtain ⟨pass, hevidence, rfl⟩ := Option.map_eq_some_iff.mp hpass
    obtain ⟨tx', htx', hfor⟩ := hjobs job hjob
    rw [List.mem_zipIdx_iff_getElem?, htx] at htx'
    obtain rfl := Option.some.inj htx'
    exact hfor.justified hevidence

theorem solventJob_reads (written : List Bytes32) (token : UInt32)
    (xfer : SolventTransfer C.Point C.SolventProof) :
    (solventJob written token xfer).Uses fun c : LedgerCommand C ↦ ¬ c.IsWrite := by
  unfold solventJob
  dsimp only
  split
  · trivial
  · exact ⟨not_false, fun _ ↦ trivial⟩

theorem collectJobs_reads (next : UInt32) (written : List Bytes32)
    (txs : List (Transaction C × ℕ)) :
    (collectJobs next written txs).Uses fun c : LedgerCommand C ↦ ¬ c.IsWrite := by
  induction txs generalizing written with
  | nil => trivial
  | cons first rest ih =>
    obtain ⟨tx, index⟩ := first
    refine Program.Uses.bind ?_ fun jobs ↦ Program.Uses.bind (ih _) fun later ↦ trivial
    cases tx with
    | solventTransfer token xfer => exact solventJob_reads written token xfer
    | unshield token toId amount xfer sig => exact solventJob_reads written token xfer
    | _ => trivial

theorem preverifyConfidential_reads (txs : List (Transaction C)) :
    (preverifyConfidential txs).Uses fun c : LedgerCommand C ↦ ¬ c.IsWrite := by
  refine Program.Uses.bind ⟨not_false, fun _ ↦ trivial⟩ fun next ↦ ?_
  refine Program.Uses.bind (collectJobs_reads _ _ _) fun jobs ↦ ?_
  split <;> trivial

end Jobs

/-! ### Lanes -/

/-- The transactions of a lane. -/
def Ledger.Lane.txs : Ledger.Lane C → List (Transaction C)
  | .barrier tx _ => [tx]
  | .run txs => txs

namespace Ledger

variable {L L' L₁ L₂ : Ledger C} {height : UInt64}

/-- A lane of a block: a transaction at its index, or a run of the parallel lane. -/
def Lane.Of (list : List (Transaction C × ℕ)) : Lane C → Prop
  | .barrier tx index => (tx, index) ∈ list
  | .run txs => ∀ tx ∈ txs, accessSet tx ≠ none

/-- The lanes of a block are the block in pieces. -/
theorem lanes_spec (list : List (Transaction C × ℕ)) :
    ((lanes list).map Lane.txs).flatten = list.map Prod.fst ∧
      ∀ lane ∈ lanes list, lane.Of list := by
  induction list with
  | nil => exact ⟨rfl, fun lane hlane ↦ absurd hlane List.not_mem_nil⟩
  | cons first rest ih =>
    obtain ⟨tx, index⟩ := first
    obtain ⟨hflatten, hlanes⟩ := ih
    have hlater : ∀ lane ∈ lanes rest, lane.Of ((tx, index) :: rest) := by
      intro lane hlane
      have hof := hlanes lane hlane
      cases lane with
      | barrier => exact List.mem_cons_of_mem _ hof
      | run => exact hof
    rcases hset : accessSet tx with _ | ids
    · rw [lanes, hset]
      refine ⟨congrArg (tx :: ·) hflatten, fun lane hlane ↦ ?_⟩
      rcases List.mem_cons.mp hlane with rfl | hrest
      · exact List.mem_cons_self
      · exact hlater lane hrest
    · have hlane : accessSet tx ≠ none := fun h ↦ Option.some_ne_none ids (hset.symm.trans h)
      rw [lanes, hset]
      dsimp only
      split
      · next txs later heq =>
        rw [heq] at hflatten hlater
        have hrun : ∀ tx ∈ txs, accessSet tx ≠ none := hlater (.run txs) List.mem_cons_self
        refine ⟨congrArg (tx :: ·) hflatten, fun lane hmem ↦ ?_⟩
        rcases List.mem_cons.mp hmem with rfl | hrest
        · exact List.forall_mem_cons.mpr ⟨hlane, hrun⟩
        · exact hlater lane (List.mem_cons_of_mem _ hrest)
      · refine ⟨congrArg (tx :: ·) hflatten, fun lane hmem ↦ ?_⟩
        rcases List.mem_cons.mp hmem with rfl | hrest
        · exact fun tx' htx' ↦ (List.mem_singleton.mp htx') ▸ hlane
        · exact hlater lane hrest

/-- The transactions of a block are applied as they are one by one, however many workers there
are. -/
theorem alike_applyBlockParallel (workers : ℕ) (txs : List (Transaction C)) (height : UInt64) :
    Alike observe WellFormed (applyBlockParallel workers txs height).after
      (applySequential txs height).after := by
  intro L M hL hM hsame
  obtain ⟨evidence, hruns, hjustified⟩ := runs_preverifyConfidential L.view txs
  obtain ⟨houtcome, hformed, -⟩ := run_view hL (preverifyConfidential txs)
  have hclone := (preverifyConfidential_reads txs).preserving clone
    (fun c hread _ _ _ hexec ↦ clone_of_not_isWrite hread hexec) L
  rw [hruns] at houtcome
  rcases hpre : (preverifyConfidential txs).run handler L with ⟨outcome, L₁⟩
  rw [hpre] at houtcome hformed hclone
  obtain rfl : outcome = .ok evidence := houtcome
  have hsame₁ : SameObs observe L₁ M := fun i ↦ (observe_of_clone_eq hclone i).trans (hsame i)
  obtain ⟨hflatten, hlanes⟩ := lanes_spec txs.zipIdx
  obtain ⟨lane, hlane⟩ : ∃ lane : Lane C → Transition LedgerError (Ledger C), lane = fun lane ↦
      match lane with
      | .barrier tx index => fun L ↦
        L.applyAtWith tx height ((evidence.find? fun entry ↦ entry.1 = index).map Prod.snd)
      | .run txs => applyRun workers height txs := ⟨_, rfl⟩
  have hparallel : (applyBlockParallel workers txs height).after L =
      (Transition.each lane (lanes txs.zipIdx)).after L₁ := by
    rw [Transition.after, applyBlockParallel, hpre, hlane]
    rfl
  have hsequential : (applySequential txs height).after M =
      runAll (runAll (applyTx height)) ((lanes txs.zipIdx).map Lane.txs) M := by
    rw [runAll_flatten, hflatten, List.zipIdx_map_fst]
    exact Transition.after_each _ _ M
  have halike : Alike observe WellFormed
      (runAll (fun piece ↦ (lane piece).after) (lanes txs.zipIdx))
      (runAll (fun piece ↦ runAll (applyTx height) piece.txs) (lanes txs.zipIdx)) := by
    refine Alike.runAll fun piece hpiece ↦ ?_
    have hof := hlanes piece hpiece
    rw [hlane]
    cases piece with
    | barrier tx index =>
      have hpass : ∀ pass, evidence.find? (fun entry ↦ entry.1 = index) = pass →
          applyInner tx height (pass.map Prod.snd) = applyInner tx height none := by
        intro pass hfind
        cases pass with
        | none => rfl
        | some item =>
          have hindex : item.1 = index := of_decide_eq_true (List.find?_some hfind :)
          refine applyInner_of_evidence
            (hjustified item (List.mem_of_find?_eq_some hfind) tx ?_) height
          rw [hindex]
          exact List.mem_zipIdx_iff_getElem?.mp hof
      have hsteps : Transition.after (fun L : Ledger C ↦ L.applyAtWith tx height
          ((evidence.find? fun entry ↦ entry.1 = index).map Prod.snd)) = applyTx height tx := by
        funext N
        simp only [applyTx, Transition.after, applyAt, applyAtWith, hpass _ rfl]
      have hone : runAll (applyTx height) (Lane.barrier tx index).txs = applyTx height tx := by
        funext N
        exact Option.bind_fun_some (applyTx height tx N)
      rw [hone]
      dsimp only
      rw [hsteps]
      exact Alike.of_local (local_applyTx height tx)
    | run run => exact alike_applyRun workers hof
  rw [hparallel, hsequential, Transition.after_each, runAll_map]
  exact halike L₁ M hformed hM hsame₁

/-! ### The ledgers that come out -/

theorem view_of_sameObs {L M : Ledger C} (hsame : SameObs observe L M) : L.view = M.view := by
  obtain ⟨hobjects, hdirty, hnext, -⟩ := sameObs_iff.mp hsame
  have hrecord : L.record = M.record := by
    funext key
    rw [record, record, ← OverlayMap.lookup_merged, hobjects, OverlayMap.lookup_merged]
  have hflags : { key | key ∈ L.dirty } = { key | key ∈ M.dirty } := Set.ext hdirty
  rw [view, view, hrecord, hflags, hnext]

/-- Ledgers that look the same and store the same trie get the same state root, and then store the
same trie again. -/
theorem stateRoot_of_sameObs {L M : Ledger C} (hL : L.WellFormed) (hM : M.WellFormed)
    (hfree : C.trie.CollisionFree) (hsame : SameObs observe L M)
    (hpaths : Set.InjOn (trieKey C) { key | key ∈ M.dirty })
    {content : TrieScheme.Content Bytes32 Bytes} (hLtree : C.trie.TrieAt L.tree content)
    (hMtree : C.trie.TrieAt M.tree content) :
    ∃ L' M' content', L.stateRoot = some (M'.root, L') ∧ M.stateRoot = some (M'.root, M') ∧
      C.trie.TrieAt L'.tree content' ∧ C.trie.TrieAt M'.tree content' := by
  obtain ⟨-, hdirty, -⟩ := sameObs_iff.mp hsame
  obtain ⟨L', hrunL, htreeL⟩ := hL.stateRoot_content hfree hLtree
  obtain ⟨M', hrunM, htreeM⟩ := hM.stateRoot_content hfree hMtree
  have hpaths' : Set.InjOn (trieKey C) { key | key ∈ L.dirty } :=
    hpaths.mono fun key hkey ↦ (hdirty key).mp hkey
  rw [view_of_sameObs hsame, M.view.reconciled_congr hpaths' hdirty] at htreeL
  have hroot : L'.root = M'.root := htreeL.root_eq.trans htreeM.root_eq.symm
  exact ⟨L', M', _, hroot ▸ hrunL, hrunM, htreeL, htreeM⟩

/-- Applying a block's transactions in parallel is applying them one by one: it succeeds on the same
blocks, whatever the number of workers, with the same records, token counter and state root, and
the evidence collected beforehand is only used where full verification succeeds. -/
theorem applyBlockParallel_iff_applySequential (hfree : C.trie.CollisionFree) {L : Ledger C}
    (hL : L.Sound) (workers : ℕ) (txs : List (Transaction C)) (height : UInt64) :
    ((∃ P, applyBlockParallel workers txs height L = (.ok (), P)) ↔
      ∃ S, applySequential txs height L = (.ok (), S)) ∧
    (∀ P S, applyBlockParallel workers txs height L = (.ok (), P) →
      applySequential txs height L = (.ok (), S) →
        P.objects.merged = S.objects.merged ∧ P.nextTokenId = S.nextTokenId ∧
        (Set.InjOn (trieKey C) { key | key ∈ S.dirty } →
          ∃ root P' S', P.stateRoot = some (root, P') ∧ S.stateRoot = some (root, S'))) ∧
    ∀ evidence L', (preverifyConfidential txs).run handler L = (.ok evidence, L') →
      ∀ item ∈ evidence, ∀ tx, txs[item.1]? = some tx → item.2.Justified tx ∧
        ∀ M : Ledger C, M.applyAtWith tx height (some item.2) = M.applyAt tx height := by
  obtain ⟨hformed, content, htree⟩ := hL
  have halike := alike_applyBlockParallel workers txs height L L hformed hformed fun _ ↦ rfl
  simp only [← Transition.after_eq_some]
  refine ⟨?_, fun P S hP hS ↦ ?_, fun evidence L' hrun item hitem tx htx ↦ ?_⟩
  · rcases halike with ⟨hnone, hnone'⟩ | ⟨P, S, hP, hS, -⟩
    · rw [hnone, hnone']
    · exact iff_of_true ⟨P, hP⟩ ⟨S, hS⟩
  · rcases halike with ⟨hnone, -⟩ | ⟨P', S', hP', hS', hformedP, hformedS, hsame⟩
    · exact nomatch hnone.symm.trans hP
    obtain rfl := Option.some.inj (hP'.symm.trans hP)
    obtain rfl := Option.some.inj (hS'.symm.trans hS)
    obtain ⟨hobjects, -, hnext, -⟩ := sameObs_iff.mp hsame
    refine ⟨hobjects, hnext, fun hpaths ↦ ?_⟩
    have htreeP : P'.tree = L.tree :=
      tree_of_backing_eq ((keeps_backing_applyBlockParallel workers txs height).after hP)
    have htreeS : S'.tree = L.tree :=
      tree_of_backing_eq ((keeps_backing_applySequential txs height).after hS)
    obtain ⟨P'', S'', -, hrootP, hrootS, -⟩ := stateRoot_of_sameObs hformedP hformedS hfree hsame
      hpaths (htreeP ▸ htree) (htreeS ▸ htree)
    exact ⟨_, P'', S'', hrootP, hrootS⟩
  · obtain ⟨evidence', hruns, hjustified⟩ := runs_preverifyConfidential L.view txs
    obtain ⟨houtcome, -⟩ := run_view hformed (preverifyConfidential txs)
    rw [hrun, hruns] at houtcome
    obtain rfl : evidence = evidence' := Outcome.ok.inj houtcome
    have hpass := hjustified item hitem tx htx
    refine ⟨hpass, fun M ↦ ?_⟩
    rw [applyAt, applyAtWith, applyAtWith, applyInner_of_evidence hpass]

/-- Nine accounts, more than a wave needs to be cut into chunks. -/
def registrations : List (Transaction freeSuite) :=
  (List.range 9).map fun k ↦ .register (BitVec.ofNat 256 (k + 1)) 0

theorem registrations_in_parallel :
    ∃ P S, applyBlockParallel 4 registrations 1 new = (.ok (), P) ∧
      applySequential registrations 1 new = (.ok (), S) ∧
      P.objects.merged = S.objects.merged ∧ P.nextTokenId = S.nextTokenId := by
  have hsound : (new : Ledger freeSuite).Sound :=
    Reachable.sound freeSuite_collisionFree .refl
  obtain ⟨hiff, hsame, -⟩ := applyBlockParallel_iff_applySequential freeSuite_collisionFree hsound 4
    registrations 1
  have hrun : applySequential registrations 1 new = (.ok (), (applySequential registrations 1 new).2) :=
    Prod.ext (by decide +kernel) rfl
  obtain ⟨P, hP⟩ := hiff.mpr ⟨_, hrun⟩
  obtain ⟨hobjects, hnext, -⟩ := hsame P _ hP hrun
  exact ⟨P, _, hP, hrun, hobjects, hnext⟩

end Ledger

end Latebra.State
