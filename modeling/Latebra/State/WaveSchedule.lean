import Latebra.State.ParallelEquivalence

/-!
# The earliest-wave schedule

`Schedule.waveAt` is the wave that the scheduling loop computes for an index. It is the least number
above the waves of all earlier indices that share an account (`Schedule.waveAt_le_iff`), and after
any number of turns wave `w` lists the indices so far whose wave it is (`Schedule.Follows`). So the
waves partition the indices, none of them is empty, and the index into the list of waves never
leaves it.
-/

set_option autoImplicit false
set_option relaxedAutoImplicit false

namespace Latebra.State.Schedule

open Foundation

/-- The accounts of an index. -/
def accounts (sets : List (List Bytes32)) (j : ℕ) : List Bytes32 := sets[j]?.getD []

/-- The schedule after the first turns of the loop. -/
def after (sets : List (List Bytes32)) (turns : ℕ) : Schedule :=
  empty.placeAll (sets.zipIdx.take turns)

/-- The wave that the loop computes for an index. -/
def waveAt (sets : List (List Bytes32)) (j : ℕ) : ℕ := (after sets j).waveFor (accounts sets j)

/-- Two indices share an account. -/
def Conflict (sets : List (List Bytes32)) (i j : ℕ) : Prop :=
  ∃ id, id ∈ accounts sets i ∧ id ∈ accounts sets j

variable {sets : List (List Bytes32)} {turns : ℕ}

theorem waveFor_le_iff (schedule : Schedule) (set : List Bytes32) (w : ℕ) :
    schedule.waveFor set ≤ w ↔ ∀ id ∈ set, schedule.next id ≤ w := by
  constructor
  · intro hle id hid
    exact (schedule.next_le_waveFor hid).trans hle
  · intro hnext
    apply foldl_max_le (Nat.zero_le w)
    intro word hword
    obtain ⟨id, hid, rfl⟩ := List.mem_map.mp hword
    exact hnext id hid

theorem after_succ (hturns : turns < sets.length) :
    after sets (turns + 1) = (after sets turns).place turns (accounts sets turns) := by
  have hitem : sets.zipIdx[turns]? = some (accounts sets turns, turns) := by
    rw [List.getElem?_zipIdx, accounts, List.getElem?_eq_getElem hturns]
    simp
  unfold after placeAll
  rw [List.take_add_one, hitem, List.foldl_append]
  rfl

theorem scheduleWaves_eq : scheduleWaves sets = (after sets sets.length).waves := by
  have hall : sets.zipIdx.take sets.length = sets.zipIdx :=
    List.take_of_length_le (by rw [List.length_zipIdx])
  rw [after, hall]
  rfl

/-- After some turns, the next wave of an account is the least one above those of its indices, and
each wave lists its indices. -/
structure Follows (sets : List (List Bytes32)) (turns : ℕ) : Prop where
  next_le : ∀ id w, (after sets turns).next id ≤ w ↔
    ∀ i < turns, id ∈ accounts sets i → waveAt sets i < w
  waves : ∀ w wave, (after sets turns).waves[w]? = some wave ↔
    wave = (List.range turns).filter (fun i ↦ waveAt sets i = w) ∧ wave ≠ []

/-- The computed wave is the least one above those of the earlier indices in conflict. -/
theorem Follows.waveAt_le_iff (h : Follows sets turns) (w : ℕ) :
    waveAt sets turns ≤ w ↔ ∀ i < turns, Conflict sets i turns → waveAt sets i < w := by
  rw [waveAt, waveFor_le_iff]
  constructor
  · rintro hnext i hi ⟨id, hid, hturn⟩
    exact (h.next_le id w).mp (hnext id hturn) i hi hid
  · intro hwaves id hturn
    apply (h.next_le id w).mpr
    intro i hi hid
    exact hwaves i hi ⟨id, hid, hturn⟩

/-- The wave of an index so far is a wave so far. -/
theorem Follows.waveAt_lt (h : Follows sets turns) {i : ℕ} (hi : i < turns) :
    waveAt sets i < (after sets turns).waves.length := by
  have hmem : i ∈ (List.range turns).filter (fun j ↦ waveAt sets j = waveAt sets i) := by
    rw [List.mem_filter, List.mem_range]
    exact ⟨hi, decide_eq_true rfl⟩
  have hsome := (h.waves _ _).mpr ⟨rfl, List.ne_nil_of_mem hmem⟩
  exact (List.getElem?_eq_some_iff.mp hsome).1

/-- A new wave is opened at most at the end: with it, the index is in range. -/
theorem Follows.waveAt_le (h : Follows sets turns) :
    waveAt sets turns ≤ (after sets turns).waves.length := by
  apply (h.waveAt_le_iff _).mpr
  intro i hi _
  exact h.waveAt_lt hi

theorem follows_zero : Follows sets 0 := by
  constructor
  · intro id w
    simp [after, placeAll, next, empty]
  · intro w wave
    simp [after, placeAll, empty]

theorem filter_range_succ (w : ℕ) :
    (List.range (turns + 1)).filter (fun i ↦ waveAt sets i = w) =
      (List.range turns).filter (fun i ↦ waveAt sets i = w) ++
        if waveAt sets turns = w then [turns] else [] := by
  rw [List.range_succ, List.filter_append]
  congr 1
  by_cases hw : waveAt sets turns = w <;> simp [hw]

/-- One turn of the loop. -/
theorem Follows.succ (h : Follows sets turns) (hturns : turns < sets.length) :
    Follows sets (turns + 1) := by
  have hplaced : ∀ w, (after sets (turns + 1)).waves[w]? =
      if w = waveAt sets turns then
        some (((after sets turns).waves[w]?.getD []) ++ [turns])
      else (after sets turns).waves[w]? := by
    intro w
    have hle := h.waveAt_le
    rw [after_succ hturns, place]
    show (List.modify _ (waveAt sets turns) _)[w]? = _
    rw [List.getElem?_modify]
    by_cases hopen : waveAt sets turns = (after sets turns).waves.length
    · have hextended : (if waveAt sets turns = (after sets turns).waves.length then
          (after sets turns).waves ++ [[]] else (after sets turns).waves)[w]? =
          if w = waveAt sets turns then some [] else (after sets turns).waves[w]? := by
        rw [if_pos hopen, List.getElem?_append, hopen]
        split
        · next hbelow => rw [if_neg (Nat.ne_of_lt hbelow)]
        · next habove =>
          split
          · next hlast => simp [hlast]
          · next hother =>
            rw [List.getElem?_eq_none (not_lt.mp habove)]
            exact List.getElem?_eq_none (by rw [List.length_singleton]; omega)
      have hnone : (after sets turns).waves[waveAt sets turns]? = none :=
        List.getElem?_eq_none hopen.ge
      rw [show (after sets turns).waveFor (accounts sets turns) = waveAt sets turns from rfl,
        hextended]
      by_cases hw : w = waveAt sets turns
      · rw [if_pos hw, if_pos hw, hw, hnone]
        simp
      · rw [if_neg hw, if_neg hw]
        simp [Ne.symm hw]
    · have hbelow : waveAt sets turns < (after sets turns).waves.length := lt_of_le_of_ne hle hopen
      rw [show (after sets turns).waveFor (accounts sets turns) = waveAt sets turns from rfl,
        if_neg hopen]
      by_cases hw : w = waveAt sets turns
      · rw [if_pos hw, hw, List.getElem?_eq_getElem hbelow]
        simp
      · rw [if_neg hw]
        simp [Ne.symm hw]
  constructor
  · intro id w
    rw [after_succ hturns, next_place]
    show (if id ∈ accounts sets turns then waveAt sets turns + 1 else _) ≤ w ↔ _
    split
    · next hturn =>
      constructor
      · intro hlater i hi hid
        rcases Nat.lt_succ_iff_lt_or_eq.mp hi with hbefore | rfl
        · have hearlier : waveAt sets i < waveAt sets turns :=
            (h.waveAt_le_iff _).mp le_rfl i hbefore ⟨id, hid, hturn⟩
          omega
        · exact hlater
      · intro hall
        exact hall turns (Nat.lt_succ_self turns) hturn
    · next hturn =>
      rw [h.next_le]
      constructor
      · intro hall i hi hid
        rcases Nat.lt_succ_iff_lt_or_eq.mp hi with hbefore | rfl
        · exact hall i hbefore hid
        · exact absurd hid hturn
      · intro hall i hi hid
        exact hall i (Nat.lt_succ_of_lt hi) hid
  · intro w wave
    rw [hplaced, filter_range_succ]
    by_cases hw : waveAt sets turns = w
    · rw [if_pos hw.symm, if_pos hw]
      have hbefore : (after sets turns).waves[w]?.getD [] =
          (List.range turns).filter (fun i ↦ waveAt sets i = w) := by
        cases hwave : (after sets turns).waves[w]? with
        | some before => exact ((h.waves w before).mp hwave).1
        | none =>
          by_contra hsome
          have hnonempty := Ne.symm hsome
          rw [(h.waves w _).mpr ⟨rfl, hnonempty⟩] at hwave
          exact absurd hwave (Option.some_ne_none _)
      rw [hbefore, Option.some_inj]
      constructor
      · rintro rfl
        exact ⟨rfl, by simp⟩
      · rintro ⟨rfl, -⟩
        rfl
    · rw [if_neg (Ne.symm hw), if_neg hw, List.append_nil]
      exact h.waves w wave

theorem follows (hturns : turns ≤ sets.length) : Follows sets turns := by
  induction turns with
  | zero => exact follows_zero
  | succ turns ih => exact (ih (Nat.le_of_succ_le hturns)).succ hturns

/-- For every list of account sets, each index is in exactly one wave, which is the earliest one
above the waves of the earlier indices that share an account with it. The indices of a wave share no
account, no wave is empty, and in every turn the wave that is computed is one of the waves so far or
the next one. -/
theorem waves_earliest (sets : List (List Bytes32)) :
    (∀ w wave, (scheduleWaves sets)[w]? = some wave ↔
      wave = (List.range sets.length).filter (fun i ↦ waveAt sets i = w) ∧ wave ≠ []) ∧
    (scheduleWaves sets).flatten.Perm (List.range sets.length) ∧
    (∀ j < sets.length,
      IsLeast { w | ∀ i < j, Conflict sets i j → waveAt sets i < w } (waveAt sets j)) ∧
    (∀ i j, i < j → j < sets.length → Conflict sets i j → waveAt sets i < waveAt sets j) ∧
    (∀ wave ∈ scheduleWaves sets, wave.Pairwise fun i j ↦ ¬ Conflict sets i j) ∧
    ∀ turns < sets.length, waveAt sets turns ≤ (after sets turns).waves.length := by
  have hleast : ∀ j < sets.length,
      IsLeast { w | ∀ i < j, Conflict sets i j → waveAt sets i < w } (waveAt sets j) := by
    intro j hj
    have h := follows hj.le
    constructor
    · exact (h.waveAt_le_iff _).mp le_rfl
    · intro w hw
      exact (h.waveAt_le_iff w).mpr hw
  have horder : ∀ i j, i < j → j < sets.length → Conflict sets i j →
      waveAt sets i < waveAt sets j :=
    fun i j hij hj hconflict ↦ (hleast j hj).1 i hij hconflict
  have hlast : Follows sets sets.length := follows le_rfl
  have hwaves := hlast.waves
  rw [← scheduleWaves_eq] at hwaves
  refine ⟨hwaves, ?_, hleast, horder, ?_, fun turns hturns ↦ (follows hturns.le).waveAt_le⟩
  · apply (List.perm_ext_iff_of_nodup ?_ List.nodup_range).mpr
    · intro j
      rw [List.mem_flatten, List.mem_range]
      constructor
      · rintro ⟨wave, hwave, hj⟩
        obtain ⟨w, hw⟩ := List.mem_iff_getElem?.mp hwave
        rw [((hwaves w wave).mp hw).1] at hj
        exact List.mem_range.mp (List.mem_of_mem_filter hj)
      · intro hj
        have hmem : j ∈ (List.range sets.length).filter
            (fun i ↦ waveAt sets i = waveAt sets j) :=
          List.mem_filter.mpr ⟨List.mem_range.mpr hj, decide_eq_true rfl⟩
        exact ⟨_, List.mem_of_getElem? ((hwaves _ _).mpr ⟨rfl, List.ne_nil_of_mem hmem⟩), hmem⟩
    · rw [List.nodup_flatten]
      constructor
      · intro wave hwave
        obtain ⟨w, hw⟩ := List.mem_iff_getElem?.mp hwave
        rw [((hwaves w wave).mp hw).1]
        exact List.nodup_range.filter _
      · rw [List.pairwise_iff_getElem]
        intro v w hv hw hvw j hfirst hsecond
        rw [((hwaves v _).mp (List.getElem?_eq_getElem hv)).1, List.mem_filter] at hfirst
        rw [((hwaves w _).mp (List.getElem?_eq_getElem hw)).1, List.mem_filter] at hsecond
        have hv' := of_decide_eq_true hfirst.2
        have hw' := of_decide_eq_true hsecond.2
        omega
  · intro wave hwave
    obtain ⟨w, hw⟩ := List.mem_iff_getElem?.mp hwave
    obtain ⟨rfl, -⟩ := (hwaves w wave).mp hw
    apply (List.pairwise_lt_range.filter _).imp_of_mem
    intro i j hi hj hij hconflict
    obtain ⟨hrange, hwaveJ⟩ := List.mem_filter.mp hj
    have hwaveI := (List.mem_filter.mp hi).2
    have hbefore := horder i j hij (List.mem_range.mp hrange) hconflict
    rw [of_decide_eq_true hwaveI, of_decide_eq_true hwaveJ] at hbefore
    exact absurd hbefore (lt_irrefl w)

end Latebra.State.Schedule
