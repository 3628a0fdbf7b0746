import Mathlib

/-!
# Selection by priority

Taking the `n` entries of highest priority out of a queue: `picked` lists them, highest first, and
`left` is the queue without them, in its old order. The two are the queue split in two
(`picked_append_left_perm`), nothing left behind outranks what was picked (`priority_left_le`), and
entries of one priority stand in queue order, the picked ones before those left behind
(`filter_picked_append_left`).

`swapRemove` is the removal that fills the gap with the last entry. It disturbs the order of the
queue unless the entry it removes is the last one (`swapRemove_last`).
-/

set_option autoImplicit false
set_option relaxedAutoImplicit false

namespace Latebra.Foundation

namespace PrioritySelection

variable {α : Type} (priority : α → ℕ)

/-- The entries with their positions, by priority, highest first. The sort is stable. -/
def ranked (queue : List α) : List (α × ℕ) :=
  queue.zipIdx.mergeSort fun first second ↦ priority second.1 ≤ priority first.1

/-- The `n` entries of highest priority. -/
def picked (n : ℕ) (queue : List α) : List α := ((ranked priority queue).take n).map Prod.fst

/-- The entries that are not picked, in queue order. -/
def left (n : ℕ) (queue : List α) : List α :=
  (queue.zipIdx.filter fun entry ↦
    entry.2 ∉ ((ranked priority queue).take n).map Prod.snd).map Prod.fst

variable {queue : List α} {n : ℕ}

theorem ranked_perm (queue : List α) : (ranked priority queue).Perm queue.zipIdx :=
  List.mergeSort_perm _ _

theorem ranked_pairwise (queue : List α) :
    (ranked priority queue).Pairwise fun first second ↦ priority second.1 ≤ priority first.1 := by
  have hsorted : (ranked priority queue).Pairwise fun first second ↦
      decide (priority second.1 ≤ priority first.1) = true := List.pairwise_mergeSort
    (fun a b c hab hbc ↦ by simp only [decide_eq_true_eq] at *; omega)
    (fun a b ↦ by simp only [Bool.or_eq_true, decide_eq_true_eq]; omega) queue.zipIdx
  exact hsorted.imp fun h ↦ of_decide_eq_true h

theorem length_picked (n : ℕ) (queue : List α) :
    (picked priority n queue).length = min n queue.length := by
  rw [picked, List.length_map, List.length_take, (ranked_perm priority queue).length_eq,
    List.length_zipIdx]

theorem picked_pairwise (n : ℕ) (queue : List α) :
    (picked priority n queue).Pairwise fun first second ↦ priority second ≤ priority first :=
  List.pairwise_map.mpr ((ranked_pairwise priority queue).sublist (List.take_sublist _ _))

theorem nodup_positions (queue : List α) : ((ranked priority queue).map Prod.snd).Nodup := by
  have hzip : (queue.zipIdx.map Prod.snd).Nodup := by
    rw [List.zipIdx_map_snd]
    exact List.nodup_range' ..
  exact ((ranked_perm priority queue).map Prod.snd).nodup_iff.mpr hzip

/-- Entries of one priority are ranked in queue order. -/
theorem filter_ranked (queue : List α) (k : ℕ) :
    (ranked priority queue).filter (fun entry ↦ priority entry.1 = k) =
      queue.zipIdx.filter fun entry ↦ priority entry.1 = k := by
  have hsame : (queue.zipIdx.filter fun entry ↦ priority entry.1 = k).Pairwise
      fun first second ↦ decide (priority second.1 ≤ priority first.1) = true := by
    apply List.pairwise_of_forall_mem_list
    intro first hfirst second hsecond
    have hk := of_decide_eq_true (List.mem_filter.mp hfirst).2
    have hk' := of_decide_eq_true (List.mem_filter.mp hsecond).2
    exact decide_eq_true (by omega)
  have hsub := (List.sublist_mergeSort
    (fun a b c hab hbc ↦ by simp only [decide_eq_true_eq] at *; omega)
    (fun a b ↦ by simp only [Bool.or_eq_true, decide_eq_true_eq]; omega) hsame
    List.filter_sublist).filter fun entry : α × ℕ ↦ decide (priority entry.1 = k)
  rw [List.filter_filter] at hsub
  simp only [Bool.and_self] at hsub
  exact (hsub.eq_of_length ((ranked_perm priority queue).filter _).length_eq.symm).symm

/-- Whatever is behind the first `n` ranked entries is left. -/
theorem filter_notMem_take (n : ℕ) (queue : List α) {rest : List (α × ℕ)}
    (hrest : rest.Sublist ((ranked priority queue).drop n)) :
    rest.filter (fun entry ↦ entry.2 ∉ ((ranked priority queue).take n).map Prod.snd) = rest := by
  apply List.filter_eq_self.mpr
  intro entry hentry
  apply decide_eq_true
  intro hpicked
  have hnodup := nodup_positions priority queue
  rw [← List.take_append_drop n (ranked priority queue), List.map_append,
    List.nodup_append] at hnodup
  exact hnodup.2.2 _ hpicked _ (List.mem_map_of_mem (hrest.subset hentry)) rfl

theorem filter_mem_take (n : ℕ) (queue : List α) {rest : List (α × ℕ)}
    (hrest : rest.Sublist ((ranked priority queue).take n)) :
    rest.filter (fun entry ↦ entry.2 ∉ ((ranked priority queue).take n).map Prod.snd) = [] := by
  apply List.filter_eq_nil_iff.mpr
  intro entry hentry hleft
  exact of_decide_eq_true hleft (List.mem_map_of_mem (hrest.subset hentry))

/-- What is left is a rearrangement of the ranked entries behind the first `n`. -/
theorem left_perm (n : ℕ) (queue : List α) :
    (left priority n queue).Perm (((ranked priority queue).drop n).map Prod.fst) := by
  apply List.Perm.map
  have hperm := (ranked_perm priority queue).symm.filter
    fun entry : α × ℕ ↦ decide (entry.2 ∉ ((ranked priority queue).take n).map Prod.snd)
  apply hperm.trans
  conv_lhs => rw [← List.take_append_drop n (ranked priority queue)]
  rw [List.filter_append, List.take_append_drop, filter_mem_take priority n queue (List.Sublist.refl _),
    filter_notMem_take priority n queue (List.Sublist.refl _), List.nil_append]

/-- The queue is split in two, without loss or duplication. -/
theorem picked_append_left_perm (n : ℕ) (queue : List α) :
    (picked priority n queue ++ left priority n queue).Perm queue := by
  have hall : (picked priority n queue ++ ((ranked priority queue).drop n).map Prod.fst).Perm
      queue := by
    rw [picked, ← List.map_append, List.take_append_drop]
    refine ((ranked_perm priority queue).map Prod.fst).trans ?_
    rw [List.zipIdx_map_fst]
  exact ((left_perm priority n queue).append_left _).trans hall

/-- Nothing left behind outranks what was picked. -/
theorem priority_left_le {first second : α} (hfirst : first ∈ picked priority n queue)
    (hsecond : second ∈ left priority n queue) : priority second ≤ priority first := by
  have hsorted := ranked_pairwise priority queue
  rw [← List.take_append_drop n (ranked priority queue), List.pairwise_append] at hsorted
  obtain ⟨entry, hentry, rfl⟩ := List.mem_map.mp hfirst
  have hbehind := (left_perm priority n queue).mem_iff.mp hsecond
  obtain ⟨other, hother, rfl⟩ := List.mem_map.mp hbehind
  exact hsorted.2.2 entry hentry other hother

/-- Entries of one priority stand in queue order, the picked ones before those left behind. -/
theorem filter_picked_append_left (n : ℕ) (queue : List α) (k : ℕ) :
    (picked priority n queue ++ left priority n queue).filter (fun entry ↦ priority entry = k) =
      queue.filter fun entry ↦ priority entry = k := by
  have hranked := filter_ranked priority queue k
  rw [← List.take_append_drop n (ranked priority queue), List.filter_append] at hranked
  have hleft : (left priority n queue).filter (fun entry ↦ priority entry = k) =
      (((ranked priority queue).drop n).filter fun entry ↦ priority entry.1 = k).map Prod.fst := by
    rw [left, List.filter_map, List.filter_filter]
    simp only [Function.comp_def, Bool.and_comm (decide (priority _ = k))]
    rw [← List.filter_filter, ← hranked, List.filter_append,
      filter_mem_take priority n queue List.filter_sublist,
      filter_notMem_take priority n queue List.filter_sublist, List.nil_append]
  have hqueue : queue.filter (fun entry ↦ priority entry = k) =
      (queue.zipIdx.filter fun entry ↦ priority entry.1 = k).map Prod.fst := by
    conv_lhs => rw [← List.zipIdx_map_fst 0 queue, List.filter_map]
    rfl
  rw [List.filter_append, hleft, hqueue, ← hranked, List.map_append, picked, List.filter_map]
  rfl

theorem left_sublist (n : ℕ) (queue : List α) : (left priority n queue).Sublist queue := by
  have hsub := (List.filter_sublist (l := queue.zipIdx) (p := fun entry ↦
    decide (entry.2 ∉ ((ranked priority queue).take n).map Prod.snd))).map Prod.fst
  rwa [List.zipIdx_map_fst] at hsub

end PrioritySelection

section SwapRemove

variable {α : Type}

/-- Remove the entry at a position and put the last entry into its place. -/
def swapRemove (queue : List α) (i : ℕ) : List α :=
  match queue.getLast? with
  | none => []
  | some last => (queue.set i last).dropLast

theorem length_swapRemove (queue : List α) (i : ℕ) :
    (swapRemove queue i).length = queue.length - 1 := by
  unfold swapRemove
  cases hlast : queue.getLast? with
  | none => simp [List.getLast?_eq_none_iff.mp hlast]
  | some last => simp

/-- Removing the last entry moves nothing. -/
theorem swapRemove_last (queue : List α) (i : ℕ) (hi : i + 1 = queue.length) :
    swapRemove queue i = queue.dropLast := by
  unfold swapRemove
  cases hlast : queue.getLast? with
  | none => simp [List.getLast?_eq_none_iff.mp hlast]
  | some last =>
    obtain ⟨front, rfl⟩ := List.getLast?_eq_some_iff.mp hlast
    have hfront : i = front.length := by simpa using hi
    simp [hfront]

theorem mem_of_mem_swapRemove {queue : List α} {i : ℕ} {entry : α}
    (hentry : entry ∈ swapRemove queue i) : entry ∈ queue := by
  unfold swapRemove at hentry
  cases hlast : queue.getLast? with
  | none =>
    rw [hlast] at hentry
    exact absurd hentry List.not_mem_nil
  | some last =>
    rw [hlast] at hentry
    rcases List.mem_or_eq_of_mem_set (List.mem_of_mem_dropLast hentry) with hmem | rfl
    · exact hmem
    · exact List.mem_of_getLast? hlast

open scoped List in
/-- Only the entry at the position is lost. -/
theorem cons_swapRemove_perm {queue : List α} {i : ℕ} (hi : i < queue.length) :
    (queue[i] :: swapRemove queue i).Perm queue := by
  have hne : queue ≠ [] := List.ne_nil_of_length_pos (Nat.zero_lt_of_lt hi)
  obtain ⟨front, last, rfl⟩ : ∃ front last, queue = front ++ [last] :=
    ⟨_, _, (List.dropLast_append_getLast hne).symm⟩
  have hlength : i ≤ front.length := by simpa using Nat.lt_succ_iff.mp (by simpa using hi)
  rcases Nat.lt_or_eq_of_le hlength with hfront | hlast
  · have hremoved : swapRemove (front ++ [last]) i = front.set i last := by
      unfold swapRemove
      rw [List.getLast?_concat]
      show ((front ++ [last]).set i last).dropLast = _
      rw [List.set_append_left _ _ hfront, List.dropLast_concat]
    rw [hremoved, List.getElem_append_left hfront, List.set_eq_take_append_cons_drop,
      if_pos hfront]
    calc front[i] :: (front.take i ++ last :: front.drop (i + 1))
      _ ~ front[i] :: last :: (front.take i ++ front.drop (i + 1)) :=
        List.perm_middle.cons _
      _ ~ last :: front[i] :: (front.take i ++ front.drop (i + 1)) := List.Perm.swap _ _ _
      _ ~ last :: (front.take i ++ front[i] :: front.drop (i + 1)) :=
        List.perm_middle.symm.cons _
      _ = last :: front := by rw [List.cons_getElem_drop_succ, List.take_append_drop]
      _ ~ front ++ [last] := (List.perm_append_singleton last front).symm
  · subst hlast
    rw [swapRemove_last _ _ (by simp), List.dropLast_concat, List.getElem_concat_length rfl]
    exact (List.perm_append_singleton last front).symm

/-- A removal adds nothing and repeats nothing. -/
theorem swapRemove_subperm (queue : List α) (i : ℕ) : (swapRemove queue i).Subperm queue := by
  by_cases hi : i < queue.length
  · exact (List.sublist_cons_self _ _).subperm.trans (cons_swapRemove_perm hi).subperm
  · unfold swapRemove
    cases queue.getLast? with
    | none => exact (List.nil_sublist _).subperm
    | some last =>
      show ((queue.set i last).dropLast).Subperm queue
      rw [List.set_eq_of_length_le (not_lt.mp hi)]
      exact (List.dropLast_sublist _).subperm

/-- A symmetric relation between all entries survives a removal. -/
theorem Pairwise.swapRemove {relation : α → α → Prop} (hsymm : ∀ a b, relation a b → relation b a)
    {queue : List α} (hqueue : queue.Pairwise relation) (i : ℕ) :
    (swapRemove queue i).Pairwise relation := by
  obtain ⟨kept, hperm, hsub⟩ := swapRemove_subperm queue i
  exact (hperm.pairwise_iff fun {a b} ↦ hsymm a b).mp (hqueue.sublist hsub)

end SwapRemove

end Latebra.Foundation
