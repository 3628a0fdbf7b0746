import Mathlib

/-!
# Lots that mature

A book of lots is a list of amounts, each opened at a step and due at a time, oldest first. A sweep
pays out the lots that are due and may open one, and a penalty takes an amount out of the lots,
oldest first.

Which part of a lot was paid at a step and which was taken at one is determined by the moves:
`paid` and `cut`. `paid_add_cut` says that the first sweep at or after the due time pays a lot in
full, but for what was taken from it before.
-/

set_option autoImplicit false
set_option relaxedAutoImplicit false

namespace Latebra.Foundation

/-- An amount that was opened at a step and is paid out by the first sweep at its due time. -/
structure Lot where
  opened : ℕ
  amount : ℕ
  due : ℕ

namespace Lots

variable {lots : List Lot} {i j now : ℕ}

/-- The amounts of some lots together. -/
def total (lots : List Lot) : ℕ := (lots.map Lot.amount).sum

/-- What is left of the lot opened at a step. -/
def held (i : ℕ) (lots : List Lot) : ℕ := total (lots.filter fun lot ↦ lot.opened = i)

/-- The lots that are due. -/
def matured (now : ℕ) (lots : List Lot) : List Lot := lots.filter fun lot ↦ lot.due ≤ now

/-- The lots that are not due yet. -/
def running (now : ℕ) (lots : List Lot) : List Lot := lots.filter fun lot ↦ ¬ lot.due ≤ now

/-- Take an amount out of the lots, oldest first, and drop those that are used up. -/
def takeOldest : ℕ → List Lot → List Lot
  | _, [] => []
  | amount, lot :: rest =>
    if lot.amount ≤ amount then takeOldest (amount - lot.amount) rest
    else { lot with amount := lot.amount - amount } :: rest

@[simp]
theorem total_nil : total [] = 0 := rfl

@[simp]
theorem total_cons (lot : Lot) (rest : List Lot) : total (lot :: rest) = lot.amount + total rest :=
  rfl

@[simp]
theorem total_append (first second : List Lot) :
    total (first ++ second) = total first + total second := by
  simp [total]

theorem held_cons (lot : Lot) (rest : List Lot) :
    held i (lot :: rest) = (if lot.opened = i then lot.amount else 0) + held i rest := by
  unfold held
  by_cases htag : lot.opened = i <;> simp [htag]

@[simp]
theorem held_append (first second : List Lot) :
    held i (first ++ second) = held i first + held i second := by
  simp [held]

theorem total_filter_add (lots : List Lot) (keep : Lot → Bool) :
    total (lots.filter keep) + total (lots.filter fun lot ↦ !keep lot) = total lots := by
  induction lots with
  | nil => rfl
  | cons lot rest ih =>
    cases hkeep : keep lot <;> simp [hkeep] <;> omega

theorem total_matured_add (now : ℕ) (lots : List Lot) :
    total (matured now lots) + total (running now lots) = total lots := by
  have hsplit := total_filter_add lots fun lot ↦ decide (lot.due ≤ now)
  simpa only [matured, running, decide_not] using hsplit

/-- The lots of the steps before `j` make up the total. -/
theorem total_eq_sum_held (hbefore : ∀ lot ∈ lots, lot.opened < j) :
    total lots = ∑ i ∈ Finset.range j, held i lots := by
  induction lots with
  | nil => simp [held]
  | cons lot rest ih =>
    have hrest := ih fun other hother ↦ hbefore other (List.mem_cons_of_mem _ hother)
    have hopened : lot.opened ∈ Finset.range j :=
      Finset.mem_range.mpr (hbefore lot List.mem_cons_self)
    simp only [held_cons, Finset.sum_add_distrib, Finset.sum_ite_eq, if_pos hopened]
    rw [total_cons, hrest]

theorem held_eq_zero (hother : ∀ lot ∈ lots, lot.opened ≠ i) : held i lots = 0 := by
  have hnone : (lots.filter fun lot ↦ lot.opened = i) = [] :=
    List.filter_eq_nil_iff.mpr fun lot hlot ↦ by simpa using hother lot hlot
  rw [held, hnone, total_nil]

/-- A lot that is not due is not among the matured ones. -/
theorem held_matured_of_lt (hdue : ∀ lot ∈ lots, lot.opened = i → now < lot.due) :
    held i (matured now lots) = 0 := by
  refine held_eq_zero fun lot hlot htag ↦ ?_
  obtain ⟨hmem, hmatured⟩ := List.mem_filter.mp hlot
  exact absurd (of_decide_eq_true hmatured) (Nat.not_le.mpr (hdue lot hmem htag))

/-- A lot that is due is among the matured ones, with all that is left of it. -/
theorem held_matured_of_le (hdue : ∀ lot ∈ lots, lot.opened = i → lot.due ≤ now) :
    held i (matured now lots) = held i lots := by
  unfold held matured
  rw [List.filter_filter]
  refine congrArg total (List.filter_congr fun lot hlot ↦ ?_)
  by_cases htag : lot.opened = i
  · simp [htag, hdue lot hlot htag]
  · simp [htag]

theorem held_matured_add (i now : ℕ) (lots : List Lot) :
    held i (matured now lots) + held i (running now lots) = held i lots := by
  have hsplit := total_matured_add now (lots.filter fun lot ↦ lot.opened = i)
  unfold held matured running at *
  simpa only [List.filter_filter, Bool.and_comm] using hsplit

theorem held_takeOldest_le (i amount : ℕ) (lots : List Lot) :
    held i (takeOldest amount lots) ≤ held i lots := by
  induction lots generalizing amount with
  | nil => exact le_rfl
  | cons lot rest ih =>
    unfold takeOldest
    split
    · exact (ih _).trans (by rw [held_cons]; exact Nat.le_add_left _ _)
    · rw [held_cons, held_cons]
      apply Nat.add_le_add_right
      show (if lot.opened = i then lot.amount - amount else 0) ≤ _
      split
      · exact Nat.sub_le _ _
      · exact le_rfl

theorem takeOldest_zero (hpos : ∀ lot ∈ lots, 0 < lot.amount) : takeOldest 0 lots = lots := by
  cases lots with
  | nil => rfl
  | cons lot rest =>
    unfold takeOldest
    rw [if_neg (Nat.not_le.mpr (hpos lot List.mem_cons_self)), Nat.sub_zero]

/-- A penalty takes its amount, or all there is. -/
theorem total_takeOldest (amount : ℕ) (lots : List Lot) :
    total (takeOldest amount lots) = total lots - amount := by
  induction lots generalizing amount with
  | nil => simp [takeOldest]
  | cons lot rest ih =>
    unfold takeOldest
    split
    · next hused =>
      rw [ih, total_cons]
      omega
    · next hleft =>
      rw [total_cons, total_cons]
      show lot.amount - amount + total rest = _
      omega

/-- What is left after a penalty was there before, with its step and its due time. -/
theorem of_mem_takeOldest {amount : ℕ} {lot : Lot} (hlot : lot ∈ takeOldest amount lots)
    (hpos : ∀ other ∈ lots, 0 < other.amount) :
    0 < lot.amount ∧ ∃ other ∈ lots, other.opened = lot.opened ∧ other.due = lot.due := by
  induction lots generalizing amount with
  | nil => exact absurd hlot List.not_mem_nil
  | cons first rest ih =>
    have hrest := fun other hother ↦ hpos other (List.mem_cons_of_mem first hother)
    unfold takeOldest at hlot
    split at hlot
    · obtain ⟨hleft, other, hother, hsame⟩ := ih hlot hrest
      exact ⟨hleft, other, List.mem_cons_of_mem _ hother, hsame⟩
    · next hmore =>
      rcases List.mem_cons.mp hlot with rfl | htail
      · exact ⟨Nat.sub_pos_of_lt (Nat.not_le.mp hmore), first, List.mem_cons_self, rfl, rfl⟩
      · exact ⟨hrest lot htail, lot, List.mem_cons_of_mem _ htail, rfl, rfl⟩

/-! ### Moves -/

/-- What a step does to a book: it sweeps the lots that are due and opens one, of nothing where it
opens none, it takes an amount, or it leaves the book. -/
inductive Move where
  | sweep (now amount due : ℕ)
  | take (amount : ℕ)
  | rest

/-- The lots after a move, made at a step. -/
def Move.after (step : ℕ) (lots : List Lot) : Move → List Lot
  | .sweep now amount due =>
    running now lots ++ if 0 < amount then [⟨step, amount, due⟩] else []
  | .take amount => takeOldest amount lots
  | .rest => lots

/-- The book after the first moves. -/
def book (moves : ℕ → Move) : ℕ → List Lot
  | 0 => []
  | j + 1 => (moves j).after j (book moves j)

/-- What a step pays of the lot opened at another. -/
def paid (moves : ℕ → Move) (i j : ℕ) : ℕ :=
  match moves j with
  | .sweep now _ _ => held i (matured now (book moves j))
  | _ => 0

/-- What a step takes of the lot opened at another. -/
def cut (moves : ℕ → Move) (i j : ℕ) : ℕ :=
  match moves j with
  | .take _ => held i (book moves j) - held i (book moves (j + 1))
  | _ => 0

section Book

variable {moves : ℕ → Move} {amount due : ℕ}

/-- Every lot was opened by a sweep before, with its due time, and something is left of it. -/
theorem opened_of_mem {lot : Lot} (hlot : lot ∈ book moves j) :
    lot.opened < j ∧ 0 < lot.amount ∧
      ∃ now amount, moves lot.opened = .sweep now amount lot.due := by
  induction j generalizing lot with
  | zero => exact absurd hlot List.not_mem_nil
  | succ j ih =>
    change lot ∈ (moves j).after j (book moves j) at hlot
    cases hmove : moves j with
    | sweep now amount due =>
      rw [hmove, Move.after, List.mem_append] at hlot
      rcases hlot with hrunning | hopened
      · obtain ⟨hbefore, hrest⟩ := ih (List.mem_of_mem_filter hrunning)
        exact ⟨Nat.lt_succ_of_lt hbefore, hrest⟩
      · split at hopened
        · next hpos =>
          obtain rfl := List.mem_singleton.mp hopened
          exact ⟨Nat.lt_succ_self j, hpos, now, amount, hmove⟩
        · exact absurd hopened List.not_mem_nil
    | take amount =>
      rw [hmove, Move.after] at hlot
      obtain ⟨hpos, other, hother, hopened, hdue⟩ :=
        of_mem_takeOldest hlot fun other hother ↦ (ih hother).2.1
      obtain ⟨hbefore, -, hsweep⟩ := ih hother
      rw [hopened] at hbefore hsweep
      rw [hdue] at hsweep
      exact ⟨Nat.lt_succ_of_lt hbefore, hpos, hsweep⟩
    | rest =>
      rw [hmove, Move.after] at hlot
      obtain ⟨hbefore, hrest⟩ := ih hlot
      exact ⟨Nat.lt_succ_of_lt hbefore, hrest⟩

theorem due_of_mem {lot : Lot} (hlot : lot ∈ book moves j) (htag : lot.opened = i)
    (hopen : moves i = .sweep now amount due) : lot.due = due := by
  obtain ⟨-, -, now', amount', hsweep⟩ := opened_of_mem hlot
  rw [htag, hopen] at hsweep
  exact ((Move.sweep.inj hsweep).2.2).symm

/-- No lot is there before it is opened. -/
theorem held_before (moves : ℕ → Move) (hle : j ≤ i) : held i (book moves j) = 0 :=
  held_eq_zero fun lot hlot htag ↦ by
    have hbefore := (opened_of_mem hlot).1
    omega

/-- A step that opens a lot leaves it whole. -/
theorem held_opened (hopen : moves i = .sweep now amount due) :
    held i (book moves (i + 1)) = amount := by
  have hafter : book moves (i + 1) =
      running now (book moves i) ++ if 0 < amount then [⟨i, amount, due⟩] else [] := by
    rw [book, hopen, Move.after]
  have hold : held i (running now (book moves i)) = 0 := by
    have hsplit := held_matured_add i now (book moves i)
    rw [held_before moves le_rfl] at hsplit
    omega
  rw [hafter, held_append, hold]
  split
  · simp [held]
  · next hzero =>
    rw [show held i [] = 0 from rfl]
    omega

/-- What a step leaves of an earlier lot, with what it pays and what it takes, is what was there. -/
theorem held_step (moves : ℕ → Move) (hlt : i < j) :
    held i (book moves (j + 1)) + paid moves i j + cut moves i j = held i (book moves j) := by
  have hafter : book moves (j + 1) = (moves j).after j (book moves j) := rfl
  unfold paid cut
  cases hmove : moves j with
  | sweep now amount due =>
    rw [hmove, Move.after] at hafter
    have hnew : held i (if 0 < amount then [(⟨j, amount, due⟩ : Lot)] else []) = 0 := by
      refine held_eq_zero fun lot hlot htag ↦ ?_
      split at hlot
      · obtain rfl := List.mem_singleton.mp hlot
        exact absurd htag (Nat.ne_of_gt hlt)
      · exact absurd hlot List.not_mem_nil
    have hsplit := held_matured_add i now (book moves j)
    rw [hafter, held_append, hnew]
    show held i (running now (book moves j)) + 0 + held i (matured now (book moves j)) + 0 = _
    omega
  | take amount =>
    rw [hmove, Move.after] at hafter
    have hle := held_takeOldest_le i amount (book moves j)
    rw [← hafter] at hle
    show held i (book moves (j + 1)) + 0 + (_ - held i (book moves (j + 1))) = _
    omega
  | rest =>
    rw [hafter, hmove]
    rfl

/-- A step that is not after the opening of a lot neither pays nor takes anything of it. -/
theorem untouched_before (hle : j ≤ i) : paid moves i j = 0 ∧ cut moves i j = 0 := by
  have hnone := held_before moves hle
  unfold paid cut
  cases moves j with
  | sweep now amount due =>
    have hsplit := held_matured_add i now (book moves j)
    exact ⟨by show held i (matured now _) = 0; omega, rfl⟩
  | take amount => exact ⟨rfl, by show held i (book moves j) - _ = 0; omega⟩
  | rest => exact ⟨rfl, rfl⟩

/-- A lot is what is left of it, what was paid and what was taken. -/
theorem held_add_flows (hopen : moves i = .sweep now amount due) (hlt : i < j) :
    held i (book moves j) + ∑ k ∈ Finset.range j, paid moves i k +
      ∑ k ∈ Finset.range j, cut moves i k = amount := by
  induction j, hlt using Nat.le_induction with
  | base =>
    rw [Finset.sum_eq_zero fun k hk ↦ (untouched_before (by simp at hk; omega)).1,
      Finset.sum_eq_zero fun k hk ↦ (untouched_before (by simp at hk; omega)).2,
      held_opened hopen]
    rfl
  | succ j hj ih =>
    have hstep := held_step moves (Nat.lt_of_succ_le hj)
    rw [Finset.sum_range_succ, Finset.sum_range_succ]
    omega

/-- What is held of a step is left of the lot that it opened. -/
theorem opened_of_held (hheld : held i (book moves j) ≠ 0) :
    i < j ∧ ∃ now amount due, moves i = .sweep now amount due ∧ 0 < amount := by
  obtain ⟨lot, hlot, htag⟩ : ∃ lot ∈ book moves j, lot.opened = i := by
    by_contra hnone
    exact hheld (held_eq_zero fun lot hlot htag ↦ hnone ⟨lot, hlot, htag⟩)
  obtain ⟨hlt, -, now, amount, hopen⟩ := opened_of_mem hlot
  rw [htag] at hlt hopen
  have hflows := held_add_flows hopen hlt
  exact ⟨hlt, now, amount, lot.due, hopen, by omega⟩

/-- Only a lot is paid anything of, by a sweep at or after its due time. -/
theorem opened_of_paid (hpaid : paid moves i j ≠ 0) :
    i < j ∧ ∃ now amount due now' amount' due', moves i = .sweep now amount due ∧ 0 < amount ∧
      moves j = .sweep now' amount' due' ∧ due ≤ now' := by
  unfold paid at hpaid
  cases hmove : moves j with
  | sweep now' amount' due' =>
    rw [hmove] at hpaid
    change held i (matured now' (book moves j)) ≠ 0 at hpaid
    have hsplit := held_matured_add i now' (book moves j)
    have hheld : held i (book moves j) ≠ 0 := by omega
    obtain ⟨hlt, now, amount, due, hopen, hpos⟩ := opened_of_held hheld
    refine ⟨hlt, now, amount, due, now', amount', due', hopen, hpos, rfl, ?_⟩
    by_contra hearly
    exact hpaid (held_matured_of_lt fun lot hlot htag ↦
      (due_of_mem hlot htag hopen).symm ▸ Nat.not_le.mp hearly)
  | take => rw [hmove] at hpaid; exact absurd rfl hpaid
  | rest => rw [hmove] at hpaid; exact absurd rfl hpaid

/-- Only a lot is taken anything of, by a penalty. -/
theorem opened_of_cut (hcut : cut moves i j ≠ 0) :
    i < j ∧ (∃ now amount due, moves i = .sweep now amount due ∧ 0 < amount) ∧
      ∃ amount, moves j = .take amount := by
  unfold cut at hcut
  cases hmove : moves j with
  | sweep => rw [hmove] at hcut; exact absurd rfl hcut
  | take amount =>
    rw [hmove] at hcut
    change held i (book moves j) - held i (book moves (j + 1)) ≠ 0 at hcut
    have hheld : held i (book moves j) ≠ 0 := by omega
    obtain ⟨hlt, hopened⟩ := opened_of_held hheld
    exact ⟨hlt, hopened, amount, rfl⟩
  | rest => rw [hmove] at hcut; exact absurd rfl hcut

/-- The first sweep at or after the due time pays a lot in full, but for what was taken before. -/
theorem paid_add_cut {now' amount' due' : ℕ} (hopen : moves i = .sweep now amount due) (hlt : i < j)
    (hsweep : moves j = .sweep now' amount' due') (hdue : due ≤ now')
    (hfirst : ∀ k now'' amount'' due'', i < k → k < j → moves k = .sweep now'' amount'' due'' →
      now'' < due) :
    paid moves i j + ∑ k ∈ Finset.range j, cut moves i k = amount := by
  have hpaid : paid moves i j = held i (book moves j) := by
    unfold paid
    rw [hsweep]
    exact held_matured_of_le fun lot hlot htag ↦ (due_of_mem hlot htag hopen).trans_le hdue
  have hbefore : ∑ k ∈ Finset.range j, paid moves i k = 0 := by
    refine Finset.sum_eq_zero fun k hk ↦ ?_
    by_contra hnonzero
    obtain ⟨hik, _, _, _, now'', amount'', due'', hopen', -, hsweep', hdue'⟩ :=
      opened_of_paid hnonzero
    obtain ⟨-, -, rfl⟩ := Move.sweep.inj (hopen.symm.trans hopen')
    exact absurd (hfirst k _ _ _ hik (Finset.mem_range.mp hk) hsweep') (Nat.not_lt.mpr hdue')
  have hflows := held_add_flows hopen hlt
  omega

/-- A sweep pays the lots that are due. -/
theorem total_matured_eq_sum_paid (hsweep : moves j = .sweep now amount due) :
    total (matured now (book moves j)) = ∑ i ∈ Finset.range j, paid moves i j := by
  unfold paid
  rw [hsweep]
  exact total_eq_sum_held fun lot hlot ↦ (opened_of_mem (List.mem_of_mem_filter hlot)).1

/-- A penalty is taken from the lots that there are. -/
theorem sum_cut_of_take (htake : moves j = .take amount) :
    ∑ i ∈ Finset.range j, cut moves i j = min amount (total (book moves j)) := by
  have hafter : book moves (j + 1) = takeOldest amount (book moves j) := by
    rw [book, htake, Move.after]
  have hbefore : total (book moves j) = ∑ i ∈ Finset.range j, held i (book moves j) :=
    total_eq_sum_held fun lot hlot ↦ (opened_of_mem hlot).1
  have hleft : total (book moves (j + 1)) =
      ∑ i ∈ Finset.range j, held i (book moves (j + 1)) := by
    refine total_eq_sum_held fun lot hlot ↦ ?_
    rw [hafter] at hlot
    obtain ⟨-, other, hother, hopened, -⟩ :=
      of_mem_takeOldest hlot fun other hother ↦ (opened_of_mem hother).2.1
    rw [← hopened]
    exact (opened_of_mem hother).1
  have hsteps : ∑ i ∈ Finset.range j, cut moves i j + ∑ i ∈ Finset.range j,
      held i (book moves (j + 1)) = ∑ i ∈ Finset.range j, held i (book moves j) := by
    rw [← Finset.sum_add_distrib]
    refine Finset.sum_congr rfl fun i hi ↦ ?_
    have hstep := held_step moves (Finset.mem_range.mp hi)
    have hunpaid : paid moves i j = 0 := by
      unfold paid
      rw [htake]
    omega
  rw [← hbefore, ← hleft, hafter, total_takeOldest] at hsteps
  omega

end Book

end Lots

end Latebra.Foundation
