import Latebra.Foundation.MaturingLots
import Latebra.State.StakingEvents

/-!
# Staking in a run

Over a whole run the unbonding entries of a validator are a book of lots (`unbonding_eq_book`): an
unstake opens a lot that is due after the delay, a stake or an unstake sweeps the lots that are due,
and a slashing takes from the oldest ones what the bonded stake does not cover.
`staking_conserves` draws the balance of a run from it.
-/

set_option autoImplicit false
set_option relaxedAutoImplicit false

namespace Latebra.State

open Foundation Crypto Latebra.Types

variable {C : CryptoSuite}

/-! ### Entries as lots -/

/-- The entries are the lots of a book, in order. -/
def SameLots (entries : List (UInt64 × UInt64)) (lots : List Lot) : Prop :=
  entries.map (fun entry ↦ (entry.1.toNat, entry.2.toNat)) =
    lots.map fun lot ↦ (lot.amount, lot.due)

namespace SameLots

variable {entries entries' : List (UInt64 × UInt64)} {lots lots' : List Lot}

theorem nil : SameLots [] [] := rfl

theorem total (h : SameLots entries lots) : unbondingTotal entries = Lots.total lots := by
  have hamounts := congrArg (fun pairs ↦ (pairs.map Prod.fst).sum) h
  simp only [List.map_map] at hamounts
  exact hamounts

theorem append (h : SameLots entries lots) (h' : SameLots entries' lots') :
    SameLots (entries ++ entries') (lots ++ lots') := by
  unfold SameLots at *
  rw [List.map_append, List.map_append, h, h']

/-- The entries and the lots that a test on the due time keeps. -/
theorem filter_due (h : SameLots entries lots) (keep : ℕ → Bool) :
    SameLots (entries.filter fun entry ↦ keep entry.2.toNat)
      (lots.filter fun lot ↦ keep lot.due) := by
  have hkept := congrArg (List.filter fun pair ↦ keep pair.2) h
  rw [List.filter_map, List.filter_map] at hkept
  exact hkept

theorem matured (h : SameLots entries lots) (height : UInt64) :
    SameLots (maturedEntries height entries) (Lots.matured height.toNat lots) := by
  have hkept := h.filter_due fun due ↦ decide (due ≤ height.toNat)
  simp only [maturedEntries, UInt64.le_iff_toNat_le]
  exact hkept

theorem running (h : SameLots entries lots) (height : UInt64) :
    SameLots (runningEntries height entries) (Lots.running height.toNat lots) := by
  have hkept := h.filter_due fun due ↦ decide (¬ due ≤ height.toNat)
  simp only [runningEntries, UInt64.le_iff_toNat_le]
  exact hkept

/-- A slashing takes from the entries what a penalty takes from the lots. -/
theorem slash (h : SameLots entries lots) (hpos : ∀ lot ∈ lots, 0 < lot.amount)
    (rest : UInt64) :
    SameLots ((slashUnbonding rest entries).filter fun entry ↦ entry.1 > 0)
      (Lots.takeOldest rest.toNat lots) := by
  induction lots generalizing entries rest with
  | nil =>
    obtain rfl := List.map_eq_nil_iff.mp h
    exact .nil
  | cons lot lots ih =>
    obtain ⟨⟨amount, due⟩, entries, rfl, hfirst, hothers⟩ := List.map_eq_cons_iff.mp h
    obtain ⟨hamount, hdue⟩ := Prod.mk.inj hfirst
    change amount.toNat = lot.amount at hamount
    have hlot := hpos lot List.mem_cons_self
    have hlots := fun other hother ↦ hpos other (List.mem_cons_of_mem lot hother)
    have htail : ∀ less : UInt64, SameLots
        ((slashUnbonding less entries).filter fun entry ↦ entry.1 > 0)
        (Lots.takeOldest less.toNat lots) := fun less ↦ ih hothers hlots less
    -- Once the penalty is used up, the entries behind stay as they are.
    have hkept : SameLots (entries.filter fun entry ↦ entry.1 > 0) lots := by
      have hnone := htail 0
      rwa [slashUnbonding_zero, UInt64.toNat_zero, Lots.takeOldest_zero hlots] at hnone
    by_cases hused : amount ≤ rest
    · have hused' := UInt64.le_iff_toNat_le.mp hused
      rw [slashUnbonding_of_le hused, Lots.takeOldest, if_pos (hamount ▸ hused')]
      have hless := htail (rest - amount)
      rwa [toNat_sub_of_toNat_le hused', hamount] at hless
    · have hleft : rest.toNat < amount.toNat := by
        rw [UInt64.le_iff_toNat_le] at hused
        omega
      have hdifference := toNat_sub_of_toNat_le hleft.le
      have hpositive : 0 < amount - rest := by
        rw [UInt64.lt_iff_toNat_lt, hdifference, UInt64.toNat_zero]
        omega
      rw [slashUnbonding_of_lt hleft, Lots.takeOldest, if_neg (by omega),
        List.filter_cons_of_pos (by exact decide_eq_true hpositive)]
      unfold SameLots at hkept ⊢
      rw [List.map_cons, List.map_cons, hkept, hdifference, hamount]
      exact congrArg (· :: _) (Prod.ext rfl hdue)

end SameLots

/-! ### Runs -/

/-- A run of operations from the empty ledger, of some length. -/
structure LedgerRun (C : CryptoSuite) (n : ℕ) where
  ledger : ℕ → Ledger C
  op : ℕ → LedgerOp C
  start : ledger 0 = .new
  step : ∀ j < n, (ledger j).step (op j) = some (ledger (j + 1))

namespace LedgerRun

variable {n : ℕ} (run : LedgerRun C n)

/-- The objects after the first operations. -/
def state (j : ℕ) : LedgerState C := (run.ledger j).view

/-- The event at a step. -/
def event (j : ℕ) : StakingEvent := (run.ledger j).stakingEvent (run.op j)

/-- A successful stake or unstake of a validator. -/
def Sweeps (v : Bytes32) (j : ℕ) (height : UInt64) : Prop :=
  (∃ amount, run.event j = .stake v amount height) ∨ ∃ amount, run.event j = .unstake v amount height

/-- What a step bonds out of the public balance of a validator. -/
def bonds (v : Bytes32) (j : ℕ) : ℕ :=
  match run.event j with
  | .stake id amount _ => if id = v then amount.toNat else 0
  | _ => 0

/-- What a step slashes off the stake of a validator. -/
def slashed (v : Bytes32) (j : ℕ) : ℕ :=
  match run.event j with
  | .slash id _ => if id = v then (run.state j).penalty v else 0
  | _ => 0

/-- What a step rewards an account with for evidence. -/
def rewarded (v : Bytes32) (j : ℕ) : ℕ :=
  match run.event j with
  | .slash id beneficiary => if v = beneficiary then (run.state j).slashingReward id v else 0
  | _ => 0

/-- What a step that is no staking event moves into or out of the public balance of an account. -/
def transferred (v : Bytes32) (j : ℕ) : ℤ :=
  match run.event j with
  | .other => (run.state (j + 1)).publicLat v - (run.state j).publicLat v
  | _ => 0

/-- What a step does to the unbonding entries of a validator. -/
def move (v : Bytes32) (j : ℕ) : Lots.Move :=
  match run.event j with
  | .stake id _ height => if id = v then .sweep height.toNat 0 0 else .rest
  | .unstake id amount height =>
    if id = v then .sweep height.toNat amount.toNat (height.toNat + UNBONDING_BLOCKS.toNat)
    else .rest
  | .slash id _ =>
    if id = v then .take ((run.state j).penalty v - (run.state j).bonded v) else .rest
  | .other => .rest

variable {run}

theorem reachable {j : ℕ} (hj : j ≤ n) : (run.ledger j).Reachable := by
  induction j with
  | zero =>
    rw [run.start]
    exact .refl
  | succ j ih => exact (ih (Nat.le_of_succ_le hj)).step (run.op j) trivial (run.step j hj)

theorem effect {j : ℕ} (hj : j < n) (hlat : (run.state j).LatBounded) :
    (run.event j).Effect (run.state j) (run.state (j + 1)) :=
  (reachable hj.le).effect hlat (run.step j hj)

/-- The unbonding entries of a validator are the book of its moves. -/
theorem unbonding_eq_book (hlat : ∀ j < n, (run.state j).LatBounded) (v : Bytes32) {j : ℕ}
    (hj : j ≤ n) : SameLots ((run.state j).unbonding v) (Lots.book (run.move v) j) := by
  induction j with
  | zero =>
    show SameLots ((run.ledger 0).view.unbonding v) []
    rw [run.start, Ledger.view_new]
    exact .nil
  | succ j ih =>
    have hsame := ih (Nat.le_of_succ_le hj)
    have heffect := effect hj (hlat j hj)
    show SameLots _ ((run.move v j).after j (Lots.book (run.move v) j))
    unfold move
    cases hevent : run.event j with
    | stake id amount height =>
      rw [hevent] at heffect
      obtain ⟨-, -, hunbonding, hothers⟩ := heffect
      by_cases hid : id = v
      · subst hid
        simp only [if_pos, Lots.Move.after, Nat.lt_irrefl, if_false, List.append_nil]
        rw [hunbonding]
        exact hsame.running height
      · simp only [if_neg hid, Lots.Move.after]
        rw [(hothers v (Ne.symm hid)).2.2]
        exact hsame
    | unstake id amount height =>
      rw [hevent] at heffect
      obtain ⟨-, -, ⟨release, hrelease, hunbonding⟩, hothers⟩ := heffect
      by_cases hid : id = v
      · subst hid
        simp only [if_pos, Lots.Move.after]
        rw [hunbonding]
        refine (hsame.running height).append ?_
        by_cases hamount : 0 < amount
        · have hpos : 0 < amount.toNat := UInt64.lt_iff_toNat_lt.mp hamount
          rw [if_pos hamount, if_pos hpos, ← hrelease hamount]
          rfl
        · have hzero : ¬ 0 < amount.toNat := fun hpos ↦ hamount (UInt64.lt_iff_toNat_lt.mpr hpos)
          rw [if_neg hamount, if_neg hzero]
          exact .nil
      · simp only [if_neg hid, Lots.Move.after]
        rw [(hothers v (Ne.symm hid)).2.2]
        exact hsame
    | slash id beneficiary =>
      rw [hevent] at heffect
      obtain ⟨-, -, ⟨rest, hrest, hunbonding⟩, -, hothers⟩ := heffect
      by_cases hid : id = v
      · subst hid
        simp only [if_pos, Lots.Move.after]
        rw [hunbonding, ← hrest]
        exact hsame.slash (fun lot hlot ↦ (Lots.opened_of_mem hlot).2.1) rest
      · simp only [if_neg hid, Lots.Move.after]
        rw [(hothers v (Ne.symm hid)).2]
        exact hsame
    | other =>
      rw [hevent] at heffect
      simp only [Lots.Move.after]
      rw [(heffect v).2]
      exact hsame

/-! ### The balance of a run -/

/-- One step changes what an account holds by slashes, rewards and transfers only. -/
theorem latHeld_step {j : ℕ} (hj : j < n) (hlat : (run.state j).LatBounded) (v : Bytes32) :
    ((run.state (j + 1)).latHeld v : ℤ) =
      (run.state j).latHeld v + (run.rewarded v j + run.transferred v j - run.slashed v j) := by
  have heffect := effect hj hlat
  unfold LedgerState.latHeld LedgerState.stakeHeld rewarded transferred slashed
  cases hevent : run.event j with
  | stake id amount height =>
    rw [hevent] at heffect
    obtain ⟨hpublic, hbonded, hunbonding, hothers⟩ := heffect
    by_cases hid : v = id
    · subst hid
      have hsplit := unbondingTotal_split height ((run.state j).unbonding v)
      rw [hbonded, hunbonding]
      push_cast
      omega
    · obtain ⟨hpublic', hbonded', hunbonding'⟩ := hothers v hid
      rw [hpublic', hbonded', hunbonding']
      simp
  | unstake id amount height =>
    rw [hevent] at heffect
    obtain ⟨hpublic, hbonded, ⟨release, -, hunbonding⟩, hothers⟩ := heffect
    by_cases hid : v = id
    · subst hid
      have hsplit := unbondingTotal_split height ((run.state j).unbonding v)
      have hopened : unbondingTotal (if 0 < amount then [(amount, release)] else []) =
          amount.toNat := by
        split
        · simp
        · next hzero =>
          rw [UInt64.lt_iff_toNat_lt, UInt64.toNat_zero] at hzero
          rw [unbondingTotal_nil]
          omega
      rw [hpublic, hunbonding, unbondingTotal_append, hopened]
      push_cast
      omega
    · obtain ⟨hpublic', hbonded', hunbonding'⟩ := hothers v hid
      rw [hpublic', hbonded', hunbonding']
      simp
  | slash id beneficiary =>
    rw [hevent] at heffect
    obtain ⟨hle, hbonded, ⟨rest, hrest, hunbonding⟩, hpublic, hothers⟩ := heffect
    have hrewarded : (if v = beneficiary then (run.state j).slashingReward id beneficiary else 0) =
        if v = beneficiary then (run.state j).slashingReward id v else 0 := by
      split
      · next hv => rw [hv]
      · rfl
    rw [hpublic v, hrewarded]
    dsimp only
    generalize (if v = beneficiary then (run.state j).slashingReward id v else 0) = reward
    by_cases hid : id = v
    · subst hid
      have htaken := unbondingTotal_slashUnbonding ((run.state j).unbonding id) rest (by
        unfold LedgerState.stakeHeld at hle
        omega)
      unfold LedgerState.stakeHeld at hle
      rw [hbonded, hunbonding, unbondingTotal_filter_pos, if_pos rfl]
      push_cast
      omega
    · obtain ⟨hbonded', hunbonding'⟩ := hothers v (Ne.symm hid)
      rw [hbonded', hunbonding', if_neg hid]
      push_cast
      omega
  | other =>
    rw [hevent] at heffect
    obtain ⟨hbonded, hunbonding⟩ := heffect v
    rw [hbonded, hunbonding]
    push_cast
    omega

/-- What an account holds is what it was rewarded with and what was moved to it, but for what was
slashed. -/
theorem latHeld_eq_sum (hlat : ∀ j < n, (run.state j).LatBounded) (v : Bytes32) {j : ℕ}
    (hj : j ≤ n) :
    ((run.state j).latHeld v : ℤ) =
      ∑ k ∈ Finset.range j, (run.rewarded v k + run.transferred v k - run.slashed v k : ℤ) := by
  induction j with
  | zero =>
    have hnew : (run.state 0).latHeld v = 0 := by
      show (run.ledger 0).view.latHeld v = 0
      rw [run.start, Ledger.view_new]
      exact LedgerState.pub_default (C := C)
    rw [hnew, Finset.sum_range_zero]
    rfl
  | succ j ih =>
    rw [Finset.sum_range_succ, ← ih (Nat.le_of_succ_le hj), latHeld_step hj (hlat j hj)]

theorem move_of_unstake {v : Bytes32} {j : ℕ} {amount height : UInt64}
    (hevent : run.event j = .unstake v amount height) :
    run.move v j =
      .sweep height.toNat amount.toNat (height.toNat + UNBONDING_BLOCKS.toNat) := by
  unfold move
  rw [hevent]
  exact if_pos rfl

theorem move_of_sweeps {v : Bytes32} {j : ℕ} {height : UInt64} (hsweep : run.Sweeps v j height) :
    ∃ amount due, run.move v j = .sweep height.toNat amount due := by
  rcases hsweep with ⟨amount, hevent⟩ | ⟨amount, hevent⟩
  · refine ⟨0, 0, ?_⟩
    unfold move
    rw [hevent]
    exact if_pos rfl
  · exact ⟨_, _, move_of_unstake hevent⟩

/-- The sweeps of the book are the stakes and unstakes of the validator, and only an unstake opens a
lot. -/
theorem sweeps_of_move {v : Bytes32} {j now amount due : ℕ}
    (hmove : run.move v j = .sweep now amount due) :
    ∃ height : UInt64, height.toNat = now ∧ run.Sweeps v j height ∧
      (0 < amount → ∃ word, run.event j = .unstake v word height ∧
        due = height.toNat + UNBONDING_BLOCKS.toNat) := by
  unfold move at hmove
  cases hevent : run.event j with
  | stake id word height =>
    rw [hevent] at hmove
    dsimp only at hmove
    split at hmove
    · next hid =>
      subst hid
      obtain ⟨rfl, rfl, rfl⟩ := Lots.Move.sweep.inj hmove
      exact ⟨height, rfl, .inl ⟨word, hevent⟩, fun hpos ↦ absurd hpos (Nat.lt_irrefl 0)⟩
    · cases hmove
  | unstake id word height =>
    rw [hevent] at hmove
    dsimp only at hmove
    split at hmove
    · next hid =>
      subst hid
      obtain ⟨rfl, rfl, rfl⟩ := Lots.Move.sweep.inj hmove
      exact ⟨height, rfl, .inr ⟨word, hevent⟩, fun _ ↦ ⟨word, rfl, rfl⟩⟩
    · cases hmove
  | slash id beneficiary =>
    rw [hevent] at hmove
    dsimp only at hmove
    split at hmove <;> cases hmove
  | other =>
    rw [hevent] at hmove
    cases hmove

theorem slash_of_move {v : Bytes32} {j amount : ℕ} (hmove : run.move v j = .take amount) :
    (∃ beneficiary, run.event j = .slash v beneficiary) ∧
      amount = (run.state j).penalty v - (run.state j).bonded v := by
  unfold move at hmove
  cases hevent : run.event j with
  | stake | unstake =>
    rw [hevent] at hmove
    dsimp only at hmove
    split at hmove <;> cases hmove
  | slash id beneficiary =>
    rw [hevent] at hmove
    dsimp only at hmove
    split at hmove
    · next hid =>
      subst hid
      exact ⟨⟨beneficiary, rfl⟩, (Lots.Move.take.inj hmove).symm⟩
    · cases hmove
  | other =>
    rw [hevent] at hmove
    cases hmove

/-- How the amounts of the unstakes of a validator become public: `paid i j` is what step `j`
releases of the amount unstaked at step `i`, and `cut i j` what it slashes of it. -/
structure Flows (run : LedgerRun C n) (v : Bytes32) (paid cut : ℕ → ℕ → ℕ) : Prop where
  /-- A stake or an unstake makes public what it releases of the earlier unstakes, and nothing
  else. -/
  released : ∀ j < n, ∀ height, run.Sweeps v j height →
    (run.state (j + 1)).publicLat v + run.bonds v j =
      (run.state j).publicLat v + ∑ i ∈ Finset.range j, paid i j
  /-- Nothing is released before the delay is over. -/
  delayed : ∀ i j, paid i j ≠ 0 → i < j ∧ ∃ amount height height',
    run.event i = .unstake v amount height ∧ run.Sweeps v j height' ∧
      height.toNat + UNBONDING_BLOCKS.toNat ≤ height'.toNat
  /-- A slash takes the bonded stake first, and the rest from the unstaked amounts. -/
  slashed : ∀ j < n, ∀ beneficiary, run.event j = .slash v beneficiary →
    (run.state (j + 1)).bonded v = (run.state j).bonded v - (run.state j).penalty v ∧
      ∑ i ∈ Finset.range j, cut i j = (run.state j).penalty v - (run.state j).bonded v
  /-- Nothing else takes of an unstaked amount. -/
  cut_slash : ∀ i j, cut i j ≠ 0 → i < j ∧
    (∃ amount height, run.event i = .unstake v amount height) ∧
      ∃ beneficiary, run.event j = .slash v beneficiary
  /-- The first stake or unstake after the delay releases all of the amount but what was slashed. -/
  due : ∀ i j amount height height', run.event i = .unstake v amount height → i < j →
    run.Sweeps v j height' → height.toNat + UNBONDING_BLOCKS.toNat ≤ height'.toNat →
    (∀ k height'', i < k → k < j → run.Sweeps v k height'' →
      height''.toNat < height.toNat + UNBONDING_BLOCKS.toNat) →
    paid i j + ∑ k ∈ Finset.range j, cut i k = amount.toNat
  /-- No unstaked amount is released or slashed twice. -/
  whole : ∀ i j amount height, run.event i = .unstake v amount height →
    ∑ k ∈ Finset.range j, paid i k + ∑ k ∈ Finset.range j, cut i k ≤ amount.toNat

theorem flows_book (hlat : ∀ j < n, (run.state j).LatBounded) (v : Bytes32) :
    run.Flows v (Lots.paid (run.move v)) (Lots.cut (run.move v)) where
  released j hj height hsweep := by
    obtain ⟨amount, due, hmove⟩ := move_of_sweeps hsweep
    have hbook := unbonding_eq_book hlat v hj.le
    have heffect := effect hj (hlat j hj)
    rw [← Lots.total_matured_eq_sum_paid hmove, ← (hbook.matured height).total]
    unfold bonds
    rcases hsweep with ⟨amount, hevent⟩ | ⟨amount, hevent⟩
    · rw [hevent] at heffect ⊢
      simp only [if_pos]
      exact heffect.1
    · rw [hevent] at heffect ⊢
      exact heffect.1
  delayed i j hpaid := by
    obtain ⟨hlt, now, amount, due, now', amount', due', hopen, hpos, hsweep, hdue⟩ :=
      Lots.opened_of_paid hpaid
    obtain ⟨height, -, -, hunstake⟩ := sweeps_of_move hopen
    obtain ⟨word, hevent, rfl⟩ := hunstake hpos
    obtain ⟨height', rfl, hsweeps, -⟩ := sweeps_of_move hsweep
    exact ⟨hlt, word, height, height', hevent, hsweeps, hdue⟩
  slashed j hj beneficiary hevent := by
    have heffect := effect hj (hlat j hj)
    rw [hevent] at heffect
    obtain ⟨hle, hbonded, -, -, -⟩ := heffect
    have hmove : run.move v j = .take ((run.state j).penalty v - (run.state j).bonded v) := by
      unfold move
      rw [hevent]
      exact if_pos rfl
    refine ⟨hbonded, ?_⟩
    rw [Lots.sum_cut_of_take hmove, ← (unbonding_eq_book hlat v hj.le).total]
    unfold LedgerState.stakeHeld at hle
    omega
  cut_slash i j hcut := by
    obtain ⟨hlt, ⟨now, amount, due, hopen, hpos⟩, taken, htake⟩ := Lots.opened_of_cut hcut
    obtain ⟨height, -, -, hunstake⟩ := sweeps_of_move hopen
    obtain ⟨word, hevent, -⟩ := hunstake hpos
    exact ⟨hlt, ⟨word, height, hevent⟩, (slash_of_move htake).1⟩
  due i j amount height height' hevent hlt hsweep hdue hfirst := by
    obtain ⟨amount', due', hmove⟩ := move_of_sweeps hsweep
    refine Lots.paid_add_cut (move_of_unstake hevent) hlt hmove hdue ?_
    intro k now'' amount'' due'' hik hkj hmove''
    obtain ⟨height'', rfl, hsweep'', -⟩ := sweeps_of_move hmove''
    exact hfirst k height'' hik hkj hsweep''
  whole i j amount height hevent := by
    by_cases hlt : i < j
    · have hflows := Lots.held_add_flows (move_of_unstake hevent) hlt
      omega
    · have hnone : ∀ k ∈ Finset.range j,
          Lots.paid (run.move v) i k = 0 ∧ Lots.cut (run.move v) i k = 0 := fun k hk ↦
        Lots.untouched_before (by have := Finset.mem_range.mp hk; omega)
      rw [Finset.sum_eq_zero fun k hk ↦ (hnone k hk).1,
        Finset.sum_eq_zero fun k hk ↦ (hnone k hk).2]
      exact Nat.zero_le _

/-- A slash takes exactly the penalty from what is bonded and unbonding. -/
theorem stakeHeld_slash {j : ℕ} (hj : j < n) (hlat : (run.state j).LatBounded)
    {v beneficiary : Bytes32} (hevent : run.event j = .slash v beneficiary) :
    (run.state (j + 1)).stakeHeld v + (run.state j).penalty v = (run.state j).stakeHeld v := by
  have heffect := effect hj hlat
  rw [hevent] at heffect
  obtain ⟨hle, hbonded, ⟨rest, hrest, hunbonding⟩, -, -⟩ := heffect
  unfold LedgerState.stakeHeld at *
  have htaken := unbondingTotal_slashUnbonding ((run.state j).unbonding v) rest (by omega)
  rw [hbonded, hunbonding, unbondingTotal_filter_pos]
  omega

/-- Every reachable ledger is the end of a run. -/
theorem exists_of_reachable {L : Ledger C} (hL : L.Reachable) :
    ∃ (n : ℕ) (run : LedgerRun C n), run.ledger n = L := by
  induction hL with
  | refl => exact ⟨0, ⟨fun _ ↦ .new, fun _ ↦ .clone, rfl, fun j hj ↦ absurd hj (Nat.not_lt_zero j)⟩,
      rfl⟩
  | @step M M' op hbefore _ hstep ih =>
    obtain ⟨n, run, hend⟩ := ih
    refine ⟨n + 1, ⟨fun j ↦ if j ≤ n then run.ledger j else M',
      fun j ↦ if j < n then run.op j else op, ?_, fun j hj ↦ ?_⟩, if_neg (Nat.not_succ_le_self n)⟩
    · rw [if_pos (Nat.zero_le n), run.start]
    · rcases Nat.lt_or_eq_of_le (Nat.le_of_lt_succ hj) with hlt | rfl
      · rw [if_pos hlt.le, if_pos hlt, if_pos (show j + 1 ≤ n from hlt)]
        exact run.step j hlt
      · rw [if_pos le_rfl, if_neg (Nat.lt_irrefl _), if_neg (Nat.not_succ_le_self _), hend]
        exact hstep

end LedgerRun

/-- Staking conserves value and respects the delay, in every run of a ledger whose LAT fit in 64
bits. The public balance, the bonded stake and the unbonding entries of an account together change
by slashes, rewards and transfers only. A slash takes exactly its share of the stake. And the
unstaked amounts become public as `LedgerRun.Flows` says: nothing before the delay is over, and all
that was not slashed at the first stake or unstake after it. -/
theorem staking_conserves {n : ℕ} (run : LedgerRun C n)
    (hlat : ∀ j < n, (run.state j).LatBounded) (v : Bytes32) :
    (∀ j ≤ n, ((run.state j).latHeld v : ℤ) =
      ∑ k ∈ Finset.range j, (run.rewarded v k + run.transferred v k - run.slashed v k : ℤ)) ∧
    (∀ j < n, ∀ beneficiary, run.event j = .slash v beneficiary →
      (run.state (j + 1)).stakeHeld v +
        max 1 ((run.state j).stakeHeld v * SLASH_FRACTION_BPS / 10000) =
          (run.state j).stakeHeld v) ∧
    ∃ paid cut, run.Flows v paid cut :=
  ⟨fun _ hj ↦ LedgerRun.latHeld_eq_sum hlat v hj,
    fun j hj _ hevent ↦ LedgerRun.stakeHeld_slash hj (hlat j hj) hevent,
    _, _, LedgerRun.flows_book hlat v⟩

namespace Ledger

/-- A validator bonds, unbonds, is slashed in between and claims what is left. -/
def claimOps : List (LedgerOp freeSuite) :=
  [.register 5, .register 6, .creditPublic 5 LAT_TOKEN 200000000,
    .applyAt (.stake 5 100000000 0 5) 1, .applyAt (.unstake 5 100000000 1 5) 1,
    .applyAt evidence 2, .applyAt (.stake 5 0 2 5) 241]

/-- The ledgers of its run. -/
def claimLedger : ℕ → Ledger freeSuite
  | 0 => new
  | j + 1 => ((claimLedger j).step (claimOps.getD j .clone)).getD (claimLedger j)

theorem claimLedger_facts :
    (∀ j < 7, ((claimLedger j).step (claimOps.getD j .clone)).isSome = true) ∧
    (∀ j < 7, ∀ bytes ∈ (claimLedger j).objectRecords.map Prod.fst, ∃ key ∈ stakedEntries,
      bytes = RecordKey.bytes (.committed key)) ∧
    (∀ j < 7, (claimLedger j).view.latHeld 5 + (claimLedger j).view.latHeld 6 < 2 ^ 64) ∧
    (claimLedger 4).stakingEvent (claimOps.getD 4 .clone) = .unstake 5 100000000 1 ∧
    (claimLedger 5).stakingEvent (claimOps.getD 5 .clone) = .slash 5 6 ∧
    (claimLedger 6).stakingEvent (claimOps.getD 6 .clone) = .stake 5 0 241 := by
  decide +kernel

/-- A ledger that keeps records of two accounts only is bounded if these are. -/
theorem latBounded_of_records {L : Ledger freeSuite}
    (hkeys : ∀ bytes ∈ L.objectRecords.map Prod.fst, ∃ key ∈ stakedEntries,
      bytes = RecordKey.bytes (.committed key))
    (hsum : L.view.latHeld 5 + L.view.latHeld 6 < 2 ^ 64) : L.view.LatBounded := by
  have hnone : ∀ id : Bytes32, id ≠ 5 → id ≠ 6 → L.view.latHeld id = 0 := by
    intro id hfirst hsecond
    have haccount : L.view.account id = none := by
      by_contra hsome
      have hleaf : L.view.leaf (.account id) ≠ none := by
        rw [LedgerState.leaf]
        exact fun hnone ↦ hsome (Option.map_eq_none_iff.mp hnone)
      have hmem := mem_of_leaf hkeys hleaf
      simp [stakedEntries] at hmem
      exact hmem.elim hfirst hsecond
    have hvalidator : L.view.validator id = none := by
      by_contra hsome
      have hleaf : L.view.leaf (.validator id) ≠ none := by
        rw [LedgerState.leaf]
        exact fun hnone ↦ hsome (Option.map_eq_none_iff.mp hnone)
      have hmem := mem_of_leaf hkeys hleaf
      simp [stakedEntries] at hmem
      exact hfirst hmem
    unfold LedgerState.latHeld LedgerState.publicLat LedgerState.stakeHeld LedgerState.bonded
      LedgerState.unbonding LedgerState.accountOr LedgerState.validatorOr
    rw [haccount, hvalidator]
    exact LedgerState.pub_default (C := freeSuite)
  intro ids
  have hpair : ∑ id ∈ {5, 6}, L.view.latHeld id = L.view.latHeld 5 + L.view.latHeld 6 :=
    Finset.sum_pair (by decide)
  refine lt_of_le_of_lt ?_ (hpair.trans_lt hsum)
  refine Finset.sum_le_sum_of_ne_zero fun id _ hheld ↦ ?_
  by_contra hother
  rw [Finset.mem_insert, Finset.mem_singleton, not_or] at hother
  exact hheld (hnone id hother.1 hother.2)

end Ledger

/-- The run of the example. -/
def claimRun : LedgerRun freeSuite 7 where
  ledger := Ledger.claimLedger
  op j := Ledger.claimOps.getD j .clone
  start := rfl
  step j hj := by
    obtain ⟨hsteps, -⟩ := Ledger.claimLedger_facts
    obtain ⟨L', hL'⟩ := Option.isSome_iff_exists.mp (hsteps j hj)
    rw [hL', Ledger.claimLedger, hL']
    rfl

theorem claimRun_event (j : ℕ) : claimRun.event j =
    (Ledger.claimLedger j).stakingEvent (Ledger.claimOps.getD j .clone) := rfl

theorem staking_conserves_claim : ∃ paid cut, claimRun.Flows 5 paid cut ∧
    paid 4 6 + ∑ k ∈ Finset.range 6, cut 4 k = 100000000 := by
  obtain ⟨-, hkeys, hsums, hunstake, hslash, hstake⟩ := Ledger.claimLedger_facts
  rw [← claimRun_event] at hunstake hslash hstake
  obtain ⟨-, -, paid, cut, hflows⟩ := staking_conserves claimRun
    (fun j hj ↦ Ledger.latBounded_of_records (hkeys j hj) (hsums j hj)) 5
  refine ⟨paid, cut, hflows, ?_⟩
  refine hflows.due 4 6 100000000 1 241 hunstake (by decide) (.inl ⟨0, hstake⟩) (by decide) ?_
  intro k height hlow hhigh hsweep
  obtain rfl : k = 5 := by omega
  rcases hsweep with ⟨amount, hsweep⟩ | ⟨amount, hsweep⟩ <;> rw [hslash] at hsweep <;> cases hsweep

end Latebra.State
