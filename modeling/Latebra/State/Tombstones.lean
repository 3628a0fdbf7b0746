import Latebra.State.DirtyEntries
import Latebra.State.Staking

/-!
# Tombstones

A validator that was slashed carries a tombstone in its staking record: it is out of the validator
set and cannot be slashed again. The tombstone is part of the record, and a record without stake and
without unbonding entries is deleted, tombstone included.

`ReachesBy.slashed_for_good` says when a tombstone is permanent: in every run in which no transaction
empties the record of the slashed validator. `tombstone_dropped` is a run where one does,
and the validator is back in the set and slashed a second time.
-/

set_option autoImplicit false
set_option relaxedAutoImplicit false

namespace Latebra.State

open Foundation Crypto Latebra.Types LedgerState

variable {C : CryptoSuite}

/-- Nothing is bonded, and every unbonding entry has matured. -/
def Validator.Exhausted (v : Validator) (height : UInt64) : Prop :=
  v.staked = 0 ∧ ∀ entry ∈ v.unbonding, entry.2 ≤ height

namespace LedgerState

variable {s s' : LedgerState C}

/-- The staking record of a validator says that it was slashed. -/
def Tombstoned (s : LedgerState C) (id : Bytes32) : Prop :=
  ∃ v, s.validator id = some v ∧ v.tombstoned = true

/-- The account holder has signed the transaction, with the current nonce. -/
def Authorized (s : LedgerState C) (id : Bytes32) (tx : Transaction C) (nonce : UInt64)
    (sig : Bytes64) : Prop :=
  SigOK C id tx sig ∧ ∃ acct, s.account id = some acct ∧ nonce = acct.nonce

/-- A transaction that empties the staking record of a validator that is slashed or being slashed:
a stake or an unstake of nothing once all stake is gone, or evidence against a stake of one unit. -/
def EmptiesSlashed (s : LedgerState C) (id : Bytes32) (height : UInt64) : Transaction C → Prop
  | .stake validatorId amount nonce sig =>
    validatorId = id ∧ amount = 0 ∧ (s.validatorOr id).Exhausted height ∧
      s.Authorized id (.stake validatorId amount nonce sig) nonce sig
  | .unstake validatorId amount nonce sig =>
    validatorId = id ∧ amount = 0 ∧ (s.validatorOr id).Exhausted height ∧
      s.Authorized id (.unstake validatorId amount nonce sig) nonce sig
  | .slashEvidence validatorId _ voteHeight blockA sigA blockB sigB =>
    validatorId = id ∧ blockA ≠ blockB ∧ VoteOK C id blockA voteHeight sigA ∧
      VoteOK C id blockB voteHeight sigB ∧
      ∃ unbonding, checkedSum ((s.validatorOr id).unbonding.map Prod.fst) = some unbonding ∧
        saturatingAdd (s.validatorOr id).staked unbonding = 1
  | _ => False

theorem tombstoned_setValidator {id : Bytes32} {v : Validator} (hv : v.tombstoned = true)
    (hkept : ¬ v.Drained) : (s.setValidator id v).Tombstoned id := by
  refine ⟨v, ?_, hv⟩
  rw [setValidator_validator, Function.update_self, if_neg hkept]

theorem Tombstoned.setValidator_of_ne {id other : Bytes32} (h : s.Tombstoned id)
    (hne : id ≠ other) (v : Validator) : (s.setValidator other v).Tombstoned id := by
  obtain ⟨w, hw, hslashed⟩ := h
  exact ⟨w, by rw [setValidator_validator, Function.update_of_ne hne, hw], hslashed⟩

theorem Tombstoned.of_same {id : Bytes32} (h : s.Tombstoned id)
    (hsame : s'.validator = s.validator) : s'.Tombstoned id := by
  obtain ⟨v, hv, hslashed⟩ := h
  exact ⟨v, by rw [hsame, hv], hslashed⟩

theorem Tombstoned.validatorOr {id : Bytes32} (h : s.Tombstoned id) :
    (s.validatorOr id).tombstoned = true := by
  obtain ⟨v, hv, hslashed⟩ := h
  rw [LedgerState.validatorOr, hv]
  exact hslashed

/-- A release that leaves no entry finds all of them matured. -/
theorem exhausted_of_release {v after : Validator} {height released : UInt64}
    (hrelease : releaseMatured v height = some (released, after)) (hstaked : v.staked = 0)
    (hempty : after.unbonding = []) : v.Exhausted height := by
  obtain ⟨rfl, -⟩ := releaseMatured_outcome hrelease
  refine ⟨hstaked, fun entry hentry ↦ ?_⟩
  have hdropped := List.filter_eq_nil_iff.mp hempty entry hentry
  simpa using hdropped

theorem eq_zero_of_saturatingAdd {a b : UInt64} (hzero : saturatingAdd a b = 0) :
    a = 0 ∧ b = 0 := by
  have hsum := congrArg UInt64.toNat hzero
  rw [toNat_saturatingAdd, UInt64.toNat_zero] at hsum
  constructor <;> refine UInt64.toNat_inj.mp ?_ <;> rw [UInt64.toNat_zero] <;> omega

theorem Tombstoned.stake {id validatorId : Bytes32} {amount nonce height : UInt64} {sig : Bytes64}
    (h : s.Tombstoned id)
    (hkept : ¬ s.EmptiesSlashed id height (.stake validatorId amount nonce sig : Transaction C))
    (hrun : Runs (applyStake (.stake validatorId amount nonce sig) height validatorId amount nonce
      sig) s () s') : s'.Tombstoned id := by
  obtain ⟨acct, released, val, next, hsig, hacct, hnonce, hrelease, -, -, rfl⟩ :=
    applyStake_outcome hrun
  by_cases hid : id = validatorId
  · subst hid
    have hval := (releaseMatured_outcome hrelease).1
    refine tombstoned_setValidator ?_ fun hdrained ↦ hkept ?_
    · rw [hval]
      exact h.validatorOr
    · obtain ⟨hstaked, hamount⟩ := eq_zero_of_saturatingAdd hdrained.1
      have hbonded : (s.validatorOr id).staked = 0 := by rw [← hstaked, hval]
      exact ⟨rfl, hamount, exhausted_of_release hrelease hbonded hdrained.2, hsig, acct, hacct,
        hnonce⟩
  · exact Tombstoned.setValidator_of_ne (h.of_same rfl) hid _

theorem Tombstoned.unstake {id validatorId : Bytes32} {amount nonce height : UInt64}
    {sig : Bytes64} (h : s.Tombstoned id)
    (hkept : ¬ s.EmptiesSlashed id height (.unstake validatorId amount nonce sig : Transaction C))
    (hrun : Runs (applyUnstake (.unstake validatorId amount nonce sig) height validatorId amount
      nonce sig) s () s') : s'.Tombstoned id := by
  obtain ⟨acct, released, val, release, next, hsig, hacct, hnonce, hrelease, -, -, -, rfl⟩ :=
    applyUnstake_outcome hrun
  by_cases hid : id = validatorId
  · subst hid
    have hval := (releaseMatured_outcome hrelease).1
    refine tombstoned_setValidator ?_ fun hdrained ↦ hkept ?_
    · rw [hval]
      exact h.validatorOr
    · obtain ⟨hleft, hentries⟩ := List.append_eq_nil_iff.mp hdrained.2
      have hamount : amount = 0 := by
        by_contra hne
        rw [if_pos (UInt64.pos_iff_ne_zero.mpr hne)] at hentries
        exact nomatch hentries
      have hstaked : val.staked - amount = 0 := hdrained.1
      have hbonded : (s.validatorOr id).staked = 0 := by
        rw [hamount, UInt64.sub_zero, hval] at hstaked
        exact hstaked
      exact ⟨rfl, hamount, exhausted_of_release hrelease hbonded hleft, hsig, acct, hacct, hnonce⟩
  · exact Tombstoned.setValidator_of_ne (h.of_same rfl) hid _

theorem slashPaid_validator (s : LedgerState C) (beneficiary : Bytes32) (reward : UInt64) :
    (s.slashPaid beneficiary reward).validator = s.validator := by
  unfold slashPaid
  split
  · split <;> rfl
  · rfl

/-- Evidence against a stake of more than one unit leaves a tombstone. -/
theorem tombstoned_slashEvidence {id beneficiary : Bytes32} {voteHeight height : UInt64}
    {blockA blockB : Bytes32} {sigA sigB : Bytes64}
    (hkept : ¬ s.EmptiesSlashed id height
      (.slashEvidence id beneficiary voteHeight blockA sigA blockB sigB : Transaction C))
    (hrun : Runs (applySlashEvidence id beneficiary voteHeight blockA sigA blockB sigB) s () s') :
    s'.Tombstoned id := by
  obtain ⟨unbonding, total, hdistinct, hvoteA, hvoteB, -, hsum, htotal, hpos, rfl⟩ :=
    applySlashEvidence_outcome hrun
  refine Tombstoned.of_same (tombstoned_setValidator rfl fun hdrained ↦ hkept ?_)
    (slashPaid_validator _ _ _)
  refine ⟨rfl, hdistinct, hvoteA, hvoteB, unbonding, hsum, htotal ▸ ?_⟩
  -- What is left is zero, so the penalty is the whole stake: that is one unit.
  have hunbonding := checkedSum_amounts hsum
  have hsaturated := toNat_saturatingAdd (s.validatorOr id).staked unbonding
  rw [← htotal] at hsaturated
  have hle := slashAmount_le hpos
  have hcovered : (slashAmount total).toNat ≤
      (s.validatorOr id).staked.toNat + unbondingTotal (s.validatorOr id).unbonding := by omega
  have hleft := slashValidator_total hcovered
  rw [hdrained.1, hdrained.2, toNat_slashAmount] at hleft
  refine UInt64.toNat_inj.mp ?_
  rw [UInt64.toNat_zero, unbondingTotal_nil] at hleft
  rw [UInt64.toNat_one]
  omega

/-- A transaction keeps a tombstone unless it empties the record. -/
theorem Tombstoned.applyInner {id : Bytes32} {tx : Transaction C} {height : UInt64}
    {pre : Option (ProofPass C)} (h : s.Tombstoned id) (hkept : ¬ s.EmptiesSlashed id height tx)
    (hrun : Runs (applyInner tx height pre) s () s') : s'.Tombstoned id := by
  cases tx with
  | stake => exact h.stake hkept hrun
  | unstake => exact h.unstake hkept hrun
  | slashEvidence validatorId beneficiary voteHeight blockA sigA blockB sigB =>
    by_cases hid : validatorId = id
    · subst hid
      exact tombstoned_slashEvidence hkept hrun
    · obtain ⟨unbonding, total, -, -, -, -, -, -, -, rfl⟩ := applySlashEvidence_outcome hrun
      exact (h.setValidator_of_ne (Ne.symm hid) _).of_same (slashPaid_validator _ _ _)
  | _ => exact h.of_same (Runs.validator_eq hrun (by simp [writesOf]))

/-- Evidence against a tombstoned validator is refused. -/
theorem Tombstoned.run_slashEvidence {id : Bytes32} (h : s.Tombstoned id) (beneficiary : Bytes32)
    (voteHeight : UInt64) (blockA : Bytes32) (sigA : Bytes64) (blockB : Bytes32) (sigB : Bytes64) :
    Program.Rejects handler (applySlashEvidence id beneficiary voteHeight blockA sigA blockB sigB)
      s := by
  obtain ⟨v, hv, hslashed⟩ := h
  simp only [applySlashEvidence, Program.rejects_rejectIf_bind, Program.rejects_okOr_bind,
    Program.forEach_cons, Program.forEach_nil, bind_assoc, pure_bind]
  intro hblocks pk hpk sgA hsgA hvoteA sgB hsgB hvoteB
  have hread : handler.exec (.validator id : LedgerCommand C) s = some (some v, s) :=
    congrArg (fun found ↦ some (found, s)) hv
  refine Program.Rejects.issue hread ?_
  change Program.Rejects handler (Program.rejectIf (v.tombstoned = true) _ >>= _) s
  rw [Program.rejects_rejectIf_bind]
  exact fun hclear ↦ absurd hslashed hclear

end LedgerState

namespace Ledger

variable {L L₁ L₂ : Ledger C}

/-- The operation does not empty the staking record of a slashed validator. -/
def KeepsSlashed (id : Bytes32) (L : Ledger C) : LedgerOp C → Prop
  | .applyAt tx height => ¬ L.view.EmptiesSlashed id height tx
  | _ => True

/-- A run that never empties the record of a slashed validator keeps its tombstone. -/
theorem ReachesBy.tombstoned {id : Bytes32} (hrun : ReachesBy (KeepsSlashed id) L₁ L₂)
    (hL : L₁.Reachable) (h : L₁.view.Tombstoned id) : L₂.view.Tombstoned id := by
  refine hrun.invariant hL (·.Tombstoned id) h fun M _ op s' hkept hop hbefore ↦ ?_
  cases op with
  | applyAt tx height =>
    obtain ⟨s₁, happly, rfl⟩ := hop
    exact (hbefore.applyInner hkept happly).of_same rfl
  | register =>
    obtain ⟨-, rfl⟩ := register_outcome hop
    exact hbefore.of_same rfl
  | creditPublic =>
    refine hbefore.of_same ?_
    rw [creditPublic_outcome hop, LedgerState.credited]
    split <;> rfl
  | creditGenesis =>
    obtain ⟨_, -, rfl⟩ := creditGenesis_outcome hop
    exact hbefore.of_same rfl
  | rewardMiner =>
    refine hbefore.of_same ?_
    rw [rewardMiner_outcome hop, LedgerState.rewarded]
    split <;> rfl
  | flush | clone =>
    obtain rfl := hop
    exact hbefore
  | stateRoot =>
    obtain rfl := hop
    exact hbefore.of_same rfl

/-- A member of the validator set has a staking record without a tombstone. -/
theorem validator_of_mem_validatorSet {id : Bytes32} {stake : UInt64}
    (hmem : (id, stake) ∈ L.validatorSet) :
    ∃ v, L.view.validator id = some v ∧ v.tombstoned = false ∧ v.staked = stake := by
  have heligible : (id, stake) ∈ L.eligible :=
    (List.mergeSort_perm _ _).mem_iff.mp (List.mem_of_mem_take hmem)
  obtain ⟨⟨key, body⟩, hscan, hentry⟩ := List.mem_filterMap.mp heligible
  obtain ⟨id', hid, hrest⟩ := Option.bind_eq_some_iff.mp hentry
  obtain ⟨v, hv, hlast⟩ := Option.bind_eq_some_iff.mp hrest
  split at hlast
  · next hgood =>
    obtain ⟨rfl, rfl⟩ := Prod.mk.inj (Option.some.inj hlast)
    obtain ⟨hfound, htag⟩ := (FMap.mem_entriesWhere _ _ _ _).mp hscan
    have hkey : key = (RecordKey.committed (.validator id')).bytes := by
      have hbody := eq_bytesOf32_of_bytes32Of hid
      cases key with
      | nil => simp at htag
      | cons tag rest =>
        obtain rfl : tag = REC_VALIDATOR := by simpa using htag
        exact congrArg (List.cons REC_VALIDATOR) hbody
    have hrecord : L.record (.committed (.validator id')) = some body := by
      rw [record, ← hkey, ← OverlayMap.lookup_merged, hfound]
    have hview : L.view.validator id' =
        (L.record (.committed (.validator id'))).bind decodeValidator := rfl
    exact ⟨v, by rw [hview, hrecord]; exact hv, hgood.1, rfl⟩
  · cases hlast

/-- A run that never empties the record of a slashed validator keeps it out of the validator set,
and refuses every further evidence against it. -/
theorem ReachesBy.slashed_for_good {id beneficiary : Bytes32} {voteHeight height : UInt64}
    {blockA blockB : Bytes32} {sigA sigB : Bytes64} (hL : L.Reachable)
    (hslash : L.applyAt (.slashEvidence id beneficiary voteHeight blockA sigA blockB sigB) height =
      (.ok (), L₁))
    (hfirst : KeepsSlashed id L
      (.applyAt (.slashEvidence id beneficiary voteHeight blockA sigA blockB sigB) height))
    (hrun : ReachesBy (KeepsSlashed id) L₁ L₂) :
    (∀ stake, (id, stake) ∉ L₂.validatorSet) ∧
      ∀ beneficiary voteHeight blockA sigA blockB sigB height, ∃ e,
        (L₂.applyAt (.slashEvidence id beneficiary voteHeight blockA sigA blockB sigB) height).1 =
          .err e := by
  obtain ⟨hformed, -⟩ := hL.view
  obtain ⟨-, s', happly, hview⟩ := hformed.applyAt_ok hslash
  have hL₁ : L₁.Reachable := hL.step (.applyAt _ height) trivial (by rw [Ledger.step, hslash]; rfl)
  have hslashed : L₁.view.Tombstoned id := by
    rw [hview]
    exact (tombstoned_slashEvidence hfirst happly).of_same rfl
  have hkept := hrun.tombstoned hL₁ hslashed
  obtain ⟨hformed₂, -⟩ := (hrun.reachable hL₁).view
  constructor
  · intro stake hmem
    obtain ⟨v, hv, halive, -⟩ := validator_of_mem_validatorSet hmem
    obtain ⟨w, hw, hdead⟩ := hkept
    rw [hv] at hw
    obtain rfl := Option.some.inj hw
    rw [halive] at hdead
    cases hdead
  · intro beneficiary voteHeight blockA sigA blockB sigB height
    exact hformed₂.applyAt_rejects
      (hkept.run_slashEvidence beneficiary voteHeight blockA sigA blockB sigB)

/-- The ledger once the evidence against the validator has been accepted. -/
def slashed : Ledger freeSuite := (staked.applyAt evidence 2).2

/-- The validator unstakes the rest. -/
def unstaked : Ledger freeSuite := (slashed.applyAt (.unstake 5 90000000 1 5) 3).2

/-- Once the unstaked amount has matured, an unstake of nothing sweeps it and deletes the record. -/
def swept : Ledger freeSuite := (unstaked.applyAt (.unstake 5 0 2 5) 243).2

/-- The validator stakes again. -/
def restaked : Ledger freeSuite := (swept.applyAt (.stake 5 150000000 3 5) 244).2

/-- The outcomes along the way from the evidence to the new stake. -/
theorem restaked_facts :
    (staked.applyAt evidence 2).1 = .ok () ∧
    staked.view.validatorOr 5 = ⟨100000000, [], false⟩ ∧
    (slashed.applyAt (.unstake 5 90000000 1 5) 3).1 = .ok () ∧
    (unstaked.applyAt (.unstake 5 0 2 5) 243).1 = .ok () ∧
    (swept.applyAt (.stake 5 150000000 3 5) 244).1 = .ok () ∧
    ((5 : Bytes32), (150000000 : UInt64)) ∈ restaked.eligible ∧
    restaked.eligible.length ≤ restaked.maxValidators ∧
    (restaked.applyAt evidence 245).1 = .ok () := by
  decide +kernel

theorem applyAt_evidence : staked.applyAt evidence 2 = (.ok (), slashed) :=
  applyAt_of_ok restaked_facts.1

theorem keepsSlashed_evidence : KeepsSlashed 5 staked (.applyAt evidence 2) := by
  obtain ⟨-, hrecord, -⟩ := restaked_facts
  rintro ⟨-, -, -, -, unbonding, hsum, htotal⟩
  rw [hrecord] at hsum htotal
  obtain rfl := Option.some.inj hsum
  exact absurd htotal (by decide)

/-- Once the slashed validator has unstaked the rest it is still out of the set, and the evidence is
refused while the unstaked amount can be slashed. -/
theorem slashed_for_good_unstaked :
    slashed.applyAt (.unstake 5 90000000 1 5) 3 = (.ok (), unstaked) ∧
      (∀ stake, ((5 : Bytes32), stake) ∉ unstaked.validatorSet) ∧
      ∃ e, (unstaked.applyAt evidence 4).1 = .err e := by
  obtain ⟨-, -, hok, -⟩ := restaked_facts
  have hstep : slashed.step (.applyAt (.unstake 5 90000000 1 5) 3) = some unstaked :=
    step_applyAt hok
  have hkeeps : KeepsSlashed 5 slashed (.applyAt (.unstake 5 90000000 1 5) 3) :=
    fun hempties ↦ absurd hempties.2.1 (by decide)
  obtain ⟨hout, hrefused⟩ := ReachesBy.slashed_for_good reachable_staked.reachable applyAt_evidence
    keepsSlashed_evidence (ReachesBy.refl.step (.applyAt _ 3) hkeeps hstep)
  exact ⟨applyAt_of_ok hok, hout, hrefused _ _ _ _ _ _ 4⟩

/-! ### A dropped tombstone -/

theorem mem_validatorSet {member : Bytes32 × UInt64} (hmem : member ∈ L.eligible)
    (hroom : L.eligible.length ≤ L.maxValidators) : member ∈ L.validatorSet := by
  unfold validatorSet
  rw [List.take_of_length_le (by rwa [List.length_mergeSort])]
  exact (List.mergeSort_perm _ _).mem_iff.mpr hmem

theorem reaches_restaked : ReachesBy (fun _ _ ↦ True) slashed restaked := by
  obtain ⟨-, -, hokUnstake, hokSweep, hokStake, -⟩ := restaked_facts
  have hunstake : slashed.step (.applyAt (.unstake 5 90000000 1 5) 3) = some unstaked :=
    step_applyAt hokUnstake
  have hsweep : unstaked.step (.applyAt (.unstake 5 0 2 5) 243) = some swept :=
    step_applyAt hokSweep
  have hstake : swept.step (.applyAt (.stake 5 150000000 3 5) 244) = some restaked :=
    step_applyAt hokStake
  exact ((ReachesBy.refl.step (.applyAt (.unstake _ _ _ _) _) trivial hunstake).step
    (.applyAt (.unstake _ _ _ _) _) trivial hsweep).step (.applyAt (.stake _ _ _ _) _) trivial hstake

/-- A slashed validator that empties its record is back in the validator set, and is slashed a second
time. -/
theorem tombstone_dropped :
    ∃ L L₁ L₂ : Ledger freeSuite, L.Reachable ∧ L.applyAt evidence 2 = (.ok (), L₁) ∧
      ReachesBy (fun _ _ ↦ True) L₁ L₂ ∧ ((5 : Bytes32), (150000000 : UInt64)) ∈ L₂.validatorSet ∧
      (L₂.applyAt evidence 245).1 = .ok () := by
  obtain ⟨-, -, -, -, -, hmem, hroom, hagain⟩ := restaked_facts
  exact ⟨staked, slashed, restaked, reachable_staked.reachable, applyAt_evidence,
    reaches_restaked, mem_validatorSet hmem hroom, hagain⟩

end Ledger

end Latebra.State
