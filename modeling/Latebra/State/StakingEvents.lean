import Latebra.State.DirtyEntries
import Latebra.State.Staking

/-!
# What an operation does to the stakes

What an account holds in LAT is its public balance, its bonded stake and its unbonding entries.
`StakingEvent.Effect` says what a stake, an unstake and a slashing do to the holdings of every
account, and that no other operation touches bonded or unbonding stake. `Ledger.Reachable.effect`
says that the ledger does so.
-/

set_option autoImplicit false
set_option relaxedAutoImplicit false

namespace Latebra.State

open Foundation Crypto Latebra.Types

variable {C : CryptoSuite}

namespace LedgerState

variable {s s' : LedgerState C} {id other : Bytes32}

/-! ### Holdings -/

/-- The public LAT of an account, none when it is not registered. -/
def publicLat (s : LedgerState C) (id : Bytes32) : ℕ :=
  ((s.accountOr id).pub LAT_TOKEN).toNat

/-- The bonded stake of a validator. -/
def bonded (s : LedgerState C) (id : Bytes32) : ℕ := (s.validatorOr id).staked.toNat

/-- The unbonding entries of a validator. -/
def unbonding (s : LedgerState C) (id : Bytes32) : List (UInt64 × UInt64) :=
  (s.validatorOr id).unbonding

/-- The bonded and the unbonding stake of a validator. -/
def stakeHeld (s : LedgerState C) (id : Bytes32) : ℕ := s.bonded id + unbondingTotal (s.unbonding id)

/-- The LAT of an account. -/
def latHeld (s : LedgerState C) (id : Bytes32) : ℕ := s.publicLat id + s.stakeHeld id

/-- The LAT of any accounts together fits in 64 bits. -/
def LatBounded (s : LedgerState C) : Prop :=
  ∀ ids : Finset Bytes32, ∑ id ∈ ids, s.latHeld id < 2 ^ 64

/-- What a slashing takes from a validator. -/
def penalty (s : LedgerState C) (id : Bytes32) : ℕ :=
  max 1 (s.stakeHeld id * SLASH_FRACTION_BPS / 10000)

/-- What a slashing of a validator pays to the submitter, if the submitter is registered. -/
def slashingReward (s : LedgerState C) (id beneficiary : Bytes32) : ℕ :=
  if (s.account beneficiary).isSome then s.penalty id * SLASH_REWARD_BPS / 10000 else 0

theorem LatBounded.lt (hs : s.LatBounded) (id : Bytes32) : s.latHeld id < 2 ^ 64 := by
  simpa using hs {id}

theorem LatBounded.add_lt (hs : s.LatBounded) (hne : id ≠ other) :
    s.latHeld id + s.latHeld other < 2 ^ 64 := by
  simpa [Finset.sum_pair hne] using hs {id, other}

theorem pub_default : ((Account.default : Account C).pub LAT_TOKEN).toNat = 0 := by
  simp [Account.pub, Account.default]

theorem publicLat_of_some {acct : Account C} (hacct : s.account id = some acct) :
    s.publicLat id = (acct.pub LAT_TOKEN).toNat := by
  rw [publicLat, accountOr, hacct, Option.getD_some]

theorem publicLat_setAccount (id : Bytes32) (acct : Account C) :
    (s.setAccount id acct).publicLat other =
      if other = id then (acct.pub LAT_TOKEN).toNat else s.publicLat other := by
  unfold publicLat accountOr
  rw [setAccount_account]
  by_cases hother : other = id <;> simp [hother]

@[simp]
theorem publicLat_setValidator (id : Bytes32) (v : Validator) :
    (s.setValidator id v).publicLat other = s.publicLat other := rfl

@[simp]
theorem bonded_setAccount (id : Bytes32) (acct : Account C) :
    (s.setAccount id acct).bonded other = s.bonded other := rfl

@[simp]
theorem unbonding_setAccount (id : Bytes32) (acct : Account C) :
    (s.setAccount id acct).unbonding other = s.unbonding other := rfl

/-- A record that is deleted reads like one without stake. -/
theorem bonded_setValidator (id : Bytes32) (v : Validator) :
    (s.setValidator id v).bonded other = if other = id then v.staked.toNat else s.bonded other := by
  unfold bonded validatorOr
  rw [setValidator_validator]
  by_cases hother : other = id
  · by_cases hdrained : v.Drained
    · simp [hother, hdrained, hdrained.1, Validator.default]
    · simp [hother, hdrained]
  · simp [hother]

theorem unbonding_setValidator (id : Bytes32) (v : Validator) :
    (s.setValidator id v).unbonding other =
      if other = id then v.unbonding else s.unbonding other := by
  unfold unbonding validatorOr
  rw [setValidator_validator]
  by_cases hother : other = id
  · by_cases hdrained : v.Drained
    · simp [hother, hdrained, hdrained.2, Validator.default]
    · simp [hother, hdrained]
  · simp [hother]

end LedgerState

/-! ### Events -/

/-- What an operation means for staking, by its transaction if it is one that succeeds. -/
inductive StakingEvent where
  | stake (id : Bytes32) (amount height : UInt64)
  | unstake (id : Bytes32) (amount height : UInt64)
  | slash (id beneficiary : Bytes32)
  | other
deriving DecidableEq

/-- The event that a transaction is at a height, when it succeeds. -/
def StakingEvent.ofTx (height : UInt64) : Transaction C → StakingEvent
  | .stake id amount _ _ => .stake id amount height
  | .unstake id amount _ _ => .unstake id amount height
  | .slashEvidence id beneficiary _ _ _ _ _ => .slash id beneficiary
  | _ => .other

/-- The event that an operation on a ledger is. -/
def Ledger.stakingEvent (L : Ledger C) : LedgerOp C → StakingEvent
  | .applyAt tx height =>
    if (L.applyAt tx height).1 = .ok () then StakingEvent.ofTx height tx else .other
  | _ => .other

/-- The entries that are released at a height. -/
def maturedEntries (height : UInt64) (entries : List (UInt64 × UInt64)) : List (UInt64 × UInt64) :=
  entries.filter fun entry ↦ entry.2 ≤ height

/-- The entries that are not released at a height yet. -/
def runningEntries (height : UInt64) (entries : List (UInt64 × UInt64)) :
    List (UInt64 × UInt64) :=
  entries.filter fun entry ↦ ¬ entry.2 ≤ height

theorem unbondingTotal_split (height : UInt64) (entries : List (UInt64 × UInt64)) :
    unbondingTotal (maturedEntries height entries) +
      unbondingTotal (runningEntries height entries) = unbondingTotal entries := by
  have hsplit := unbondingTotal_filter_add entries fun entry ↦ decide (entry.2 ≤ height)
  simpa only [maturedEntries, runningEntries, decide_not] using hsplit

/-- What an event does to the holdings of every account. -/
def StakingEvent.Effect (s s' : LedgerState C) : StakingEvent → Prop
  | .stake id amount height =>
    s'.publicLat id + amount.toNat =
        s.publicLat id + unbondingTotal (maturedEntries height (s.unbonding id)) ∧
      s'.bonded id = s.bonded id + amount.toNat ∧
      s'.unbonding id = runningEntries height (s.unbonding id) ∧
      ∀ x, x ≠ id → s'.publicLat x = s.publicLat x ∧ s'.bonded x = s.bonded x ∧
        s'.unbonding x = s.unbonding x
  | .unstake id amount height =>
    s'.publicLat id =
        s.publicLat id + unbondingTotal (maturedEntries height (s.unbonding id)) ∧
      s'.bonded id + amount.toNat = s.bonded id ∧
      (∃ release : UInt64, (0 < amount → release.toNat = height.toNat + UNBONDING_BLOCKS.toNat) ∧
        s'.unbonding id = runningEntries height (s.unbonding id) ++
          if 0 < amount then [(amount, release)] else []) ∧
      ∀ x, x ≠ id → s'.publicLat x = s.publicLat x ∧ s'.bonded x = s.bonded x ∧
        s'.unbonding x = s.unbonding x
  | .slash id beneficiary =>
    s.penalty id ≤ s.stakeHeld id ∧
      s'.bonded id = s.bonded id - s.penalty id ∧
      (∃ rest : UInt64, rest.toNat = s.penalty id - s.bonded id ∧
        s'.unbonding id =
          (slashUnbonding rest (s.unbonding id)).filter fun entry ↦ entry.1 > 0) ∧
      (∀ x, s'.publicLat x =
        s.publicLat x + if x = beneficiary then s.slashingReward id beneficiary else 0) ∧
      ∀ x, x ≠ id → s'.bonded x = s.bonded x ∧ s'.unbonding x = s.unbonding x
  | .other => ∀ x, s'.bonded x = s.bonded x ∧ s'.unbonding x = s.unbonding x

namespace LedgerState

variable {s s' : LedgerState C} {id beneficiary : Bytes32} {amount nonce height : UInt64}
  {sig : Bytes64}

/-- What a release moves out is what has matured. -/
theorem released_eq {released : UInt64} {val : Validator}
    (hrelease : releaseMatured (s.validatorOr id) height = some (released, val)) :
    released.toNat = unbondingTotal (maturedEntries height (s.unbonding id)) ∧
      released.toNat ≤ unbondingTotal (s.unbonding id) ∧ val.staked.toNat = s.bonded id ∧
      val.unbonding = runningEntries height (s.unbonding id) := by
  obtain ⟨rfl, hreleased⟩ := releaseMatured_outcome hrelease
  have hsplit := unbondingTotal_split height (s.unbonding id)
  change released.toNat + unbondingTotal (runningEntries height (s.unbonding id)) =
    unbondingTotal (s.unbonding id) at hreleased
  exact ⟨by omega, by omega, rfl, rfl⟩

theorem effect_stake (hs : s.LatBounded) {tx : Transaction C}
    (hrun : Runs (applyStake tx height id amount nonce sig) s () s') :
    (StakingEvent.stake id amount height).Effect s s' := by
  obtain ⟨acct, released, val, next, -, hacct, -, hrelease, hcovered, -, rfl⟩ :=
    applyStake_outcome hrun
  obtain ⟨hmatured, hle, hstaked, hunbonding⟩ := released_eq hrelease
  have hpublic := publicLat_of_some hacct
  have hlt := hs.lt id
  unfold latHeld stakeHeld at hlt
  have havailable : (saturatingAdd (acct.pub LAT_TOKEN) released).toNat =
      s.publicLat id + released.toNat := by
    rw [toNat_saturatingAdd_of_lt (by omega), hpublic]
  have hamount := UInt64.le_iff_toNat_le.mp hcovered
  have hbonded : (saturatingAdd val.staked amount).toNat = s.bonded id + amount.toNat := by
    rw [toNat_saturatingAdd_of_lt (by omega), hstaked]
  refine ⟨?_, ?_, ?_, fun x hx ↦ ⟨?_, ?_, ?_⟩⟩
  · rw [publicLat_setValidator, publicLat_setAccount, if_pos rfl, Account.pub_withNonce,
      Account.pub_setPublic, if_pos rfl, toNat_sub_of_toNat_le hamount]
    omega
  · rw [bonded_setValidator, if_pos rfl]
    exact hbonded
  · rw [unbonding_setValidator, if_pos rfl]
    exact hunbonding
  · rw [publicLat_setValidator, publicLat_setAccount, if_neg hx]
  · rw [bonded_setValidator, if_neg hx, bonded_setAccount]
  · rw [unbonding_setValidator, if_neg hx, unbonding_setAccount]

theorem effect_unstake (hs : s.LatBounded) {tx : Transaction C}
    (hrun : Runs (applyUnstake tx height id amount nonce sig) s () s') :
    (StakingEvent.unstake id amount height).Effect s s' := by
  obtain ⟨acct, released, val, release, next, -, hacct, -, hrelease, hcovered, hdue, -, rfl⟩ :=
    applyUnstake_outcome hrun
  obtain ⟨hmatured, hle, hstaked, hunbonding⟩ := released_eq hrelease
  have hpublic := publicLat_of_some hacct
  have hlt := hs.lt id
  unfold latHeld stakeHeld at hlt
  have havailable : (saturatingAdd (acct.pub LAT_TOKEN) released).toNat =
      s.publicLat id + released.toNat := by
    rw [toNat_saturatingAdd_of_lt (by omega), hpublic]
  have hamount := UInt64.le_iff_toNat_le.mp hcovered
  refine ⟨?_, ?_, ⟨release, fun hpos ↦ ?_, ?_⟩, fun x hx ↦ ⟨?_, ?_, ?_⟩⟩
  · rw [publicLat_setValidator, publicLat_setAccount, if_pos rfl, Account.pub_withNonce,
      Account.pub_setPublic, if_pos rfl]
    omega
  · rw [bonded_setValidator, if_pos rfl]
    show (val.staked - amount).toNat + amount.toNat = _
    rw [toNat_sub_of_toNat_le hamount]
    omega
  · exact checkedAdd_eq_some.mp (hdue hpos)
  · rw [unbonding_setValidator, if_pos rfl, ← hunbonding]
  · rw [publicLat_setValidator, publicLat_setAccount, if_neg hx]
  · rw [bonded_setValidator, if_neg hx, bonded_setAccount]
  · rw [unbonding_setValidator, if_neg hx, unbonding_setAccount]

/-- The reward of a slashing goes to the public balance of a registered submitter. -/
theorem publicLat_slashPaid {reward : UInt64} (x : Bytes32)
    (hfits : s.publicLat beneficiary + reward.toNat < 2 ^ 64) :
    (s.slashPaid beneficiary reward).publicLat x = s.publicLat x +
      if x = beneficiary then if (s.account beneficiary).isSome then reward.toNat else 0
      else 0 := by
  unfold slashPaid
  split
  · cases hacct : s.account beneficiary with
    | none => simp
    | some acct =>
      have hpublic := publicLat_of_some hacct
      show (s.setAccount beneficiary _).publicLat x = _
      rw [publicLat_setAccount, Account.pub_setPublic, if_pos rfl,
        toNat_saturatingAdd_of_lt (hpublic ▸ hfits)]
      by_cases hx : x = beneficiary <;> simp [hx, hpublic]
  · next hzero =>
    have hnone : reward.toNat = 0 := by
      rw [UInt64.lt_iff_toNat_lt, UInt64.toNat_zero] at hzero
      omega
    simp [hnone]

theorem bonded_slashPaid (reward : UInt64) (x : Bytes32) :
    (s.slashPaid beneficiary reward).bonded x = s.bonded x := by
  unfold slashPaid
  split
  · split <;> rfl
  · rfl

theorem unbonding_slashPaid (reward : UInt64) (x : Bytes32) :
    (s.slashPaid beneficiary reward).unbonding x = s.unbonding x := by
  unfold slashPaid
  split
  · split <;> rfl
  · rfl

theorem effect_slash (hs : s.LatBounded) {voteHeight : UInt64} {blockA blockB : Bytes32}
    {sigA sigB : Bytes64}
    (hrun : Runs (applySlashEvidence id beneficiary voteHeight blockA sigA blockB sigB) s () s') :
    (StakingEvent.slash id beneficiary).Effect s s' := by
  obtain ⟨unbonding, total, -, -, -, -, hsum, htotal, hpos, rfl⟩ := applySlashEvidence_outcome hrun
  have hlt := hs.lt id
  have hunbonding : unbonding.toNat = unbondingTotal (s.unbonding id) := checkedSum_amounts hsum
  have hstake : total.toNat = s.stakeHeld id := by
    unfold latHeld stakeHeld at hlt
    rw [htotal, toNat_saturatingAdd_of_lt]
    · rw [hunbonding]
      rfl
    · rw [hunbonding]
      change s.bonded id + _ < _
      omega
  have hpenalty : (slashAmount total).toNat = s.penalty id := by
    rw [toNat_slashAmount, hstake, penalty]
    show _ = max 1 (s.stakeHeld id * 1000 / 10000)
    omega
  have hle := slashAmount_le hpos
  rw [hpenalty, hstake] at hle
  have hreward : (slashReward (slashAmount total)).toNat = s.penalty id * SLASH_REWARD_BPS / 10000 ∧
      (slashReward (slashAmount total)).toNat ≤ s.penalty id := by
    have hshare : s.penalty id * SLASH_REWARD_BPS / 10000 ≤ s.penalty id := by
      show s.penalty id * 500 / 10000 ≤ _
      omega
    have hbound := (slashAmount total).toNat_lt
    rw [hpenalty] at hbound
    rw [slashReward, hpenalty, UInt64.toNat_ofNat_of_lt' (hshare.trans_lt hbound)]
    exact ⟨rfl, hshare⟩
  have hfits : s.publicLat beneficiary + (slashReward (slashAmount total)).toNat < 2 ^ 64 := by
    by_cases hself : id = beneficiary
    · rw [hself] at hle hlt
      unfold latHeld at hlt
      have hrewarded := hreward.2
      rw [hself] at hrewarded
      omega
    · have hboth := hs.add_lt hself
      have hrewarded := hreward.2
      unfold latHeld at hboth
      omega
  obtain ⟨hstaked, rest, hrest, hentries⟩ :=
    slashValidator_parts (s.validatorOr id) (slashAmount total)
  refine ⟨hle, ?_, ?_, fun x ↦ ?_, fun x hx ↦ ⟨?_, ?_⟩⟩
  · rw [bonded_slashPaid, bonded_setValidator, if_pos rfl, hstaked, hpenalty]
    rfl
  · rw [unbonding_slashPaid, unbonding_setValidator, if_pos rfl]
    exact ⟨rest, by rw [hrest, hpenalty]; rfl, hentries⟩
  · rw [publicLat_slashPaid x (by rwa [publicLat_setValidator]), publicLat_setValidator, hreward.1]
    rfl
  · rw [bonded_slashPaid, bonded_setValidator, if_neg hx]
  · rw [unbonding_slashPaid, unbonding_setValidator, if_neg hx]

end LedgerState

/-- An operation that keeps the staking records. -/
theorem StakingEvent.Effect.of_same {s s' : LedgerState C} (hsame : s'.validator = s.validator) :
    StakingEvent.other.Effect s s' := by
  intro x
  unfold LedgerState.bonded LedgerState.unbonding LedgerState.validatorOr
  rw [hsame]
  exact ⟨rfl, rfl⟩

namespace Ledger

variable {L L' : Ledger C}

/-- A transaction that is accepted does to the holdings what its event says. -/
theorem effect_of_runs {s s' : LedgerState C} (hs : s.LatBounded) {tx : Transaction C}
    {height : UInt64} (hok : (L.applyAt tx height).1 = .ok ())
    (hrun : LedgerState.Runs (applyInner tx height none) s () s') :
    (L.stakingEvent (.applyAt tx height)).Effect s s' := by
  rw [stakingEvent, if_pos hok]
  cases tx with
  | stake => exact LedgerState.effect_stake hs hrun
  | unstake => exact LedgerState.effect_unstake hs hrun
  | slashEvidence => exact LedgerState.effect_slash hs hrun
  | _ => exact .of_same (LedgerState.Runs.validator_eq hrun (by simp [writesOf]))

/-- Transactions alone touch the staking records. -/
theorem Performs.validator_eq {s s' : LedgerState C} {op : LedgerOp C} (hop : Performs s s' op)
    (hother : ∀ tx height, op ≠ .applyAt tx height) : s'.validator = s.validator := by
  cases op with
  | applyAt tx height => exact absurd rfl (hother tx height)
  | register =>
    obtain ⟨-, rfl⟩ := register_outcome hop
    rfl
  | creditPublic =>
    rw [creditPublic_outcome hop, LedgerState.credited]
    split <;> rfl
  | creditGenesis =>
    obtain ⟨_, -, rfl⟩ := creditGenesis_outcome hop
    rfl
  | rewardMiner =>
    rw [rewardMiner_outcome hop, LedgerState.rewarded]
    split <;> rfl
  | flush | clone => exact congrArg LedgerState.validator (show s' = s from hop)
  | stateRoot =>
    rw [show s' = { s with dirty := ∅ } from hop]

/-- Every operation does to the holdings what its event says. -/
theorem Reachable.effect (hL : L.Reachable) (hs : L.view.LatBounded) {op : LedgerOp C}
    (hstep : L.step op = some L') : (L.stakingEvent op).Effect L.view L'.view := by
  obtain ⟨hformed, hobjects⟩ := hL.view
  by_cases htx : ∃ tx height, op = .applyAt tx height
  · obtain ⟨tx, height, rfl⟩ := htx
    rcases houtcome : L.applyAt tx height with ⟨_ | e | _, M⟩
    · rw [Ledger.step, houtcome] at hstep
      obtain rfl := Option.some.inj hstep
      obtain ⟨-, s', hrun, hview⟩ := hformed.applyAt_ok houtcome
      have heffect := effect_of_runs hs (congrArg Prod.fst houtcome) hrun
      rw [hview]
      cases hevent : L.stakingEvent (.applyAt tx height) <;> rw [hevent] at heffect <;>
        exact heffect
    · rw [Ledger.step, houtcome] at hstep
      obtain rfl := Option.some.inj hstep
      obtain ⟨-, hclone⟩ := hformed.clone_applyAt_err hobjects.sharesBacked houtcome
      rw [stakingEvent, houtcome, if_neg (by simp)]
      exact .of_same (congrArg LedgerState.validator (view_of_clone_eq hclone))
    · rw [Ledger.step, houtcome] at hstep
      cases hstep
  · have hother : ∀ tx height, op ≠ .applyAt tx height :=
      fun tx height heq ↦ htx ⟨tx, height, heq⟩
    have hevent : L.stakingEvent op = .other := by
      cases op with
      | applyAt tx height => exact absurd rfl (hother tx height)
      | _ => rfl
    obtain ⟨-, hop | heq⟩ := hformed.performs hobjects.sharesBacked hstep
    · rw [hevent]
      exact .of_same (Performs.validator_eq hop hother)
    · rw [hevent]
      exact .of_same (congrArg LedgerState.validator heq)

end Ledger

end Latebra.State
