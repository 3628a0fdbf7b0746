import Latebra.Crypto.FreeSuite
import Latebra.Foundation.FiniteTotals
import Latebra.State.ArmOutcomes
import Latebra.State.Commitment

/-!
# Runs of the ledger

`LedgerState.Step` is one successful operation on the objects of a ledger, and `Ledger.step` one
operation on the ledger that the node keeps, failed transactions included. `Reachable.view` ties
the two together: whatever a run of the node does, the objects of its ledger are reached by
successful operations alone.

That a failed transaction leaves no trace rests on an invariant of reachable states,
`SharesBacked`: the shares of the providers of a pool, with the burned minimum, add up to the supply
of the pool. A deposit adds to the provider's shares after it has written the account, and only
because the shares never exceed the supply does that addition not overflow.
-/

set_option autoImplicit false
set_option relaxedAutoImplicit false

namespace Latebra.State

open Foundation Crypto Latebra.Types Contracts

variable {C : CryptoSuite}

namespace LedgerState

/-- The state with more entries flagged for the next root computation. -/
def marked (s : LedgerState C) (keys : List DirtyKey) : LedgerState C :=
  { s with dirty := s.dirty ∪ { key | key ∈ keys } }

/-- One successful operation on the objects of a ledger. -/
inductive Step : LedgerState C → LedgerState C → Prop where
  | register {s s' : LedgerState C} (id : Bytes32) :
    Runs (LedgerM.register id) s () s' → Step s s'
  | creditPublic {s s' : LedgerState C} (id : Bytes32) (token : UInt32) (amount : UInt64) :
    Runs (LedgerM.creditPublic id token amount) s () s' → Step s s'
  | rewardMiner {s s' : LedgerState C} (miner : Bytes32) (token : UInt32) (amount : UInt64) :
    Runs (LedgerM.rewardMiner miner token amount) s () s' → Step s s'
  | creditGenesis {s s' : LedgerState C} (id : Bytes32) (amount : UInt64) :
    Runs (LedgerM.creditGenesis id amount) s () s' → Step s s'
  | apply {s s' : LedgerState C} (tx : Transaction C) (height : UInt64) :
    Runs (applyInner tx height none) s () s' →
      Step s (s'.marked (Ledger.dirtyKeysFor s'.nextTokenId tx))
  | commit (s : LedgerState C) : Step s { s with dirty := ∅ }

/-- The states that successful operations reach from the empty ledger. -/
inductive Reachable : LedgerState C → Prop where
  | new : Reachable new
  | step {s s' : LedgerState C} : Reachable s → Step s s' → Reachable s'

/-! ### Liquidity shares -/

/-- The shares of all providers of a pool. -/
noncomputable def shares (s : LedgerState C) (token : UInt32) : ℕ :=
  total fun provider ↦ (s.lp token provider).toNat

/-- The shares of the providers, with the burned minimum, add up to the supply of the pool, and
there are none without a pool. -/
structure SharesBacked (s : LedgerState C) : Prop where
  finite : ∀ token, (Function.support fun provider ↦ (s.lp token provider).toNat).Finite
  keyed : ∀ token p, s.pool token = some p → p.token = token
  backed : ∀ token p, s.pool token = some p →
    s.shares token + MIN_POOL_LIQUIDITY.toNat = p.lpSupply.toNat
  unopened : ∀ token, s.pool token = none → s.shares token = 0

/-- The invariant reads only pools and shares. -/
theorem SharesBacked.of_same {s s' : LedgerState C} (hs : s.SharesBacked)
    (hpool : s'.pool = s.pool) (hlp : s'.lp = s.lp) : s'.SharesBacked where
  finite token := by
    rw [hlp]
    exact hs.finite token
  keyed := by
    rw [hpool]
    exact hs.keyed
  backed token p := by
    rw [hpool, shares, hlp]
    exact hs.backed token p
  unopened token := by
    rw [hpool, shares, hlp]
    exact hs.unopened token

theorem sharesBacked_new : (new : LedgerState C).SharesBacked where
  finite token := by simp [new]
  keyed token p hpool := nomatch hpool
  backed token p hpool := nomatch hpool
  unopened token _ := total_zero

/-- Changing the shares of one provider together with the supply of the pool. -/
theorem SharesBacked.move {s : LedgerState C} (hs : s.SharesBacked) {token : UInt32}
    {provider : Bytes32} {shares : UInt64} {p : Pool} (htoken : p.token = token)
    (hpos : p.lpSupply ≠ 0)
    (hmoved : s.shares token + shares.toNat + MIN_POOL_LIQUIDITY.toNat =
      p.lpSupply.toNat + (s.lp token provider).toNat) :
    ((s.setLp token provider shares).setPool p).SharesBacked := by
  have hshares : ∀ other, (fun provider' ↦
      (((s.setLp token provider shares).setPool p).lp other provider').toNat) =
      if other = token then
        Function.update (fun provider' ↦ (s.lp token provider').toNat) provider shares.toNat
      else fun provider' ↦ (s.lp other provider').toNat := by
    intro other
    funext provider'
    by_cases hother : other = token <;> by_cases hprovider : provider' = provider <;>
      simp [hother, hprovider]
  have hsum : ((s.setLp token provider shares).setPool p).shares token +
      MIN_POOL_LIQUIDITY.toNat = p.lpSupply.toNat := by
    have hupdate := total_update (hs.finite token) provider shares.toNat
    have hview : s.shares token = total fun provider ↦ (s.lp token provider).toNat := rfl
    rw [LedgerState.shares, hshares, if_pos rfl]
    omega
  have hpool : ((s.setLp token provider shares).setPool p).pool =
      Function.update s.pool token (some p) := by
    simp [htoken, hpos]
  refine ⟨fun other ↦ ?_, fun other q ↦ ?_, fun other q ↦ ?_, fun other ↦ ?_⟩
  · rw [hshares]
    split
    · exact finite_support_update (hs.finite token) provider _
    · exact hs.finite other
  · rw [hpool, Function.update_apply]
    split
    · next heq =>
      rintro ⟨⟩
      rw [heq, htoken]
    · exact hs.keyed other q
  · rw [hpool, Function.update_apply]
    split
    · next heq =>
      rintro ⟨⟩
      rw [heq]
      exact hsum
    · next hne =>
      rw [LedgerState.shares, hshares, if_neg hne]
      exact hs.backed other q
  · rw [hpool, Function.update_apply]
    split
    · exact nofun
    · next hne =>
      rw [LedgerState.shares, hshares, if_neg hne]
      exact hs.unopened other

/-- A successful transaction leaves the kinds of objects alone that it does not write. -/
theorem Runs.slice_eq {s s' : LedgerState C} {tx : Transaction C} {height : UInt64}
    {pre : Option (ProofPass C)} (hrun : Runs (applyInner tx height pre) s () s')
    {kind : RecordKind} (hkind : ¬ writesOf tx kind) : s'.slice kind = s.slice kind := by
  have hslice := slice_applyInner height pre hkind s
  rwa [hrun] at hslice

theorem Runs.pool_eq {s s' : LedgerState C} {tx : Transaction C} {height : UInt64}
    {pre : Option (ProofPass C)} (hrun : Runs (applyInner tx height pre) s () s')
    (hkind : ¬ writesOf tx .pool) : s'.pool = s.pool :=
  (congrArg LedgerState.pool (hrun.slice_eq hkind) :)

theorem Runs.validator_eq {s s' : LedgerState C} {tx : Transaction C} {height : UInt64}
    {pre : Option (ProofPass C)} (hrun : Runs (applyInner tx height pre) s () s')
    (hkind : ¬ writesOf tx .validator) : s'.validator = s.validator :=
  (congrArg LedgerState.validator (hrun.slice_eq hkind) :)

theorem Runs.lp_eq {s s' : LedgerState C} {tx : Transaction C} {height : UInt64}
    {pre : Option (ProofPass C)} (hrun : Runs (applyInner tx height pre) s () s')
    (hkind : ¬ writesOf tx .lp) : s'.lp = s.lp :=
  (congrArg LedgerState.lp (hrun.slice_eq hkind) :)

/-- A deposit keeps the pool of a token under that token. -/
theorem SharesBacked.planned_token {s : LedgerState C} (hs : s.SharesBacked) {token : UInt32}
    {latAmount tokAmount tokUsed minted : UInt64} {after : Pool}
    (hplan : DepositPlanned (s.pool token) token latAmount tokAmount after tokUsed minted) :
    after.token = token := by
  cases hpool : s.pool token with
  | none =>
    rw [hpool] at hplan
    rw [hplan.2.1]
  | some p =>
    rw [hpool] at hplan
    exact hplan.1.trans (hs.keyed token p hpool)

theorem SharesBacked.addLiquidity {s s' : LedgerState C} (hs : s.SharesBacked)
    {tx : Transaction C} {token : UInt32} {provider : Bytes32}
    {latAmount tokAmount fee nonce : UInt64} {sig : Bytes64}
    (hrun : Runs (applyAddLiquidity tx token provider latAmount tokAmount fee nonce sig) s () s') :
    s'.SharesBacked := by
  obtain ⟨acct, paid, pool, tokUsed, minted, latTotal, shares, next, -, -, -, -, hplan, -, -, -, -,
    hshares, rfl⟩ := applyAddLiquidity_outcome hrun
  have hs₁ : (s.debited provider paid token tokUsed next).SharesBacked := hs.of_same rfl rfl
  have hsum : shares.toNat = (s.lp token provider).toNat + minted.toNat :=
    checkedAdd_eq_some.mp hshares
  have hmin : MIN_POOL_LIQUIDITY.toNat = 1000 := rfl
  cases hpool : s.pool token with
  | none =>
    rw [hpool] at hplan
    obtain ⟨hminimum, hafter, -, hminted⟩ := hplan
    have hsupply : pool.lpSupply = isqrt (latAmount.toNat * tokAmount.toNat) := by rw [hafter]
    rw [← hsupply] at hminimum
    have hlt : MIN_POOL_LIQUIDITY.toNat < pool.lpSupply.toNat := UInt64.lt_iff_toNat_lt.mp hminimum
    have hmintedNat : minted.toNat = pool.lpSupply.toNat - MIN_POOL_LIQUIDITY.toNat := by
      rw [hminted]
      exact toNat_sub_of_toNat_le hlt.le
    refine hs₁.move (by rw [hafter]) ?_ ?_
    · intro hzero
      rw [hzero] at hlt
      exact absurd hlt (by simp)
    · have hnone := hs.unopened token hpool
      change s.shares token + shares.toNat + MIN_POOL_LIQUIDITY.toNat =
        pool.lpSupply.toNat + (s.lp token provider).toNat
      omega
  | some p =>
    rw [hpool] at hplan
    obtain ⟨htoken, -, -, hsupply⟩ := hplan
    have hgrown : pool.lpSupply.toNat = p.lpSupply.toNat + minted.toNat :=
      checkedAdd_eq_some.mp hsupply
    have hbacked := hs.backed token p hpool
    refine hs₁.move (htoken.trans (hs.keyed token p hpool)) ?_ ?_
    · intro hzero
      rw [hzero] at hgrown
      have hzeroNat : (0 : UInt64).toNat = 0 := rfl
      omega
    · change s.shares token + shares.toNat + MIN_POOL_LIQUIDITY.toNat =
        pool.lpSupply.toNat + (s.lp token provider).toNat
      omega

theorem SharesBacked.removeLiquidity {s s' : LedgerState C} (hs : s.SharesBacked)
    {tx : Transaction C} {token : UInt32} {provider : Bytes32} {lpAmount fee nonce : UInt64}
    {sig : Bytes64}
    (hrun : Runs (applyRemoveLiquidity tx token provider lpAmount fee nonce sig) s () s') :
    s'.SharesBacked := by
  obtain ⟨acct, paid, returned, p, after, latOut, tokOut, next, -, -, -, hpool, hheld, -, -, htoken,
    -, -, hsupply, -, rfl⟩ := applyRemoveLiquidity_outcome hrun
  have hbacked := hs.backed token p hpool
  have hshrunk : after.lpSupply.toNat + lpAmount.toNat = p.lpSupply.toNat :=
    checkedSub_eq_some.mp hsupply
  have hle : lpAmount.toNat ≤ (s.lp token provider).toNat := UInt64.le_iff_toNat_le.mp hheld
  have hleft := toNat_sub_of_toNat_le hle
  have hall : (s.lp token provider).toNat ≤ s.shares token := le_total (hs.finite token) provider
  have hmin : MIN_POOL_LIQUIDITY.toNat = 1000 := rfl
  have hs₁ : (s.setAccount provider ((returned.setPublic token
      (saturatingAdd (returned.pub token) tokOut)).withNonce next)).SharesBacked :=
    hs.of_same rfl rfl
  refine hs₁.move (htoken.trans (hs.keyed token p hpool)) ?_ ?_
  · intro hzero
    rw [hzero] at hshrunk
    have hzeroNat : (0 : UInt64).toNat = 0 := rfl
    omega
  · change s.shares token + (s.lp token provider - lpAmount).toNat + MIN_POOL_LIQUIDITY.toNat =
      after.lpSupply.toNat + (s.lp token provider).toNat
    omega

/-- A swap moves the reserves of a pool and leaves its supply alone. -/
theorem applySwap_moved {s s' : LedgerState C} {tx : Transaction C} {token : UInt32}
    {trader : Bytes32} {latIn : Bool} {amountIn minOut fee nonce : UInt64} {sig : Bytes64}
    (hrun : Runs (applySwap tx token trader latIn amountIn minOut fee nonce sig) s () s') :
    ∃ p lat tok acct, s.pool token = some p ∧
      s' = (s.setAccount trader acct).setPool { p with lat := lat, tok := tok } := by
  cases latIn with
  | true =>
    obtain ⟨acct, paid, p, latIn, tokOut, lat, tok, next, -, -, -, hpool, -, -, -, -, -, rfl⟩ :=
      applySwap_outcome_latIn hrun
    exact ⟨p, lat, tok, _, hpool, rfl⟩
  | false =>
    obtain ⟨acct, paid, spent, p, latOut, tokLeft, lat, tok, next, -, -, -, hpool, -, -, -, -, -,
      -, rfl⟩ := applySwap_outcome_tokIn hrun
    exact ⟨p, lat, tok, _, hpool, rfl⟩

theorem SharesBacked.swap {s s' : LedgerState C} (hs : s.SharesBacked)
    {tx : Transaction C} {token : UInt32} {trader : Bytes32} {latIn : Bool}
    {amountIn minOut fee nonce : UInt64} {sig : Bytes64}
    (hrun : Runs (applySwap tx token trader latIn amountIn minOut fee nonce sig) s () s') :
    s'.SharesBacked := by
  obtain ⟨p, lat, tok, acct, hpool, rfl⟩ := applySwap_moved hrun
  have hkeyed := hs.keyed token p hpool
  have hbacked := hs.backed token p hpool
  have hmin : MIN_POOL_LIQUIDITY.toNat = 1000 := rfl
  have hpos : p.lpSupply ≠ 0 := by
    intro hzero
    rw [hzero] at hbacked
    have hzeroNat : (0 : UInt64).toNat = 0 := rfl
    omega
  have hs₁ : (s.setAccount trader acct).SharesBacked := hs.of_same rfl rfl
  have hsame : (s.setAccount trader acct).setLp token trader (s.lp token trader) =
      s.setAccount trader acct := by
    simp [setLp, setAccount]
  rw [← hsame]
  refine hs₁.move hkeyed hpos ?_
  change s.shares token + (s.lp token trader).toNat + MIN_POOL_LIQUIDITY.toNat =
    p.lpSupply.toNat + (s.lp token trader).toNat
  omega

theorem SharesBacked.applyInner {s s' : LedgerState C} (hs : s.SharesBacked) {tx : Transaction C}
    {height : UInt64} {pre : Option (ProofPass C)} (hrun : Runs (applyInner tx height pre) s () s') :
    s'.SharesBacked := by
  cases tx with
  | addLiquidity => exact hs.addLiquidity hrun
  | removeLiquidity => exact hs.removeLiquidity hrun
  | swap => exact hs.swap hrun
  | _ =>
    exact hs.of_same (Runs.pool_eq hrun (by simp [writesOf])) (Runs.lp_eq hrun (by simp [writesOf]))

theorem Step.sharesBacked {s s' : LedgerState C} (hstep : Step s s') (hs : s.SharesBacked) :
    s'.SharesBacked := by
  cases hstep with
  | register id hrun =>
    obtain ⟨-, rfl⟩ := register_outcome hrun
    exact hs.of_same rfl rfl
  | creditPublic id token amount hrun =>
    rw [creditPublic_outcome hrun, credited]
    split <;> exact hs.of_same rfl rfl
  | rewardMiner miner token amount hrun =>
    rw [rewardMiner_outcome hrun, rewarded]
    split <;> exact hs.of_same rfl rfl
  | creditGenesis id amount hrun =>
    obtain ⟨_, -, rfl⟩ := creditGenesis_outcome hrun
    exact hs.of_same rfl rfl
  | apply tx height hrun => exact (hs.applyInner hrun).of_same rfl rfl
  | commit => exact hs.of_same rfl rfl

/-- In every reachable state the shares of each pool are backed by its supply. -/
theorem Reachable.sharesBacked {s : LedgerState C} (hs : Reachable s) : s.SharesBacked := by
  induction hs with
  | new => exact sharesBacked_new
  | step _ hstep ih => exact hstep.sharesBacked ih

/-! ### Failed transactions -/

/-- The check that a deposit makes after it has written the account does not fail: the shares of a
provider never exceed the supply of the pool, and the supply has just been grown in range. -/
theorem SharesBacked.shares_fit {s : LedgerState C} (hs : s.SharesBacked) {token : UInt32}
    (provider : Bytes32) {latAmount tokAmount tokUsed minted : UInt64} {after : Pool}
    (hplan : DepositPlanned (s.pool token) token latAmount tokAmount after tokUsed minted) :
    ∃ shares, checkedAdd (s.lp token provider) minted = some shares := by
  have hheld : (s.lp token provider).toNat ≤ s.shares token := le_total (hs.finite token) provider
  have hbound := after.lpSupply.toNat_lt
  have hfits : (s.lp token provider).toNat + minted.toNat < 2 ^ 64 := by
    cases hpool : s.pool token with
    | none =>
      have hnone := hs.unopened token hpool
      have hminted := minted.toNat_lt
      omega
    | some p =>
      rw [hpool] at hplan
      have hgrown := checkedAdd_eq_some.mp hplan.2.2.2
      have hbacked := hs.backed token p hpool
      omega
  exact ⟨_, if_pos hfits⟩

/-- A deposit reports no error after its first write. -/
theorem SharesBacked.addLiquidity_failsClean {s : LedgerState C} (hs : s.SharesBacked)
    {tx : Transaction C} {token : UInt32} {provider : Bytes32}
    {latAmount tokAmount fee nonce : UInt64} {sig : Bytes64} :
    Program.FailsClean handler LedgerCommand.IsWrite False
      (applyAddLiquidity tx token provider latAmount tokAmount fee nonce sig) s := by
  have hplanReads : (planDeposit (s.pool token) token latAmount tokAmount).Uses
      fun c : LedgerCommand C ↦ ¬ c.IsWrite := by
    cases s.pool token <;> simp [planDeposit, -bind_pure_comp]
  have haccount : ∀ id, (LedgerM.account id : LedgerM C _).Uses
      fun c : LedgerCommand C ↦ ¬ c.IsWrite := by
    simp [LedgerM.account, LedgerM.command, Program.perform, LedgerCommand.IsWrite]
  have htokenById : ∀ id, (LedgerM.tokenById id : LedgerM C _).Uses
      fun c : LedgerCommand C ↦ ¬ c.IsWrite := by
    simp [LedgerM.tokenById, LedgerM.command, Program.perform, LedgerCommand.IsWrite]
  have hpool : ∀ id, (LedgerM.pool id : LedgerM C _).Uses
      fun c : LedgerCommand C ↦ ¬ c.IsWrite := by
    simp [LedgerM.pool, LedgerM.command, Program.perform, LedgerCommand.IsWrite]
  have hsig : (checkSig provider tx sig).Uses fun c : LedgerCommand C ↦ ¬ c.IsWrite := by
    simp [checkSig]
  unfold applyAddLiquidity
  refine .bind hsig not_false fun _ s₁ h₁ ↦ ?_
  obtain ⟨-, rfl⟩ := (runs_checkSig _ _ _).mp h₁
  refine .bind (htokenById token) not_false fun tokenMeta s₂ h₂ ↦ ?_
  obtain ⟨-, rfl⟩ := (runs_tokenById _ _ _ _).mp h₂
  simp only [Program.failsClean_rejectIf_bind, not_false_eq_true, implies_true, true_and]
  refine fun _ _ ↦ .bind (haccount provider) not_false fun acct? s₃ h₃ ↦ ?_
  obtain ⟨-, rfl⟩ := (runs_account _ _ _ _).mp h₃
  simp only [Program.failsClean_rejectIf_bind, Program.failsClean_okOr_bind, not_false_eq_true,
    implies_true, true_and]
  refine fun acct _ _ ↦ .bind (hpool token) not_false fun pool? s₄ h₄ ↦ ?_
  obtain ⟨rfl, rfl⟩ := (runs_pool _ _ _ _).mp h₄
  refine .bind hplanReads not_false fun plan s₅ h₅ ↦ ?_
  obtain ⟨rfl, hplanned⟩ := planDeposit_outcome h₅
  obtain ⟨shares, hshares⟩ := hs.shares_fit provider hplanned
  simp only [Program.failsClean_rejectIf_bind, Program.failsClean_okOr_bind,
    Program.failsClean_orPanic_bind, not_false_eq_true, implies_true, true_and]
  -- Past the write of the account, only the addition of the shares could report an error.
  rintro latTotal - - next -
  rintro ⟨⟩ s₆ hput
  have hlp : s₆.lp = s₅.lp := by
    obtain ⟨-, hstate⟩ := Option.ite_none_right_eq_some.mp hput
    rw [← (Prod.mk.inj (Option.some.inj hstate)).2]
    rfl
  rintro reply s₇ ⟨⟩
  change Program.FailsClean _ _ _
    (Program.okOr (checkedAdd (s₆.lp token provider) plan.2.2) _ >>= _) s₆
  rw [hlp, hshares]
  simp [LedgerM.putLp, LedgerM.putPool, LedgerM.command, Program.perform]

/-- A transaction reports no error after its first write. -/
theorem SharesBacked.applyInner_failsClean {s : LedgerState C} (hs : s.SharesBacked)
    (tx : Transaction C) (height : UInt64) (pre : Option (ProofPass C)) :
    Program.FailsClean handler LedgerCommand.IsWrite False
      (Latebra.State.applyInner tx height pre) s := by
  have hchecks := applyInner_checksFirst tx height pre
  cases tx with
  | addLiquidity => exact hs.addLiquidity_failsClean
  | _ => exact (hchecks (by simp)).failsClean s

end LedgerState

/-! ### Runs of the node's ledger -/

/-- One operation on a ledger. -/
inductive LedgerOp (C : CryptoSuite) where
  | applyAt (tx : Transaction C) (height : UInt64)
  | register (id : Bytes32)
  | creditPublic (id : Bytes32) (token : UInt32) (amount : UInt64)
  | creditGenesis (id : Bytes32) (amount : UInt64)
  | rewardMiner (miner : Bytes32) (token : UInt32) (amount : UInt64)
  | flush
  | clone
  | stateRoot

namespace Ledger

/-- The ledger that an operation leaves behind, whether it succeeded or failed. There is none after
a panic. -/
def settled : Outcome LedgerError Unit × Ledger C → Option (Ledger C)
  | (.panicked, _) => none
  | (_, L) => some L

/-- The ledger after one operation. -/
def step (L : Ledger C) : LedgerOp C → Option (Ledger C)
  | .applyAt tx height => settled (L.applyAt tx height)
  | .register id => settled (L.register id)
  | .creditPublic id token amount => settled (L.creditPublic id token amount)
  | .creditGenesis id amount => settled (L.creditGenesis id amount)
  | .rewardMiner miner token amount => settled (L.rewardMiner miner token amount)
  | .flush => some L.flush
  | .clone => some L.clone
  | .stateRoot => L.stateRoot.map Prod.snd

/-- The ledgers that runs from `start` reach when every operation of the run satisfies `ok` on the
ledger it is applied to. -/
inductive ReachesBy (ok : Ledger C → LedgerOp C → Prop) (start : Ledger C) : Ledger C → Prop where
  | refl : ReachesBy ok start start
  | step {L L' : Ledger C} (op : LedgerOp C) : ReachesBy ok start L → ok L op →
    L.step op = some L' → ReachesBy ok start L'

/-- The ledgers that such runs reach from the empty ledger. -/
abbrev ReachableBy (ok : Ledger C → LedgerOp C → Prop) : Ledger C → Prop := ReachesBy ok new

/-- The ledgers that runs reach from the empty ledger. -/
abbrev Reachable (L : Ledger C) : Prop := ReachableBy (fun _ _ ↦ True) L

variable {L L' : Ledger C}

theorem ReachesBy.reachable {ok : Ledger C → LedgerOp C → Prop} (hrun : ReachesBy ok L L')
    (hL : L.Reachable) : L'.Reachable := by
  induction hrun with
  | refl => exact hL
  | step op _ _ hstep ih => exact ih.step op trivial hstep

theorem ReachableBy.reachable {ok : Ledger C → LedgerOp C → Prop} (hL : ReachableBy ok L) :
    L.Reachable :=
  ReachesBy.reachable hL .refl

theorem settled_of_ok {outcome : Outcome LedgerError Unit × Ledger C}
    (hok : outcome.1 = .ok ()) : settled outcome = some outcome.2 := by
  rcases outcome with ⟨_ | _ | _, L⟩ <;> first | rfl | exact nomatch hok

theorem step_applyAt {tx : Transaction C} {height : UInt64}
    (hok : (L.applyAt tx height).1 = .ok ()) :
    L.step (.applyAt tx height) = some (L.applyAt tx height).2 :=
  settled_of_ok hok

theorem applyAt_of_ok {tx : Transaction C} {height : UInt64}
    (hok : (L.applyAt tx height).1 = .ok ()) :
    L.applyAt tx height = (.ok (), (L.applyAt tx height).2) :=
  Prod.ext hok rfl

theorem step_register {id : Bytes32} (hok : (L.register id).1 = .ok ()) :
    L.step (.register id) = some (L.register id).2 :=
  settled_of_ok hok

theorem step_creditPublic {id : Bytes32} {token : UInt32} {amount : UInt64}
    (hok : (L.creditPublic id token amount).1 = .ok ()) :
    L.step (.creditPublic id token amount) = some (L.creditPublic id token amount).2 :=
  settled_of_ok hok

theorem WellFormed.new : (new : Ledger C).WellFormed where
  records key body hbody := by simp [record, Ledger.new, withStore, OverlayMap.get, OverlayMap.new]
    at hbody
  cache id a hcached := by simp [Ledger.new, withStore] at hcached

theorem view_new : (new : Ledger C).view = LedgerState.new := by
  have hrecord : (new : Ledger C).record = fun _ ↦ none := by
    funext key
    simp [record, Ledger.new, withStore, OverlayMap.get, OverlayMap.new]
  rw [view, hrecord]
  ext1 <;> simp [LedgerState.ofRecords, LedgerState.new, Ledger.new, withStore]

theorem WellFormed.flush (hL : L.WellFormed) : L.flush.WellFormed ∧ L.flush.view = L.view := by
  have hrecord : L.flush.record = L.record := by
    funext key
    rw [record, record, Ledger.flush, ← OverlayMap.lookup_merged, OverlayMap.merged_flush,
      OverlayMap.lookup_merged]
  have hview : L.flush.view = L.view := by
    rw [view, hrecord]
    rfl
  exact ⟨⟨by rw [hrecord]; exact hL.records, by rw [hview]; exact hL.cache⟩, hview⟩

theorem WellFormed.clone (hL : L.WellFormed) : L.clone.WellFormed where
  records := hL.records
  cache id a hcached := by simp [Ledger.clone] at hcached

/-- Ledgers that differ in the flags only. -/
theorem WellFormed.markAll (hL : L.WellFormed) (keys : List DirtyKey) :
    (L.markAll keys).WellFormed ∧ (L.markAll keys).view = L.view.marked keys := by
  unfold Ledger.markAll
  induction keys generalizing L with
  | nil =>
    refine ⟨hL, ?_⟩
    ext1 <;> simp [LedgerState.marked]
  | cons key rest ih =>
    have hsame : Represents L L.view := ⟨hL, rfl⟩
    obtain ⟨hmarked, hview⟩ := hsame.mark key
    obtain ⟨hformed, hrest⟩ := ih hmarked
    refine ⟨hformed, ?_⟩
    rw [List.foldl_cons, hrest, hview]
    ext1 <;> first | rfl | (ext other; simp [LedgerState.marked]; tauto)

/-- A run that fails cleanly on the objects leaves the encoded ledger as it was, but for the read
cache. -/
theorem WellFormed.clone_run_err (hL : L.WellFormed) {program : LedgerM C Unit}
    (hclean : Program.FailsClean LedgerState.handler LedgerCommand.IsWrite False program L.view)
    {e : LedgerError} (herr : (program.run handler L).1 = .err e) :
    (program.run handler L).2.clone = L.clone := by
  have hrepresents : Represents L L.view := ⟨hL, rfl⟩
  have hledger : Program.FailsClean handler LedgerCommand.IsWrite False program L :=
    Program.failsClean_related answers_alike hrepresents hclean
  exact (hledger.view_eq Ledger.clone
    (fun _ hread _ _ _ hexec ↦ clone_of_not_isWrite hread hexec) herr).2

/-- What is left of a run: either it succeeded on the objects, or it left no trace. -/
theorem WellFormed.settled_run (hL : L.WellFormed) {program : LedgerM C Unit}
    (hclean : Program.FailsClean LedgerState.handler LedgerCommand.IsWrite False program L.view)
    (hrun : settled (program.run handler L) = some L') :
    L'.WellFormed ∧
      (LedgerState.Runs program L.view () L'.view ∨ L'.clone = L.clone) := by
  obtain ⟨hsame, hformed, hview⟩ := run_view hL program
  have herr := fun e ↦ hL.clone_run_err hclean (e := e)
  rcases houtcome : program.run handler L with ⟨_ | e | _, M⟩
  · rw [houtcome] at hrun hsame hformed hview
    obtain rfl := Option.some.inj hrun
    exact ⟨hformed, .inl (Prod.ext hsame.symm hview.symm)⟩
  · rw [houtcome] at hrun hformed herr
    obtain rfl := Option.some.inj hrun
    exact ⟨hformed, .inr (herr e rfl)⟩
  · rw [houtcome] at hrun
    exact nomatch hrun

theorem register_checksFirst (id : Bytes32) :
    (LedgerM.register id : LedgerM C Unit).ChecksFirst LedgerCommand.IsWrite False := by
  simp [LedgerM.register, LedgerM.isRegistered, LedgerM.putAccount, LedgerM.mark, LedgerM.command,
    Program.perform, LedgerCommand.IsWrite]

theorem creditPublic_checksFirst (id : Bytes32) (token : UInt32) (amount : UInt64) :
    (LedgerM.creditPublic id token amount : LedgerM C Unit).ChecksFirst LedgerCommand.IsWrite
      False := by
  simp [LedgerM.creditPublic, LedgerM.account, LedgerM.putAccount, LedgerM.mark, LedgerM.command,
    Program.perform, LedgerCommand.IsWrite]

theorem rewardMiner_checksFirst (miner : Bytes32) (token : UInt32) (amount : UInt64) :
    (LedgerM.rewardMiner miner token amount : LedgerM C Unit).ChecksFirst LedgerCommand.IsWrite
      False := by
  simp [LedgerM.rewardMiner, LedgerM.account, LedgerM.putAccount, LedgerM.mark, LedgerM.command,
    Program.perform, LedgerCommand.IsWrite]

theorem creditGenesis_checksFirst (id : Bytes32) (amount : UInt64) :
    (LedgerM.creditGenesis id amount : LedgerM C Unit).ChecksFirst LedgerCommand.IsWrite
      False := by
  simp [LedgerM.creditGenesis, LedgerM.account, LedgerM.putAccount, LedgerM.mark, LedgerM.command,
    Program.perform, LedgerCommand.IsWrite]

/-- A transaction that fails leaves the encoded ledger as it was, but for the read cache. -/
theorem WellFormed.clone_applyAt_err (hL : L.WellFormed) (hs : L.view.SharesBacked)
    {tx : Transaction C} {height : UInt64} {e : LedgerError}
    (herr : L.applyAt tx height = (.err e, L')) : L'.WellFormed ∧ L'.clone = L.clone := by
  obtain ⟨-, hformed, -⟩ := run_view hL (applyInner tx height none)
  have hclone := hL.clone_run_err (hs.applyInner_failsClean tx height none) (e := e)
  unfold applyAt applyAtWith at herr
  rcases houtcome : (applyInner tx height none).run handler L with ⟨_ | e' | _, M⟩
  · rw [houtcome] at herr
    exact nomatch herr
  · rw [houtcome] at herr hformed hclone
    obtain ⟨hsame, rfl⟩ := Prod.mk.inj herr
    exact ⟨hformed, hclone hsame⟩
  · rw [houtcome] at herr
    exact nomatch herr

/-- A transaction that succeeds runs on the objects, and its entries are flagged. -/
theorem WellFormed.applyAt_ok (hL : L.WellFormed) {tx : Transaction C} {height : UInt64}
    (hok : L.applyAt tx height = (.ok (), L')) :
    L'.WellFormed ∧ ∃ s', LedgerState.Runs (applyInner tx height none) L.view () s' ∧
      L'.view = s'.marked (dirtyKeysFor s'.nextTokenId tx) := by
  obtain ⟨hsame, hformed, hview⟩ := run_view hL (applyInner tx height none)
  unfold applyAt applyAtWith at hok
  rcases houtcome : (applyInner tx height none).run handler L with ⟨_ | e' | _, M⟩
  · rw [houtcome] at hok hsame hformed hview
    obtain ⟨-, rfl⟩ := Prod.mk.inj hok
    obtain ⟨hmarked, hmarkedView⟩ := hformed.markAll (dirtyKeysFor M.nextTokenId tx)
    exact ⟨hmarked, M.view, Prod.ext hsame.symm hview.symm, hmarkedView⟩
  · rw [houtcome] at hok
    exact nomatch hok
  · rw [houtcome] at hok
    exact nomatch hok

/-- A transaction that runs on the objects succeeds. -/
theorem WellFormed.applyAt_of_runs (hL : L.WellFormed) {tx : Transaction C} {height : UInt64}
    {s' : LedgerState C} (hrun : LedgerState.Runs (applyInner tx height none) L.view () s') :
    ∃ L', L.applyAt tx height = (.ok (), L') ∧ L'.WellFormed ∧
      L'.view = s'.marked (dirtyKeysFor s'.nextTokenId tx) := by
  obtain ⟨hsame, hformed, hview⟩ := run_view hL (applyInner tx height none)
  rw [hrun] at hsame hview
  unfold applyAt applyAtWith
  rcases houtcome : (applyInner tx height none).run handler L with ⟨outcome, M⟩
  rw [houtcome] at hsame hformed hview
  obtain rfl : outcome = .ok () := hsame
  obtain rfl : M.view = s' := hview
  obtain ⟨hmarked, hmarkedView⟩ := hformed.markAll (dirtyKeysFor M.nextTokenId tx)
  exact ⟨_, rfl, hmarked, hmarkedView⟩

/-- A transaction is refused with the error that the objects refuse it with. -/
theorem WellFormed.applyAt_err_iff (hL : L.WellFormed) {tx : Transaction C} {height : UInt64}
    {e : LedgerError} :
    (L.applyAt tx height).1 = .err e ↔
      Program.FailsWith LedgerState.handler (applyInner tx height none) L.view e := by
  obtain ⟨hsame, -, -⟩ := run_view hL (applyInner tx height none)
  have houtcome : (L.applyAt tx height).1 = ((applyInner tx height none).run handler L).1 := by
    unfold applyAt applyAtWith
    rcases (applyInner tx height none).run handler L with ⟨_ | e' | _, M⟩ <;> rfl
  rw [houtcome, hsame]
  exact Iff.rfl

/-- A transaction that the objects refuse is refused. -/
theorem WellFormed.applyAt_rejects (hL : L.WellFormed) {tx : Transaction C} {height : UInt64}
    (hrejects : Program.Rejects LedgerState.handler (applyInner tx height none) L.view) :
    ∃ e, (L.applyAt tx height).1 = .err e := by
  obtain ⟨e, he⟩ := hrejects
  exact ⟨e, hL.applyAt_err_iff.mpr he⟩

/-- A transaction that panics on the objects panics. -/
theorem WellFormed.applyAt_panics (hL : L.WellFormed) {tx : Transaction C} {height : UInt64}
    (hpanics : Program.Panics LedgerState.handler (applyInner tx height none) L.view) :
    (L.applyAt tx height).1 = .panicked := by
  obtain ⟨hsame, -, -⟩ := run_view hL (applyInner tx height none)
  rw [show ((applyInner tx height none).run LedgerState.handler L.view).1 = .panicked from hpanics]
    at hsame
  unfold applyAt applyAtWith
  rcases houtcome : (applyInner tx height none).run handler L with ⟨outcome, M⟩
  rw [houtcome] at hsame
  obtain rfl : outcome = .panicked := hsame
  rfl

/-- What an operation that succeeds does to the objects. -/
def Performs (s s' : LedgerState C) : LedgerOp C → Prop
  | .applyAt tx height => ∃ s₁, LedgerState.Runs (applyInner tx height none) s () s₁ ∧
      s' = s₁.marked (dirtyKeysFor s₁.nextTokenId tx)
  | .register id => LedgerState.Runs (LedgerM.register id) s () s'
  | .creditPublic id token amount =>
    LedgerState.Runs (LedgerM.creditPublic id token amount) s () s'
  | .creditGenesis id amount => LedgerState.Runs (LedgerM.creditGenesis id amount) s () s'
  | .rewardMiner miner token amount =>
    LedgerState.Runs (LedgerM.rewardMiner miner token amount) s () s'
  | .flush | .clone => s' = s
  | .stateRoot => s' = { s with dirty := ∅ }

/-- One operation of the node performs on the objects, or it leaves them as they were. -/
theorem WellFormed.performs (hL : L.WellFormed) (hs : L.view.SharesBacked) {op : LedgerOp C}
    (hstep : L.step op = some L') :
    L'.WellFormed ∧ (Performs L.view L'.view op ∨ L'.view = L.view) := by
  cases op with
  | applyAt tx height =>
    rcases houtcome : L.applyAt tx height with ⟨_ | e | _, M⟩
    · rw [Ledger.step, houtcome] at hstep
      obtain rfl := Option.some.inj hstep
      obtain ⟨hformed, hrun⟩ := hL.applyAt_ok houtcome
      exact ⟨hformed, .inl hrun⟩
    · rw [Ledger.step, houtcome] at hstep
      obtain rfl := Option.some.inj hstep
      obtain ⟨hformed, hclone⟩ := hL.clone_applyAt_err hs houtcome
      exact ⟨hformed, .inr (view_of_clone_eq hclone)⟩
    · rw [Ledger.step, houtcome] at hstep
      exact nomatch hstep
  | register id =>
    obtain ⟨hformed, hrun⟩ := hL.settled_run ((register_checksFirst id).failsClean L.view) hstep
    exact ⟨hformed, hrun.imp_right view_of_clone_eq⟩
  | creditPublic id token amount =>
    obtain ⟨hformed, hrun⟩ := hL.settled_run
      ((creditPublic_checksFirst id token amount).failsClean L.view) hstep
    exact ⟨hformed, hrun.imp_right view_of_clone_eq⟩
  | creditGenesis id amount =>
    obtain ⟨hformed, hrun⟩ := hL.settled_run
      ((creditGenesis_checksFirst id amount).failsClean L.view) hstep
    exact ⟨hformed, hrun.imp_right view_of_clone_eq⟩
  | rewardMiner miner token amount =>
    obtain ⟨hformed, hrun⟩ := hL.settled_run
      ((rewardMiner_checksFirst miner token amount).failsClean L.view) hstep
    exact ⟨hformed, hrun.imp_right view_of_clone_eq⟩
  | flush =>
    obtain rfl := Option.some.inj hstep
    exact ⟨hL.flush.1, .inr hL.flush.2⟩
  | clone =>
    obtain rfl := Option.some.inj hstep
    exact ⟨hL.clone, .inr rfl⟩
  | stateRoot =>
    obtain ⟨⟨root, M⟩, hrun, rfl⟩ := Option.map_eq_some_iff.mp hstep
    obtain ⟨-, hformed, -⟩ := hL.stateRoot hrun
    exact ⟨hformed, .inl (hL.view_stateRoot hrun)⟩

theorem Performs.step {s s' : LedgerState C} {op : LedgerOp C} (hop : Performs s s' op) :
    s.Step s' ∨ s' = s := by
  cases op with
  | applyAt tx height =>
    obtain ⟨s₁, hrun, rfl⟩ := hop
    exact .inl (.apply tx height hrun)
  | register id => exact .inl (.register id hop)
  | creditPublic id token amount => exact .inl (.creditPublic id token amount hop)
  | creditGenesis id amount => exact .inl (.creditGenesis id amount hop)
  | rewardMiner miner token amount => exact .inl (.rewardMiner miner token amount hop)
  | flush | clone => exact .inr hop
  | stateRoot =>
    obtain rfl := hop
    exact .inl (.commit s)

/-- One operation of the node is one successful operation on the objects, or it leaves them as they
were. -/
theorem WellFormed.step (hL : L.WellFormed) (hs : L.view.SharesBacked) {op : LedgerOp C}
    (hstep : L.step op = some L') :
    L'.WellFormed ∧ (L.view.Step L'.view ∨ L'.view = L.view) := by
  obtain ⟨hformed, hop | hsame⟩ := hL.performs hs hstep
  · exact ⟨hformed, hop.step⟩
  · exact ⟨hformed, .inr hsame⟩

/-- Every ledger that the node reaches is well formed, and successful operations alone reach its
objects. -/
theorem Reachable.view (hL : L.Reachable) : L.WellFormed ∧ L.view.Reachable := by
  induction hL with
  | refl =>
    rw [view_new]
    exact ⟨.new, .new⟩
  | step op _ _ hstep ih =>
    obtain ⟨hformed, hobjects⟩ := ih.1.step ih.2.sharesBacked hstep
    refine ⟨hformed, ?_⟩
    rcases hobjects with hstep | hsame
    · exact ih.2.step hstep
    · rw [hsame]
      exact ih.2

/-- A successful transaction, on the objects. -/
theorem Reachable.runs_of_ok (hL : L.Reachable) {tx : Transaction C} {height : UInt64}
    (hok : L.applyAt tx height = (.ok (), L')) :
    L'.Reachable ∧ LedgerState.Reachable L.view ∧ ∃ s',
      LedgerState.Runs (applyInner tx height none) L.view () s' ∧
        L'.view = s'.marked (dirtyKeysFor s'.nextTokenId tx) := by
  obtain ⟨hformed, hobjects⟩ := hL.view
  have hstep := step_applyAt (congrArg Prod.fst hok)
  rw [hok] at hstep
  exact ⟨ReachesBy.step (.applyAt tx height) hL trivial hstep, hobjects, (hformed.applyAt_ok hok).2⟩

/-- The run rule: what every operation that is performed on the objects preserves, a run
preserves. -/
theorem ReachesBy.invariant {ok : Ledger C → LedgerOp C → Prop} {start : Ledger C}
    (hrun : ReachesBy ok start L) (hstart : start.Reachable) (P : LedgerState C → Prop)
    (hbase : P start.view)
    (hstep : ∀ M : Ledger C, M.Reachable → ∀ op s', ok M op → Performs M.view s' op → P M.view →
      P s') : P L.view := by
  induction hrun with
  | refl => exact hbase
  | @step M M' op hbefore hok hop ih =>
    have hM : M.Reachable := hbefore.reachable hstart
    obtain ⟨hformed, hobjects⟩ := hM.view
    obtain ⟨-, hperformed | hsame⟩ := hformed.performs hobjects.sharesBacked hop
    · exact hstep M hM op _ hok hperformed ih
    · rwa [hsame]

/-- A failed transaction leaves every record, the next token id and the state root as they were. -/
theorem Reachable.unchanged_of_err (hL : L.Reachable) {tx : Transaction C} {height : UInt64}
    {e : LedgerError} (herr : L.applyAt tx height = (.err e, L')) :
    L'.objectRecords = L.objectRecords ∧ L'.nextTokenId = L.nextTokenId ∧
      L'.stateRoot.map Prod.fst = L.stateRoot.map Prod.fst := by
  obtain ⟨hformed, hobjects⟩ := hL.view
  obtain ⟨hformed', hclone⟩ := hformed.clone_applyAt_err hobjects.sharesBacked herr
  exact ⟨(congrArg objectRecords hclone :), (congrArg Ledger.nextTokenId hclone :),
    stateRoot_eq_of_clone_eq hformed' hformed hclone⟩

/-- A second registration is refused, and leaves no trace. -/
theorem unchanged_of_second_register :
    let L := ((new : Ledger freeSuite).register 5).2
    let L' := (L.applyAt (.register 5 0) 1).2
    L'.objectRecords = L.objectRecords ∧ L'.nextTokenId = L.nextTokenId ∧
      L'.stateRoot.map Prod.fst = L.stateRoot.map Prod.fst := by
  have hfirst : (new : Ledger freeSuite).step (.register 5) = some (new.register 5).2 :=
    step_register (by decide +kernel)
  have hreach : ((new : Ledger freeSuite).register 5).2.Reachable :=
    ReachesBy.refl.step (.register 5) trivial hfirst
  have herr : ((((new : Ledger freeSuite).register 5).2).applyAt (.register 5 0) 1).1 =
      .err .alreadyRegistered := by decide +kernel
  exact Reachable.unchanged_of_err hreach (Prod.ext herr rfl)

end Ledger

end Latebra.State
