import Latebra.Foundation.Balances
import Latebra.State.Staking

/-!
# What a ledger is worth

The value of a token is held at places: accounts, pools, curves, staking records and escrows. What an
account holds in the open is a number, and what it holds under encryption is a ciphertext, so the
value of a place is a multiple of the base point: the point that remains when the mask of a ciphertext
is taken off with the secret key of its account (`sealedValue`).

`LedgerState.worth` adds up all places. Every update of the objects is a shift of the worth by the
difference that it makes at its own place.
-/

set_option autoImplicit false
set_option relaxedAutoImplicit false

namespace Latebra.State

open Foundation Crypto Latebra.Types

variable {C : CryptoSuite}

/-! ### Amounts -/

/-- An amount as a multiple of the base point. -/
def coins (C : CryptoSuite) (amount : ℤ) : C.Point := amount • C.basePoint

@[simp]
theorem coins_zero : coins C 0 = 0 := zero_smul ..

theorem coins_add (a b : ℤ) : coins C (a + b) = coins C a + coins C b := add_smul ..

theorem coins_sub (a b : ℤ) : coins C (a - b) = coins C a - coins C b := sub_smul ..

theorem coins_neg (a : ℤ) : coins C (-a) = -coins C a := neg_smul ..

/-- What a ciphertext encrypts under a secret key. -/
def sealedValue (secret : ℤ) (ct : Ciphertext C.Point) : C.Point := ct.c - secret • ct.d

section Sealed

variable (secret : ℤ) (ct other : Ciphertext C.Point) (amount : UInt64)

@[simp]
theorem sealedValue_zero : sealedValue secret C.zero = 0 := by
  simp [sealedValue, CryptoSuite.zero]

theorem sealedValue_add :
    sealedValue secret (C.add ct other) = sealedValue secret ct + sealedValue secret other := by
  simp only [sealedValue, CryptoSuite.add, smul_add]
  abel

theorem sealedValue_sub :
    sealedValue secret (C.sub ct other) = sealedValue secret ct - sealedValue secret other := by
  simp only [sealedValue, CryptoSuite.sub, smul_sub]
  abel

theorem sealedValue_mint : sealedValue secret (C.mint amount) = coins C amount.toNat := by
  simp [sealedValue, CryptoSuite.mint, coins]

end Sealed

/-- A ciphertext that encrypts an amount under a key. The mask multiplies by the randomness. -/
def Encrypts (key : PublicKey C.Point) (ct : Ciphertext C.Point) (amount : ℕ) : Prop :=
  ∃ mask : C.Point →+ C.Point,
    ct.c = amount • C.basePoint + mask key.point ∧ ct.d = mask C.basePoint

/-- The secret key takes the mask off. -/
theorem Encrypts.sealedValue_eq {key : PublicKey C.Point} {ct : Ciphertext C.Point} {amount : ℕ}
    {secret : ℤ} (hct : Encrypts key ct amount) (hkey : secret • C.basePoint = key.point) :
    sealedValue secret ct = coins C amount := by
  obtain ⟨mask, hc, hd⟩ := hct
  rw [sealedValue, hc, hd, ← hkey, map_zsmul, add_sub_cancel_right]
  exact (natCast_zsmul ..).symm

/-! ### Accounts -/

namespace Account

variable (secret : ℤ) (a : Account C) (token key : UInt32)

/-- What an account holds of a token. -/
def worth : C.Point :=
  coins C (a.pub token).toNat + sealedValue secret (a.balance token) +
    sealedValue secret (a.pending token)

@[simp]
theorem worth_default : (default : Account C).worth secret token = 0 := by
  simp [worth]

@[simp]
theorem worth_withNonce (next : UInt64) :
    (a.withNonce next).worth secret token = a.worth secret token := rfl

/-- An account that differs in the open is worth the difference more. -/
theorem worth_of_pub {a b : Account C} (secret : ℤ) {token : UInt32}
    (hbalance : b.balance token = a.balance token) (hpending : b.pending token = a.pending token) :
    b.worth secret token =
      a.worth secret token + coins C ((b.pub token).toNat - (a.pub token).toNat : ℤ) := by
  unfold worth
  rw [hbalance, hpending, coins_sub]
  abel

theorem worth_setPublic (amount : UInt64) :
    (a.setPublic key amount).worth secret token = a.worth secret token +
      coins C (if token = key then (amount.toNat : ℤ) - (a.pub key).toNat else 0) := by
  rw [worth_of_pub secret (balance_setPublic ..) (pending_setPublic ..), pub_setPublic]
  by_cases htoken : token = key
  · rw [if_pos htoken, if_pos htoken, htoken]
  · rw [if_neg htoken, if_neg htoken, sub_self]

theorem worth_set (ct : Ciphertext C.Point) :
    (a.set key ct).worth secret token = a.worth secret token +
      if token = key then sealedValue secret ct - sealedValue secret (a.balance key) else 0 := by
  unfold worth
  rw [balance_set, pending_set, pub_set]
  by_cases htoken : token = key
  · subst htoken
    rw [if_pos rfl, if_pos rfl]
    abel
  · rw [if_neg htoken, if_neg htoken, add_zero]

theorem worth_setPending (ct : Ciphertext C.Point) :
    (a.setPending key ct).worth secret token = a.worth secret token +
      if token = key then sealedValue secret ct - sealedValue secret (a.pending key) else 0 := by
  unfold worth
  rw [balance_setPending, pending_setPending, pub_setPending]
  by_cases htoken : token = key
  · subst htoken
    rw [if_pos rfl, if_pos rfl]
    abel
  · rw [if_neg htoken, if_neg htoken, add_zero]

/-- Merging a pending balance into the spendable one moves nothing in or out. -/
theorem worth_mergePending :
    (mergePending a key).worth secret token = a.worth secret token := by
  unfold mergePending
  rw [worth_setPending, worth_set, pending_set, sealedValue_add, sealedValue_zero]
  by_cases htoken : token = key
  · rw [if_pos htoken, if_pos htoken]
    abel
  · rw [if_neg htoken, if_neg htoken, add_zero, add_zero]

theorem worth_foldl_mergePending (keys : List UInt32) :
    (keys.foldl mergePending a).worth secret token = a.worth secret token := by
  induction keys generalizing a with
  | nil => rfl
  | cons key rest ih => rw [List.foldl_cons, ih, worth_mergePending]

end Account

/-! ### Places -/

/-- Where value is held. -/
inductive Place where
  | account (id : Bytes32)
  | pool (token : UInt32)
  | curve (token : UInt32)
  | validator (id : Bytes32)
  | escrow (id : Bytes32)
deriving DecidableEq

/-- What a pool holds of a token: native LAT on the one side, its token on the other. -/
def Pool.amountOf (p : Pool) (token : UInt32) : ℤ :=
  (if token = LAT_TOKEN then (p.lat.toNat : ℤ) else 0) +
    if token = p.token then (p.tok.toNat : ℤ) else 0

/-- What a curve holds of a token. The tokens of its virtual reserve do not exist yet. -/
def CurvePool.amountOf (c : CurvePool) (token : UInt32) : ℤ :=
  if token = LAT_TOKEN then c.realLat.toNat else 0

/-- What a validator has bonded or is unbonding. -/
def Validator.amountOf (v : Validator) (token : UInt32) : ℤ :=
  if token = LAT_TOKEN then ((v.staked.toNat + unbondingTotal v.unbonding : ℕ) : ℤ) else 0

/-- What an escrow holds of a token. -/
def Htlc.amountOf (escrow : Htlc) (token : UInt32) : ℤ :=
  if token = escrow.token then escrow.amount.toNat else 0

namespace LedgerState

section Worth

variable (secret : Bytes32 → ℤ) (token : UInt32) (s : LedgerState C)

/-- What is held at a place. -/
def held : Place → C.Point
  | .account id => (s.account id).elim 0 fun a ↦ a.worth (secret id) token
  | .pool key => (s.pool key).elim 0 fun p ↦ coins C (p.amountOf token)
  | .curve key => (s.curve key).elim 0 fun c ↦ coins C (c.amountOf token)
  | .validator id => (s.validator id).elim 0 fun v ↦ coins C (v.amountOf token)
  | .escrow id => (s.htlc id).elim 0 fun escrow ↦ coins C (escrow.amountOf token)

/-- What the ledger is worth in a token. -/
noncomputable def worth : C.Point := holdings (s.held secret token)

end Worth

/-- When it is known what every place holds as a number, the numbers add up to the worth. -/
theorem worth_of_opened {secret : Bytes32 → ℤ} {token : UInt32} {s : LedgerState C}
    {value : Place → ℤ} (hfinite : (Function.support value).Finite)
    (hopened : ∀ place, s.held secret token place = coins C (value place)) :
    s.worth secret token = coins C (∑ᶠ place, value place) := by
  have hsum := AddMonoidHom.map_finsum (zmultiplesHom C.Point C.basePoint) hfinite
  rw [worth, holdings, finsum_congr hopened]
  exact hsum.symm

/-- A step changes the worth of a ledger by a gain. -/
def Gains (secret : Bytes32 → ℤ) (token : UInt32) (s s' : LedgerState C) (gain : C.Point) : Prop :=
  Shifts (s.held secret token) (s'.held secret token) gain

variable {secret : Bytes32 → ℤ} {token : UInt32} {s s' : LedgerState C}

/-- An account that is not registered holds nothing, as a fresh one does. -/
theorem held_accountOr (id : Bytes32) :
    s.held secret token (.account id) = (s.accountOr id).worth (secret id) token := by
  cases hacct : s.account id <;> simp [held, accountOr, hacct]

theorem held_validatorOr (id : Bytes32) :
    s.held secret token (.validator id) = coins C ((s.validatorOr id).amountOf token) := by
  cases hval : s.validator id <;>
    simp [held, validatorOr, hval, Validator.amountOf, Validator.default]

/-! ### Updates -/

/-- The gain of a write of an account. -/
theorem gains_setAccount (s : LedgerState C) (id : Bytes32) (a : Account C) :
    Gains secret token s (s.setAccount id a)
      (a.worth (secret id) token - (s.accountOr id).worth (secret id) token) := by
  have hwrite : (s.setAccount id a).held secret token =
      Function.update (s.held secret token) (.account id) (a.worth (secret id) token) := by
    funext place
    cases place with
    | account other =>
      by_cases hother : other = id
      · subst hother
        simp [held]
      · simp [held, hother]
    | _ => rfl
  rw [← held_accountOr]
  unfold Gains
  rw [hwrite]
  exact Shifts.write ..

theorem gains_setValidator (s : LedgerState C) (id : Bytes32) (v : Validator) :
    Gains secret token s (s.setValidator id v)
      (coins C (v.amountOf token - (s.validatorOr id).amountOf token)) := by
  have hwrite : (s.setValidator id v).held secret token =
      Function.update (s.held secret token) (.validator id) (coins C (v.amountOf token)) := by
    funext place
    cases place with
    | validator other =>
      by_cases hother : other = id
      · subst hother
        by_cases hdrained : v.Drained
        · simp [held, hdrained, Validator.amountOf, hdrained.1, hdrained.2]
        · simp [held, hdrained]
      · simp [held, hother]
    | _ => rfl
  rw [coins_sub, ← held_validatorOr]
  unfold Gains
  rw [hwrite]
  exact Shifts.write ..

/-- The gain of a write of a pool, which takes the place of the one of its token. -/
theorem gains_setPool (s : LedgerState C) {p : Pool} (hsupply : p.lpSupply ≠ 0) :
    Gains secret token s (s.setPool p)
      (coins C (p.amountOf token) - s.held secret token (.pool p.token)) := by
  have hwrite : (s.setPool p).held secret token =
      Function.update (s.held secret token) (.pool p.token) (coins C (p.amountOf token)) := by
    funext place
    cases place with
    | pool other =>
      by_cases hother : other = p.token
      · subst hother
        simp [held, hsupply]
      · simp [held, hother]
    | _ => rfl
  unfold Gains
  rw [hwrite]
  exact Shifts.write ..

theorem gains_setCurve (s : LedgerState C) (c : CurvePool) :
    Gains secret token s (s.setCurve c)
      (coins C (c.amountOf token) - s.held secret token (.curve c.token)) := by
  have hwrite : (s.setCurve c).held secret token =
      Function.update (s.held secret token) (.curve c.token) (coins C (c.amountOf token)) := by
    funext place
    cases place with
    | curve other =>
      by_cases hother : other = c.token
      · subst hother
        simp [held]
      · simp [held, hother]
    | _ => rfl
  unfold Gains
  rw [hwrite]
  exact Shifts.write ..

theorem gains_setHtlc (s : LedgerState C) (id : Bytes32) (escrow : Option Htlc) :
    Gains secret token s (s.setHtlc id escrow)
      (coins C (escrow.elim 0 (Htlc.amountOf · token)) - s.held secret token (.escrow id)) := by
  have hwrite : (s.setHtlc id escrow).held secret token =
      Function.update (s.held secret token) (.escrow id)
        (coins C (escrow.elim 0 (Htlc.amountOf · token))) := by
    funext place
    cases place with
    | escrow other =>
      by_cases hother : other = id
      · subst hother
        cases escrow <;> simp [held]
      · simp [held, hother]
    | _ => rfl
  unfold Gains
  rw [hwrite]
  exact Shifts.write ..

/-- What no place depends on gains nothing. -/
theorem Gains.of_same (haccount : s'.account = s.account) (hpool : s'.pool = s.pool)
    (hcurve : s'.curve = s.curve) (hvalidator : s'.validator = s.validator)
    (hhtlc : s'.htlc = s.htlc) : Gains secret token s s' 0 := by
  refine Shifts.of_eq ?_
  funext place
  cases place <;> simp only [held, haccount, hpool, hcurve, hvalidator, hhtlc]

end LedgerState

end Latebra.State
