import Latebra.Foundation.ConstantProduct
import Latebra.State.Reachability

/-!
# Liquidity pools

The pools of the ledger are the constant-product pools of `Foundation.ConstantProduct` on words.
`isqrt_exact` is about the integer square root that prices the first deposit. `Pool.Sound` is what
every open pool has (`Reachable.pools_guaranteed`): something in both reserves, at least the burned
minimum of shares, and a supply whose square is at most the product of the reserves. It makes every
division of an operation exact, except that the product of a swap can leave 128 bits
(`Reachable.swap_exact_iff`).
-/

set_option autoImplicit false
set_option relaxedAutoImplicit false

namespace Latebra.State

open Foundation Crypto Latebra.Types Contracts

variable {C : CryptoSuite}

/-! ### The integer square root -/

/-- A Newton step from above one never reaches zero. -/
theorem mean_pos {n x y : ℕ} (hn : 0 < n) (hx : 0 < x) (hy : y = (x + n / x) / 2) : 0 < y := by
  have hquotient : x = 1 → n / x = n := by
    rintro rfl
    exact Nat.div_one n
  generalize n / x = quotient at hquotient hy
  omega

/-- A Newton step never falls below the root: a number and its quotient are on average at least the
square root, rounded down. -/
theorem lt_succ_mean_sq {n x : ℕ} (hx : 0 < x) : n < ((x + n / x) / 2 + 1) ^ 2 := by
  have hquotient : n < x * (n / x + 1) := Nat.lt_mul_div_succ n hx
  have hmean : x + (n / x + 1) ≤ 2 * ((x + n / x) / 2 + 1) := by omega
  have hproduct : 4 * x * (n / x + 1) ≤ (x + (n / x + 1)) ^ 2 := four_mul_le_sq_add x (n / x + 1)
  have hsquare : (x + (n / x + 1)) ^ 2 ≤ (2 * ((x + n / x) / 2 + 1)) ^ 2 :=
    Nat.pow_le_pow_left hmean 2
  rw [mul_pow] at hsquare
  rw [mul_assoc] at hproduct
  omega

theorem isqrtLoop_sq_le {n x y : ℕ} (hn : 0 < n) (hx : 0 < x) (hy : y = (x + n / x) / 2) :
    isqrtLoop n x y ^ 2 ≤ n := by
  induction x, y using isqrtLoop.induct (n := n) with
  | case1 x y hlt ih =>
    rw [isqrtLoop, if_pos hlt]
    exact ih (mean_pos hn hx hy) rfl
  | case2 x y hstop =>
    rw [isqrtLoop, if_neg hstop]
    have hle : x ≤ n / x := by omega
    rw [Nat.le_div_iff_mul_le hx] at hle
    rwa [sq]

theorem lt_succ_isqrtLoop_sq {n x y : ℕ} (hn : 0 < n) (hx : 0 < x) (habove : n < (x + 1) ^ 2)
    (hy : y = (x + n / x) / 2) : n < (isqrtLoop n x y + 1) ^ 2 := by
  induction x, y using isqrtLoop.induct (n := n) with
  | case1 x y hlt ih =>
    rw [isqrtLoop, if_pos hlt]
    have hmean : n < (y + 1) ^ 2 := hy ▸ lt_succ_mean_sq hx
    exact ih (mean_pos hn hx hy) hmean rfl
  | case2 x y hstop =>
    rw [isqrtLoop, if_neg hstop]
    exact habove

/-- The square root of a product of two words fits in a word. -/
theorem isqrtLoop_lt {n : ℕ} (hn : n < 2 ^ 128) : isqrtLoop n n ((n + 1) / 2) < 2 ^ 64 := by
  rcases Nat.eq_zero_or_pos n with rfl | hpos
  · rw [isqrtLoop]
    norm_num
  · have hsq : isqrtLoop n n ((n + 1) / 2) ^ 2 ≤ n :=
      isqrtLoop_sq_le hpos hpos (by rw [Nat.div_self hpos])
    refine lt_of_pow_lt_pow_left₀ 2 (Nat.zero_le _) (hsq.trans_lt (hn.trans_le ?_))
    norm_num

theorem toNat_mul_toNat_lt (a b : UInt64) : a.toNat * b.toNat < 2 ^ 128 := by
  have ha := a.toNat_lt
  have hb := b.toNat_lt
  nlinarith

/-- The integer square root rounds down. -/
theorem isqrt_sq_le {n : ℕ} (hn : n < 2 ^ 128) : (isqrt n).toNat ^ 2 ≤ n := by
  unfold isqrt
  split
  · exact Nat.zero_le n
  · next hne =>
    have hpos := Nat.pos_of_ne_zero hne
    rw [UInt64.toNat_ofNat_of_lt' (isqrtLoop_lt hn)]
    exact isqrtLoop_sq_le hpos hpos (by rw [Nat.div_self hpos])

/-- The iteration as the 128-bit words of the source make it: a sum that overflows and a division by
zero panic. `isqrtLoop` leaves these checks out, which `isqrtLoopChecked_eq` justifies. -/
def isqrtLoopChecked (n x y : ℕ) : Option ℕ :=
  if y < x then
    if y = 0 then none
    else if y + n / y < 2 ^ 128 then isqrtLoopChecked n y ((y + n / y) / 2) else none
  else some x
termination_by x

theorem add_div_le {n y : ℕ} (hy : 0 < y) (hle : y ≤ n) : y + n / y ≤ n + 1 := by
  have hquotient : n / y < n - y + 2 := by
    rw [Nat.div_lt_iff_lt_mul hy]
    obtain ⟨d, rfl⟩ := Nat.exists_eq_add_of_le hle
    rw [Nat.add_sub_cancel_left]
    nlinarith [Nat.zero_le d]
  omega

/-- No sum overflows and no divisor is zero when the successor of the radicand fits. -/
theorem isqrtLoopChecked_eq {n x y : ℕ} (hn : 0 < n) (hfits : n + 1 < 2 ^ 128) (hx : 0 < x)
    (hle : x ≤ n) (hy : y = (x + n / x) / 2) :
    isqrtLoopChecked n x y = some (isqrtLoop n x y) := by
  induction x, y using isqrtLoop.induct (n := n) with
  | case1 x y hlt ih =>
    have hpos := mean_pos hn hx hy
    have hbelow : y ≤ n := hlt.le.trans hle
    have hsum := add_div_le hpos hbelow
    rw [isqrtLoop, isqrtLoopChecked, if_pos hlt, if_pos hlt, if_neg hpos.ne', if_pos (by omega)]
    exact ih hpos hbelow rfl
  | case2 x y hstop => rw [isqrtLoop, isqrtLoopChecked, if_neg hstop, if_neg hstop]

/-- On every product of two words the integer square root ends without overflow, with the largest
number whose square is not above the product, and narrowing that number to a word loses nothing. -/
theorem isqrt_exact (a b : UInt64) :
    (a.toNat * b.toNat ≠ 0 → isqrtLoopChecked (a.toNat * b.toNat) (a.toNat * b.toNat)
      ((a.toNat * b.toNat + 1) / 2) = some (isqrt (a.toNat * b.toNat)).toNat) ∧
    (isqrt (a.toNat * b.toNat)).toNat ^ 2 ≤ a.toNat * b.toNat ∧
    a.toNat * b.toNat < ((isqrt (a.toNat * b.toNat)).toNat + 1) ^ 2 := by
  have hproduct : a.toNat * b.toNat + 1 < 2 ^ 128 := by
    have ha := a.toNat_lt
    have hb := b.toNat_lt
    nlinarith
  have hbound := toNat_mul_toNat_lt a b
  refine ⟨?_, isqrt_sq_le hbound, ?_⟩
  · intro hne
    have hpos := Nat.pos_of_ne_zero hne
    rw [isqrtLoopChecked_eq hpos hproduct hpos le_rfl (by rw [Nat.div_self hpos]), isqrt, if_neg hne,
      UInt64.toNat_ofNat_of_lt' (isqrtLoop_lt hbound)]
  · rcases Nat.eq_zero_or_pos (a.toNat * b.toNat) with hzero | hpos
    · rw [hzero]
      exact Nat.pow_pos (Nat.succ_pos _)
    · rw [isqrt, if_neg hpos.ne', UInt64.toNat_ofNat_of_lt' (isqrtLoop_lt hbound)]
      apply lt_succ_isqrtLoop_sq hpos hpos
      · nlinarith
      · rw [Nat.div_self hpos]

/-! ### What the operations compute -/

namespace Pool

variable (p : Pool)

/-- The reserves and the supply of a pool. -/
def reserves : Reserves := ⟨p.lat.toNat, p.tok.toNat, p.lpSupply.toNat⟩

/-- The reserve that a swap adds to. -/
def reserveIn (latIn : Bool) : UInt64 := if latIn then p.lat else p.tok

/-- The reserve that a swap pays from. -/
def reserveOut (latIn : Bool) : UInt64 := if latIn then p.tok else p.lat

/-- What a swap pays, in natural numbers. -/
def exactOut (latIn : Bool) (amountIn : UInt64) : ℕ :=
  swapOut (10000 - SWAP_FEE_BPS) 10000 (p.reserveIn latIn).toNat (p.reserveOut latIn).toNat
    amountIn.toNat

/-- The LAT that a withdrawal of shares pays. -/
def latPayout (lpAmount : UInt64) : UInt64 :=
  UInt64.ofNat (lpAmount.toNat * p.lat.toNat / p.lpSupply.toNat)

/-- The tokens that a withdrawal of shares pays. -/
def tokPayout (lpAmount : UInt64) : UInt64 :=
  UInt64.ofNat (lpAmount.toNat * p.tok.toNat / p.lpSupply.toNat)

/-- The shares that a deposit of LAT mints. -/
def mintedFor (latAmount : UInt64) : UInt64 :=
  UInt64.ofNat (latAmount.toNat * p.lpSupply.toNat / p.lat.toNat)

end Pool

open LedgerState

variable {s s' : LedgerState C} {r : Unit}

/-- A deposit into an open pool is priced by its reserves. -/
theorem planDeposit_priced {p : Pool} {token : UInt32} {latAmount tokAmount : UInt64}
    {after : Pool} {tokUsed minted : UInt64}
    (h : Runs (planDeposit (some p) token latAmount tokAmount) s (after, tokUsed, minted) s') :
    p.lat.toNat ≠ 0 ∧ tokUsed.toNat = ceilDiv (latAmount.toNat * p.tok.toNat) p.lat.toNat ∧
      minted = p.mintedFor latAmount ∧ minted ≠ 0 := by
  simp [planDeposit] at h
  obtain ⟨quotient, hquotient, hneeded, -, share, hshare, ⟨hminted, -⟩, lat, -, tok, -,
    supply, -, rfl, rfl⟩ := h
  obtain ⟨hpos, rfl⟩ := checkedDiv_eq_some.mp hquotient
  obtain ⟨-, rfl⟩ := checkedDiv_eq_some.mp hshare
  exact ⟨hpos, narrow64_eq_some.mp hneeded, rfl, hminted⟩

theorem applyAddLiquidity_priced {tx : Transaction C} {token : UInt32} {provider : Bytes32}
    {latAmount tokAmount fee nonce : UInt64} {sig : Bytes64}
    (h : Runs (applyAddLiquidity tx token provider latAmount tokAmount fee nonce sig) s r s') :
    ∃ acct pool tokUsed minted latTotal shares next, token ≠ LAT_TOKEN ∧ latAmount ≠ 0 ∧
      tokAmount ≠ 0 ∧ s.account provider = some acct ∧
      Runs (planDeposit (s.pool token) token latAmount tokAmount) s (pool, tokUsed, minted) s ∧
      checkedAdd latAmount fee = some latTotal ∧ latTotal ≤ acct.pub LAT_TOKEN ∧
      tokUsed ≤ acct.pub token ∧
      checkedAdd (s.lp token provider) minted = some shares ∧
      s' = ((s.debited provider (acct.setPublic LAT_TOKEN (acct.pub LAT_TOKEN - latTotal)) token
        tokUsed next).setLp token provider shares).setPool pool := by
  simp [applyAddLiquidity, -Account.pub_setPublic] at h
  obtain ⟨-, ⟨htoken, -⟩, ⟨hlatAmount, htokAmount⟩, acct, hacct, -, pool, tokUsed, minted, _, hplan,
    latTotal, htotal, ⟨hlat, htok⟩, next, -, -, shares, hshares, rfl⟩ := h
  obtain ⟨rfl, -⟩ := planDeposit_outcome hplan
  exact ⟨acct, pool, tokUsed, minted, latTotal, shares, next, htoken, hlatAmount, htokAmount, hacct,
    hplan, htotal, hlat, htok, hshares, rfl⟩

theorem applyRemoveLiquidity_priced {tx : Transaction C} {token : UInt32} {provider : Bytes32}
    {lpAmount fee nonce : UInt64} {sig : Bytes64}
    (h : Runs (applyRemoveLiquidity tx token provider lpAmount fee nonce sig) s r s') :
    ∃ acct p after returned next, s.account provider = some acct ∧ s.pool token = some p ∧
      lpAmount ≤ s.lp token provider ∧ p.lpSupply.toNat ≠ 0 ∧ fee ≤ acct.pub LAT_TOKEN ∧
      after.token = p.token ∧ checkedSub p.lat (p.latPayout lpAmount) = some after.lat ∧
      checkedSub p.tok (p.tokPayout lpAmount) = some after.tok ∧
      checkedSub p.lpSupply lpAmount = some after.lpSupply ∧
      returned = (acct.setPublic LAT_TOKEN (acct.pub LAT_TOKEN - fee)).setPublic LAT_TOKEN
        (saturatingAdd (acct.pub LAT_TOKEN - fee) (p.latPayout lpAmount)) ∧
      s' = ((s.setAccount provider ((returned.setPublic token
        (saturatingAdd (returned.pub token) (p.tokPayout lpAmount))).withNonce next)).setLp token
          provider (s.lp token provider - lpAmount)).setPool after := by
  simp [applyRemoveLiquidity, -Account.pub_setPublic] at h
  obtain ⟨-, -, acct, hacct, -, p, hpool, hshares, latShare, hlatShare, tokShare, htokShare, -,
    hfee, next, -, lat, hlat, tok, htok, supply, hsupply, -, rfl⟩ := h
  obtain ⟨hpos, rfl⟩ := checkedDiv_eq_some.mp hlatShare
  obtain ⟨-, rfl⟩ := checkedDiv_eq_some.mp htokShare
  refine ⟨acct, p, ⟨p.token, lat, tok, supply⟩, _, next, hacct, hpool, hshares, hpos, hfee, rfl,
    hlat, htok, hsupply, rfl, ?_⟩
  simp only [Account.pub_setPublic, if_true]
  rfl

/-- A swap pays the exact output of the reserves, truncated to a word. -/
theorem applySwap_priced {tx : Transaction C} {token : UInt32} {trader : Bytes32} {latIn : Bool}
    {amountIn minOut fee nonce : UInt64} {sig : Bytes64}
    (h : Runs (applySwap tx token trader latIn amountIn minOut fee nonce sig) s r s') :
    ∃ p acct out after, s.pool token = some p ∧
      amountIn.toNat * (10000 - SWAP_FEE_BPS) * (p.reserveOut latIn).toNat < 2 ^ 128 ∧
      out = UInt64.ofNat (p.exactOut latIn amountIn) ∧ out ≠ 0 ∧ minOut ≤ out ∧
      after.token = p.token ∧ after.lpSupply = p.lpSupply ∧
      checkedAdd (p.reserveIn latIn) amountIn = some (after.reserveIn latIn) ∧
      checkedSub (p.reserveOut latIn) out = some (after.reserveOut latIn) ∧
      s' = (s.setAccount trader acct).setPool after := by
  cases latIn with
  | true =>
    simp [applySwap, -Account.pub_setPublic] at h
    obtain ⟨-, -, acct, -, -, p, hpool, product, hproduct, ⟨hout, hmin⟩, lat, hlat, latIn, -, -,
      next, -, tok, htok, -, rfl⟩ := h
    obtain ⟨hfits, rfl⟩ := fits128_eq_some.mp hproduct
    exact ⟨p, _, _, { p with lat := lat, tok := tok }, hpool, hfits, rfl, hout, hmin, rfl, rfl,
      hlat, htok, rfl⟩
  | false =>
    simp [applySwap, -Account.pub_setPublic] at h
    obtain ⟨-, -, acct, -, -, p, hpool, product, hproduct, ⟨hout, hmin⟩, tok, htok, -, tokLeft, -,
      next, -, lat, hlat, -, rfl⟩ := h
    obtain ⟨hfits, rfl⟩ := fits128_eq_some.mp hproduct
    exact ⟨p, _, _, { p with tok := tok, lat := lat }, hpool, hfits, rfl, hout, hmin, rfl, rfl,
      htok, hlat, rfl⟩

/-! ### Sound pools -/

/-- The invariant of an open pool: neither reserve is empty, the burned minimum is part of the
supply, and the reserves back the supply. -/
structure Pool.Sound (p : Pool) : Prop where
  lat_pos : 0 < p.lat.toNat
  tok_pos : 0 < p.tok.toNat
  supply_ge : MIN_POOL_LIQUIDITY.toNat ≤ p.lpSupply.toNat
  backed : p.reserves.Backed

namespace Pool

variable {p after : Pool}

/-- A withdrawal of shares that exist is paid in full. -/
theorem toNat_latPayout {lpAmount : UInt64} (hle : lpAmount.toNat ≤ p.lpSupply.toNat) :
    (p.latPayout lpAmount).toNat = lpAmount.toNat * p.lat.toNat / p.lpSupply.toNat :=
  UInt64.toNat_ofNat_of_lt' (lt_of_le_of_lt (RateLe.withdraw_le hle) p.lat.toNat_lt)

theorem toNat_tokPayout {lpAmount : UInt64} (hle : lpAmount.toNat ≤ p.lpSupply.toNat) :
    (p.tokPayout lpAmount).toNat = lpAmount.toNat * p.tok.toNat / p.lpSupply.toNat :=
  UInt64.toNat_ofNat_of_lt' (lt_of_le_of_lt (RateLe.withdraw_le hle) p.tok.toNat_lt)

namespace Sound

theorem supply_pos (hp : p.Sound) : 0 < p.lpSupply.toNat :=
  lt_of_lt_of_le (by decide) hp.supply_ge

theorem reserveIn_pos (hp : p.Sound) (latIn : Bool) : 0 < (p.reserveIn latIn).toNat := by
  cases latIn with
  | true => exact hp.lat_pos
  | false => exact hp.tok_pos

theorem reserveOut_pos (hp : p.Sound) (latIn : Bool) : 0 < (p.reserveOut latIn).toNat := by
  cases latIn with
  | true => exact hp.tok_pos
  | false => exact hp.lat_pos

/-- The shares that a deposit mints fit in a word once its charge does. -/
theorem minted_lt (hp : p.Sound) {latAmount : UInt64}
    (hcharge : ceilDiv (latAmount.toNat * p.tok.toNat) p.lat.toNat < 2 ^ 64) :
    latAmount.toNat * p.lpSupply.toNat / p.lat.toNat < 2 ^ 64 := by
  have hsq : (latAmount.toNat * p.lpSupply.toNat / p.lat.toNat) ^ 2 ≤
      latAmount.toNat * ceilDiv (latAmount.toNat * p.tok.toNat) p.lat.toNat :=
    hp.backed.minted_sq_le hp.lat_pos latAmount.toNat
  have hbound : latAmount.toNat * ceilDiv (latAmount.toNat * p.tok.toNat) p.lat.toNat <
      2 ^ 64 * 2 ^ 64 := Nat.mul_lt_mul'' latAmount.toNat_lt hcharge
  exact lt_of_pow_lt_pow_left₀ 2 (Nat.zero_le _) (lt_of_le_of_lt hsq hbound)

/-- A swap never empties the reserve it pays from. -/
theorem exactOut_lt (hp : p.Sound) (latIn : Bool) (amountIn : UInt64) :
    p.exactOut latIn amountIn < (p.reserveOut latIn).toNat :=
  swapOut_lt _ (hp.reserveIn_pos latIn) (hp.reserveOut_pos latIn) (by decide)

theorem toNat_out (hp : p.Sound) (latIn : Bool) (amountIn : UInt64) :
    (UInt64.ofNat (p.exactOut latIn amountIn)).toNat = p.exactOut latIn amountIn :=
  UInt64.toNat_ofNat_of_lt'
    ((hp.exactOut_lt latIn amountIn).trans (p.reserveOut latIn).toNat_lt)

/-- Soundness goes up with the worth of a share. -/
theorem of_shareLe (hp : p.Sound) (hle : p.reserves.ShareLe after.reserves)
    (hlat : 0 < after.lat.toNat) (htok : 0 < after.tok.toNat)
    (hsupply : MIN_POOL_LIQUIDITY.toNat ≤ after.lpSupply.toNat) : after.Sound :=
  ⟨hlat, htok, hsupply, hle.backed hp.supply_pos hp.backed⟩

end Sound

end Pool

/-- A deposit into an open pool, in natural numbers. -/
theorem Pool.Sound.planned_deposit {p : Pool} (hp : p.Sound) {token : UInt32}
    {latAmount tokAmount : UInt64} {after : Pool} {tokUsed minted : UInt64}
    (h : Runs (planDeposit (some p) token latAmount tokAmount) s (after, tokUsed, minted) s') :
    after.reserves = p.reserves.deposit latAmount.toNat ∧
      tokUsed.toNat = ceilDiv (latAmount.toNat * p.tok.toNat) p.lat.toNat ∧
      minted.toNat = latAmount.toNat * p.lpSupply.toNat / p.lat.toNat := by
  obtain ⟨-, hcharge, hminted, -⟩ := planDeposit_priced h
  obtain ⟨-, htoken, hlat, htok, hsupply⟩ := planDeposit_outcome h
  have hmintedNat : minted.toNat = latAmount.toNat * p.lpSupply.toNat / p.lat.toNat := by
    rw [hminted]
    exact UInt64.toNat_ofNat_of_lt' (hp.minted_lt (hcharge ▸ tokUsed.toNat_lt))
  refine ⟨?_, hcharge, hmintedNat⟩
  unfold Pool.reserves Reserves.deposit
  rw [checkedAdd_eq_some.mp hlat, checkedAdd_eq_some.mp htok, checkedAdd_eq_some.mp hsupply,
    hcharge, hmintedNat]

/-- Soundness of a pool after a deposit. -/
theorem planned_sound {pool : Option Pool} (hpool : ∀ p, pool = some p → p.Sound) {token : UInt32}
    {latAmount tokAmount : UInt64} {after : Pool} {tokUsed minted : UInt64}
    (hlatAmount : latAmount ≠ 0) (htokAmount : tokAmount ≠ 0)
    (h : Runs (planDeposit pool token latAmount tokAmount) s (after, tokUsed, minted) s') :
    after.Sound := by
  cases pool with
  | none =>
    obtain ⟨-, hminimum, rfl, -⟩ := planDeposit_outcome h
    refine ⟨?_, ?_, (UInt64.lt_iff_toNat_lt.mp hminimum).le, ?_⟩
    · exact Nat.pos_of_ne_zero fun hzero ↦ hlatAmount (UInt64.toNat_inj.mp hzero)
    · exact Nat.pos_of_ne_zero fun hzero ↦ htokAmount (UInt64.toNat_inj.mp hzero)
    · exact isqrt_sq_le (toNat_mul_toNat_lt latAmount tokAmount)
  | some p =>
    have hp := hpool p rfl
    obtain ⟨hreserves, -, -⟩ := hp.planned_deposit h
    obtain ⟨-, -, hlat, htok, hsupply⟩ := planDeposit_outcome h
    refine hp.of_shareLe ?_ ?_ ?_ ?_
    · rw [hreserves]
      exact Reserves.deposit_shareLe hp.lat_pos latAmount.toNat
    · rw [checkedAdd_eq_some.mp hlat]
      exact Nat.add_pos_left hp.lat_pos _
    · rw [checkedAdd_eq_some.mp htok]
      exact Nat.add_pos_left hp.tok_pos _
    · rw [checkedAdd_eq_some.mp hsupply]
      exact hp.supply_ge.trans (Nat.le_add_right _ _)

/-- A withdrawal, in natural numbers. -/
theorem withdrawn_reserves {p after : Pool} {lpAmount : UInt64}
    (hle : lpAmount.toNat ≤ p.lpSupply.toNat)
    (hlat : checkedSub p.lat (p.latPayout lpAmount) = some after.lat)
    (htok : checkedSub p.tok (p.tokPayout lpAmount) = some after.tok)
    (hsupply : checkedSub p.lpSupply lpAmount = some after.lpSupply) :
    after.reserves = p.reserves.withdraw lpAmount.toNat := by
  have hlatNat := checkedSub_eq_some.mp hlat
  have htokNat := checkedSub_eq_some.mp htok
  have hsupplyNat := checkedSub_eq_some.mp hsupply
  rw [Pool.toNat_latPayout hle] at hlatNat
  rw [Pool.toNat_tokPayout hle] at htokNat
  unfold Pool.reserves Reserves.withdraw
  congr 1
  · exact Nat.eq_sub_of_add_eq hlatNat
  · exact Nat.eq_sub_of_add_eq htokNat
  · exact Nat.eq_sub_of_add_eq hsupplyNat

/-- A withdrawal that leaves the burned minimum leaves a sound pool. -/
theorem Pool.Sound.withdrawn {p after : Pool} (hp : p.Sound) {lpAmount : ℕ}
    (hleft : lpAmount + MIN_POOL_LIQUIDITY.toNat ≤ p.lpSupply.toNat)
    (hreserves : after.reserves = p.reserves.withdraw lpAmount) : after.Sound := by
  have hmin : MIN_POOL_LIQUIDITY.toNat = 1000 := rfl
  have hburned : lpAmount < p.lpSupply.toNat := by omega
  have hlat : after.lat.toNat = p.lat.toNat - lpAmount * p.lat.toNat / p.lpSupply.toNat :=
    congrArg Reserves.first hreserves
  have htok : after.tok.toNat = p.tok.toNat - lpAmount * p.tok.toNat / p.lpSupply.toNat :=
    congrArg Reserves.second hreserves
  have hsupply : after.lpSupply.toNat = p.lpSupply.toNat - lpAmount :=
    congrArg Reserves.supply hreserves
  refine hp.of_shareLe ?_ ?_ ?_ ?_
  · rw [hreserves]
    exact p.reserves.withdraw_shareLe lpAmount
  · rw [hlat]
    exact RateLe.withdraw_pos hp.lat_pos hburned
  · rw [htok]
    exact RateLe.withdraw_pos hp.tok_pos hburned
  · omega

/-- A swap keeps a pool sound, and never lowers the product of its reserves. -/
theorem Pool.Sound.swapped {p after : Pool} (hp : p.Sound) {latIn : Bool} {amountIn : UInt64}
    (hin : checkedAdd (p.reserveIn latIn) amountIn = some (after.reserveIn latIn))
    (hout : checkedSub (p.reserveOut latIn) (UInt64.ofNat (p.exactOut latIn amountIn)) =
      some (after.reserveOut latIn)) (hsupply : after.lpSupply = p.lpSupply) :
    after.Sound ∧ p.lat.toNat * p.tok.toNat ≤ after.lat.toNat * after.tok.toNat := by
  have hinNat := checkedAdd_eq_some.mp hin
  have houtNat := checkedSub_eq_some.mp hout
  rw [hp.toNat_out] at houtNat
  have hproduct : (p.reserveIn latIn).toNat * (p.reserveOut latIn).toNat ≤
      (after.reserveIn latIn).toNat * (after.reserveOut latIn).toNat := by
    rw [hinNat, Nat.eq_sub_of_add_eq houtNat]
    exact product_le_swap _ (hp.reserveIn_pos latIn) (hp.reserveOut_pos latIn) (by decide) (by decide)
  have hinPos : 0 < (after.reserveIn latIn).toNat := by
    rw [hinNat]
    exact Nat.add_pos_left (hp.reserveIn_pos latIn) _
  have houtPos : 0 < (after.reserveOut latIn).toNat := by
    have hlt := hp.exactOut_lt latIn amountIn
    omega
  have hgrown : p.lat.toNat * p.tok.toNat ≤ after.lat.toNat * after.tok.toNat := by
    cases latIn with
    | true => exact hproduct
    | false =>
      rw [mul_comm, mul_comm after.lat.toNat]
      exact hproduct
  refine ⟨⟨?_, ?_, ?_, ?_⟩, hgrown⟩
  · cases latIn with
    | true => exact hinPos
    | false => exact houtPos
  · cases latIn with
    | true => exact houtPos
    | false => exact hinPos
  · rw [hsupply]
    exact hp.supply_ge
  · change after.lpSupply.toNat ^ 2 ≤ after.lat.toNat * after.tok.toNat
    rw [hsupply]
    exact hp.backed.trans hgrown

/-! ### What a step does to the pools -/

namespace LedgerState

/-- Every open pool is sound. -/
def PoolsSound (s : LedgerState C) : Prop := ∀ token p, s.pool token = some p → p.Sound

/-- The shares of a provider leave the burned minimum in the supply. -/
theorem SharesBacked.held_le (hs : s.SharesBacked) {token : UInt32} {p : Pool}
    (hpool : s.pool token = some p) (provider : Bytes32) :
    (s.lp token provider).toNat + MIN_POOL_LIQUIDITY.toNat ≤ p.lpSupply.toNat := by
  have hheld : (s.lp token provider).toNat ≤ s.shares token := le_total (hs.finite token) provider
  have hbacked := hs.backed token p hpool
  omega

theorem pool_setPool {p : Pool} (hp : p.Sound) :
    (s.setPool p).pool = Function.update s.pool p.token (some p) := by
  have hsupply : p.lpSupply ≠ 0 := fun hzero ↦ by
    have hpos := hp.supply_pos
    rw [hzero] at hpos
    exact absurd hpos (by decide)
  rw [setPool_pool, if_neg hsupply]

/-- A successful transaction leaves the pools alone, or it puts a sound pool in the place of one. -/
theorem PoolsSound.applyInner_pool (hs : s.PoolsSound) (hshares : s.SharesBacked)
    {tx : Transaction C} {height : UInt64} (hrun : Runs (applyInner tx height none) s () s') :
    s'.pool = s.pool ∨
      ∃ after : Pool, after.Sound ∧ s'.pool = Function.update s.pool after.token (some after) := by
  cases tx with
  | addLiquidity token provider latAmount tokAmount fee nonce sig =>
    obtain ⟨_, pool, _, _, _, _, _, -, hlatAmount, htokAmount, -, hplan, -, -, -, -, rfl⟩ :=
      applyAddLiquidity_priced hrun
    have hafter : pool.Sound := planned_sound (hs token) hlatAmount htokAmount hplan
    exact .inr ⟨pool, hafter, pool_setPool hafter⟩
  | removeLiquidity token provider lpAmount fee nonce sig =>
    obtain ⟨_, p, after, _, _, -, hpool, hheld, -, -, -, hlat, htok, hsupply, -, rfl⟩ :=
      applyRemoveLiquidity_priced hrun
    have hle : lpAmount.toNat ≤ (s.lp token provider).toNat := UInt64.le_iff_toNat_le.mp hheld
    have hleft := hshares.held_le hpool provider
    have hafter : after.Sound := (hs token p hpool).withdrawn (by omega)
      (withdrawn_reserves (by omega) hlat htok hsupply)
    exact .inr ⟨after, hafter, pool_setPool hafter⟩
  | swap token trader latIn amountIn minOut fee nonce sig =>
    obtain ⟨p, _, out, after, hpool, -, rfl, -, -, -, hsupply, hin, hout, rfl⟩ :=
      applySwap_priced hrun
    have hafter : after.Sound := ((hs token p hpool).swapped hin hout hsupply).1
    exact .inr ⟨after, hafter, pool_setPool hafter⟩
  | _ => exact .inl (Runs.pool_eq hrun (by simp [writesOf]))

theorem PoolsSound.step_pool (hs : s.PoolsSound) (hshares : s.SharesBacked) (hstep : Step s s') :
    s'.pool = s.pool ∨
      ∃ after : Pool, after.Sound ∧ s'.pool = Function.update s.pool after.token (some after) := by
  cases hstep with
  | register id hrun =>
    obtain ⟨-, rfl⟩ := register_outcome hrun
    exact .inl rfl
  | creditPublic id token amount hrun =>
    rw [creditPublic_outcome hrun, credited]
    split <;> exact .inl rfl
  | rewardMiner miner token amount hrun =>
    rw [rewardMiner_outcome hrun, rewarded]
    split <;> exact .inl rfl
  | creditGenesis id amount hrun =>
    obtain ⟨_, -, rfl⟩ := creditGenesis_outcome hrun
    exact .inl rfl
  | apply tx height hrun =>
    have hpools := hs.applyInner_pool hshares hrun
    exact hpools
  | commit => exact .inl rfl

theorem PoolsSound.step (hs : s.PoolsSound) (hshares : s.SharesBacked) (hstep : Step s s') :
    s'.PoolsSound := by
  intro token p hpool
  rcases hs.step_pool hshares hstep with hsame | ⟨after, hafter, hupdated⟩
  · rw [hsame] at hpool
    exact hs token p hpool
  · rw [hupdated, Function.update_apply] at hpool
    split at hpool
    · rwa [← Option.some.inj hpool]
    · exact hs token p hpool

/-- A step never closes a pool. -/
theorem PoolsSound.step_open (hs : s.PoolsSound) (hshares : s.SharesBacked) (hstep : Step s s')
    {token : UInt32} (hopen : (s.pool token).isSome) : (s'.pool token).isSome := by
  rcases hs.step_pool hshares hstep with hsame | ⟨after, -, hupdated⟩
  · rwa [hsame]
  · rw [hupdated, Function.update_apply]
    split
    · exact Option.isSome_some
    · exact hopen

/-- In every reachable state every open pool is sound. -/
theorem Reachable.poolsSound (hs : Reachable s) : s.PoolsSound := by
  induction hs with
  | new => exact fun token p hpool ↦ nomatch hpool
  | step hbefore hstep ih => exact ih.step hbefore.sharesBacked hstep

end LedgerState

/-! ### The guarantees of a pool -/

namespace LedgerState

/-- Every division and every conversion that an operation on an open pool makes is exact: no divisor
is zero, and no quotient that a check lets through loses bits as a word. -/
structure ComputesExactly (s : LedgerState C) (token : UInt32) (p : Pool) : Prop where
  deposit_divisor : p.lat.toNat ≠ 0
  withdrawal_divisor : p.lpSupply.toNat ≠ 0
  swap_divisor : ∀ (latIn : Bool) (amountIn : UInt64),
    (p.reserveIn latIn).toNat * 10000 + amountIn.toNat * (10000 - SWAP_FEE_BPS) ≠ 0
  minted : ∀ latAmount : UInt64,
    (latAmount.toNat * p.tok.toNat + (p.lat.toNat - 1)) / p.lat.toNat < 2 ^ 64 →
      latAmount.toNat * p.lpSupply.toNat / p.lat.toNat < 2 ^ 64
  latPaid : ∀ (provider : Bytes32) (lpAmount : UInt64), lpAmount ≤ s.lp token provider →
    lpAmount.toNat * p.lat.toNat / p.lpSupply.toNat < 2 ^ 64
  tokPaid : ∀ (provider : Bytes32) (lpAmount : UInt64), lpAmount ≤ s.lp token provider →
    lpAmount.toNat * p.tok.toNat / p.lpSupply.toNat < 2 ^ 64
  swapPaid : ∀ (latIn : Bool) (amountIn : UInt64), p.exactOut latIn amountIn < 2 ^ 64

theorem Reachable.computesExactly (hs : Reachable s) {token : UInt32} {p : Pool}
    (hpool : s.pool token = some p) : s.ComputesExactly token p := by
  have hp : p.Sound := hs.poolsSound token p hpool
  have hheld : ∀ (provider : Bytes32) (lpAmount : UInt64), lpAmount ≤ s.lp token provider →
      lpAmount.toNat ≤ p.lpSupply.toNat := by
    intro provider lpAmount hle
    have hleft := hs.sharesBacked.held_le hpool provider
    have hleNat := UInt64.le_iff_toNat_le.mp hle
    omega
  constructor
  · exact hp.lat_pos.ne'
  · exact hp.supply_pos.ne'
  · intro latIn amountIn
    have hpos := hp.reserveIn_pos latIn
    omega
  · exact fun latAmount hcharge ↦ hp.minted_lt hcharge
  · intro provider lpAmount hle
    exact lt_of_le_of_lt (RateLe.withdraw_le (hheld provider lpAmount hle)) p.lat.toNat_lt
  · intro provider lpAmount hle
    exact lt_of_le_of_lt (RateLe.withdraw_le (hheld provider lpAmount hle)) p.tok.toNat_lt
  · intro latIn amountIn
    exact (hp.exactOut_lt latIn amountIn).trans (p.reserveOut latIn).toNat_lt

/-- A swap puts a pool with a product that is no smaller in the place of the old one. -/
theorem Reachable.swap_product_le (hs : Reachable s) {tx : Transaction C} {token : UInt32}
    {trader : Bytes32} {latIn : Bool} {amountIn minOut fee nonce : UInt64} {sig : Bytes64}
    (hrun : Runs (applySwap tx token trader latIn amountIn minOut fee nonce sig) s () s') :
    ∃ p p', s.pool token = some p ∧ s'.pool token = some p' ∧
      p.lat.toNat * p.tok.toNat ≤ p'.lat.toNat * p'.tok.toNat := by
  obtain ⟨p, acct, out, after, hpool, -, rfl, -, -, htoken, hsupply, hin, hout, rfl⟩ :=
    applySwap_priced hrun
  obtain ⟨hafter, hproduct⟩ := (hs.poolsSound token p hpool).swapped hin hout hsupply
  refine ⟨p, after, hpool, ?_, hproduct⟩
  rw [pool_setPool hafter, htoken, hs.sharesBacked.keyed token p hpool, Function.update_self]

end LedgerState

namespace Ledger

variable {L L' : Ledger C}

/-- An open pool stays open. -/
theorem ReachesBy.pool_open {ok : Ledger C → LedgerOp C → Prop} (hrun : ReachesBy ok L L')
    (hL : L.Reachable) {token : UInt32} (hopen : (L.view.pool token).isSome) :
    (L'.view.pool token).isSome := by
  refine hrun.invariant hL (fun s ↦ (s.pool token).isSome) hopen ?_
  intro M hM op s' _ hperforms hstill
  obtain ⟨-, hobjects⟩ := hM.view
  rcases hperforms.step with hstep | rfl
  · exact hobjects.poolsSound.step_open hobjects.sharesBacked hstep hstill
  · exact hstill

/-- The invariants of the liquidity pools. In every reachable ledger every pool has something in
both reserves, its shares with the burned minimum make up its supply, and the square of the supply
is at most the product of the reserves. So a pool is never drained or closed, nothing that is
computed from it divides by zero or loses bits, and no swap lowers the product of its reserves. -/
theorem Reachable.pools_guaranteed (hL : L.Reachable) :
    (∀ token p, L.view.pool token = some p →
      1 ≤ p.lat.toNat ∧ 1 ≤ p.tok.toNat ∧ MIN_POOL_LIQUIDITY ≤ p.lpSupply ∧
        L.view.shares token + MIN_POOL_LIQUIDITY.toNat = p.lpSupply.toNat ∧
        p.lpSupply.toNat ^ 2 ≤ p.lat.toNat * p.tok.toNat ∧ L.view.ComputesExactly token p) ∧
      (∀ a b : UInt64, isqrtLoop (a.toNat * b.toNat) (a.toNat * b.toNat)
        ((a.toNat * b.toNat + 1) / 2) < 2 ^ 64) ∧
      (∀ L', ReachesBy (fun _ _ ↦ True) L L' → ∀ token, (L.view.pool token).isSome →
        (L'.view.pool token).isSome) ∧
      ∀ token trader latIn amountIn minOut fee nonce sig height L',
        L.applyAt (.swap token trader latIn amountIn minOut fee nonce sig) height = (.ok (), L') →
          ∃ p p', L.view.pool token = some p ∧ L'.view.pool token = some p' ∧
            p.lat.toNat * p.tok.toNat ≤ p'.lat.toNat * p'.tok.toNat := by
  obtain ⟨hformed, hobjects⟩ := hL.view
  refine ⟨?_, ?_, ?_, ?_⟩
  · intro token p hpool
    have hp : p.Sound := hobjects.poolsSound token p hpool
    exact ⟨hp.lat_pos, hp.tok_pos, UInt64.le_iff_toNat_le.mpr hp.supply_ge,
      hobjects.sharesBacked.backed token p hpool, hp.backed, hobjects.computesExactly hpool⟩
  · exact fun a b ↦ isqrtLoop_lt (toNat_mul_toNat_lt a b)
  · exact fun L' hrun token hopen ↦ hrun.pool_open hL hopen
  · intro token trader latIn amountIn minOut fee nonce sig height L' hok
    obtain ⟨-, -, s', hrun, hview⟩ := hL.runs_of_ok hok
    obtain ⟨p, p', hbefore, hafter, hproduct⟩ := hobjects.swap_product_le hrun
    refine ⟨p, p', hbefore, ?_, hproduct⟩
    rw [hview]
    exact hafter

/-! ### The arithmetic of a swap -/

end Ledger

/-- The output of a swap as the code computes it, with every intermediate in 128 bits. There is none
when an intermediate overflows. -/
def Pool.computedOut (p : Pool) (latIn : Bool) (amountIn : UInt64) : Option UInt64 := do
  let inAfterFee ← fits128 (amountIn.toNat * (10000 - SWAP_FEE_BPS))
  let product ← fits128 (inAfterFee * (p.reserveOut latIn).toNat)
  let scaled ← fits128 ((p.reserveIn latIn).toNat * 10000)
  let divisor ← fits128 (scaled + inAfterFee)
  let quotient ← checkedDiv product divisor
  return UInt64.ofNat quotient

/-- Of the intermediates of a swap only the product can overflow. -/
theorem Pool.Sound.computedOut_eq {p : Pool} (hp : p.Sound) (latIn : Bool) (amountIn : UInt64) :
    p.computedOut latIn amountIn =
      (fits128 (amountIn.toNat * (10000 - SWAP_FEE_BPS) * (p.reserveOut latIn).toNat)).map
        fun _ ↦ UInt64.ofNat (p.exactOut latIn amountIn) := by
  have hamount := amountIn.toNat_lt
  have hreserve := (p.reserveIn latIn).toNat_lt
  have hpos := hp.reserveIn_pos latIn
  have hkept : amountIn.toNat * (10000 - SWAP_FEE_BPS) < 2 ^ 80 := by
    rw [show 10000 - SWAP_FEE_BPS = 9970 from rfl]
    omega
  have hafterFee : fits128 (amountIn.toNat * (10000 - SWAP_FEE_BPS)) =
      some (amountIn.toNat * (10000 - SWAP_FEE_BPS)) := if_pos (by omega)
  have hscaled : fits128 ((p.reserveIn latIn).toNat * 10000) =
      some ((p.reserveIn latIn).toNat * 10000) := if_pos (by omega)
  have hdivisor : fits128 ((p.reserveIn latIn).toNat * 10000 +
      amountIn.toNat * (10000 - SWAP_FEE_BPS)) =
        some ((p.reserveIn latIn).toNat * 10000 + amountIn.toNat * (10000 - SWAP_FEE_BPS)) :=
    if_pos (by omega)
  have hquotient : ∀ product, checkedDiv product ((p.reserveIn latIn).toNat * 10000 +
      amountIn.toNat * (10000 - SWAP_FEE_BPS)) = some (product / ((p.reserveIn latIn).toNat *
        10000 + amountIn.toNat * (10000 - SWAP_FEE_BPS))) :=
    fun product ↦ if_neg (by omega)
  unfold Pool.computedOut fits128 at *
  simp only [hafterFee, hscaled, hdivisor, hquotient, Option.bind_eq_bind, Option.bind_some]
  split <;> rfl

/-- A swap that passes the checks before the formula panics when the product overflows. -/
theorem applySwap_panics {tx : Transaction C} {token : UInt32} {trader : Bytes32} {latIn : Bool}
    {amountIn minOut fee nonce : UInt64} {sig : Bytes64} {acct : Account C} {p : Pool}
    (hsig : SigOK C trader tx sig) (hamount : amountIn ≠ 0) (hacct : s.account trader = some acct)
    (hnonce : nonce = acct.nonce) (hpool : s.pool token = some p)
    (hover : 2 ^ 128 ≤ amountIn.toNat * (10000 - SWAP_FEE_BPS) * (p.reserveOut latIn).toNat) :
    Program.Panics handler
      (applySwap tx token trader latIn amountIn minOut fee nonce sig) s := by
  have hnone : fits128 (amountIn.toNat * (10000 - SWAP_FEE_BPS) * (p.reserveOut latIn).toNat) =
      none := if_neg (by omega)
  unfold applySwap
  refine .bind ((runs_checkSig (r := ()) trader tx sig).mpr ⟨hsig, rfl⟩) ?_
  refine .bind ((Program.returns_rejectIf _ _ _ _ _ ()).mpr ⟨hamount, rfl⟩) ?_
  refine .bind ((runs_account _ _ trader _).mpr ⟨rfl, rfl⟩) ?_
  refine .bind ((Program.returns_okOr _ _ _ _ _ _).mpr ⟨hacct, rfl⟩) ?_
  refine .bind ((Program.returns_rejectIf _ _ _ _ _ ()).mpr ⟨not_not.mpr hnonce, rfl⟩) ?_
  refine .bind ((runs_pool _ _ token _).mpr ⟨rfl, rfl⟩) ?_
  refine .bind ((Program.returns_okOr _ _ _ _ _ _).mpr ⟨hpool, rfl⟩) ?_
  exact Program.panics_orPanic_bind handler hnone _ s

namespace Ledger

variable {L L' : Ledger C}

/-- The arithmetic of a swap is exact if and only if its product stays below `2 ^ 128`. A swap that
passes the checks before the formula panics otherwise, and one that succeeds has paid the exact
output. -/
theorem Reachable.swap_exact_iff (hL : L.Reachable) {token : UInt32} {p : Pool}
    (hpool : L.view.pool token = some p) (latIn : Bool) (amountIn : UInt64) :
    ((∃ out, p.computedOut latIn amountIn = some out ∧
        out.toNat = amountIn.toNat * (10000 - SWAP_FEE_BPS) * (p.reserveOut latIn).toNat /
          ((p.reserveIn latIn).toNat * 10000 + amountIn.toNat * (10000 - SWAP_FEE_BPS)) ∧
        out < p.reserveOut latIn) ↔
      amountIn.toNat * (10000 - SWAP_FEE_BPS) * (p.reserveOut latIn).toNat < 2 ^ 128) ∧
    ∀ trader minOut fee nonce sig height tx,
      tx = Transaction.swap token trader latIn amountIn minOut fee nonce sig →
        (∀ acct, SigOK C trader tx sig → amountIn ≠ 0 → L.view.account trader = some acct →
          nonce = acct.nonce →
            2 ^ 128 ≤ amountIn.toNat * (10000 - SWAP_FEE_BPS) * (p.reserveOut latIn).toNat →
              (L.applyAt tx height).1 = .panicked) ∧
        ∀ L', L.applyAt tx height = (.ok (), L') → ∃ p' out, L'.view.pool token = some p' ∧
          p.computedOut latIn amountIn = some out ∧
            (p'.reserveOut latIn).toNat + out.toNat = (p.reserveOut latIn).toNat := by
  obtain ⟨hformed, hobjects⟩ := hL.view
  have hp : p.Sound := hobjects.poolsSound token p hpool
  refine ⟨?_, ?_⟩
  · rw [hp.computedOut_eq]
    constructor
    · rintro ⟨out, hout, -⟩
      obtain ⟨product, hproduct, -⟩ := Option.map_eq_some_iff.mp hout
      exact (fits128_eq_some.mp hproduct).1
    · intro hfits
      have hproduct : fits128 (amountIn.toNat * (10000 - SWAP_FEE_BPS) *
          (p.reserveOut latIn).toNat) = some _ := if_pos hfits
      refine ⟨_, by rw [hproduct, Option.map_some], hp.toNat_out latIn amountIn, ?_⟩
      rw [UInt64.lt_iff_toNat_lt, hp.toNat_out]
      exact hp.exactOut_lt latIn amountIn
  · rintro trader minOut fee nonce sig height tx rfl
    constructor
    · intro acct hsig hamount hacct hnonce hover
      exact hformed.applyAt_panics (applySwap_panics hsig hamount hacct hnonce hpool hover)
    · intro L' hok
      obtain ⟨-, -, s', hrun, hview⟩ := hL.runs_of_ok hok
      obtain ⟨q, acct, out, after, hq, hfits, rfl, -, -, htoken, hsupply, hin, hout, rfl⟩ :=
        applySwap_priced hrun
      obtain rfl := Option.some.inj (hq.symm.trans hpool)
      obtain ⟨hafter, -⟩ := hp.swapped hin hout hsupply
      refine ⟨after, _, ?_, ?_, checkedSub_eq_some.mp hout⟩
      · rw [hview]
        change ((L.view.setAccount trader acct).setPool after).pool token = some after
        rw [pool_setPool hafter, htoken, hobjects.sharesBacked.keyed token q hpool,
          Function.update_self]
      · rw [hp.computedOut_eq, fits128, if_pos hfits, Option.map_some]

/-! ### A pool of a self-made token -/

/-- An account that holds LAT. -/
def traderFunded : Ledger clearSuite :=
  (((new : Ledger clearSuite).register 5).2.creditPublic 5 LAT_TOKEN 200000000).2

/-- Its own token, of the largest supply. -/
def tokenCreated : Ledger clearSuite :=
  (traderFunded.applyAt (.createToken ['A', 'B', 'C'] 5 18446744073709551615 5) 1).2

/-- The proof that reveals 2^60 units of the token. -/
def reveal : SolventTransfer (BitVec 256) Unit :=
  ⟨⟨5⟩, ⟨7⟩, 0, 1000, 1152921504606846976, 1152921504606846976, 0, ()⟩

def tokenRevealed : Ledger clearSuite :=
  (tokenCreated.applyAt (.unshield 1 5 1152921504606846976 reveal 5) 2).2

/-- The pool of the token. -/
def pooled : Ledger clearSuite :=
  (tokenRevealed.applyAt (.addLiquidity 1 5 1000000 1152921504606846976 1000 1 5) 3).2

/-- The outcomes along the way to the pool, what it holds, and two swaps into it. -/
theorem pooled_facts :
    ((new : Ledger clearSuite).register 5).1 = .ok () ∧
    (((new : Ledger clearSuite).register 5).2.creditPublic 5 LAT_TOKEN 200000000).1 = .ok () ∧
    (traderFunded.applyAt (.createToken ['A', 'B', 'C'] 5 18446744073709551615 5) 1).1 = .ok () ∧
    (tokenCreated.applyAt (.unshield 1 5 1152921504606846976 reveal 5) 2).1 = .ok () ∧
    (tokenRevealed.applyAt (.addLiquidity 1 5 1000000 1152921504606846976 1000 1 5) 3).1 =
      .ok () ∧
    pooled.view.pool 1 = some ⟨1, 1000000, 1152921504606846976, 1073741824000⟩ ∧
    Pool.computedOut ⟨1, 1000000, 1152921504606846976, 1073741824000⟩ true
      18446744073709551615 = none ∧
    (pooled.applyAt (.swap 1 5 true 18446744073709551615 0 1000 2 5) 4).1 = .panicked := by
  decide +kernel

theorem reachable_tokenCreated : tokenCreated.Reachable := by
  obtain ⟨hokRegister, hokCredit, hokCreate, -⟩ := pooled_facts
  have hregister : (new : Ledger clearSuite).step (.register 5) = some (new.register 5).2 :=
    step_register hokRegister
  have hcredit : (new.register 5).2.step (.creditPublic 5 LAT_TOKEN 200000000) =
      some traderFunded := step_creditPublic hokCredit
  have hcreate : traderFunded.step (.applyAt (.createToken ['A', 'B', 'C'] 5
      18446744073709551615 5) 1) = some tokenCreated := step_applyAt hokCreate
  exact ((ReachesBy.refl.step (.register 5) trivial hregister).step (.creditPublic _ _ _) trivial
    hcredit).step (.applyAt (.createToken _ _ _ _) _) trivial hcreate

theorem reachable_tokenRevealed : tokenRevealed.Reachable := by
  obtain ⟨-, -, -, hokReveal, -⟩ := pooled_facts
  have hreveal : tokenCreated.step (.applyAt (.unshield 1 5 1152921504606846976 reveal 5) 2) =
      some tokenRevealed := step_applyAt hokReveal
  exact reachable_tokenCreated.step (.applyAt (.unshield _ _ _ _ _) _) trivial hreveal

theorem reachable_pooled : pooled.Reachable := by
  obtain ⟨-, -, -, -, hokAdd, -⟩ := pooled_facts
  have hadd : tokenRevealed.step (.applyAt (.addLiquidity 1 5 1000000 1152921504606846976 1000 1 5)
      3) = some pooled := step_applyAt hokAdd
  exact reachable_tokenRevealed.step (.applyAt (.addLiquidity _ _ _ _ _ _ _) _) trivial hadd

theorem pools_guaranteed_pooled :
    ∃ p, pooled.view.pool 1 = some p ∧ p.lpSupply.toNat ^ 2 ≤ p.lat.toNat * p.tok.toNat := by
  obtain ⟨-, -, -, -, -, hpool, -⟩ := pooled_facts
  exact ⟨_, hpool, ((Reachable.pools_guaranteed reachable_pooled).1 1 _ hpool).2.2.2.2.1⟩

/-- A swap of the largest amount into the pool panics the node. -/
theorem swap_overflows :
    pooled.Reachable ∧ pooled.view.pool 1 = some ⟨1, 1000000, 1152921504606846976, 1073741824000⟩ ∧
      Pool.computedOut ⟨1, 1000000, 1152921504606846976, 1073741824000⟩ true
        18446744073709551615 = none ∧
      (pooled.applyAt (.swap 1 5 true 18446744073709551615 0 1000 2 5) 4).1 = .panicked := by
  obtain ⟨-, -, -, -, -, hpool, hover, hpanic⟩ := pooled_facts
  exact ⟨reachable_pooled, hpool, hover, hpanic⟩

theorem swap_exact_pooled :
    ∃ out, Pool.computedOut ⟨1, 1000000, 1152921504606846976, 1073741824000⟩ true 1000 = some out ∧
      out < 1152921504606846976 := by
  obtain ⟨-, -, -, -, -, hpool, -⟩ := pooled_facts
  obtain ⟨out, hout, -, hlt⟩ :=
    (Reachable.swap_exact_iff reachable_pooled hpool true 1000).1.mpr (by decide)
  exact ⟨out, hout, hlt⟩

end Ledger

end Latebra.State
