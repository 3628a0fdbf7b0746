import Latebra.Bridge.HashedTimelock
import Latebra.Bridge.RedeemScript

/-!
# The swap coordinator

The coordinator takes a swap from its proposal to its end, one reported event at a time. Reports come
in any order, and those that do not fit the state of the swap are refused. `Course` lists what the
accepted reports can be and where they lead: both legs are funded in order, the secret is shown on
the buy leg and used on the sell leg, or the swap is given up from the later timelock on, as long as
no secret was shown. `swap_courses` says that these are exactly the histories of a proposed swap.
-/

set_option autoImplicit false
set_option relaxedAutoImplicit false

namespace Latebra.Bridge

open Foundation

/-- `Chain`. -/
inductive Chain where
  | bitcoin
  | ethereum
  | solana
  | latebra
deriving DecidableEq

/-- `Leg`: the chain it settles on, its HTLC parameters, and their amount. -/
structure Leg where
  chain : Chain
  params : HtlcParams
  amount : ℕ

/-- `SwapState`. -/
inductive SwapState where
  | proposed
  | sellLocked
  | bothLocked
  | redeemed
  | settled
  | refunded
deriving DecidableEq

/-- How a state is written in an error. -/
def SwapState.debug : SwapState → String
  | .proposed => "Proposed"
  | .sellLocked => "SellLocked"
  | .bothLocked => "BothLocked"
  | .redeemed => "Redeemed"
  | .settled => "Settled"
  | .refunded => "Refunded"

/-- `Swap`. -/
structure Swap where
  id : Bytes32
  hashlock : Bytes32
  sell : Leg
  buy : Leg
  state : SwapState
  /-- The preimage, once the redemption of the buy leg has shown it. -/
  revealed : Option Bytes32

namespace SwapCoordinator

/-- `SwapCoordinator::propose`. -/
def propose (id hashlock : Bytes32) (sell buy : Leg) : Except BridgeError Swap :=
  if sell.params.hashlock ≠ hashlock ∨ buy.params.hashlock ≠ hashlock then
    .error (.badParam "both legs must commit to the swap's hashlock")
  else if sell.params.timelock ≤ buy.params.timelock then
    .error (.badState "sell-leg timelock must be strictly later than buy-leg timelock")
  else .ok ⟨id, hashlock, sell, buy, .proposed, none⟩

/-- `expect`. -/
def expect (swap : Swap) (want : SwapState) : Except BridgeError Unit :=
  if swap.state ≠ want then
    .error (.badState s!"expected state {want.debug}, was {swap.state.debug}")
  else .ok ()

/-- `SwapCoordinator::sell_funded`. -/
def sellFunded (swap : Swap) : Except BridgeError Swap := do
  expect swap .proposed
  return { swap with state := .sellLocked }

/-- `SwapCoordinator::buy_funded`. -/
def buyFunded (swap : Swap) : Except BridgeError Swap := do
  expect swap .sellLocked
  return { swap with state := .bothLocked }

/-- `SwapCoordinator::redeem_buy`. -/
def redeemBuy (sha256 : Bytes → Bytes32) (swap : Swap) (preimage : Bytes32) :
    Except BridgeError Swap := do
  expect swap .bothLocked
  if sha256 (bytesOf32 preimage) ≠ swap.hashlock then
    throw (.badParam "preimage does not match hashlock")
  return { swap with revealed := some preimage, state := .redeemed }

/-- `SwapCoordinator::redeem_sell`. -/
def redeemSell (swap : Swap) : Except BridgeError (Bytes32 × Swap) := do
  expect swap .redeemed
  match swap.revealed with
  | none => throw (.badState "secret not yet revealed")
  | some preimage => return (preimage, { swap with state := .settled })

/-- `SwapCoordinator::refund`. -/
def refund (swap : Swap) (now : UInt64) : Except BridgeError Swap :=
  if swap.state = .proposed ∨ swap.state = .sellLocked ∨ swap.state = .bothLocked then
    if now < swap.sell.params.timelock then
      .error (.badState "sell-leg timelock not yet reached")
    else .ok { swap with state := .refunded }
  else .error (.badState "can only refund a swap with no redemption")

variable {sha256 : Bytes → Bytes32} {swap swap' : Swap}

theorem expect_bind_eq_ok {α : Type} {want : SwapState} {later : Unit → Except BridgeError α} {a : α} :
    (expect swap want >>= later) = .ok a ↔ swap.state = want ∧ later () = .ok a := by
  unfold expect
  by_cases hstate : swap.state = want
  · simp [hstate, bind, Except.bind]
  · simp [hstate, bind, Except.bind]

theorem ok_eq_ok {α : Type} {a b : α} : (Except.ok a : Except BridgeError α) = .ok b ↔ b = a := by
  rw [Except.ok.injEq, eq_comm]

theorem sellFunded_eq_ok : sellFunded swap = .ok swap' ↔
    swap.state = .proposed ∧ swap' = { swap with state := .sellLocked } :=
  expect_bind_eq_ok.trans (and_congr_right' ok_eq_ok)

theorem buyFunded_eq_ok : buyFunded swap = .ok swap' ↔
    swap.state = .sellLocked ∧ swap' = { swap with state := .bothLocked } :=
  expect_bind_eq_ok.trans (and_congr_right' ok_eq_ok)

theorem redeemBuy_eq_ok {preimage : Bytes32} : redeemBuy sha256 swap preimage = .ok swap' ↔
    swap.state = .bothLocked ∧ sha256 (bytesOf32 preimage) = swap.hashlock ∧
      swap' = { swap with revealed := some preimage, state := .redeemed } := by
  apply expect_bind_eq_ok.trans (and_congr_right' _)
  by_cases hpreimage : sha256 (bytesOf32 preimage) = swap.hashlock
  · rw [if_neg (not_not.mpr hpreimage)]
    exact ok_eq_ok.trans (by simp [hpreimage])
  · simp [hpreimage, throw, throwThe, MonadExceptOf.throw]

theorem redeemSell_eq_ok {preimage : Bytes32} : redeemSell swap = .ok (preimage, swap') ↔
    swap.state = .redeemed ∧ swap.revealed = some preimage ∧
      swap' = { swap with state := .settled } := by
  apply expect_bind_eq_ok.trans (and_congr_right' _)
  cases swap.revealed with
  | none => simp [throw, throwThe, MonadExceptOf.throw]
  | some shown =>
    apply ok_eq_ok.trans
    rw [Prod.mk.injEq, Option.some_inj, eq_comm]

theorem refund_eq_ok {now : UInt64} : refund swap now = .ok swap' ↔
    (swap.state = .proposed ∨ swap.state = .sellLocked ∨ swap.state = .bothLocked) ∧
      swap.sell.params.timelock ≤ now ∧ swap' = { swap with state := .refunded } := by
  unfold refund
  split_ifs with hstate htime
  · simp [htime]
  · rw [ok_eq_ok, and_iff_right hstate, and_iff_right (UInt64.not_lt.mp htime)]
  · simp [hstate]

end SwapCoordinator

open SwapCoordinator

/-- The reports to the coordinator. -/
inductive Report where
  | sellFunded
  | buyFunded
  | redeemBuy (preimage : Bytes32)
  | redeemSell
  | refund (now : UInt64)
deriving DecidableEq

namespace Swap

variable (sha256 : Bytes → Bytes32)

/-- What the coordinator does with a report. -/
def receive (swap : Swap) : Report → Except BridgeError Swap
  | .sellFunded => sellFunded swap
  | .buyFunded => buyFunded swap
  | .redeemBuy preimage => redeemBuy sha256 swap preimage
  | .redeemSell => (redeemSell swap).map Prod.snd
  | .refund now => refund swap now

/-- The accepted ones of a list of reports, and the swap that they lead to. A refused report leaves
the swap as it was. -/
def run (swap : Swap) : List Report → List Report × Swap
  | [] => ([], swap)
  | report :: later =>
    match swap.receive sha256 report with
    | .error _ => swap.run later
    | .ok swap' => ((report :: (swap'.run later).1), (swap'.run later).2)

/-- The histories of a proposed swap, with what has become of it. -/
inductive Course (start : Swap) : List Report → Swap → Prop where
  | proposed : Course start [] start
  | sellLocked : Course start [.sellFunded] { start with state := .sellLocked }
  | bothLocked : Course start [.sellFunded, .buyFunded] { start with state := .bothLocked }
  | redeemed (preimage : Bytes32) : sha256 (bytesOf32 preimage) = start.hashlock →
    Course start [.sellFunded, .buyFunded, .redeemBuy preimage]
      { start with state := .redeemed, revealed := some preimage }
  | settled (preimage : Bytes32) : sha256 (bytesOf32 preimage) = start.hashlock →
    Course start [.sellFunded, .buyFunded, .redeemBuy preimage, .redeemSell]
      { start with state := .settled, revealed := some preimage }
  | refunded {done : List Report} (now : UInt64) : done <+: [.sellFunded, .buyFunded] →
    start.sell.params.timelock ≤ now →
      Course start (done ++ [.refund now]) { start with state := .refunded }

variable {sha256} {start swap swap' : Swap} {done : List Report}

theorem run_append (first later : List Report) : start.run sha256 (first ++ later) =
    ((start.run sha256 first).1 ++ ((start.run sha256 first).2.run sha256 later).1,
      ((start.run sha256 first).2.run sha256 later).2) := by
  induction first generalizing start with
  | nil => rfl
  | cons report first ih =>
    rw [List.cons_append, run, run]
    cases hreport : start.receive sha256 report with
    | error e => exact ih
    | ok next => simp only [ih, List.cons_append]

theorem run_cons_of_ok {report : Report} (hreport : start.receive sha256 report = .ok swap)
    (later : List Report) : start.run sha256 (report :: later) =
      (report :: (swap.run sha256 later).1, (swap.run sha256 later).2) := by
  rw [run, hreport]

theorem run_cons_of_error {report : Report} {e : BridgeError}
    (hreport : start.receive sha256 report = .error e) (later : List Report) :
    start.run sha256 (report :: later) = start.run sha256 later := by
  rw [run, hreport]

/-- What a proposal fixes. -/
structure Proposed (swap : Swap) : Prop where
  state : swap.state = .proposed
  revealed : swap.revealed = none
  sell : swap.sell.params.hashlock = swap.hashlock
  buy : swap.buy.params.hashlock = swap.hashlock
  ordered : swap.buy.params.timelock < swap.sell.params.timelock

theorem proposed_of_propose {id hashlock : Bytes32} {sell buy : Leg}
    (hpropose : propose id hashlock sell buy = .ok swap) : swap.Proposed := by
  unfold propose at hpropose
  split_ifs at hpropose with hlocks htimes
  obtain rfl := ok_eq_ok.mp hpropose
  rw [not_or, not_not, not_not] at hlocks
  exact ⟨rfl, rfl, hlocks.1, hlocks.2, UInt64.not_le.mp htimes⟩

/-- The step: a report that the coordinator accepts goes on with the course. -/
theorem Course.receive (hstart : start.Proposed) (h : Course sha256 start done swap)
    {report : Report} (hreport : swap.receive sha256 report = .ok swap') :
    Course sha256 start (done ++ [report]) swap' := by
  cases report with
  | sellFunded =>
    obtain ⟨hstate, rfl⟩ := sellFunded_eq_ok.mp hreport
    cases h with
    | proposed => exact .sellLocked
    | _ => exact absurd hstate (by simp)
  | buyFunded =>
    obtain ⟨hstate, rfl⟩ := buyFunded_eq_ok.mp hreport
    cases h with
    | proposed => exact absurd (hstart.state.symm.trans hstate) (by simp)
    | sellLocked => exact .bothLocked
    | _ => exact absurd hstate (by simp)
  | redeemBuy preimage =>
    obtain ⟨hstate, hpreimage, rfl⟩ := redeemBuy_eq_ok.mp hreport
    cases h with
    | proposed => exact absurd (hstart.state.symm.trans hstate) (by simp)
    | bothLocked => exact .redeemed preimage hpreimage
    | _ => exact absurd hstate (by simp)
  | redeemSell =>
    obtain ⟨⟨preimage, next⟩, hnext, rfl⟩ : ∃ found, redeemSell swap = .ok found ∧ found.2 = swap' := by
      have hmapped : (redeemSell swap).map Prod.snd = .ok swap' := hreport
      cases hfound : redeemSell swap with
      | error e =>
        rw [hfound] at hmapped
        exact absurd hmapped (by simp [Except.map])
      | ok found =>
        rw [hfound] at hmapped
        exact ⟨found, rfl, Except.ok.inj hmapped⟩
    obtain ⟨hstate, hshown, rfl⟩ := redeemSell_eq_ok.mp hnext
    cases h with
    | proposed => exact absurd (hstart.state.symm.trans hstate) (by simp)
    | redeemed shown hpreimage => exact .settled shown hpreimage
    | _ => exact absurd hstate (by simp)
  | refund now =>
    obtain ⟨hstate, htime, rfl⟩ := refund_eq_ok.mp hreport
    cases h with
    | proposed => exact .refunded now (List.nil_prefix) htime
    | sellLocked => exact .refunded now (by simp) htime
    | bothLocked => exact .refunded now (by simp) htime
    | _ => exact absurd hstate (by simp)

/-- The run lemma: the accepted reports of any list are the history of a course. -/
theorem Course.run (hstart : start.Proposed) (h : Course sha256 start done swap)
    (reports : List Report) :
    Course sha256 start (done ++ (swap.run sha256 reports).1) (swap.run sha256 reports).2 := by
  induction reports generalizing done swap with
  | nil => rwa [Swap.run, List.append_nil]
  | cons report reports ih =>
    cases hreport : swap.receive sha256 report with
    | error e =>
      rw [run_cons_of_error hreport]
      exact ih h
    | ok next =>
      rw [run_cons_of_ok hreport, List.append_cons]
      exact ih (h.receive hstart hreport)

/-- A report that continues a run. -/
theorem run_concat (hrun : start.run sha256 done = (done, swap)) {report : Report}
    (hreport : swap.receive sha256 report = .ok swap') :
    start.run sha256 (done ++ [report]) = (done ++ [report], swap') := by
  rw [run_append, hrun]
  dsimp only
  rw [run_cons_of_ok hreport]
  rfl

/-- Every course is the run of its own reports. -/
theorem Course.run_eq (hstart : start.Proposed) (h : Course sha256 start done swap) :
    start.run sha256 done = (done, swap) := by
  have hproposed : start.run sha256 [] = ([], start) := rfl
  have hsell := run_concat hproposed
    (show start.receive sha256 .sellFunded = _ from sellFunded_eq_ok.mpr ⟨hstart.state, rfl⟩)
  have hboth := run_concat hsell
    (show Swap.receive sha256 _ .buyFunded = _ from buyFunded_eq_ok.mpr ⟨rfl, rfl⟩)
  have hredeem : ∀ preimage, sha256 (bytesOf32 preimage) = start.hashlock →
      start.run sha256 [.sellFunded, .buyFunded, .redeemBuy preimage] =
        ([.sellFunded, .buyFunded, .redeemBuy preimage],
          { start with state := .redeemed, revealed := some preimage }) :=
    fun preimage hpreimage ↦ run_concat hboth
      (show Swap.receive sha256 _ (.redeemBuy preimage) = _ from
        redeemBuy_eq_ok.mpr ⟨rfl, hpreimage, rfl⟩)
  cases h with
  | proposed => exact hproposed
  | sellLocked => exact hsell
  | bothLocked => exact hboth
  | redeemed preimage hpreimage => exact hredeem preimage hpreimage
  | settled preimage hpreimage =>
    have hnext : redeemSell { start with state := .redeemed, revealed := some preimage } =
        .ok (preimage, { start with state := .settled, revealed := some preimage }) :=
      redeemSell_eq_ok.mpr ⟨rfl, rfl, rfl⟩
    exact run_concat (hredeem preimage hpreimage)
      (show Swap.receive sha256 _ .redeemSell = _ from congrArg (Except.map Prod.snd) hnext)
  | @refunded done now hprefix htime =>
    obtain rfl | rfl | rfl : done = [] ∨ done = [.sellFunded] ∨ done = [.sellFunded, .buyFunded] := by
      simp only [List.prefix_cons_iff, List.prefix_nil] at hprefix
      rcases hprefix with rfl | ⟨rest, rfl, rfl | ⟨last, rfl, rfl⟩⟩
      · exact .inl rfl
      · exact .inr (.inl rfl)
      · exact .inr (.inr rfl)
    · exact run_concat hproposed (refund_eq_ok.mpr ⟨.inl hstart.state, htime, rfl⟩)
    · exact run_concat hsell (refund_eq_ok.mpr ⟨.inr (.inl rfl), htime, rfl⟩)
    · exact run_concat hboth (refund_eq_ok.mpr ⟨.inr (.inr rfl), htime, rfl⟩)

end Swap

/-- The histories of a proposed swap. Whatever is reported and in whatever order, the accepted
reports fund the sell leg, then the buy leg, show a preimage of the hashlock and use it; or they stop
before the preimage and give the swap up, not before the later of the two timelocks. Each of these
histories can happen, and nothing else of the swap changes. -/
theorem swap_courses {sha256 : Bytes → Bytes32} {id hashlock : Bytes32} {sell buy : Leg}
    {swap : Swap} (hpropose : propose id hashlock sell buy = .ok swap) :
    buy.params.timelock < sell.params.timelock ∧ ∀ done last,
      (∃ reports, swap.run sha256 reports = (done, last)) ↔ swap.Course sha256 done last := by
  have hproposed := Swap.proposed_of_propose hpropose
  have hlegs : swap.sell = sell ∧ swap.buy = buy := by
    unfold propose at hpropose
    split_ifs at hpropose
    obtain rfl := ok_eq_ok.mp hpropose
    exact ⟨rfl, rfl⟩
  refine ⟨hlegs.1 ▸ hlegs.2 ▸ hproposed.ordered, fun done last ↦ ⟨?_, fun hcourse ↦ ?_⟩⟩
  · rintro ⟨reports, hrun⟩
    have hstart : swap.Course sha256 [] swap := .proposed
    have hcourse := hstart.run hproposed reports
    rwa [hrun] at hcourse
  · exact ⟨done, hcourse.run_eq hproposed⟩

open HashedTimelock (sampleDigest sampleSha256)

/-- A swap of bitcoin for LAT, under the digest of the bytes of 9. -/
def sampleSwap : Swap :=
  ⟨1, sampleDigest, ⟨.bitcoin, { sampleParams 1000 with hashlock := sampleDigest }, 100000⟩,
    ⟨.latebra, { sampleParams 500 with hashlock := sampleDigest }, 250000⟩, .proposed, none⟩

/-- The secret settles the swap. Another preimage and a secret that comes too early are refused. -/
theorem swap_courses_sample :
    sampleSwap.buy.params.timelock < sampleSwap.sell.params.timelock ∧
      sampleSwap.run sampleSha256
          [.sellFunded, .redeemBuy 9, .buyFunded, .redeemBuy 8, .redeemBuy 9, .redeemSell] =
        ([.sellFunded, .buyFunded, .redeemBuy 9, .redeemSell],
          { sampleSwap with state := .settled, revealed := some 9 }) ∧
      sampleSwap.Course sampleSha256 [.sellFunded, .buyFunded, .redeemBuy 9, .redeemSell]
        { sampleSwap with state := .settled, revealed := some 9 } := by
  have hpropose : propose 1 sampleDigest sampleSwap.sell sampleSwap.buy = .ok sampleSwap := rfl
  have hrun : sampleSwap.run sampleSha256
      [.sellFunded, .redeemBuy 9, .buyFunded, .redeemBuy 8, .redeemBuy 9, .redeemSell] =
        ([.sellFunded, .buyFunded, .redeemBuy 9, .redeemSell],
          { sampleSwap with state := .settled, revealed := some 9 }) := rfl
  obtain ⟨hordered, hcourses⟩ := @swap_courses sampleSha256 _ _ _ _ _ hpropose
  exact ⟨hordered, hrun, (hcourses _ _).mp ⟨_, hrun⟩⟩

end Latebra.Bridge
