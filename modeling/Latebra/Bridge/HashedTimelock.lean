import Latebra.Foundation.ByteCodec
import Latebra.Foundation.FiniteTotals

/-!
# The hashed timelock contract

`HashedTimelock` is the reference contract of the EVM leg, as a state and its three calls: a payer
locks ether under a hashlock, the recipient withdraws it with the preimage, and the payer takes it
back from the timelock on. Messages come from anyone, at any time and in any order, and ether can be
forced on the contract from outside.

`Runs.story` says what a run makes of one hashlock: its successful calls are a lock, and behind it at
most one payment, to the side that the call was for. `Runs.balance_eq` says that the contract holds
the open locks and what was forced on it, so no payment ever fails for want of ether.
-/

set_option autoImplicit false
set_option relaxedAutoImplicit false

namespace Latebra.Bridge

open Foundation Function

/-- The address of an account. -/
abbrev Address := BitVec 160

/-- A `uint256`. -/
abbrev Word := BitVec 256

/-- `Lock`. -/
structure Lock where
  funder : Address
  recipient : Address
  amount : Word
  timelock : Word
  claimed : Bool
  refunded : Bool
deriving DecidableEq

/-- The lock of a hashlock that was never used: all its storage slots are zero. -/
def Lock.unset : Lock := ⟨0, 0, 0, 0, false, false⟩

/-- The ether that a lock still stands for. -/
def Lock.held (l : Lock) : ℕ := if l.claimed ∨ l.refunded then 0 else l.amount.toNat

/-- What a call sees of its transaction: who sends it and how much ether with it, the time of the
block, and which accounts take a transfer. Nobody can sign for the zero address. -/
structure Message where
  sender : Address
  value : Word
  timestamp : Word
  accepts : Address → Bool
  sender_ne_zero : sender ≠ 0

/-- The events. -/
inductive Event where
  | locked (hashlock : Bytes32) (recipient : Address) (amount timelock : Word)
  | withdrawn (hashlock preimage : Bytes32)
  | refunded (hashlock : Bytes32)
deriving DecidableEq

/-- What a successful call leaves behind: its event, and the transfer that it made. -/
structure Receipt where
  event : Event
  paid : Option (Address × Word)
deriving DecidableEq

/-- The contract: its locks by hashlock, and its ether. -/
structure HashedTimelock where
  locks : Bytes32 → Lock
  balance : ℕ

/-- The calls. -/
inductive Call where
  | lock (hashlock : Bytes32) (recipient : Address) (timelock : Word)
  | withdraw (hashlock preimage : Bytes32)
  | refund (hashlock : Bytes32)
deriving DecidableEq

/-- The hashlock that a call is about. -/
def Call.hashlock : Call → Bytes32
  | .lock hashlock _ _ => hashlock
  | .withdraw hashlock _ => hashlock
  | .refund hashlock => hashlock

namespace HashedTimelock

variable (sha256 : Bytes → Bytes32)

/-- The contract as it is deployed, with the ether that its address had before. -/
def deployed (balance : ℕ) : HashedTimelock := ⟨fun _ ↦ Lock.unset, balance⟩

/-- `payable(payee).transfer(amount)`, which reverts without a reason. The stipend of a transfer is too
small for the receiver to call back. -/
def transfer (c : HashedTimelock) (msg : Message) (payee : Address) (amount : Word) :
    Except String HashedTimelock :=
  if amount.toNat ≤ c.balance ∧ msg.accepts payee then
    .ok { c with balance := c.balance - amount.toNat }
  else .error ""

/-- `lock`. -/
def lock (c : HashedTimelock) (msg : Message) (hashlock : Bytes32) (recipient : Address)
    (timelock : Word) : Except String (HashedTimelock × Receipt) :=
  if ¬ msg.value > 0 then .error "no value"
  else if (c.locks hashlock).funder ≠ 0 then .error "exists"
  else if ¬ timelock > msg.timestamp then .error "timelock past"
  else .ok (
    { locks := update c.locks hashlock ⟨msg.sender, recipient, msg.value, timelock, false, false⟩
      balance := c.balance + msg.value.toNat },
    ⟨.locked hashlock recipient msg.value timelock, none⟩)

/-- `withdraw`, which like every function that is not payable refuses a message with ether. -/
def withdraw (c : HashedTimelock) (msg : Message) (hashlock preimage : Bytes32) :
    Except String (HashedTimelock × Receipt) :=
  let l := c.locks hashlock
  if msg.value ≠ 0 then .error ""
  else if l.recipient ≠ msg.sender then .error "not recipient"
  else if l.claimed ∨ l.refunded then .error "closed"
  else if sha256 (bytesOf32 preimage) ≠ hashlock then .error "bad preimage"
  else
    (transfer { c with locks := update c.locks hashlock { l with claimed := true } } msg
      l.recipient l.amount).map fun c' ↦
        (c', ⟨.withdrawn hashlock preimage, some (l.recipient, l.amount)⟩)

/-- `refund`. -/
def refund (c : HashedTimelock) (msg : Message) (hashlock : Bytes32) :
    Except String (HashedTimelock × Receipt) :=
  let l := c.locks hashlock
  if msg.value ≠ 0 then .error ""
  else if l.funder ≠ msg.sender then .error "not funder"
  else if l.claimed ∨ l.refunded then .error "closed"
  else if ¬ msg.timestamp ≥ l.timelock then .error "not expired"
  else
    (transfer { c with locks := update c.locks hashlock { l with refunded := true } } msg
      l.funder l.amount).map fun c' ↦ (c', ⟨.refunded hashlock, some (l.funder, l.amount)⟩)

/-- A call. A call that reverts leaves the contract as it was. -/
def exec (c : HashedTimelock) (msg : Message) : Call → Except String (HashedTimelock × Receipt)
  | .lock hashlock recipient timelock => c.lock msg hashlock recipient timelock
  | .withdraw hashlock preimage => c.withdraw sha256 msg hashlock preimage
  | .refund hashlock => c.refund msg hashlock

variable {sha256} {c c' : HashedTimelock} {msg : Message} {hashlock preimage : Bytes32}
variable {receipt receipt' : Receipt}

/-! ### What each call does -/

theorem ite_error_eq_ok {α : Type} {p : Prop} [Decidable p] {reason : String}
    {x : Except String α} {a : α} :
    (if p then .error reason else x) = .ok a ↔ ¬ p ∧ x = .ok a := by
  by_cases hp : p <;> simp [hp]

theorem transfer_map_eq_ok {payee : Address} {amount : Word} :
    (c.transfer msg payee amount).map (fun paid ↦ (paid, receipt)) = .ok (c', receipt') ↔
      amount.toNat ≤ c.balance ∧ msg.accepts payee = true ∧
        c' = { c with balance := c.balance - amount.toNat } ∧ receipt' = receipt := by
  unfold transfer
  split
  · next hcan => simp [Except.map, hcan, eq_comm]
  · next hcannot =>
    rw [not_and] at hcannot
    simp only [Except.map, reduceCtorEq, false_iff]
    exact fun h ↦ hcannot h.1 h.2.1

theorem lock_eq_ok {recipient : Address} {timelock : Word} :
    c.lock msg hashlock recipient timelock = .ok (c', receipt) ↔
      0 < msg.value ∧ (c.locks hashlock).funder = 0 ∧ msg.timestamp < timelock ∧
        c' = ⟨update c.locks hashlock
          ⟨msg.sender, recipient, msg.value, timelock, false, false⟩,
          c.balance + msg.value.toNat⟩ ∧
        receipt = ⟨.locked hashlock recipient msg.value timelock, none⟩ := by
  unfold lock
  rw [ite_error_eq_ok, ite_error_eq_ok, ite_error_eq_ok, not_not, not_not, not_not,
    Except.ok.injEq, Prod.mk.injEq, eq_comm (b := c'), eq_comm (b := receipt)]

theorem withdraw_eq_ok :
    c.withdraw sha256 msg hashlock preimage = .ok (c', receipt) ↔
      msg.value = 0 ∧ (c.locks hashlock).recipient = msg.sender ∧
        ¬ ((c.locks hashlock).claimed = true ∨ (c.locks hashlock).refunded = true) ∧
        sha256 (bytesOf32 preimage) = hashlock ∧
        (c.locks hashlock).amount.toNat ≤ c.balance ∧
        msg.accepts (c.locks hashlock).recipient = true ∧
        c' = ⟨update c.locks hashlock { c.locks hashlock with claimed := true },
          c.balance - (c.locks hashlock).amount.toNat⟩ ∧
        receipt = ⟨.withdrawn hashlock preimage,
          some ((c.locks hashlock).recipient, (c.locks hashlock).amount)⟩ := by
  unfold withdraw
  simp only [ite_error_eq_ok, transfer_map_eq_ok, ne_eq, not_not]

theorem refund_eq_ok :
    c.refund msg hashlock = .ok (c', receipt) ↔
      msg.value = 0 ∧ (c.locks hashlock).funder = msg.sender ∧
        ¬ ((c.locks hashlock).claimed = true ∨ (c.locks hashlock).refunded = true) ∧
        (c.locks hashlock).timelock ≤ msg.timestamp ∧
        (c.locks hashlock).amount.toNat ≤ c.balance ∧
        msg.accepts (c.locks hashlock).funder = true ∧
        c' = ⟨update c.locks hashlock { c.locks hashlock with refunded := true },
          c.balance - (c.locks hashlock).amount.toNat⟩ ∧
        receipt = ⟨.refunded hashlock,
          some ((c.locks hashlock).funder, (c.locks hashlock).amount)⟩ := by
  unfold refund
  simp only [ite_error_eq_ok, transfer_map_eq_ok, ne_eq, not_not, ge_iff_le]

/-! ### Runs -/

/-- A successful call, with its message and what it left behind. -/
structure Done where
  msg : Message
  call : Call
  receipt : Receipt

/-- The runs of a contract, with the calls that succeeded and the ether that was forced on it. -/
inductive Runs (sha256 : Bytes → Bytes32) (start : HashedTimelock) :
    List Done → ℕ → HashedTimelock → Prop where
  | refl : Runs sha256 start [] 0 start
  | call {done : List Done} {forced : ℕ} {c c' : HashedTimelock} {receipt : Receipt}
    (msg : Message) (call : Call) : Runs sha256 start done forced c →
      c.exec sha256 msg call = .ok (c', receipt) →
      Runs sha256 start (done ++ [⟨msg, call, receipt⟩]) forced c'
  | force {done : List Done} {forced : ℕ} {c : HashedTimelock} (wei : ℕ) :
    Runs sha256 start done forced c →
      Runs sha256 start done (forced + wei) { c with balance := c.balance + wei }

/-- The successful calls about a hashlock, and the lock that they leave. -/
inductive Story (sha256 : Bytes → Bytes32) (hashlock : Bytes32) : List Done → Lock → Prop where
  | unused : Story sha256 hashlock [] Lock.unset
  | opened {msg : Message} {recipient : Address} {timelock : Word} : 0 < msg.value →
    msg.timestamp < timelock →
      Story sha256 hashlock
        [⟨msg, .lock hashlock recipient timelock,
          ⟨.locked hashlock recipient msg.value timelock, none⟩⟩]
        ⟨msg.sender, recipient, msg.value, timelock, false, false⟩
  | claimed {first : Done} {l : Lock} {msg : Message} {preimage : Bytes32} :
    Story sha256 hashlock [first] l → l.recipient = msg.sender →
      sha256 (bytesOf32 preimage) = hashlock →
      Story sha256 hashlock
        [first, ⟨msg, .withdraw hashlock preimage,
          ⟨.withdrawn hashlock preimage, some (l.recipient, l.amount)⟩⟩]
        { l with claimed := true }
  | refunded {first : Done} {l : Lock} {msg : Message} : Story sha256 hashlock [first] l →
    l.funder = msg.sender → l.timelock ≤ msg.timestamp →
      Story sha256 hashlock
        [first, ⟨msg, .refund hashlock, ⟨.refunded hashlock, some (l.funder, l.amount)⟩⟩]
        { l with refunded := true }

variable {done : List Done} {l : Lock}

theorem Story.funder_ne_zero {first : Done} {later : List Done}
    (h : Story sha256 hashlock (first :: later) l) : l.funder ≠ 0 := by
  generalize hall : first :: later = all at h
  induction h generalizing first later with
  | unused => cases hall
  | @opened msg => exact msg.sender_ne_zero
  | claimed _ _ _ ih => exact ih rfl
  | refunded _ _ _ ih => exact ih rfl

/-- Where a hashlock stands can be read off its lock. -/
theorem Story.length (h : Story sha256 hashlock done l) :
    done.length = if l.funder = 0 then 0 else if l.claimed ∨ l.refunded then 2 else 1 := by
  cases h with
  | unused => rfl
  | @opened msg =>
    rw [if_neg msg.sender_ne_zero]
    rfl
  | claimed hfirst =>
    rw [if_neg hfirst.funder_ne_zero, if_pos (.inl rfl)]
    rfl
  | refunded hfirst =>
    rw [if_neg hfirst.funder_ne_zero, if_pos (.inr rfl)]
    rfl

theorem Story.eq_unset (h : Story sha256 hashlock [] l) : l = Lock.unset := by
  cases h
  rfl

/-- The story of a hashlock after one more successful call about it. -/
theorem Story.exec {call : Call} (h : Story sha256 call.hashlock done (c.locks call.hashlock))
    (hcall : c.exec sha256 msg call = .ok (c', receipt)) :
    Story sha256 call.hashlock (done ++ [⟨msg, call, receipt⟩]) (c'.locks call.hashlock) := by
  have hlength := h.length
  cases call with
  | lock hashlock recipient timelock =>
    obtain ⟨hvalue, hunused, htime, rfl, rfl⟩ := lock_eq_ok.mp hcall
    rw [Call.hashlock, if_pos hunused, List.length_eq_zero_iff] at hlength
    rw [hlength]
    simp only [Call.hashlock, update_self]
    exact .opened hvalue htime
  | withdraw hashlock preimage =>
    obtain ⟨-, hsender, hclosed, hpreimage, -, -, rfl, rfl⟩ := withdraw_eq_ok.mp hcall
    have hused : (c.locks hashlock).funder ≠ 0 := by
      intro hunused
      rw [Call.hashlock, if_pos hunused, List.length_eq_zero_iff] at hlength
      subst hlength
      have hunset : c.locks hashlock = Lock.unset := h.eq_unset
      rw [hunset] at hsender
      exact msg.sender_ne_zero hsender.symm
    rw [Call.hashlock, if_neg hused, if_neg hclosed, List.length_eq_one_iff] at hlength
    obtain ⟨first, rfl⟩ := hlength
    simp only [Call.hashlock, update_self]
    exact .claimed h hsender hpreimage
  | refund hashlock =>
    obtain ⟨-, hsender, hclosed, htime, -, -, rfl, rfl⟩ := refund_eq_ok.mp hcall
    have hused : (c.locks hashlock).funder ≠ 0 := hsender ▸ msg.sender_ne_zero
    rw [Call.hashlock, if_neg hused, if_neg hclosed, List.length_eq_one_iff] at hlength
    obtain ⟨first, rfl⟩ := hlength
    simp only [Call.hashlock, update_self]
    exact .refunded h hsender htime

/-- A call touches the lock of its own hashlock only. -/
theorem exec_locks_of_ne {call : Call} (hcall : c.exec sha256 msg call = .ok (c', receipt))
    (hne : call.hashlock ≠ hashlock) : c'.locks hashlock = c.locks hashlock := by
  cases call with
  | lock other recipient timelock =>
    obtain ⟨-, -, -, rfl, -⟩ := lock_eq_ok.mp hcall
    exact update_of_ne (Ne.symm hne) _ _
  | withdraw other preimage =>
    obtain ⟨-, -, -, -, -, -, rfl, -⟩ := withdraw_eq_ok.mp hcall
    exact update_of_ne (Ne.symm hne) _ _
  | refund other =>
    obtain ⟨-, -, -, -, -, -, rfl, -⟩ := refund_eq_ok.mp hcall
    exact update_of_ne (Ne.symm hne) _ _

/-- The successful calls about a hashlock. -/
def about (hashlock : Bytes32) (done : List Done) : List Done :=
  done.filter fun entry ↦ entry.call.hashlock = hashlock

theorem Runs.story {balance forced : ℕ} (h : Runs sha256 (deployed balance) done forced c)
    (hashlock : Bytes32) : Story sha256 hashlock (about hashlock done) (c.locks hashlock) := by
  induction h with
  | refl => exact .unused
  | @call done forced c c' receipt msg call _ hcall ih =>
    unfold about at ih ⊢
    rw [List.filter_append]
    by_cases hsame : call.hashlock = hashlock
    · subst hsame
      simpa using ih.exec hcall
    · rw [exec_locks_of_ne hcall hsame]
      simpa [hsame] using ih
  | force wei _ ih => exact ih

theorem held_update (locks : Bytes32 → Lock) (hashlock : Bytes32) (l : Lock) :
    (fun other ↦ (update locks hashlock l other).held) =
      update (fun other ↦ (locks other).held) hashlock l.held := by
  funext other
  exact apply_update (fun _ ↦ Lock.held) locks hashlock l other

theorem held_open (hclosed : ¬ (l.claimed = true ∨ l.refunded = true)) :
    l.held = l.amount.toNat := if_neg hclosed

theorem held_closed (hclosed : l.claimed = true ∨ l.refunded = true) : l.held = 0 := if_pos hclosed

/-- The ether of the contract: what was there before, what was forced on it, and the open locks. -/
theorem Runs.balance_eq {balance forced : ℕ} (h : Runs sha256 (deployed balance) done forced c) :
    (support fun hashlock ↦ (c.locks hashlock).held).Finite ∧
      c.balance = balance + forced + total fun hashlock ↦ (c.locks hashlock).held := by
  induction h with
  | refl =>
    have hnone : (fun hashlock ↦ ((deployed balance).locks hashlock).held) = fun _ ↦ 0 := rfl
    rw [hnone, total_zero]
    exact ⟨by simp, rfl⟩
  | @call done forced c c' receipt msg call hrun hcall ih =>
    obtain ⟨hfinite, hbalance⟩ := ih
    -- one lock changes, and the ether of the contract by as much as it holds
    have hmove : ∀ (hashlock : Bytes32) (l : Lock) (ether : ℕ),
        ether + (c.locks hashlock).held = c.balance + l.held →
          (support fun other ↦ (update c.locks hashlock l other).held).Finite ∧
            ether = balance + forced + total fun other ↦ (update c.locks hashlock l other).held := by
      intro hashlock l ether hether
      rw [held_update]
      refine ⟨finite_support_update hfinite hashlock l.held, ?_⟩
      have htotal := total_update hfinite hashlock l.held
      omega
    cases call with
    | lock hashlock recipient timelock =>
      obtain ⟨-, hunused, -, rfl, -⟩ := lock_eq_ok.mp hcall
      apply hmove
      have hstory := (hrun.story hashlock).length
      rw [if_pos hunused, List.length_eq_zero_iff] at hstory
      have hunset := (hstory ▸ hrun.story hashlock).eq_unset
      rw [hunset]
      rfl
    | withdraw hashlock preimage =>
      obtain ⟨-, -, hclosed, -, henough, -, rfl, -⟩ := withdraw_eq_ok.mp hcall
      apply hmove
      rw [held_open hclosed, Nat.sub_add_cancel henough, held_closed (.inl rfl), add_zero]
    | refund hashlock =>
      obtain ⟨-, -, hclosed, -, henough, -, rfl, -⟩ := refund_eq_ok.mp hcall
      apply hmove
      rw [held_open hclosed, Nat.sub_add_cancel henough, held_closed (.inr rfl), add_zero]
  | @force done forced c wei _ ih =>
    refine ⟨ih.1, ?_⟩
    show c.balance + wei = balance + (forced + wei) + total fun hashlock ↦ (c.locks hashlock).held
    rw [ih.2]
    omega

/-- An open lock is covered. -/
theorem Runs.covered {balance forced : ℕ} (h : Runs sha256 (deployed balance) done forced c)
    (hclosed : ¬ ((c.locks hashlock).claimed = true ∨ (c.locks hashlock).refunded = true)) :
    (c.locks hashlock).amount.toNat ≤ c.balance := by
  obtain ⟨hfinite, hbalance⟩ := h.balance_eq
  have hheld := le_total hfinite hashlock
  rw [held_open hclosed] at hheld
  omega

/-- What every run of calls makes of the contract, whoever sends them and in whatever order. Of each
hashlock it has seen nothing, or one lock, or one lock and one payment of its amount behind it: to the
recipient for the preimage, or back to the payer from the timelock on. The contract holds the open
locks next to what it had and was forced to take, and so a withdrawal or a refund is refused for its
conditions only and never for want of ether. -/
theorem Runs.locks_settled {balance forced : ℕ}
    (h : Runs sha256 (deployed balance) done forced c) :
    (∀ hashlock, Story sha256 hashlock (about hashlock done) (c.locks hashlock)) ∧
      c.balance = balance + forced + (total fun hashlock ↦ (c.locks hashlock).held) ∧
      ∀ (msg : Message) (hashlock : Bytes32),
        (∀ preimage, (∃ result, c.exec sha256 msg (.withdraw hashlock preimage) = .ok result) ↔
          msg.value = 0 ∧ (c.locks hashlock).recipient = msg.sender ∧
            ¬ ((c.locks hashlock).claimed = true ∨ (c.locks hashlock).refunded = true) ∧
            sha256 (bytesOf32 preimage) = hashlock ∧ msg.accepts msg.sender = true) ∧
        ((∃ result, c.exec sha256 msg (.refund hashlock) = .ok result) ↔
          msg.value = 0 ∧ (c.locks hashlock).funder = msg.sender ∧
            ¬ ((c.locks hashlock).claimed = true ∨ (c.locks hashlock).refunded = true) ∧
            (c.locks hashlock).timelock ≤ msg.timestamp ∧ msg.accepts msg.sender = true) := by
  refine ⟨h.story, h.balance_eq.2, fun msg hashlock ↦ ⟨fun preimage ↦ ⟨?_, ?_⟩, ?_, ?_⟩⟩
  · rintro ⟨⟨c', receipt⟩, hcall⟩
    obtain ⟨hvalue, hsender, hclosed, hpreimage, -, haccepts, -, -⟩ := withdraw_eq_ok.mp hcall
    exact ⟨hvalue, hsender, hclosed, hpreimage, hsender ▸ haccepts⟩
  · rintro ⟨hvalue, hsender, hclosed, hpreimage, haccepts⟩
    exact ⟨(_, _), withdraw_eq_ok.mpr ⟨hvalue, hsender, hclosed, hpreimage, h.covered hclosed,
      hsender ▸ haccepts, rfl, rfl⟩⟩
  · rintro ⟨⟨c', receipt⟩, hcall⟩
    obtain ⟨hvalue, hsender, hclosed, htime, -, haccepts, -, -⟩ := refund_eq_ok.mp hcall
    exact ⟨hvalue, hsender, hclosed, htime, hsender ▸ haccepts⟩
  · rintro ⟨hvalue, hsender, hclosed, htime, haccepts⟩
    exact ⟨(_, _), refund_eq_ok.mpr ⟨hvalue, hsender, hclosed, htime, h.covered hclosed,
      hsender ▸ haccepts, rfl, rfl⟩⟩

/-- The SHA-256 digest of the 32 bytes of 9. -/
def sampleDigest : Bytes32 := 0x887bf140ce0b6a497ed8db5c7498a45454f0b2bd644b0313f7a82acc084d0027

/-- SHA-256, as far as the sample asks for it. -/
def sampleSha256 (input : Bytes) : Bytes32 := if input = bytesOf32 9 then sampleDigest else 0

/-- A message of an account, at a time, into a world where every account takes ether. -/
def sampleMessage (sender : Address) (hsender : sender ≠ 0) (value timestamp : Word) : Message :=
  ⟨sender, value, timestamp, fun _ ↦ true, hsender⟩

/-- The contract with one open lock. -/
def sampleOpened : HashedTimelock :=
  ⟨update (deployed 0).locks sampleDigest ⟨1, 2, 5, 100, false, false⟩, 5⟩

theorem locks_settled_withdrawn : ∃ (done : List Done) (c : HashedTimelock), done.length = 2 ∧
    Story sampleSha256 sampleDigest (about sampleDigest done) (c.locks sampleDigest) ∧
      c.balance = 0 + 0 + total fun hashlock ↦ (c.locks hashlock).held := by
  have hlock : (deployed 0).lock (sampleMessage 1 (by decide) 5 50) sampleDigest 2 100 =
      .ok (sampleOpened, ⟨.locked sampleDigest 2 5 100, none⟩) :=
    lock_eq_ok.mpr ⟨by decide, rfl, by decide, rfl, rfl⟩
  have hopened := Runs.refl.call (sampleMessage 1 (by decide) 5 50)
    (.lock sampleDigest 2 100) (show (deployed 0).exec sampleSha256 _ _ = _ from hlock)
  have hl : sampleOpened.locks sampleDigest = ⟨1, 2, 5, 100, false, false⟩ := by
    simp [sampleOpened]
  obtain ⟨⟨c, receipt⟩, hwithdraw⟩ :=
    (((Runs.locks_settled hopened).2.2 (sampleMessage 2 (by decide) 0 60) sampleDigest).1 9).mpr (by
      rw [hl]
      exact ⟨rfl, rfl, by simp, rfl, rfl⟩)
  have hpaid := hopened.call _ _ hwithdraw
  obtain ⟨hstory, hbalance, -⟩ := Runs.locks_settled hpaid
  exact ⟨_, c, rfl, hstory sampleDigest, hbalance⟩

end HashedTimelock

end Latebra.Bridge
