import Latebra.P2p.Message
import Mathlib.Data.List.DropRight

/-!
# The addresses that a node knows

A node learns addresses from its operator and from whoever introduces itself, and hands them out to
whoever asks. An address is checked before it is kept, so whatever the node has been told, its
`AddressBook` holds each address once and keeps within the bounds of the reply that lists it
(`AddressBook.fits_peers`). The node does not learn its own address (`AddressBook.own_not_learned`),
and a peer that cannot be reached is forgotten with the fifth failed contact in a row
(`AddressBook.known_after_contact`).
-/

set_option autoImplicit false
set_option relaxedAutoImplicit false

namespace Latebra.P2p

open Foundation Latebra.Types

/-- Failed contacts in a row after which a peer is forgotten. -/
def MAX_PEER_FAILURES : UInt32 := 5

/-- The white space of Unicode. -/
def isWhitespace (c : Char) : Bool :=
  c.toNat ∈ [32, 133, 160, 5760, 8232, 8233, 8239, 8287, 12288] ∨
    9 ≤ c.toNat ∧ c.toNat ≤ 13 ∨ 8192 ≤ c.toNat ∧ c.toNat ≤ 8202

/-- A text without the white space around it. -/
def trim (text : Text) : Text := (text.dropWhile isWhitespace).rdropWhile isWhitespace

/-- A known peer, with the failed contacts since the last successful one. -/
structure Peer where
  addr : Text
  failures : UInt32
deriving DecidableEq

/-- The peers that a node knows, and its own address, which it does not take for that of a peer. -/
structure AddressBook where
  peers : List Peer
  selfAddr : Option Text
  length_le : peers.length ≤ MAX_PEERS
  nodup : (peers.map Peer.addr).Nodup
  addr_le : ∀ p ∈ peers, (Text.asBytes p.addr).length ≤ MAX_PEER_ADDR_LEN
  failures_lt : ∀ p ∈ peers, p.failures < MAX_PEER_FAILURES

namespace AddressBook

/-- A node that knows nobody yet. -/
def new : AddressBook where
  peers := []
  selfAddr := none
  length_le := Nat.zero_le _
  nodup := List.nodup_nil
  addr_le _ hmem := absurd hmem List.not_mem_nil
  failures_lt _ hmem := absurd hmem List.not_mem_nil

/-- Set the own address. A peer that is already known by it stays. -/
def setSelfAddr (book : AddressBook) (addr : Text) : AddressBook :=
  { book with selfAddr := some (trim addr) }

/-- The known addresses. -/
def addrs (book : AddressBook) : List Text := book.peers.map Peer.addr

/-- Whether an address is turned away. -/
def Refuses (book : AddressBook) (addr : Text) : Prop :=
  addr = [] ∨ MAX_PEER_ADDR_LEN < (Text.asBytes addr).length ∨ book.selfAddr = some addr ∨
    MAX_PEERS ≤ book.peers.length ∨ addr ∈ book.addrs

instance (book : AddressBook) (addr : Text) : Decidable (book.Refuses addr) :=
  inferInstanceAs (Decidable (_ ∨ _))

/-- Record an address, and say whether it is a new one. -/
def addPeer (book : AddressBook) (addr : Text) : Bool × AddressBook :=
  if h : book.Refuses (trim addr) then (false, book)
  else
    (true,
      { book with
        peers := book.peers ++ [⟨trim addr, 0⟩]
        length_le := by
          rw [List.length_append, List.length_singleton]
          exact Nat.lt_of_not_le fun hfull ↦ h (.inr (.inr (.inr (.inl hfull))))
        nodup := by
          rw [List.map_append, List.map_singleton]
          refine List.nodup_append.mpr ⟨book.nodup, List.nodup_singleton _, ?_⟩
          rintro known hknown addr' hnew rfl
          rw [List.mem_singleton.mp hnew] at hknown
          exact h (.inr (.inr (.inr (.inr hknown))))
        addr_le := by
          intro p hmem
          rcases List.mem_append.mp hmem with hold | hnew
          · exact book.addr_le p hold
          · rw [List.mem_singleton.mp hnew]
            exact Nat.le_of_not_lt fun hlong ↦ h (.inr (.inl hlong))
        failures_lt := by
          intro p hmem
          rcases List.mem_append.mp hmem with hold | hnew
          · exact book.failures_lt p hold
          · rw [List.mem_singleton.mp hnew]
            show (0 : UInt32) < MAX_PEER_FAILURES
            decide })

/-- Forget an address. -/
def removePeer (book : AddressBook) (addr : Text) : AddressBook where
  peers := book.peers.filter fun p ↦ p.addr ≠ addr
  selfAddr := book.selfAddr
  length_le := (List.length_filter_le _ _).trans book.length_le
  nodup := book.nodup.sublist (List.filter_sublist.map _)
  addr_le p hmem := book.addr_le p (List.mem_of_mem_filter hmem)
  failures_lt p hmem := book.failures_lt p (List.mem_of_mem_filter hmem)

/-- Set the count of failed contacts of an address. There is one peer at most with the address. -/
def setFailures (book : AddressBook) (addr : Text) (failures : UInt32)
    (hlow : failures < MAX_PEER_FAILURES) : AddressBook where
  peers := book.peers.map fun p ↦ if p.addr = addr then ⟨p.addr, failures⟩ else p
  selfAddr := book.selfAddr
  length_le := by
    rw [List.length_map]
    exact book.length_le
  nodup := by
    rw [List.map_map]
    refine (List.map_congr_left fun p _ ↦ ?_) ▸ book.nodup
    dsimp only [Function.comp_apply]
    split <;> rfl
  addr_le q hmem := by
    obtain ⟨p, hp, rfl⟩ := List.mem_map.mp hmem
    split <;> exact book.addr_le p hp
  failures_lt q hmem := by
    obtain ⟨p, hp, rfl⟩ := List.mem_map.mp hmem
    split
    · exact hlow
    · exact book.failures_lt p hp

/-- Mark a successful contact. -/
def recordPeerOk (book : AddressBook) (addr : Text) : AddressBook :=
  book.setFailures addr 0 (by decide)

/-- Mark a failed contact, and say whether the peer is forgotten for it. -/
def recordPeerFailure (book : AddressBook) (addr : Text) : Bool × AddressBook :=
  match book.peers.find? fun p ↦ p.addr = addr with
  | none => (false, book)
  | some p =>
    if h : MAX_PEER_FAILURES ≤ p.failures + 1 then (true, book.removePeer addr)
    else (false, book.setFailures addr (p.failures + 1) (UInt32.not_le.mp h))

/-! ### The reply -/

/-- The reply that lists the known addresses can be read. -/
theorem fits_peers (book : AddressBook) : (Msg.peers book.addrs).Fits := by
  refine ⟨?_, fun addr hmem ↦ ?_⟩
  · rw [addrs, List.length_map]
    exact book.length_le
  · obtain ⟨p, hp, rfl⟩ := List.mem_map.mp hmem
    exact book.addr_le p hp

/-! ### The own address -/

section Own

variable {book : AddressBook} {own : Text}

/-- An address that is new does not make the own one known. -/
theorem addPeer_own (hself : book.selfAddr = some own) (hunknown : own ∉ book.addrs) (addr : Text) :
    (book.addPeer addr).2.selfAddr = some own ∧ own ∉ (book.addPeer addr).2.addrs := by
  unfold addPeer
  split
  · exact ⟨hself, hunknown⟩
  · next hnew =>
    refine ⟨hself, fun hknown ↦ ?_⟩
    rw [addrs, List.map_append, List.map_singleton, List.mem_append, List.mem_singleton] at hknown
    rcases hknown with hold | rfl
    · exact hunknown hold
    · exact hnew (.inr (.inr (.inl hself)))

/-- Whatever addresses a node learns after its own one, it does not take itself for a peer. -/
theorem own_not_learned (hunknown : trim own ∉ book.addrs) (learned : List Text) :
    trim own ∉ (learned.foldl (fun book addr ↦ (book.addPeer addr).2) (book.setSelfAddr own)).addrs := by
  suffices hrun : ∀ book : AddressBook, book.selfAddr = some (trim own) → trim own ∉ book.addrs →
      trim own ∉ (learned.foldl (fun book addr ↦ (book.addPeer addr).2) book).addrs from
    hrun _ rfl hunknown
  induction learned with
  | nil => exact fun _ _ hstart ↦ hstart
  | cons addr learned ih =>
    intro book hself hstart
    obtain ⟨hself', hstart'⟩ := addPeer_own hself hstart addr
    exact ih _ hself' hstart'

end Own

/-! ### Unreachable peers -/

/-- Failed contacts with an address, one after the other. -/
def afterFailures (addr : Text) : ℕ → AddressBook → AddressBook
  | 0, book => book
  | n + 1, book => afterFailures addr n (book.recordPeerFailure addr).2

variable {book : AddressBook} {p : Peer}

theorem find?_addr (hmem : p ∈ book.peers) :
    (book.peers.find? fun q ↦ q.addr = p.addr) = some p := by
  cases hfound : book.peers.find? fun q ↦ q.addr = p.addr with
  | none => exact absurd (decide_eq_true rfl) (List.find?_eq_none.mp hfound p hmem)
  | some q =>
    have haddr : q.addr = p.addr := by simpa using List.find?_some hfound
    rw [List.inj_on_of_nodup_map book.nodup (List.mem_of_find?_eq_some hfound) hmem haddr]

/-- A forgotten address stays forgotten, however often it fails. -/
theorem afterFailures_of_not_mem {addr : Text} (hnot : addr ∉ book.addrs) (n : ℕ) :
    book.afterFailures addr n = book := by
  have hnone : (book.peers.find? fun q ↦ q.addr = addr) = none := by
    refine List.find?_eq_none.mpr fun q hq heq ↦ hnot ?_
    exact List.mem_map.mpr ⟨q, hq, of_decide_eq_true heq⟩
  induction n with
  | zero => rfl
  | succ n ih =>
    rw [afterFailures, recordPeerFailure, hnone]
    exact ih

/-- A peer is known until the failed contacts in a row reach the limit. -/
theorem known_afterFailures (hmem : p ∈ book.peers) (n : ℕ) :
    p.addr ∈ (book.afterFailures p.addr n).addrs ↔ p.failures.toNat + n < 5 := by
  induction n generalizing book p with
  | zero =>
    refine iff_of_true (List.mem_map_of_mem hmem) ?_
    exact UInt32.lt_iff_toNat_lt.mp (book.failures_lt p hmem)
  | succ n ih =>
    have hlow : p.failures.toNat < 5 := UInt32.lt_iff_toNat_lt.mp (book.failures_lt p hmem)
    have hnext : (p.failures + 1).toNat = p.failures.toNat + 1 := by
      rw [UInt32.toNat_add]
      exact Nat.mod_eq_of_lt (by rw [UInt32.toNat_one]; omega)
    rw [afterFailures, recordPeerFailure, find?_addr hmem]
    dsimp only
    split
    · next hlimit =>
      have hreached : 5 ≤ p.failures.toNat + 1 := hnext ▸ UInt32.le_iff_toNat_le.mp hlimit
      have hnot : p.addr ∉ (book.removePeer p.addr).addrs := fun hknown ↦ by
        obtain ⟨q, hq, heq⟩ := List.mem_map.mp hknown
        exact of_decide_eq_true (List.mem_filter.mp hq).2 heq
      rw [afterFailures_of_not_mem hnot]
      exact iff_of_false hnot (by omega)
    · next hlimit =>
      have hcounted : (⟨p.addr, p.failures + 1⟩ : Peer) ∈
          (book.setFailures p.addr (p.failures + 1) (UInt32.not_le.mp hlimit)).peers :=
        List.mem_map.mpr ⟨p, hmem, if_pos rfl⟩
      rw [ih hcounted, hnext]
      omega

/-- After a successful contact a peer is known for as many failed contacts as a new one. -/
theorem known_after_contact (hmem : p ∈ book.peers) (n : ℕ) :
    p.addr ∈ ((book.recordPeerOk p.addr).afterFailures p.addr n).addrs ↔ n < 5 := by
  have hcleared : (⟨p.addr, 0⟩ : Peer) ∈ (book.recordPeerOk p.addr).peers :=
    List.mem_map.mpr ⟨p, hmem, if_pos rfl⟩
  have hknown := known_afterFailures hcleared n
  rwa [UInt32.toNat_zero, Nat.zero_add] at hknown

end AddressBook

end Latebra.P2p
