import Latebra.Chain.Serving
import Latebra.Foundation.Rounds

/-!
# Peer synchronization without a transport

A node catches up to a peer by pulling the block above its tip until the peer has none.
`syncFrom_ends_iff` is the exact condition for that: the node does not stall (`Blockchain.Stalls`),
that is, the first pulled block cannot be read, is turned away, or becomes the tip. An idle block
would be pulled again and again.
-/

set_option autoImplicit false
set_option relaxedAutoImplicit false

namespace Latebra.Net

open Foundation Crypto Latebra.Types State Chain Blockchain

variable {S : ChainSuite}

/-- Why an incoming block was not adopted. -/
inductive SyncError where
  | malformed
  | invalid (error : ChainError)
deriving DecidableEq

/-- Handle a single gossiped block, which has to be the next one. -/
def receiveBlock (bytes : Bytes) : Transition SyncError (Blockchain S) := fun chain ↦
  match Block.decode bytes with
  | none => (.err .malformed, chain)
  | some block =>
    match checkedAdd chain.activeHeight 1 with
    | none => (.panicked, chain)
    | some next =>
      if block.header.height ≠ next then (.err (.invalid .badHeight), chain)
      else Transition.mapErr .invalid (applyBlock block) chain

/-- One round of catching up, with the number of blocks adopted so far: the loop stops with that
number when the peer has no block at the next height. -/
def syncRound (peer : Blockchain S) (state : ℕ × Blockchain S) :
    (Outcome SyncError ℕ × Blockchain S) ⊕ (ℕ × Blockchain S) :=
  let (adopted, chain) := state
  match checkedAdd chain.activeHeight 1 with
  | none => .inl (.panicked, chain)
  | some next =>
    match peer.blockBytes next with
    | none => .inl (.ok adopted, chain)
    | some bytes =>
      match receiveBlock bytes chain with
      | (.ok _, chain) => .inr (adopted + 1, chain)
      | (.err e, chain) => .inl (.err e, chain)
      | (.panicked, chain) => .inl (.panicked, chain)

/-- Catch up to a peer by pulling each block above our tip, in at most `fuel` requests. -/
def syncFrom (peer : Blockchain S) (fuel : ℕ) (chain : Blockchain S) :
    Option (Outcome SyncError ℕ × Blockchain S) :=
  rounds (syncRound peer) fuel (0, chain)

/-! ### When catching up ends -/

section Ends

variable {genesis : TreeNode} {chain chain' peer : Blockchain S} {adopted adopted' : ℕ}

/-- A round that goes on has pulled and accepted the peer's next block. -/
theorem syncRound_eq_inr (hround : syncRound peer (adopted, chain) = .inr (adopted', chain')) :
    ∃ next bytes block, checkedAdd chain.activeHeight 1 = some next ∧
      peer.blockBytes next = some bytes ∧ Block.decode bytes = some block ∧
      applyBlock block chain = (.ok (), chain') := by
  unfold syncRound receiveBlock at hround
  dsimp only at hround
  split at hround
  · cases hround
  next next hnext =>
  split at hround
  · cases hround
  next bytes hbytes =>
  split at hround
  · next value chain₁ hreceived =>
    obtain ⟨rfl, rfl⟩ := Prod.mk.inj (Sum.inr.inj hround)
    split at hreceived
    · cases hreceived
    next block hdecode =>
    dsimp only at hreceived
    split at hreceived
    · cases hreceived
    refine ⟨next, bytes, block, hnext, hbytes, hdecode, ?_⟩
    have hafter : (Transition.mapErr SyncError.invalid (applyBlock block)).after chain =
        some chain₁ := Transition.after_eq_some.mpr hreceived
    rw [Transition.after_mapErr] at hafter
    exact Transition.after_eq_some.mp hafter
  · cases hround
  · cases hround

/-- A stalled node pulls the same block again. -/
theorem syncRound_of_stalls (hpeer : ∃ w : (blockRules S genesis).View, Tracks peer w)
    (hzero : genesis.height = 0) (hstalls : chain.Stalls peer) :
    ∃ chain', syncRound peer (adopted, chain) = .inr (adopted + 1, chain') ∧
      chain'.Stalls peer := by
  obtain ⟨next, bytes, block, hnext, hbytes, hdecode, hidle⟩ := hstalls
  obtain ⟨chain', hrun, hheight, hidle'⟩ := hidle.applyBlock
  refine ⟨chain', ?_, hidle'.stalls hheight hnext hbytes hdecode⟩
  obtain ⟨w, hw⟩ := hpeer
  have hsum : next.toNat = chain.activeHeight.toNat + 1 := checkedAdd_eq_some.mp hnext
  have hlevel := (hw.pulled hzero (by omega) hbytes hdecode).level
  have hheader : ¬ block.header.height ≠ next := not_not.mpr (UInt64.toNat_inj.mp hlevel)
  have hreceived : receiveBlock bytes chain = (.ok (), chain') := by
    rw [receiveBlock, hdecode]
    dsimp only
    rw [hnext]
    dsimp only
    rw [if_neg hheader, Transition.mapErr, hrun]
  rw [syncRound, hnext]
  dsimp only
  rw [hbytes]
  dsimp only
  rw [hreceived]

/-- A stalled node pulls that block for ever. -/
theorem syncFrom_eq_none (hpeer : ∃ w : (blockRules S genesis).View, Tracks peer w)
    (hzero : genesis.height = 0) (hstalls : chain.Stalls peer) (fuel : ℕ) :
    syncFrom peer fuel chain = none := by
  have hends : ¬ Ends (syncRound peer) (0, chain) := by
    refine not_ends (fun state ↦ state.2.Stalls peer) ?_ hstalls
    rintro ⟨adopted, chain₁⟩ hstalls₁
    obtain ⟨chain₂, hround, hstalls₂⟩ := syncRound_of_stalls hpeer hzero hstalls₁
    exact ⟨_, hround, hstalls₂⟩
  exact Option.not_isSome_iff_eq_none.mp (not_exists.mp hends fuel)

/-- Catching up ends exactly when the node is not stalled at the start. -/
theorem syncFrom_ends_iff (h : Syncing genesis chain peer) :
    (∃ fuel, (syncFrom peer fuel chain).isSome) ↔ ¬ chain.Stalls peer := by
  constructor
  · rintro ⟨fuel, hends⟩ hstalls
    rw [syncFrom_eq_none h.theirs h.zero hstalls] at hends
    cases hends
  · intro hstalls
    refine Ends.of_measure (fun state ↦ Syncing genesis state.2 peer ∧ ¬ state.2.Stalls peer)
      (fun state ↦ peer.activeHeight.toNat - state.2.activeHeight.toNat) ?_ ⟨h, hstalls⟩
    rintro ⟨adopted, chain₁⟩ ⟨adopted', chain₂⟩ ⟨h₁, hstalls₁⟩ hround
    obtain ⟨next, bytes, block, hnext, hbytes, hdecode, hrun⟩ := syncRound_eq_inr hround
    obtain ⟨h₂, hstalls₂, hheight⟩ := h₁.step hstalls₁ hnext hbytes hdecode hrun
    obtain ⟨w, hw⟩ := h₁.theirs
    have hbound := hw.le_of_blockBytes hbytes
    have hsum : next.toNat = chain₁.activeHeight.toNat + 1 := checkedAdd_eq_some.mp hnext
    refine ⟨⟨h₂, hstalls₂⟩, ?_⟩
    show peer.activeHeight.toNat - chain₂.activeHeight.toNat <
      peer.activeHeight.toNat - chain₁.activeHeight.toNat
    rw [hheight, ← hsum]
    omega

end Ends

end Latebra.Net
