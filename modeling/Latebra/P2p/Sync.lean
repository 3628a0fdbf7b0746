import Latebra.Chain.Growth
import Latebra.Net.Sync
import Latebra.P2p.Serving

/-!
# Clients that catch up with a peer

`syncFromPeer` asks the peer for its height and pulls each block above the node's own tip.
`sync_ends_iff` says when such a loop ends, here and without a transport: unless the first block
that is pulled leaves the active branch of the node as it is.
-/

set_option autoImplicit false
set_option relaxedAutoImplicit false

namespace Latebra.P2p

open Foundation Crypto Latebra.Types State Chain Blockchain

variable {S : ChainSuite} {σ : Type}

/-- One round of `syncFromPeer`, with the number of blocks adopted so far. -/
def peerRound (peer : Connection σ) (peerHeight : UInt64) (state : ℕ × σ × Blockchain S) :
    (Outcome IoError ℕ × Blockchain S) ⊕ (ℕ × σ × Blockchain S) :=
  let (adopted, stream, chain) := state
  if ¬ chain.activeHeight < peerHeight then .inl (.ok adopted, chain)
  else
    match checkedAdd chain.activeHeight 1 with
    | none => .inl (.panicked, chain)
    | some next =>
      match peer stream (.getBlock next) with
      | .error e => .inl (.err e, chain)
      | .ok (.block (some bytes), stream) =>
        match Block.decode bytes with
        | none => .inl (.err (.invalidData "undecodable block"), chain)
        | some block =>
          match applyBlock block chain with
          | (.ok _, chain) => .inr (adopted + 1, stream, chain)
          | (.err e, chain) => .inl (.err (.invalidBlock e), chain)
          | (.panicked, chain) => .inl (.panicked, chain)
      -- The peer cannot serve the block.
      | .ok (.block none, _) => .inl (.ok adopted, chain)
      | .ok _ => .inl (.err (.invalidData "expected block"), chain)

/-- Catch up to a peer over a connection, in at most `fuel` requests for a block. -/
def syncFromPeer (peer : Connection σ) (fuel : ℕ) (stream : σ) (chain : Blockchain S) :
    Option (Outcome IoError ℕ × Blockchain S) :=
  match peer stream .getTip with
  | .error e => some (.err e, chain)
  | .ok (.tip peerHeight, stream) => rounds (peerRound peer peerHeight) fuel (0, stream, chain)
  | .ok _ => some (.err (.invalidData "expected tip"), chain)

/-! ### When catching up ends -/

section Ends

variable {genesis : TreeNode} {chain chain' peer : Blockchain S} {adopted adopted' : ℕ}
  {chunks chunks' : StateSync} {next : UInt64} {bytes : Bytes} {block : Block S}

/-- The peer's block at the next height fits a message. -/
def NextFits (chain peer : Blockchain S) : Prop :=
  ∀ next bytes, checkedAdd chain.activeHeight 1 = some next → peer.blockBytes next = some bytes →
    bytes.length + 2 ≤ MAX_MSG_BYTES

theorem servedBy_getTip : servedBy peer chunks .getTip = .ok (.tip peer.activeHeight, chunks) := by
  have hrequest : deliver .getTip = .ok .getTip := deliver_short trivial (by decide)
  have hreply : deliver (.tip peer.activeHeight) = .ok (.tip peer.activeHeight) :=
    deliver_short trivial (by simp [Msg.encode])
  rw [servedBy_eq hrequest rfl, hreply]
  rfl

/-- The block at a height comes back if it fits a message. -/
theorem servedBy_getBlock (height : UInt64) :
    servedBy peer chunks (.getBlock height) =
      (deliver (.block (peer.blockBytes height))).map fun read ↦ (read, chunks) := by
  have hrequest : deliver (.getBlock height) = .ok (.getBlock height) :=
    deliver_short trivial (by simp [Msg.encode])
  exact servedBy_eq hrequest rfl

theorem servedBy_eq_block (hserved : servedBy peer chunks (.getBlock next) =
      .ok (.block (some bytes), chunks')) :
    peer.blockBytes next = some bytes ∧ bytes.length + 2 ≤ MAX_MSG_BYTES := by
  rw [servedBy_getBlock] at hserved
  cases hreply : deliver (.block (peer.blockBytes next)) with
  | error e =>
    rw [hreply] at hserved
    cases hserved
  | ok read =>
    rw [hreply] at hserved
    obtain ⟨rfl, -⟩ := Prod.mk.inj (Except.ok.inj hserved)
    obtain ⟨hread, hlength⟩ := (deliver_eq_ok (m := .block (peer.blockBytes next)) trivial).mp hreply
    have hbytes := Msg.block.inj hread
    rw [← hbytes] at hlength
    exact ⟨hbytes.symm, hlength⟩

theorem servedBy_block (hbytes : peer.blockBytes next = some bytes)
    (hfits : bytes.length + 2 ≤ MAX_MSG_BYTES) :
    servedBy peer chunks (.getBlock next) = .ok (.block (some bytes), chunks) := by
  have hreply : deliver (.block (some bytes)) = .ok (.block (some bytes)) :=
    (deliver_eq_ok (m := .block (some bytes)) trivial).mpr ⟨rfl, hfits⟩
  rw [servedBy_getBlock, hbytes, hreply]
  rfl

/-- A round that goes on has pulled and accepted the peer's next block. -/
theorem peerRound_eq_inr {peerHeight : UInt64}
    (hround : peerRound (servedBy peer) peerHeight (adopted, chunks, chain) =
      .inr (adopted', chunks', chain')) :
    ∃ next bytes block, checkedAdd chain.activeHeight 1 = some next ∧
      peer.blockBytes next = some bytes ∧ bytes.length + 2 ≤ MAX_MSG_BYTES ∧
      Block.decode bytes = some block ∧ applyBlock block chain = (.ok (), chain') := by
  unfold peerRound at hround
  dsimp only at hround
  split at hround
  · cases hround
  split at hround
  · cases hround
  next next hnext =>
  split at hround
  · cases hround
  · next bytes chunks₁ hserved =>
    obtain ⟨hbytes, hfits⟩ := servedBy_eq_block hserved
    split at hround
    · cases hround
    next block hdecode =>
    split at hround
    · next happlied =>
      obtain ⟨-, hstate⟩ := Prod.mk.inj (Sum.inr.inj hround)
      obtain ⟨-, rfl⟩ := Prod.mk.inj hstate
      exact ⟨next, bytes, block, hnext, hbytes, hfits, hdecode, happlied⟩
    · cases hround
    · cases hround
  · cases hround
  · cases hround

/-- A stalled node pulls the same block again. -/
theorem peerRound_of_stalls (hpeer : ∃ w : (blockRules S genesis).View, Tracks peer w)
    (hstalls : chain.Stalls peer) (hfits : NextFits chain peer) :
    ∃ chain', peerRound (servedBy peer) peer.activeHeight (adopted, chunks, chain) =
      .inr (adopted + 1, chunks, chain') ∧ chain'.Stalls peer ∧ NextFits chain' peer := by
  obtain ⟨next, bytes, block, hnext, hbytes, hdecode, hidle⟩ := hstalls
  obtain ⟨chain', hrun, hheight, hidle'⟩ := hidle.applyBlock
  refine ⟨chain', ?_, hidle'.stalls hheight hnext hbytes hdecode, ?_⟩
  · obtain ⟨w, hw⟩ := hpeer
    have hsum : next.toNat = chain.activeHeight.toNat + 1 := checkedAdd_eq_some.mp hnext
    have hbound := hw.le_of_blockBytes hbytes
    have hbelow : ¬ ¬ chain.activeHeight < peer.activeHeight := by
      rw [not_not, UInt64.lt_iff_toNat_lt]
      omega
    rw [peerRound]
    rw [if_neg hbelow, hnext]
    dsimp only
    rw [servedBy_block hbytes (hfits next bytes hnext hbytes)]
    dsimp only
    rw [hdecode]
    dsimp only
    rw [hrun]
  · rw [NextFits, hheight]
    exact hfits

theorem syncFromPeer_eq (fuel : ℕ) :
    syncFromPeer (servedBy peer) fuel none chain =
      rounds (peerRound (servedBy peer) peer.activeHeight) fuel (0, none, chain) := by
  rw [syncFromPeer, servedBy_getTip]

/-- A stalled node pulls that block for ever. -/
theorem syncFromPeer_eq_none (hpeer : ∃ w : (blockRules S genesis).View, Tracks peer w)
    (hstalls : chain.Stalls peer) (hfits : NextFits chain peer) (fuel : ℕ) :
    syncFromPeer (servedBy peer) fuel none chain = none := by
  have hends : ¬ Ends (peerRound (servedBy peer) peer.activeHeight) (0, none, chain) := by
    refine not_ends (fun state ↦ state.2.2.Stalls peer ∧ NextFits state.2.2 peer) ?_
      ⟨hstalls, hfits⟩
    rintro ⟨adopted, chunks, chain₁⟩ ⟨hstalls₁, hfits₁⟩
    obtain ⟨chain₂, hround, hkept⟩ := peerRound_of_stalls hpeer hstalls₁ hfits₁
    exact ⟨_, hround, hkept⟩
  rw [syncFromPeer_eq]
  exact Option.not_isSome_iff_eq_none.mp (not_exists.mp hends fuel)

/-- A sync loop makes finitely many requests unless the first block that it pulls leaves the active
branch as it is. Over a connection the block has to fit a message besides, for the loop not to
end. -/
theorem sync_ends_iff {workers workers' : ℕ} {premine publicPremine : List (Bytes32 × UInt64)}
    {difficulty : UInt64}
    (hours : Reachable workers premine publicPremine difficulty chain)
    (htheirs : Reachable workers' premine publicPremine difficulty peer)
    (hshares : chain.ShareHeaders peer) :
    ((∃ fuel, (Net.syncFrom peer fuel chain).isSome) ↔ ¬ chain.Stalls peer) ∧
      ((∃ fuel, (syncFromPeer (servedBy peer) fuel none chain).isSome) ↔
        ¬ (chain.Stalls peer ∧ NextFits chain peer)) := by
  obtain ⟨genesis, hgenesis, v, hv⟩ := tracks_of_reachable hours
  obtain ⟨genesis', hgenesis', w, hw⟩ := tracks_of_reachable htheirs
  obtain rfl : genesis = genesis' := Option.some.inj (hgenesis.symm.trans hgenesis')
  have h : Syncing genesis chain peer := ⟨genesisOf_height hgenesis, ⟨v, hv⟩, ⟨w, hw⟩, hshares⟩
  refine ⟨Net.syncFrom_ends_iff h, ?_⟩
  constructor
  · rintro ⟨fuel, hends⟩ ⟨hstalls, hfits⟩
    rw [syncFromPeer_eq_none h.theirs hstalls hfits] at hends
    cases hends
  · intro hstalls
    simp only [syncFromPeer_eq]
    refine Ends.of_measure
      (fun state ↦ Syncing genesis state.2.2 peer ∧
        ¬ (state.2.2.Stalls peer ∧ NextFits state.2.2 peer))
      (fun state ↦ peer.activeHeight.toNat - state.2.2.activeHeight.toNat) ?_ ⟨h, hstalls⟩
    rintro ⟨adopted, chunks, chain₁⟩ ⟨adopted', chunks', chain₂⟩ ⟨h₁, hstalls₁⟩ hround
    obtain ⟨next, bytes, block, hnext, hbytes, hfits, hdecode, hrun⟩ := peerRound_eq_inr hround
    have hfits₁ : NextFits chain₁ peer := by
      intro next' bytes' hnext' hbytes'
      obtain rfl : next = next' := Option.some.inj (hnext.symm.trans hnext')
      rwa [Option.some.inj (hbytes'.symm.trans hbytes)]
    have hactive : ¬ chain₁.Stalls peer := fun hstalled ↦ hstalls₁ ⟨hstalled, hfits₁⟩
    obtain ⟨h₂, hstalls₂, hheight⟩ := h₁.step hactive hnext hbytes hdecode hrun
    obtain ⟨w₁, hw₁⟩ := h₁.theirs
    have hbound := hw₁.le_of_blockBytes hbytes
    have hsum : next.toNat = chain₁.activeHeight.toNat + 1 := checkedAdd_eq_some.mp hnext
    refine ⟨⟨h₂, fun hboth ↦ hstalls₂ hboth.1⟩, ?_⟩
    show peer.activeHeight.toNat - chain₂.activeHeight.toNat <
      peer.activeHeight.toNat - chain₁.activeHeight.toNat
    rw [hheight, ← hsum]
    omega

end Ends

/-! ### A fork of equal work -/

/-- A first block that comes at once, which doubles the difficulty of the next one. -/
def fastOne : Block rootlessSuite := emptyBlock emptyGenesisId 1 GENESIS_TIMESTAMP

def fastTwo : Block rootlessSuite := emptyBlock fastOne.id 2 GENESIS_TIMESTAMP

/-- Three blocks in due time have the work of the two fast ones. -/
def slowOne : Block rootlessSuite := emptyBlock emptyGenesisId 1 (GENESIS_TIMESTAMP + 3)

def slowTwo : Block rootlessSuite := emptyBlock slowOne.id 2 (GENESIS_TIMESTAMP + 6)

def slowThree : Block rootlessSuite := emptyBlock slowTwo.id 3 (GENESIS_TIMESTAMP + 9)

def fastOneNode : TreeNode := nodeOver emptyGenesis fastOne

def fastTwoNode : TreeNode := nodeOver fastOneNode fastTwo

def slowOneNode : TreeNode := nodeOver emptyGenesis slowOne

def slowTwoNode : TreeNode := nodeOver slowOneNode slowTwo

def slowThreeNode : TreeNode := nodeOver slowTwoNode slowThree

theorem fork_facts :
    [emptyGenesisId, fastOne.id, fastTwo.id, slowOne.id, slowTwo.id, slowThree.id].Nodup ∧
    meetsDifficulty fastTwo.id fastOneNode.childDifficulty ∧
    slowOneNode.childDifficulty = 1 ∧ slowTwoNode.childDifficulty = 1 ∧
    slowOneNode.cumWork ≤ fastTwoNode.cumWork ∧ slowTwoNode.cumWork ≤ fastTwoNode.cumWork ∧
    slowThreeNode.cumWork ≤ fastTwoNode.cumWork := by
  decide +kernel

/-- The ids of the fork are different. -/
theorem fork_ids :
    (emptyGenesisId ≠ fastOne.id ∧ emptyGenesisId ≠ fastTwo.id ∧ emptyGenesisId ≠ slowOne.id ∧
      emptyGenesisId ≠ slowTwo.id ∧ emptyGenesisId ≠ slowThree.id) ∧
    (fastOne.id ≠ fastTwo.id ∧ fastOne.id ≠ slowOne.id ∧ fastOne.id ≠ slowTwo.id ∧
      fastOne.id ≠ slowThree.id) ∧
    (fastTwo.id ≠ slowOne.id ∧ fastTwo.id ≠ slowTwo.id ∧ fastTwo.id ≠ slowThree.id) ∧
    (slowOne.id ≠ slowTwo.id ∧ slowOne.id ≠ slowThree.id) ∧ slowTwo.id ≠ slowThree.id := by
  simpa [List.nodup_cons] using fork_facts.1

/-- The tree of genesis alone. -/
def genesisTree : FMap Bytes32 TreeNode := (∅ : FMap Bytes32 TreeNode).insert emptyGenesisId emptyGenesis

/-- The tree of a node on the slow branch. -/
def slowTree : FMap Bytes32 TreeNode :=
  ((genesisTree.insert slowOne.id slowOneNode).insert slowTwo.id slowTwoNode).insert slowThree.id
    slowThreeNode

/-- The tree of a node on the fast branch that knows two slow blocks. -/
def forkTree : FMap Bytes32 TreeNode :=
  (((genesisTree.insert fastOne.id fastOneNode).insert fastTwo.id fastTwoNode).insert slowOne.id
    slowOneNode).insert slowTwo.id slowTwoNode

theorem lookup_genesisTree {id : Bytes32} (hother : emptyGenesisId ≠ id) : genesisTree[id]? = none := by
  rw [genesisTree, FMap.lookup_insert, if_neg hother.symm, FMap.lookup_empty]

/-- There is a node on the slow branch. -/
theorem exists_slow : ∃ peer : Blockchain rootlessSuite,
    Stands peer slowTree [emptyGenesisId, slowOne.id, slowTwo.id, slowThree.id] slowThree.id 3 := by
  obtain ⟨-, -, hone, htwo, -⟩ := fork_facts
  obtain ⟨⟨-, -, g1, g2, g3⟩, -, -, ⟨s12, s13⟩, s23⟩ := fork_ids
  obtain ⟨peer₀, h₀⟩ := exists_stands_start
  have hnew₁ := lookup_genesisTree g1
  obtain ⟨peer₁, h₁⟩ := h₀.extend 1 (GENESIS_TIMESTAMP + 3) rfl (FMap.lookup_insert_self ..) hnew₁ rfl
  have hnew₂ : (genesisTree.insert slowOne.id slowOneNode)[slowTwo.id]? = none := by
    rw [FMap.lookup_insert, if_neg s12.symm, lookup_genesisTree g2]
  have hpow₂ : meetsDifficulty slowTwo.id slowOneNode.childDifficulty := by
    rw [hone]
    rfl
  obtain ⟨peer₂, h₂⟩ := h₁.extend 2 (GENESIS_TIMESTAMP + 6) rfl (FMap.lookup_insert_self ..) hnew₂
    hpow₂
  have hnew₃ : ((genesisTree.insert slowOne.id slowOneNode).insert slowTwo.id
      slowTwoNode)[slowThree.id]? = none := by
    rw [FMap.lookup_insert, if_neg s23.symm, FMap.lookup_insert, if_neg s13.symm,
      lookup_genesisTree g3]
  have hpow₃ : meetsDifficulty slowThree.id slowTwoNode.childDifficulty := by
    rw [htwo]
    rfl
  exact h₂.extend 3 (GENESIS_TIMESTAMP + 9) rfl (FMap.lookup_insert_self ..) hnew₃ hpow₃

/-- There is a node on the fast branch that knows two slow blocks. -/
theorem exists_forked : ∃ chain : Blockchain rootlessSuite,
    Stands chain forkTree [emptyGenesisId, fastOne.id, fastTwo.id] fastTwo.id 2 ∧
      chain.Idle slowThree := by
  obtain ⟨-, hpow, hone, htwo, hlight₃, hlight₄, hlight⟩ := fork_facts
  obtain ⟨⟨f1, f2, g1, g2, g3⟩, ⟨f12, f1s1, f1s2, f1s3⟩, ⟨f2s1, f2s2, f2s3⟩, ⟨s12, s13⟩, s23⟩ := fork_ids
  obtain ⟨chain₀, h₀⟩ := exists_stands_start
  have hnew₁ := lookup_genesisTree f1
  obtain ⟨chain₁, h₁⟩ := h₀.extend 1 GENESIS_TIMESTAMP rfl (FMap.lookup_insert_self ..) hnew₁ rfl
  have hnew₂ : (genesisTree.insert fastOne.id fastOneNode)[fastTwo.id]? = none := by
    rw [FMap.lookup_insert, if_neg f12.symm, lookup_genesisTree f2]
  obtain ⟨chain₂, h₂⟩ := h₁.extend 2 GENESIS_TIMESTAMP rfl (FMap.lookup_insert_self ..) hnew₂ hpow
  have hnew₃ : ((genesisTree.insert fastOne.id fastOneNode).insert fastTwo.id
      fastTwoNode)[slowOne.id]? = none := by
    rw [FMap.lookup_insert, if_neg f2s1.symm, FMap.lookup_insert, if_neg f1s1.symm,
      lookup_genesisTree g1]
  have hgenesis : ((genesisTree.insert fastOne.id fastOneNode).insert fastTwo.id
      fastTwoNode)[emptyGenesisId]? = some emptyGenesis := by
    rw [FMap.lookup_insert, if_neg f2, FMap.lookup_insert, if_neg f1]
    exact FMap.lookup_insert_self ..
  obtain ⟨-, chain₃, h₃⟩ := h₂.aside 1 (GENESIS_TIMESTAMP + 3) rfl hgenesis hnew₃ rfl f2
    (FMap.lookup_insert_self ..) hlight₃
  have hnew₄ : (((genesisTree.insert fastOne.id fastOneNode).insert fastTwo.id fastTwoNode).insert
      slowOne.id slowOneNode)[slowTwo.id]? = none := by
    rw [FMap.lookup_insert, if_neg s12.symm, FMap.lookup_insert, if_neg f2s2.symm,
      FMap.lookup_insert, if_neg f1s2.symm, lookup_genesisTree g2]
  have hpow₄ : meetsDifficulty slowTwo.id slowOneNode.childDifficulty := by
    rw [hone]
    rfl
  have hactive₄ : (((genesisTree.insert fastOne.id fastOneNode).insert fastTwo.id
      fastTwoNode).insert slowOne.id slowOneNode)[fastTwo.id]? = some fastTwoNode := by
    rw [FMap.lookup_insert, if_neg f2s1]
    exact FMap.lookup_insert_self ..
  obtain ⟨-, chain₄, h₄⟩ := h₃.aside 2 (GENESIS_TIMESTAMP + 6) rfl (FMap.lookup_insert_self ..)
    hnew₄ hpow₄ f2s1.symm hactive₄ hlight₄
  have hnew₅ : forkTree[slowThree.id]? = none := by
    rw [forkTree, FMap.lookup_insert, if_neg s23.symm, FMap.lookup_insert, if_neg s13.symm,
      FMap.lookup_insert, if_neg f2s3.symm, FMap.lookup_insert, if_neg f1s3.symm,
      lookup_genesisTree g3]
  have hpow₅ : meetsDifficulty slowThree.id slowTwoNode.childDifficulty := by
    rw [htwo]
    rfl
  have hactive₅ : forkTree[fastTwo.id]? = some fastTwoNode := by
    rw [forkTree, FMap.lookup_insert, if_neg f2s2]
    exact hactive₄
  obtain ⟨hidle, -⟩ := h₄.aside 3 (GENESIS_TIMESTAMP + 9) rfl (FMap.lookup_insert_self ..) hnew₅
    hpow₅ f2s2.symm hactive₅ hlight
  exact ⟨chain₄, h₄, hidle⟩

/-- The fast node asks the slow one for a third block that it keeps aside, and then knows. -/
theorem forked_stalls {chain peer : Blockchain rootlessSuite}
    (h : Stands chain forkTree [emptyGenesisId, fastOne.id, fastTwo.id] fastTwo.id 2)
    (hpeer : Stands peer slowTree [emptyGenesisId, slowOne.id, slowTwo.id, slowThree.id]
      slowThree.id 3) (hidle : chain.Idle slowThree) :
    chain.Stalls peer ∧ NextFits chain peer := by
  have hnext : checkedAdd chain.activeHeight 1 = some 3 := by
    rw [h.height]
    rfl
  have hserved : peer.blockBytes 3 = some slowThree.encode := by
    have hentry : [emptyGenesisId, slowOne.id, slowTwo.id, slowThree.id][(3 : UInt64).toNat]? =
        some slowThree.id := rfl
    rw [blockBytes, hpeer.path, hentry, Option.bind_some, hpeer.tree, slowTree,
      FMap.lookup_insert_self, Option.map_some, slowThreeNode, encoded_nodeOver]
  refine ⟨⟨3, slowThree.encode, slowThree, hnext, hserved, decode_emptyBlock, hidle⟩, ?_⟩
  intro next bytes hnext' hbytes
  obtain rfl : next = 3 := Option.some.inj (hnext'.symm.trans hnext)
  obtain rfl : bytes = slowThree.encode := Option.some.inj (hbytes.symm.trans hserved)
  rw [slowThree, length_emptyBlock]
  decide

/-- A fork of equal work on which neither loop ends. -/
theorem endless_fork :
    ∃ chain peer : Blockchain rootlessSuite, Reachable 1 [] [] 1 chain ∧ Reachable 1 [] [] 1 peer ∧
      (∀ fuel, Net.syncFrom peer fuel chain = none) ∧
      ∀ fuel, syncFromPeer (servedBy peer) fuel none chain = none := by
  obtain ⟨chain, h, hidle⟩ := exists_forked
  obtain ⟨peer, hpeer⟩ := exists_slow
  obtain ⟨hstalls, hfits⟩ := forked_stalls h hpeer hidle
  obtain ⟨genesis, hgenesis, w, hw⟩ := tracks_of_reachable hpeer.reach
  refine ⟨chain, peer, h.reach, hpeer.reach, fun fuel ↦ ?_, fun fuel ↦ ?_⟩
  · exact Net.syncFrom_eq_none ⟨w, hw⟩ (genesisOf_height hgenesis) hstalls fuel
  · exact syncFromPeer_eq_none ⟨w, hw⟩ hstalls hfits fuel

/-- A new node catches up with a peer on the slow branch in finitely many requests. -/
theorem sync_ends_slow :
    ∃ chain peer : Blockchain rootlessSuite, peer.activeHeight = 3 ∧
      (∃ fuel, (Net.syncFrom peer fuel chain).isSome) ∧
      ∃ fuel, (syncFromPeer (servedBy peer) fuel none chain).isSome := by
  obtain ⟨chain, h⟩ := exists_stands_start
  obtain ⟨peer, hpeer⟩ := exists_slow
  obtain ⟨⟨-, -, g1, g2, g3⟩, -⟩ := fork_ids
  have hgenesis : slowTree[emptyGenesisId]? = some emptyGenesis := by
    rw [slowTree, FMap.lookup_insert, if_neg g3, FMap.lookup_insert, if_neg g2,
      FMap.lookup_insert, if_neg g1]
    exact FMap.lookup_insert_self ..
  have hshares : chain.ShareHeaders peer := by
    intro id node node' hnode hnode'
    rw [h.tree, FMap.lookup_insert, FMap.lookup_empty] at hnode
    obtain ⟨rfl, heq⟩ := Option.ite_none_right_eq_some.mp hnode
    rw [hpeer.tree, hgenesis] at hnode'
    rw [← Option.some.inj heq, ← Option.some.inj hnode']
  have hstalls : ¬ chain.Stalls peer := by
    obtain ⟨genesis, hgenesis, v, hv⟩ := tracks_of_reachable h.reach
    obtain ⟨genesis', hgenesis', w, hw⟩ := tracks_of_reachable hpeer.reach
    obtain rfl : genesis = genesis' := Option.some.inj (hgenesis.symm.trans hgenesis')
    have hsyncing : Syncing genesis chain peer :=
      ⟨genesisOf_height hgenesis, ⟨v, hv⟩, ⟨w, hw⟩, hshares⟩
    apply hsyncing.not_stalls
    constructor
    rw [h.height, h.tip, hpeer.path]
    rfl
  obtain ⟨hplain, hframed⟩ := sync_ends_iff h.reach hpeer.reach hshares
  exact ⟨chain, peer, hpeer.height, hplain.mpr hstalls,
    hframed.mpr fun hboth ↦ hstalls hboth.1⟩

end Latebra.P2p
