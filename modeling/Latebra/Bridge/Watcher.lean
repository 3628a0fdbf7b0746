import Latebra.Chain.BranchHistory
import Latebra.P2p.Replies
import Latebra.P2p.Sync

/-!
# Watching the Latebra leg

The counterparty of a swap shows the secret by claiming the Latebra leg, and the watcher reads it off
the chain: it asks a node for the lock, and when the lock is gone it scans the newest blocks for the
claim. `PreimageWatch.poll` turns one observation into an action, and `NodeObserver` observes over
RPC.

`watch_exact` says what a poll returns against a node whose chain stands still, in terms of the blocks
of its active branch: the secret exactly when a block of the window claims the lock and fits a
message, and the secret always opens the lock. A lock that was never there looks like one that was
refunded, and so does a claim below the window.
-/

set_option autoImplicit false
set_option relaxedAutoImplicit false

namespace Latebra.Bridge

open Foundation Crypto Latebra.Types State Latebra.Chain P2p

/-! ### The watcher -/

/-- `LatLegState`. -/
inductive LatLegState where
  /-- The node did not answer. -/
  | absent
  | opened
  | claimed (preimage : Bytes32)
  /-- The lock is not there, and no claim was seen. -/
  | goneUnclaimed
deriving DecidableEq

/-- `LatObserver`. -/
structure LatObserver where
  latLeg : Bytes32 → LatLegState
  height : UInt64

/-- `WatchResult`. -/
inductive WatchResult where
  | pending
  | revealed (preimage : Bytes32)
  | refundReady
  | badPreimage
deriving DecidableEq

/-- `PreimageWatch`. -/
structure PreimageWatch where
  htlcId : Bytes32
  hashlock : Bytes32
  expiry : UInt64

/-- `PreimageWatch::poll`. -/
def PreimageWatch.poll (sha256 : Bytes → Bytes32) (w : PreimageWatch) (obs : LatObserver) :
    WatchResult :=
  match obs.latLeg w.htlcId with
  | .claimed preimage =>
    if sha256 (bytesOf32 preimage) = w.hashlock then .revealed preimage else .badPreimage
  | .goneUnclaimed => .refundReady
  | .opened => if w.expiry ≤ obs.height then .refundReady else .pending
  | .absent => .pending

/-! ### The node behind it -/

section Client

variable {S : ChainSuite}

/-- A call to a node: its reply, or why there is none. -/
abbrev Rpc := Msg → Except IoError Msg

/-- `get_height`. -/
def getHeight (rpc : Rpc) : Except IoError UInt64 :=
  match rpc .getTip with
  | .error e => .error e
  | .ok (.tip height) => .ok height
  | .ok _ => .error (.invalidData "expected tip")

/-- `get_block`. -/
def getBlock (rpc : Rpc) (height : UInt64) : Except IoError (Option Bytes) :=
  match rpc (.getBlock height) with
  | .error e => .error e
  | .ok (.block block) => .ok block
  | .ok _ => .error (.invalidData "expected block")

/-- `get_htlc`. -/
def getHtlc (rpc : Rpc) (id : Bytes32) : Except IoError (Option Htlc) :=
  match rpc (.getHtlc id) with
  | .error e => .error e
  | .ok (.htlcReply lock) => .ok lock
  | .ok _ => .error (.invalidData "expected htlc")

/-- Calls to a node whose chain stands still. Each call has a connection of its own. -/
def rpcOf (chain : Blockchain S) : Rpc := fun m ↦ (servedBy chain none m).map Prod.fst

/-- `NodeObserver`. -/
structure NodeObserver where
  rpc : Rpc
  scanWindow : UInt64

/-- The preimage of the first claim of a lock in a block. -/
def claimIn (id : Bytes32) (block : Block S) : Option Bytes32 :=
  block.txs.findSome? fun tx ↦
    match tx with
    | .htlcClaim claimed preimage => if claimed = id then some preimage else none
    | _ => none

/-- The claim of a lock in the block at a height, if the block can be had and read. -/
def claimAt (S : ChainSuite) (rpc : Rpc) (id : Bytes32) (height : ℕ) : Option Bytes32 :=
  match getBlock rpc (UInt64.ofNat height) with
  | .ok (some bytes) => (Block.decode bytes : Option (Block S)).bind (claimIn id)
  | _ => none

/-- The heights from one to another, the last one first. -/
def heightsDown (start last : ℕ) : List ℕ := (List.range' start (last + 1 - start)).reverse

namespace NodeObserver

/-- `NodeObserver::find_claim`. -/
def findClaim (S : ChainSuite) (obs : NodeObserver) (id : Bytes32) (height : UInt64) :
    Option Bytes32 :=
  (heightsDown (height.toNat - obs.scanWindow.toNat) height.toNat).findSome?
    (claimAt S obs.rpc id)

/-- `LatObserver::height` of a `NodeObserver`. -/
def height (obs : NodeObserver) : UInt64 :=
  match getHeight obs.rpc with
  | .ok height => height
  | .error _ => 0

/-- `LatObserver::lat_leg` of a `NodeObserver`. -/
def latLeg (S : ChainSuite) (obs : NodeObserver) (id : Bytes32) : LatLegState :=
  match getHtlc obs.rpc id with
  | .ok (some _) => .opened
  | .ok none =>
    match obs.findClaim S id obs.height with
    | some preimage => .claimed preimage
    | none => .goneUnclaimed
  | .error _ => .absent

/-- What the observer shows to the watcher. -/
def observer (S : ChainSuite) (obs : NodeObserver) : LatObserver := ⟨obs.latLeg S, obs.height⟩

end NodeObserver

/-! ### One poll -/

section Poll

variable {sha256 : Bytes → Bytes32} {w : PreimageWatch} {obs : NodeObserver} {preimage : Bytes32}

theorem poll_of_open {escrow : Htlc} (hopen : getHtlc obs.rpc w.htlcId = .ok (some escrow)) :
    w.poll sha256 (obs.observer S) =
      if w.expiry ≤ obs.height then .refundReady else .pending := by
  have hleg : obs.latLeg S w.htlcId = .opened := by
    unfold NodeObserver.latLeg
    rw [hopen]
  unfold PreimageWatch.poll
  dsimp only [NodeObserver.observer]
  rw [hleg]
  rfl

theorem poll_of_found (hgone : getHtlc obs.rpc w.htlcId = .ok none)
    (hfound : obs.findClaim S w.htlcId obs.height = some preimage)
    (hpreimage : sha256 (bytesOf32 preimage) = w.hashlock) :
    w.poll sha256 (obs.observer S) = .revealed preimage := by
  have hleg : obs.latLeg S w.htlcId = .claimed preimage := by
    unfold NodeObserver.latLeg
    rw [hgone]
    dsimp only
    rw [hfound]
  unfold PreimageWatch.poll
  dsimp only [NodeObserver.observer]
  rw [hleg]
  exact if_pos hpreimage

theorem poll_of_missed (hgone : getHtlc obs.rpc w.htlcId = .ok none)
    (hmissed : obs.findClaim S w.htlcId obs.height = none) :
    w.poll sha256 (obs.observer S) = .refundReady := by
  have hleg : obs.latLeg S w.htlcId = .goneUnclaimed := by
    unfold NodeObserver.latLeg
    rw [hgone]
    dsimp only
    rw [hmissed]
  unfold PreimageWatch.poll
  dsimp only [NodeObserver.observer]
  rw [hleg]

end Poll

/-! ### What the node answers -/

variable {chain : Blockchain S} {id : Bytes32}

theorem getHeight_rpcOf : getHeight (rpcOf chain) = .ok chain.activeHeight := by
  unfold getHeight rpcOf
  rw [servedBy_getTip]
  rfl

theorem answer_getHtlc (hL : chain.activeState.WellFormed) (id : Bytes32) :
    answer chain none (.getHtlc id) =
      some (.htlcReply (chain.activeState.view.htlc id), none) := by
  obtain ⟨program, hquery⟩ : ∃ program, query (S := S) (.getHtlc id) = some program := ⟨_, rfl⟩
  obtain ⟨houtcome, -, -⟩ := Ledger.run_view hL program
  have hread : (program.run LedgerState.handler chain.activeState.view).1 =
      .ok (.htlcReply (chain.activeState.view.htlc id)) := by
    rw [← Option.some.inj hquery]
    rfl
  rw [hread] at houtcome
  rw [answer_of_query hquery]
  split
  · next reply L hrun =>
    rw [hrun] at houtcome
    rw [Outcome.ok.inj houtcome]
  · next hother => exact (hother _ _ (Prod.ext houtcome rfl)).elim

theorem getHtlc_rpcOf (hL : chain.activeState.WellFormed) (id : Bytes32) :
    getHtlc (rpcOf chain) id = .ok (chain.activeState.view.htlc id) := by
  have hmax : 200 ≤ MAX_MSG_BYTES := by decide
  have hrequest : deliver (.getHtlc id) = .ok (.getHtlc id) :=
    deliver_short trivial (by simp [Msg.encode])
  have hreply : deliver (.htlcReply (chain.activeState.view.htlc id)) =
      .ok (.htlcReply (chain.activeState.view.htlc id)) := by
    refine (deliver_eq_ok (m := .htlcReply (chain.activeState.view.htlc id)) trivial).mpr
      ⟨rfl, le_trans ?_ hmax⟩
    cases chain.activeState.view.htlc id <;> simp [Msg.encode, Msg.encodeOption, Msg.encodeHtlc]
  unfold getHtlc rpcOf
  rw [servedBy_eq hrequest (answer_getHtlc hL id), hreply]
  rfl

/-- The bytes of a block come back exactly if they fit a message. -/
theorem getBlock_rpcOf (height : UInt64) {bytes : Bytes} :
    getBlock (rpcOf chain) height = .ok (some bytes) ↔
      chain.blockBytes height = some bytes ∧ bytes.length + 2 ≤ MAX_MSG_BYTES := by
  unfold getBlock rpcOf
  constructor
  · intro hread
    split at hread
    · exact absurd hread (by simp)
    · next block hserved =>
      obtain rfl := Except.ok.inj hread
      cases hreply : servedBy chain none (.getBlock height) with
      | error e =>
        rw [hreply] at hserved
        exact absurd hserved (by simp [Except.map])
      | ok found =>
        obtain ⟨m, chunks⟩ := found
        rw [hreply] at hserved
        obtain rfl : m = .block (some bytes) := Except.ok.inj hserved
        exact servedBy_eq_block hreply
    · exact absurd hread (by simp)
  · rintro ⟨hbytes, hfits⟩
    rw [servedBy_block hbytes hfits]
    rfl

/-! ### The scan -/

theorem mem_heightsDown {start last n : ℕ} : n ∈ heightsDown start last ↔ start ≤ n ∧ n ≤ last := by
  rw [heightsDown, List.mem_reverse, List.mem_range'_1]
  omega

theorem claimIn_eq_some {block : Block S} {preimage : Bytes32}
    (hclaim : claimIn id block = some preimage) :
    (.htlcClaim id preimage : Transaction S.toCryptoSuite) ∈ block.txs := by
  obtain ⟨tx, htx, hfound⟩ := List.exists_of_findSome?_eq_some hclaim
  split at hfound
  · next claimed shown =>
    obtain ⟨rfl, hshown⟩ := Option.ite_none_right_eq_some.mp hfound
    rwa [← Option.some.inj hshown]
  · exact absurd hfound (by simp)

theorem exists_claimIn {block : Block S} {preimage : Bytes32}
    (htx : (.htlcClaim id preimage : Transaction S.toCryptoSuite) ∈ block.txs) :
    ∃ shown, claimIn id block = some shown := by
  rw [← Option.isSome_iff_exists, claimIn, List.findSome?_isSome_iff]
  exact ⟨_, htx, by simp⟩

section Scan

variable {start : Ledger S.toCryptoSuite} {branch : List (Block S)} {genesis : TreeNode}
  {v : (blockRules S genesis).View} {preimage : Bytes32}

/-- What the scan can find at a height: a claim in the block of the active branch there. -/
theorem claimAt_rpcOf (htracks : Tracks chain v) (hzero : genesis.height = 0)
    (hgenesis : ∃ header : BlockHeader, genesis.encoded = (⟨header, []⟩ : Block S).encode)
    (hfollows : chain.Follows start branch)
    (hwire : ∀ block ∈ branch, Block.decode block.encode = some block) {height : ℕ}
    (hheight : height < 2 ^ 64) :
    claimAt S (rpcOf chain) id height = some preimage ↔
      ∃ block ∈ branch, block.header.height.toNat = height ∧
        block.encode.length + 2 ≤ MAX_MSG_BYTES ∧ claimIn id block = some preimage := by
  have hword : (UInt64.ofNat height).toNat = height := UInt64.toNat_ofNat_of_lt' hheight
  constructor
  · intro hclaim
    unfold claimAt at hclaim
    split at hclaim
    · next bytes hread =>
      obtain ⟨block, hdecode, hin⟩ := Option.bind_eq_some_iff.mp hclaim
      obtain ⟨hbytes, hfits⟩ := (getBlock_rpcOf _).mp hread
      rcases htracks.served_cases hfollows hbytes with ⟨-, rfl⟩ | ⟨served, older, hsuffix, hlength⟩
      · obtain ⟨header, hheader⟩ := hgenesis
        have hempty : Block.decode genesis.encoded = some (⟨header, []⟩ : Block S) :=
          Block.decode_eq_some.mpr ⟨⟨by simp, by simp⟩, hheader.symm⟩
        rw [← Option.some.inj (hempty.symm.trans hdecode)] at hin
        exact absurd hin (by simp [claimIn])
      · have hmem : served ∈ branch := hsuffix.subset List.mem_cons_self
        obtain ⟨hposition, hserved⟩ := htracks.served hzero hfollows hsuffix
        have hsame : served.header.height = UInt64.ofNat height :=
          UInt64.toNat_inj.mp (hposition.trans hlength)
        rw [hsame, hbytes] at hserved
        obtain rfl := Option.some.inj hserved
        obtain rfl := Option.some.inj (hdecode.symm.trans (hwire served hmem))
        exact ⟨block, hmem, by rw [hposition, hlength, hword], hfits, hin⟩
    · exact absurd hclaim (by simp)
  · rintro ⟨block, hmem, rfl, hfits, hin⟩
    obtain ⟨newer, older, rfl⟩ := List.append_of_mem hmem
    obtain ⟨-, hserved⟩ := htracks.served hzero hfollows (List.suffix_append newer (block :: older))
    rw [← UInt64.toNat_inj.mp hword] at hserved
    unfold claimAt
    rw [(getBlock_rpcOf _).mpr ⟨hserved, hfits⟩]
    dsimp only
    rw [hwire block hmem, Option.bind_some, hin]

/-- The scan finds nothing but claims of scanned blocks that fit a message. -/
theorem findClaim_sound (htracks : Tracks chain v) (hzero : genesis.height = 0)
    (hgenesis : ∃ header : BlockHeader, genesis.encoded = (⟨header, []⟩ : Block S).encode)
    (hfollows : chain.Follows start branch)
    (hwire : ∀ block ∈ branch, Block.decode block.encode = some block) {window : UInt64}
    (hfound : (NodeObserver.mk (rpcOf chain) window).findClaim S id chain.activeHeight =
      some preimage) :
    ∃ block ∈ branch, (.htlcClaim id preimage : Transaction S.toCryptoSuite) ∈ block.txs ∧
      chain.activeHeight.toNat - window.toNat ≤ block.header.height.toNat ∧
        block.encode.length + 2 ≤ MAX_MSG_BYTES := by
  obtain ⟨height, hmem, hclaim⟩ := List.exists_of_findSome?_eq_some hfound
  obtain ⟨hlow, hhigh⟩ := mem_heightsDown.mp hmem
  have hsmall : height < 2 ^ 64 := lt_of_le_of_lt hhigh chain.activeHeight.toNat_lt
  obtain ⟨block, hblock, rfl, hfits, hin⟩ :=
    (claimAt_rpcOf htracks hzero hgenesis hfollows hwire hsmall).mp hclaim
  exact ⟨block, hblock, claimIn_eq_some hin, hlow, hfits⟩

/-- The scan finds a claim when one is to be found. -/
theorem findClaim_complete (htracks : Tracks chain v) (hzero : genesis.height = 0)
    (hgenesis : ∃ header : BlockHeader, genesis.encoded = (⟨header, []⟩ : Block S).encode)
    (hfollows : chain.Follows start branch)
    (hwire : ∀ block ∈ branch, Block.decode block.encode = some block) {window : UInt64}
    {block : Block S} (hblock : block ∈ branch)
    (htx : (.htlcClaim id preimage : Transaction S.toCryptoSuite) ∈ block.txs)
    (hlow : chain.activeHeight.toNat - window.toNat ≤ block.header.height.toNat)
    (hfits : block.encode.length + 2 ≤ MAX_MSG_BYTES) :
    ∃ shown, (NodeObserver.mk (rpcOf chain) window).findClaim S id chain.activeHeight =
      some shown := by
  obtain ⟨newer, older, rfl⟩ := List.append_of_mem hblock
  obtain ⟨-, hserved⟩ := htracks.served hzero hfollows (List.suffix_append newer (block :: older))
  have hhigh := htracks.le_of_blockBytes hserved
  obtain ⟨shown, hin⟩ := exists_claimIn htx
  have hclaim : claimAt S (rpcOf chain) id block.header.height.toNat = some shown :=
    (claimAt_rpcOf htracks hzero hgenesis hfollows hwire block.header.height.toNat_lt).mpr
      ⟨block, hblock, rfl, hfits, hin⟩
  rw [← Option.isSome_iff_exists, NodeObserver.findClaim, List.findSome?_isSome_iff]
  refine ⟨_, mem_heightsDown.mpr ⟨hlow, hhigh⟩, ?_⟩
  rw [hclaim]
  rfl

/-- What an escrow of the active branch has come to. -/
theorem escrow_of_branch (hfollows : chain.Follows start branch) {terms : LockTerms}
    (hfree : ∀ block ∈ branch, ∀ tx ∈ block.txs, ∀ other, lockTermsOf tx = some other →
      other.id S.toCryptoSuite = terms.id S.toCryptoSuite → other = terms) :
    LedgerState.EscrowStory terms
      (LedgerState.aboutEscrow (terms.id S.toCryptoSuite) (branchEntries branch))
      (chain.activeState.view.htlc (terms.id S.toCryptoSuite)) := by
  obtain ⟨-, s, happlies, hview⟩ := hfollows.applies
  rw [hview]
  apply happlies.escrow_story (htlc_genesisState hfollows.genesis _)
  intro entry hentry other hlock hsame
  obtain ⟨block, hblock, htx⟩ := mem_branchEntries.mp hentry
  exact hfree block hblock entry.1 htx.1 other hlock hsame

variable {workers : ℕ} {premine publicPremine : List (Bytes32 × UInt64)} {difficulty : UInt64}

/-- What a poll of the Latebra leg returns, against a node whose chain stands still and whose blocks
came over the wire. While the lock is open the watcher waits, and from the expiry on it says to
refund. When the lock is not there, the watcher has the secret exactly if one of the scanned blocks
of the active branch claims the lock and fits a message, and says to refund otherwise. Every claim on
the branch opens the hashlock and came before the expiry, so no poll ever returns a bad preimage. -/
theorem watch_exact
    (hreach : Blockchain.Reachable workers premine publicPremine difficulty chain)
    (hfollows : chain.Follows start branch)
    (hwire : ∀ block ∈ branch, Block.decode block.encode = some block) {terms : LockTerms}
    (hfree : ∀ block ∈ branch, ∀ tx ∈ block.txs, ∀ other, lockTermsOf tx = some other →
      other.id S.toCryptoSuite = terms.id S.toCryptoSuite → other = terms)
    (window : UInt64) :
    let result := PreimageWatch.poll S.sha256 ⟨terms.id S.toCryptoSuite, terms.hashlock, terms.expiry⟩
      (NodeObserver.observer S ⟨rpcOf chain, window⟩)
    (∀ escrow, chain.activeState.view.htlc (terms.id S.toCryptoSuite) = some escrow →
      escrow = terms.escrow ∧
        result = if terms.expiry ≤ chain.activeHeight then .refundReady else .pending) ∧
    (chain.activeState.view.htlc (terms.id S.toCryptoSuite) = none →
      (∀ preimage, result = .revealed preimage ↔ ∃ block ∈ branch,
        (.htlcClaim (terms.id S.toCryptoSuite) preimage : Transaction S.toCryptoSuite) ∈ block.txs ∧
          chain.activeHeight.toNat - window.toNat ≤ block.header.height.toNat ∧
          block.encode.length + 2 ≤ MAX_MSG_BYTES) ∧
      ((∃ preimage, result = .revealed preimage) ∨ result = .refundReady)) ∧
    ∀ block ∈ branch, ∀ preimage,
      (.htlcClaim (terms.id S.toCryptoSuite) preimage : Transaction S.toCryptoSuite) ∈ block.txs →
        S.sha256 (bytesOf32 preimage) = terms.hashlock ∧ block.header.height < terms.expiry := by
  intro result
  obtain ⟨genesis, hgenesis, v, htracks⟩ := tracks_of_reachable hreach
  have hempty : ∃ header : BlockHeader, genesis.encoded = (⟨header, []⟩ : Block S).encode := by
    obtain ⟨answer, -, rfl⟩ := Option.map_eq_some_iff.mp hgenesis
    exact ⟨_, rfl⟩
  have hformed := (grounded_of_reachable hreach).formed
  have hstory := escrow_of_branch hfollows hfree
  have hclaims : ∀ block ∈ branch, ∀ preimage,
      (.htlcClaim (terms.id S.toCryptoSuite) preimage : Transaction S.toCryptoSuite) ∈ block.txs →
        (.htlcClaim (terms.id S.toCryptoSuite) preimage, block.header.height) ∈
          LedgerState.aboutEscrow (terms.id S.toCryptoSuite) (branchEntries branch) := by
    intro block hblock preimage htx
    refine List.mem_filter.mpr ⟨mem_branchEntries.mpr ⟨block, hblock, htx, rfl⟩, ?_⟩
    simp [releases]
  have hvalid : ∀ block ∈ branch, ∀ preimage,
      (.htlcClaim (terms.id S.toCryptoSuite) preimage : Transaction S.toCryptoSuite) ∈ block.txs →
        S.sha256 (bytesOf32 preimage) = terms.hashlock ∧ block.header.height < terms.expiry := by
    intro block hblock preimage htx
    obtain ⟨-, hearly, hpreimage, -⟩ := hstory.of_claim (hclaims block hblock preimage htx)
    exact ⟨hpreimage, hearly⟩
  have hheight : (NodeObserver.mk (rpcOf chain) window).height = chain.activeHeight := by
    unfold NodeObserver.height
    rw [getHeight_rpcOf]
  refine ⟨fun escrow hopen ↦ ?_, fun hnone ↦ ?_, hvalid⟩
  · rw [hopen] at hstory
    refine ⟨hstory.of_some, ?_⟩
    rw [← hheight]
    have hread : getHtlc (rpcOf chain) (terms.id S.toCryptoSuite) = .ok (some escrow) := by
      rw [← hopen]
      exact getHtlc_rpcOf hformed _
    exact poll_of_open hread
  · have hgone : getHtlc (rpcOf chain) (terms.id S.toCryptoSuite) = .ok none := by
      rw [← hnone]
      exact getHtlc_rpcOf hformed _
    cases hfind : (NodeObserver.mk (rpcOf chain) window).findClaim S (terms.id S.toCryptoSuite)
      chain.activeHeight with
    | none =>
      have hresult : result = .refundReady := by
        apply poll_of_missed hgone
        rw [hheight]
        exact hfind
      refine ⟨fun preimage ↦ ⟨fun hrevealed ↦ ?_, ?_⟩, .inr hresult⟩
      · exact absurd (hresult.symm.trans hrevealed) (by simp)
      · rintro ⟨block, hblock, htx, hlow, hfits⟩
        obtain ⟨shown, hshown⟩ := findClaim_complete htracks (genesisOf_height hgenesis) hempty
          hfollows hwire hblock htx hlow hfits
        exact absurd (hfind.symm.trans hshown) (by simp)
    | some shown =>
      obtain ⟨block, hblock, htx, hlow, hfits⟩ := findClaim_sound htracks
        (genesisOf_height hgenesis) hempty hfollows hwire hfind
      have hresult : result = .revealed shown := by
        apply poll_of_found hgone
        · rw [hheight]
          exact hfind
        · exact (hvalid block hblock shown htx).1
      refine ⟨fun preimage ↦ ⟨fun hrevealed ↦ ?_, ?_⟩, .inl ⟨shown, hresult⟩⟩
      · obtain rfl := WatchResult.revealed.inj (hresult.symm.trans hrevealed)
        exact ⟨block, hblock, htx, hlow, hfits⟩
      · rintro ⟨other, hother, hclaimed, -, -⟩
        obtain ⟨-, -, -, honly⟩ := hstory.of_claim (hclaims block hblock shown htx)
        rw [hresult, honly preimage _ (hclaims other hother preimage hclaimed)]

end Scan

end Client

/-! ### A claim that is found -/

/-- The first block over the genesis ledger of the staker: the staker locks a payment, and the secret
that claims it follows in the same block. -/
def claimBlock : Block rootlessSuite :=
  let txs := [Ledger.paymentTerms.lockTx 1000 5,
    .htlcClaim (Ledger.paymentTerms.id rootlessSuite.toCryptoSuite) 9]
  ⟨⟨(Blockchain.genesisHeader 0).id rootlessSuite, 1, GENESIS_TIMESTAMP, txRoot rootlessSuite txs, 0,
    0, 0⟩, txs⟩

theorem claimBlock_facts :
    (claimBlock.program.run LedgerState.handler stakerObjects).1 = .ok () ∧
    (childNode (Blockchain.genesisNode rootlessSuite 0 1) claimBlock).isSome ∧
    claimBlock.id ≠ (Blockchain.genesisHeader 0).id rootlessSuite ∧
    ((claimBlock.program.run LedgerState.handler stakerObjects).2.htlc
      (Ledger.paymentTerms.id rootlessSuite.toCryptoSuite)).isNone ∧
    claimBlock.encode.length + 2 ≤ MAX_MSG_BYTES ∧
    ∀ tx ∈ claimBlock.txs, tx.encode.length < 2 ^ 32 := by
  decide +kernel

theorem decode_claimBlock : Block.decode claimBlock.encode = some claimBlock := by
  obtain ⟨-, -, -, -, -, hlengths⟩ := claimBlock_facts
  refine Block.decode_encode ⟨by decide, fun tx htx ↦ ⟨?_, hlengths tx htx⟩⟩
  rcases List.mem_cons.mp htx with rfl | hrest
  · trivial
  · rw [List.mem_singleton.mp hrest]
    trivial

/-- The lock of the block is opened and claimed on the branch, and the poll reveals its secret. -/
theorem watch_exact_claimed : ∃ chain : Blockchain rootlessSuite,
    Blockchain.Reachable 1 [] stakerPremine 1 chain ∧ chain.Follows stakerGenesis [claimBlock] ∧
      PreimageWatch.poll rootlessSuite.sha256
        ⟨Ledger.paymentTerms.id rootlessSuite.toCryptoSuite, Ledger.paymentTerms.hashlock,
          Ledger.paymentTerms.expiry⟩
        (NodeObserver.observer rootlessSuite ⟨rpcOf chain, 1024⟩) = .revealed 9 := by
  obtain ⟨hok, hchild, hother, hclosed, hfits, -⟩ := claimBlock_facts
  have hruns := LedgerState.runs_of_ok hok
  generalize (claimBlock.program.run LedgerState.handler stakerObjects).2 = claimed at hruns hclosed
  obtain ⟨node, hnode⟩ := Option.isSome_iff_exists.mp hchild
  obtain ⟨chain, hreach, hfollows, -, -, hheight, hview⟩ :=
    @exists_first _ 1 _ _ 1 (fun _ ↦ rfl) rootlessSuite_collisionFree _ genesisState_staker _ _ hnode
      rfl hother rfl rfl _ hruns
  have hnone : chain.activeState.view.htlc
      (Ledger.paymentTerms.id rootlessSuite.toCryptoSuite) = none := by
    rw [hview]
    exact Option.isNone_iff_eq_none.mp hclosed
  have hwire : ∀ block ∈ [claimBlock], Block.decode block.encode = some block := by
    rw [List.forall_mem_singleton]
    exact decode_claimBlock
  have hfree : ∀ block ∈ [claimBlock], ∀ tx ∈ block.txs, ∀ other, lockTermsOf tx = some other →
      other.id rootlessSuite.toCryptoSuite = Ledger.paymentTerms.id rootlessSuite.toCryptoSuite →
        other = Ledger.paymentTerms := by
    rw [List.forall_mem_singleton]
    intro tx htx other hterms _
    rcases List.mem_cons.mp htx with rfl | hrest
    · exact (Option.some.inj hterms).symm
    · rw [List.mem_singleton.mp hrest] at hterms
      exact absurd hterms (by simp [lockTermsOf])
  obtain ⟨-, hgone, -⟩ := watch_exact hreach hfollows hwire hfree 1024
  obtain ⟨hrevealed, -⟩ := hgone hnone
  refine ⟨chain, hreach, hfollows, (hrevealed 9).mpr ⟨claimBlock, List.mem_cons_self, ?_, ?_, hfits⟩⟩
  · exact .tail _ (.head _)
  · rw [hheight]
    exact Nat.zero_le _

end Latebra.Bridge
