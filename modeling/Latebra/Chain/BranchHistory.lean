import Latebra.Chain.ActiveBranch
import Latebra.State.AppliedHistory

/-!
# The transactions of the active branch

The blocks of the active branch, from genesis on, make one history of transactions: those of the
first block at its height, then those of the next. `Replays.applies` says that the ledger of the
branch is what these transactions lead to, each of them applied. So what a history keeps is kept on
the active branch of every chain, reorganizations included: `active_branch_replay_free` states it for
what protects from replays.
-/

set_option autoImplicit false
set_option relaxedAutoImplicit false

namespace Latebra.State.Ledger

open Foundation Crypto Latebra.Types

variable {C : CryptoSuite} {L M : Ledger C}

/-- Ledgers with the same objects differ in their flags at most. -/
theorem AgreeOn.view_eq (h : AgreeOn objectArea L M) :
    L.view = { M.view with dirty := L.view.dirty } := by
  have hrecord : L.record = M.record := by
    funext key
    exact Sum.inl.inj (h.agree (.record key.bytes) fun _ ↦ by simp)
  have hnext : L.nextTokenId = M.nextTokenId :=
    nextTokenId_eq_of_observe (h.agree .nextTokenId fun _ ↦ by simp)
  simp only [view, LedgerState.ofRecords, hrecord, hnext]

end Latebra.State.Ledger

namespace Latebra.Chain

open Foundation Crypto Latebra.Types State

variable {S : ChainSuite}

/-- The transactions of a block, with its height. -/
def Block.entries (block : Block S) : List (Transaction S.toCryptoSuite × UInt64) :=
  block.txs.map fun tx ↦ (tx, block.header.height)

/-- The transactions of a branch in their order. The branch has its newest block first. -/
def branchEntries : List (Block S) → List (Transaction S.toCryptoSuite × UInt64)
  | [] => []
  | block :: below => branchEntries below ++ block.entries

theorem mem_branchEntries {branch : List (Block S)}
    {entry : Transaction S.toCryptoSuite × UInt64} : entry ∈ branchEntries branch ↔
      ∃ block ∈ branch, entry.1 ∈ block.txs ∧ entry.2 = block.header.height := by
  induction branch with
  | nil => simp [branchEntries]
  | cons block below ih =>
    have hentry : entry ∈ block.entries ↔ entry.1 ∈ block.txs ∧ entry.2 = block.header.height := by
      rw [Block.entries, List.mem_map]
      constructor
      · rintro ⟨tx, htx, rfl⟩
        exact ⟨htx, rfl⟩
      · rintro ⟨htx, hheight⟩
        exact ⟨entry.1, htx, Prod.ext rfl hheight.symm⟩
    rw [branchEntries, List.mem_append, ih, hentry, List.exists_mem_cons_iff, or_comm]

section Blocks

variable {start s s' : LedgerState S.toCryptoSuite} {miner : Bytes32} {height : UInt64}
  {done : List (Transaction S.toCryptoSuite × UInt64)}

/-- Paying out a list of fees goes on with a history. -/
theorem applies_forEach {fees : List (UInt32 × UInt64)}
    {pay : UInt32 × UInt64 → LedgerM S.toCryptoSuite Unit}
    (hpay : ∀ fee t t', LedgerState.Runs (pay fee) t () t' →
      ∃ op : LedgerOp S.toCryptoSuite, (∀ tx height, op ≠ .applyAt tx height) ∧
        Ledger.Performs t t' op)
    (hs : LedgerState.Applies start done s)
    (hrun : LedgerState.Runs (Program.forEach fees pay) s () s') :
    LedgerState.Applies start done s' := by
  refine Program.Returns.forEach_induction (LedgerState.Applies start done) ?_ hs hrun
  intro fee _ t t' ht hstep
  obtain ⟨op, hop, hperforms⟩ := hpay fee t t' hstep
  exact ht.other op hop hperforms

theorem applies_payMiner {txs : List (Transaction S.toCryptoSuite)}
    (hs : LedgerState.Applies start done s)
    (hrun : LedgerState.Runs (payMiner txs miner height) s () s') :
    LedgerState.Applies start done s' := by
  unfold payMiner at hrun
  split at hrun
  · obtain ⟨-, rfl⟩ := (Program.returns_pure ..).mp hrun
    exact hs
  · obtain ⟨_, s₂, hcoinbase, hfees⟩ := (Program.returns_bind ..).mp hrun
    obtain ⟨_, s₃, hconfidential, hpublic⟩ := (Program.returns_bind ..).mp hfees
    have hs₂ := hs.other (.rewardMiner miner LAT_TOKEN (emission height)) (by simp) hcoinbase
    have hs₃ := applies_forEach (fun fee t t' hpay ↦
      ⟨.rewardMiner miner fee.1 fee.2, by simp, hpay⟩) hs₂ hconfidential
    exact applies_forEach (fun fee t t' hpay ↦
      ⟨.creditPublic miner fee.1 fee.2, by simp, hpay⟩) hs₃ hpublic

theorem applies_txs {txs : List (Transaction S.toCryptoSuite)}
    (hs : LedgerState.Applies start done s)
    (hrun : LedgerState.Runs (Program.forEach txs (LedgerM.applyTx height)) s () s') :
    LedgerState.Applies start (done ++ txs.map fun tx ↦ (tx, height)) s' := by
  induction txs generalizing done s with
  | nil =>
    rw [Program.forEach_nil] at hrun
    obtain ⟨-, rfl⟩ := (Program.returns_pure ..).mp hrun
    rwa [List.map_nil, List.append_nil]
  | cons tx rest ih =>
    rw [Program.forEach_cons] at hrun
    obtain ⟨_, s₁, hfirst, hrest⟩ := (Program.returns_bind ..).mp hrun
    obtain ⟨t, hinner, rfl⟩ := LedgerState.runs_applyTx.mp hfirst
    rw [List.map_cons, List.append_cons]
    exact ih (hs.apply tx height hinner) hrest

/-- The step: a block goes on with the history by its transactions. -/
theorem applies_block {block : Block S} (hs : LedgerState.Applies start done s)
    (hrun : LedgerState.Runs block.program s () s') :
    LedgerState.Applies start (done ++ block.entries) s' := by
  obtain ⟨_, s₁, htxs, hpay⟩ := (Program.returns_bind ..).mp hrun
  exact applies_payMiner (applies_txs hs htxs) hpay

end Blocks

section Chains

variable {start L : Ledger S.toCryptoSuite} {branch : List (Block S)} {chain : Blockchain S}

/-- The run lemma: what the blocks of a branch lead to is what their transactions lead to. -/
theorem Replays.applies (hstart : start.WellFormed) (hreplay : Replays start branch L) :
    L.WellFormed ∧ LedgerState.Applies start.view (branchEntries branch) L.view := by
  induction hreplay with
  | start => exact ⟨hstart, .refl⟩
  | @block branch before after block _ hrun ih =>
    obtain ⟨hformed, happlies⟩ := ih
    obtain ⟨houtcome, hafter, hview⟩ := Ledger.run_view hformed block.program
    rw [show block.program.run Ledger.handler before = (.ok (), after) from hrun]
      at houtcome hafter hview
    refine ⟨hafter, applies_block happlies ?_⟩
    exact Prod.ext houtcome.symm hview.symm

/-- The history of the active branch, from the genesis ledger to the objects of the chain. -/
theorem Blockchain.Follows.applies (hfollows : chain.Follows start branch) :
    start.Reachable ∧ ∃ s, LedgerState.Applies start.view (branchEntries branch) s ∧
      chain.activeState.view = { s with dirty := chain.activeState.view.dirty } := by
  have hstart : start.Reachable := reachableBy_genesisState (fun _ _ _ ↦ trivial) hfollows.genesis
  obtain ⟨L, hreplay, hagree⟩ := hfollows.replay
  obtain ⟨-, happlies⟩ := hreplay.applies hstart.view.1
  exact ⟨hstart, L.view, happlies, hagree.symm.view_eq⟩

/-- Genesis opens no escrow. -/
theorem htlc_genesisState {premine publicPremine : List (Bytes32 × UInt64)}
    (hgenesis : Blockchain.genesisState premine publicPremine = some start) (id : Bytes32) :
    start.view.htlc id = none := by
  have hrun : Ledger.ReachableBy (fun _ op ↦ ∀ tx height, op ≠ .applyAt tx height) start := by
    apply reachableBy_genesisState _ hgenesis
    intro L op hop tx height heq
    rw [heq] at hop
    exact hop
  refine hrun.invariant .refl (fun s ↦ s.htlc id = none) ?_ ?_
  · rw [Ledger.view_new]
    rfl
  · intro M _ op s' hop hperforms hnone
    rw [LedgerState.performs_htlc_eq hop hperforms]
    exact hnone

/-! ### The blocks that are served -/

section Served

variable {genesis : TreeNode} {v : (blockRules S genesis).View} {block : Block S}
  {older : List (Block S)}

/-- The blocks of the active branch are served at their heights. -/
theorem Tracks.served (h : Tracks chain v) (hzero : genesis.height = 0)
    (hfollows : chain.Follows start branch) (hsuffix : block :: older <:+ branch) :
    block.header.height.toNat = older.length + 1 ∧
      chain.blockBytes block.header.height = some block.encode := by
  have hentry : chain.activeChain[older.length + 1]? = some block.id := by
    rw [hfollows.path, Blockchain.pathOver, List.reverse_append, List.reverse_singleton,
      List.singleton_append, h.genesisId, ← path_eq, TreeRules.path_getElem?_eq_some]
    exact ⟨block :: older, hsuffix, rfl, rfl⟩
  obtain ⟨node, hnode, hencoded, hheader⟩ :=
    hfollows.stored block (hsuffix.subset List.mem_cons_self)
  have hplace := hentry
  rw [h.active, TreeRules.path_getElem?_eq_some] at hplace
  obtain ⟨below, hbelow, hlength, htip⟩ := hplace
  have hknown := h.formed.suffix h.formed.active hbelow
  rw [htip] at hknown
  cases below with
  | nil => exact absurd hlength (by simp)
  | cons served rest =>
    obtain ⟨hserved, -, hheight⟩ := h.toHolds.header hknown hnode
    obtain ⟨marked, hmarked, hmark⟩ := h.node hnode
    obtain rfl := Option.some.inj (hknown.symm.trans hmarked)
    have hposition : block.header.height.toNat = older.length + 1 := by
      rw [← hheader, hserved, hheight, height_of_mark hzero hmark, hlength]
    refine ⟨hposition, ?_⟩
    rw [Blockchain.blockBytes, hposition, hentry, Option.bind_some, hnode, Option.map_some, hencoded]

/-- Above the blocks of the active branch nothing is served, and below them the genesis block. -/
theorem Tracks.served_cases (h : Tracks chain v) (hfollows : chain.Follows start branch)
    {height : UInt64} {bytes : Bytes} (hbytes : chain.blockBytes height = some bytes) :
    height = 0 ∧ bytes = genesis.encoded ∨
      ∃ block older, block :: older <:+ branch ∧ older.length + 1 = height.toNat := by
  obtain ⟨id, hid, hserved⟩ := Option.bind_eq_some_iff.mp hbytes
  obtain ⟨node, hnode, rfl⟩ := Option.map_eq_some_iff.mp hserved
  rw [hfollows.path, Blockchain.pathOver, List.reverse_append, List.reverse_singleton,
    List.singleton_append, h.genesisId, ← path_eq, TreeRules.path_getElem?_eq_some] at hid
  obtain ⟨below, hbelow, hlength, rfl⟩ := hid
  cases below with
  | nil =>
    refine .inl ⟨UInt64.toNat_inj.mp hlength.symm, ?_⟩
    have hroot : chain.tree[(blockRules S genesis).tip []]? = some genesis := by
      have hknown : v.known ((blockRules S genesis).tip []) = some [] := h.formed.root
      rw [h.tree, hknown]
      rfl
    rw [Option.some.inj (hnode.symm.trans hroot)]
  | cons block older => exact .inr ⟨block, older, hbelow, hlength⟩

end Served

/-- What is held does not depend on the flags. -/
theorem holds_of_view_eq {s t : LedgerState S.toCryptoSuite} {dirty : Set DirtyKey}
    (hsame : t = { s with dirty := dirty }) {used : Used} (h : s.Holds used) : t.Holds used := by
  rw [hsame]
  cases used <;> exact h

variable {workers : ℕ} {premine publicPremine : List (Bytes32 × UInt64)} {difficulty : UInt64}

/-- Nothing is used up twice on the active branch of a chain, whatever reorganizations it has been
through: no account is registered twice on it, no nonce spent twice, no nullifier, ticker or contract
address taken twice. And a transaction that would use up one of these again does not apply to the
ledger of the chain, at any height. -/
theorem active_branch_replay_free
    (hreach : Blockchain.Reachable workers premine publicPremine difficulty chain) :
    ∃ start branch, chain.Follows start branch ∧
      ((branchEntries branch).filterMap fun entry ↦ usedBy entry.1).Nodup ∧
      ∀ entry ∈ branchEntries branch, ∀ tx : Transaction S.toCryptoSuite,
        usedBy tx = usedBy entry.1 → usedBy tx ≠ none →
          ∀ height, (chain.activeState.applyAt tx height).1 ≠ .ok () := by
  obtain ⟨start, branch, hfollows⟩ := follows_of_reachable hreach
  obtain ⟨-, s, happlies, hview⟩ := hfollows.applies
  obtain ⟨hnodup, hheld⟩ := happlies.used_once
  refine ⟨start, branch, hfollows, hnodup, ?_⟩
  intro entry hentry tx hsame hsome height hok
  obtain ⟨used, hused⟩ := Option.ne_none_iff_exists'.mp hsome
  have hmem : used ∈ (branchEntries branch).filterMap fun entry ↦ usedBy entry.1 :=
    List.mem_filterMap.mpr ⟨entry, hentry, hsame.symm.trans hused⟩
  have hformed := (grounded_of_reachable hreach).formed
  have happlied : chain.activeState.applyAt tx height =
      (.ok (), (chain.activeState.applyAt tx height).2) := Prod.ext hok rfl
  obtain ⟨-, s', hrun, -⟩ := hformed.applyAt_ok happlied
  exact (LedgerState.holds_of_applyInner hused hrun).1 (holds_of_view_eq hview (hheld used hmem))

/-- A node that has applied a block with a stake. -/
theorem active_branch_replay_free_staked : ∃ (chain : Blockchain rootlessSuite)
    (start : Ledger rootlessSuite.toCryptoSuite) (branch : List (Block rootlessSuite)),
    chain.activeChain[1]? = some stakeBlock.id ∧ chain.Follows start branch ∧
      ((branchEntries branch).filterMap fun entry ↦ usedBy entry.1).Nodup := by
  obtain ⟨chain, hreach, hentry, -⟩ := exists_staked
  obtain ⟨start, branch, hfollows, hnodup, -⟩ := active_branch_replay_free hreach
  exact ⟨chain, start, branch, hentry, hfollows, hnodup⟩

end Chains

end Latebra.Chain
