import Latebra.Crypto.FreeSuite
import Latebra.State.Backing

/-!
# What a transaction must flag

The state root is recomputed from the flagged entries alone, so every entry that an operation
changes has to be flagged before the next root. `LedgerState.Flags` says this of one step, up to a
list of entries that are flagged afterwards, and `flags_applyInner` says it of every transaction
with the list that the code flags for it, but for one: a slashing reward is paid to an account that
nothing flags.

`ReachableBy.stateRoot_from_scratch` follows for whole runs: as long as no reward is paid into an unflagged
account, the state root is the root of the trie built from scratch. `stale_beneficiary_leaf` is a
run where it is not.
-/

set_option autoImplicit false
set_option relaxedAutoImplicit false

namespace Latebra.State

open Foundation Crypto Latebra.Types Contracts

variable {C : CryptoSuite}

namespace LedgerState

/-- Outside `keys`, every entry whose leaf differs between two states is flagged in the second. -/
def Flags (keys : Set DirtyKey) (s s' : LedgerState C) : Prop :=
  s.dirty ⊆ s'.dirty ∧ ∀ key, key ∉ keys → key ∉ s'.dirty → s'.leaf key = s.leaf key

variable {keys : Set DirtyKey} {s s' s'' : LedgerState C}

namespace Flags

theorem refl : Flags keys s s := ⟨subset_rfl, fun _ _ _ ↦ rfl⟩

/-- A further step that flags nothing and changes leaves of `keys` only. -/
theorem step (h : Flags keys s s') (hdirty : s''.dirty = s'.dirty)
    (hleaf : ∀ key, key ∉ keys → s''.leaf key = s'.leaf key) : Flags keys s s'' := by
  refine ⟨hdirty ▸ h.1, fun key hkey hclean ↦ ?_⟩
  rw [hdirty] at hclean
  exact (hleaf key hkey).trans (h.2 key hkey hclean)

theorem setAccount (h : Flags keys s s') {id : Bytes32}
    (hid : .account id ∈ keys ∨ .account id ∈ s'.dirty) (a : Account C) :
    Flags keys s (s'.setAccount id a) := by
  refine ⟨h.1, fun key hkey hclean ↦ ?_⟩
  rw [← h.2 key hkey hclean]
  cases key with
  | account other =>
    have hother : other ≠ id := by
      rintro rfl
      exact hid.elim hkey hclean
    simp [leaf, hother]
  | _ => rfl

theorem setContract (h : Flags keys s s') {id : Bytes32} (hid : .contract id ∈ keys)
    (c : Contract) : Flags keys s (s'.setContract id c) := by
  refine h.step rfl fun key hkey ↦ ?_
  cases key with
  | contract other =>
    have hother : other ≠ id := fun heq ↦ hkey (heq ▸ hid)
    simp [leaf, hother]
  | _ => rfl

theorem setNullifier (h : Flags keys s s') {nf : Bytes32} (hnf : .nullifier nf ∈ keys) :
    Flags keys s (s'.setNullifier nf) := by
  refine h.step rfl fun key hkey ↦ ?_
  cases key with
  | nullifier other =>
    have hother : other ≠ nf := fun heq ↦ hkey (heq ▸ hnf)
    simp [leaf, hother]
  | _ => rfl

theorem setValidator (h : Flags keys s s') {id : Bytes32} (hid : .validator id ∈ keys)
    (v : Validator) : Flags keys s (s'.setValidator id v) := by
  refine h.step rfl fun key hkey ↦ ?_
  cases key with
  | validator other =>
    have hother : other ≠ id := fun heq ↦ hkey (heq ▸ hid)
    simp [leaf, hother]
  | _ => rfl

theorem setPool (h : Flags keys s s') {p : Pool} (hp : .pool p.token ∈ keys) :
    Flags keys s (s'.setPool p) := by
  refine h.step rfl fun key hkey ↦ ?_
  cases key with
  | pool other =>
    have hother : other ≠ p.token := fun heq ↦ hkey (heq ▸ hp)
    simp [leaf, hother]
  | _ => rfl

theorem setCurve (h : Flags keys s s') {c : CurvePool} (hc : .curve c.token ∈ keys) :
    Flags keys s (s'.setCurve c) := by
  refine h.step rfl fun key hkey ↦ ?_
  cases key with
  | curve other =>
    have hother : other ≠ c.token := fun heq ↦ hkey (heq ▸ hc)
    simp [leaf, hother]
  | _ => rfl

theorem setLp (h : Flags keys s s') {token : UInt32} {provider : Bytes32}
    (hlp : .lp token provider ∈ keys) (shares : UInt64) :
    Flags keys s (s'.setLp token provider shares) := by
  refine h.step rfl fun key hkey ↦ ?_
  cases key with
  | lp other provider' =>
    by_cases hother : other = token
    · have hprovider : provider' ≠ provider := fun heq ↦ hkey (hother ▸ heq ▸ hlp)
      simp [leaf, hother, hprovider]
    · simp [leaf, hother]
  | _ => rfl

theorem setHtlc (h : Flags keys s s') {id : Bytes32} (hid : .htlc id ∈ keys)
    (lock : Option Htlc) : Flags keys s (s'.setHtlc id lock) := by
  refine h.step rfl fun key hkey ↦ ?_
  cases key with
  | htlc other =>
    have hother : other ≠ id := fun heq ↦ hkey (heq ▸ hid)
    simp [leaf, hother]
  | _ => rfl

theorem setNextTokenId (h : Flags keys s s') (hmeta : .metaRecord ∈ keys) (id : UInt32) :
    Flags keys s (s'.setNextTokenId id) := by
  refine h.step rfl fun key hkey ↦ ?_
  cases key with
  | metaRecord => exact absurd hmeta hkey
  | _ => rfl

theorem setToken (h : Flags keys s s') {t : TokenMeta} (ht : .token t.id ∈ keys) :
    Flags keys s (s'.setToken t) := by
  refine h.step rfl fun key hkey ↦ ?_
  cases key with
  | token other =>
    have hother : other ≠ t.id := fun heq ↦ hkey (heq ▸ ht)
    simp [leaf, hother]
  | _ => rfl

/-- An account that is written and flagged at once. -/
theorem setAccountDirty (h : Flags keys s s') (id : Bytes32) (a : Account C) :
    Flags keys s ((s'.setAccount id a).setDirty (.account id)) := by
  refine ⟨h.1.trans (Set.subset_insert _ _), fun key hkey hclean ↦ ?_⟩
  have hother : key ≠ .account id := fun heq ↦ hclean (heq ▸ Set.mem_insert _ _)
  have hbefore := h.2 key hkey fun hmem ↦ hclean (Set.mem_insert_of_mem _ hmem)
  rw [← hbefore]
  cases key with
  | account other => simp [leaf, show other ≠ id from fun heq ↦ hother (heq ▸ rfl)]
  | _ => rfl

/-- A credit flags the account by itself. -/
theorem credited (h : Flags keys s s') (id : Bytes32) (token : UInt32) (amount : UInt64) :
    Flags keys s (s'.credited id token amount) := by
  unfold LedgerState.credited
  split
  · exact h
  · exact h.setAccountDirty id _

theorem rewarded (h : Flags keys s s') (id : Bytes32) (token : UInt32) (amount : UInt64) :
    Flags keys s (s'.rewarded id token amount) := by
  unfold LedgerState.rewarded
  split
  · exact h
  · exact h.setAccountDirty id _

theorem ringDebited (h : Flags keys s s') (token : UInt32)
    {debits : List (PublicKey C.Point × Ciphertext C.Point)}
    (hmembers : ∀ debit ∈ debits, .account (C.keyToBytes debit.1) ∈ keys) :
    Flags keys s (debits.foldl (fun t debit ↦ t.ringDebited token debit) s') := by
  induction debits generalizing s' with
  | nil => exact h
  | cons debit rest ih =>
    refine ih ?_ fun later hlater ↦ hmembers later (List.mem_cons_of_mem _ hlater)
    change Flags keys s (s'.ringDebited token debit)
    unfold LedgerState.ringDebited
    split
    · exact h.setAccount (.inl (hmembers debit List.mem_cons_self)) _
    · exact h

/-- Flagging the list afterwards leaves nothing to flag. -/
theorem marked {list : List DirtyKey} (h : Flags { key | key ∈ list } s s') :
    Flags ∅ s (s'.marked list) := by
  refine ⟨h.1.trans Set.subset_union_left, fun key _ hclean ↦ ?_⟩
  obtain ⟨hbefore, hlist⟩ := not_or.mp hclean
  exact h.2 key hlist hbefore

end Flags

theorem account_marked (s : LedgerState C) (list : List DirtyKey) :
    (s.marked list).account = s.account := rfl

/-- A valid slashing transaction whose reward goes to a registered account that is not flagged. -/
def RewardsUnflagged (s : LedgerState C) : Transaction C → Prop
  | .slashEvidence id beneficiary height blockA sigA blockB sigB =>
    blockA ≠ blockB ∧ VoteOK C id blockA height sigA ∧ VoteOK C id blockB height sigB ∧
      (s.validatorOr id).tombstoned = false ∧
      (∃ unbonding, checkedSum ((s.validatorOr id).unbonding.map Prod.fst) = some unbonding ∧
        0 < slashReward (slashAmount (saturatingAdd (s.validatorOr id).staked unbonding))) ∧
      s.account beneficiary ≠ none ∧ .account beneficiary ∉ s.dirty
  | _ => False

theorem Flags.slashPaid (h : Flags keys s s') {beneficiary : Bytes32} {reward : UInt64}
    (hpaid : 0 < reward → s'.account beneficiary ≠ none →
      .account beneficiary ∈ keys ∨ .account beneficiary ∈ s'.dirty) :
    Flags keys s (s'.slashPaid beneficiary reward) := by
  unfold LedgerState.slashPaid
  split
  · next hreward =>
    split
    · next acct hacct => exact h.setAccount (hpaid hreward (by simp [hacct])) _
    · exact h
  · exact h

theorem Flags.slashEvidence {id beneficiary : Bytes32} {height : UInt64} {blockA blockB : Bytes32}
    {sigA sigB : Bytes64}
    (hpaid : ¬ s.RewardsUnflagged
      (.slashEvidence id beneficiary height blockA sigA blockB sigB : Transaction C))
    (hrun : Runs (applySlashEvidence id beneficiary height blockA sigA blockB sigB) s () s') :
    Flags {.validator id} s s' := by
  obtain ⟨unbonding, total, hdistinct, hvoteA, hvoteB, halive, hsum, rfl, -, rfl⟩ :=
    applySlashEvidence_outcome hrun
  refine (refl.setValidator (Set.mem_singleton _) _).slashPaid fun hreward hregistered ↦ .inr ?_
  by_contra hclean
  exact hpaid ⟨hdistinct, hvoteA, hvoteB, halive, ⟨unbonding, hsum, hreward⟩, hregistered, hclean⟩

/-- A transaction changes no entry but the ones that the code flags for it and the ones that it
flags by itself, unless it pays a slashing reward into an unflagged account. -/
theorem flags_applyInner (hs : s.SharesBacked) {tx : Transaction C} {height : UInt64}
    {pre : Option (ProofPass C)} (hpaid : ¬ s.RewardsUnflagged tx)
    (hrun : Runs (applyInner tx height pre) s () s') :
    Flags { key | key ∈ Ledger.dirtyKeysFor s'.nextTokenId tx } s s' := by
  cases tx with
  | register pubkey powNonce =>
    obtain ⟨-, rfl⟩ := register_outcome hrun
    exact Flags.refl.setAccountDirty _ _
  | createToken ticker creator supply sig =>
    obtain ⟨norm, acct, next, -, -, -, -, -, hbound, rfl, rfl⟩ := applyCreateToken_outcome hrun
    have hnext : s.nextTokenId + 1 ≠ 0 := by
      intro hzero
      have hwrapped := congrArg UInt32.toNat hzero
      rw [UInt32.toNat_add, UInt32.toNat_one, Nat.mod_eq_of_lt hbound] at hwrapped
      exact absurd hwrapped (Nat.succ_ne_zero _)
    refine ((Flags.refl.setNextTokenId ?_ _).setToken ?_).setAccount ?_ _ <;>
      simp [Ledger.dirtyKeysFor, hnext]
  | solventTransfer token xfer =>
    obtain ⟨sender, receiver, next, -, -, -, -, -, rfl⟩ := applySolventTransfer_outcome hrun
    refine (Flags.refl.setAccount ?_ _).setAccount ?_ _ <;> simp [Ledger.dirtyKeysFor]
  | rollover accountId nonce sig =>
    obtain ⟨acct, next, -, -, -, rfl⟩ := applyRollover_outcome hrun
    exact Flags.refl.setAccount (by simp [Ledger.dirtyKeysFor]) _
  | deployContract deployer code sig =>
    obtain ⟨acct, -, -, -, -, rfl⟩ := applyDeployContract_outcome hrun
    refine (Flags.refl.setAccount ?_ _).setContract ?_ _ <;> simp [Ledger.dirtyKeysFor]
  | callContract contract caller input nonce sig =>
    obtain ⟨acct, c, storage, next, -, -, -, -, -, -, rfl⟩ := applyCallContract_outcome hrun
    refine (Flags.refl.setContract ?_ _).setAccount ?_ _ <;> simp [Ledger.dirtyKeysFor]
  | publicTransfer token fromId toId amount fee nonce sig =>
    obtain ⟨sender, receiver, total, next, -, -, -, -, -, -, -, rfl⟩ :=
      applyPublicTransfer_outcome hrun
    refine (Flags.refl.setAccount ?_ _).setAccount ?_ _ <;> simp [Ledger.dirtyKeysFor]
  | shield token fromId toId amount fee nonce sig =>
    obtain ⟨sender, receiver, total, next, -, -, -, -, -, -, -, rfl⟩ := applyShield_outcome hrun
    refine (Flags.refl.setAccount ?_ _).setAccount ?_ _ <;> simp [Ledger.dirtyKeysFor]
  | unshield token toId amount xfer sig =>
    obtain ⟨sender, next, -, -, -, -, -, -, -, rfl⟩ := applyUnshield_outcome hrun
    exact (Flags.refl.setAccount (by simp [Ledger.dirtyKeysFor]) _).credited _ _ _
  | shieldStealth token fromId ephemeral oneTime amount fee nonce sig =>
    obtain ⟨sender, total, next, -, -, -, -, -, -, rfl⟩ := applyShieldStealth_outcome hrun
    refine (Flags.refl.setAccount ?_ _).setAccount ?_ _ <;> simp [Ledger.dirtyKeysFor]
  | anonTransfer token xfer =>
    obtain ⟨s₁, -, -, -, -, -, -, -, rfl, rfl⟩ := applyAnonTransfer_outcome hrun
    have hmembers : ∀ debit ∈ xfer.ring.zip xfer.enc, .account (C.keyToBytes debit.1) ∈
        { key | key ∈ Ledger.dirtyKeysFor s.nextTokenId (.anonTransfer token xfer) } := by
      intro debit hdebit
      have hring := (List.of_mem_zip hdebit).1
      exact List.mem_append_left _ (List.mem_map_of_mem hring)
    refine (((Flags.refl.ringDebited token hmembers).setAccount ?_ _).setNullifier ?_) <;>
      simp [Ledger.dirtyKeysFor]
  | stake validatorId amount nonce sig =>
    obtain ⟨acct, released, val, next, -, -, -, -, -, -, rfl⟩ := applyStake_outcome hrun
    refine (Flags.refl.setAccount ?_ _).setValidator ?_ _ <;> simp [Ledger.dirtyKeysFor]
  | unstake validatorId amount nonce sig =>
    obtain ⟨acct, released, val, release, next, -, -, -, -, -, -, -, rfl⟩ :=
      applyUnstake_outcome hrun
    refine (Flags.refl.setAccount ?_ _).setValidator ?_ _ <;> simp [Ledger.dirtyKeysFor]
  | slashEvidence id beneficiary voteHeight blockA sigA blockB sigB =>
    have hkeys : { key | key ∈ Ledger.dirtyKeysFor s'.nextTokenId (.slashEvidence id beneficiary
        voteHeight blockA sigA blockB sigB : Transaction C) } = {DirtyKey.validator id} := by
      ext key
      simp [Ledger.dirtyKeysFor]
    rw [hkeys]
    exact .slashEvidence hpaid hrun
  | addLiquidity token provider latAmount tokAmount fee nonce sig =>
    obtain ⟨acct, paid, pool, tokUsed, minted, latTotal, shares, next, -, -, -, -, hplan, -, -, -,
      -, -, rfl⟩ := applyAddLiquidity_outcome hrun
    have htoken : pool.token = token := hs.planned_token hplan
    refine ((Flags.refl.setAccount ?_ _).setLp ?_ _).setPool ?_ <;>
      simp [Ledger.dirtyKeysFor, htoken]
  | removeLiquidity token provider lpAmount fee nonce sig =>
    obtain ⟨acct, paid, returned, p, after, latOut, tokOut, next, -, -, -, hpool, -, -, -, hafter,
      -, -, -, -, rfl⟩ := applyRemoveLiquidity_outcome hrun
    have htoken : after.token = token := hafter.trans (hs.keyed token p hpool)
    refine ((Flags.refl.setAccount ?_ _).setLp ?_ _).setPool ?_ <;>
      simp [Ledger.dirtyKeysFor, htoken]
  | swap token trader latIn amountIn minOut fee nonce sig =>
    obtain ⟨p, lat, tok, acct, hpool, rfl⟩ := applySwap_moved hrun
    have htoken := hs.keyed token p hpool
    refine (Flags.refl.setAccount ?_ _).setPool ?_ <;> simp [Ledger.dirtyKeysFor, htoken]
  | curveTrade token trader isBuy amount minOut fee nonce sig =>
    obtain ⟨tokenMeta, acct, c, -, -, -, -, -, -, -, hbuy | hsell⟩ := applyCurveTrade_outcome hrun
    · obtain ⟨fill, after, latDebit, paid, next, -, -, -, -, rfl⟩ := curveBuy_outcome hbuy.2
      refine ((Flags.refl.setAccount ?_ _).credited _ _ _).setCurve ?_ <;>
        simp [Ledger.dirtyKeysFor, CurvePool.fromMath]
    · obtain ⟨fill, after, gross, paid, sold, next, -, -, -, -, -, -, -, rfl⟩ :=
        curveSell_outcome hsell.2
      refine ((Flags.refl.setAccount ?_ _).credited _ _ _).setCurve ?_ <;>
        simp [Ledger.dirtyKeysFor, CurvePool.fromMath]
  | htlcLock token fromId toId amount hashlock expiry fee nonce sig =>
    obtain ⟨acct, latDebit, paid, next, -, -, -, -, -, -, -, -, rfl⟩ := applyHtlcLock_outcome hrun
    refine (Flags.refl.setAccount ?_ _).setHtlc ?_ _ <;> simp [Ledger.dirtyKeysFor]
  | htlcClaim id preimage =>
    obtain ⟨lock, -, -, -, rfl⟩ := applyHtlcClaim_outcome hrun
    exact (Flags.refl.setHtlc (by simp [Ledger.dirtyKeysFor]) _).credited _ _ _
  | htlcRefund id =>
    obtain ⟨lock, -, -, rfl⟩ := applyHtlcRefund_outcome hrun
    exact (Flags.refl.setHtlc (by simp [Ledger.dirtyKeysFor]) _).credited _ _ _

/-- The same for the operations that are not transactions: they flag what they change. -/
theorem flags_register {id : Bytes32} (hrun : Runs (LedgerM.register id) s () s') :
    Flags ∅ s s' := by
  obtain ⟨-, rfl⟩ := register_outcome hrun
  exact Flags.refl.setAccountDirty _ _

theorem flags_creditPublic {id : Bytes32} {token : UInt32} {amount : UInt64}
    (hrun : Runs (LedgerM.creditPublic id token amount) s () s') : Flags ∅ s s' := by
  rw [creditPublic_outcome hrun]
  exact Flags.refl.credited _ _ _

theorem flags_rewardMiner {miner : Bytes32} {token : UInt32} {amount : UInt64}
    (hrun : Runs (LedgerM.rewardMiner miner token amount) s () s') : Flags ∅ s s' := by
  rw [rewardMiner_outcome hrun]
  exact Flags.refl.rewarded _ _ _

theorem flags_creditGenesis {id : Bytes32} {amount : UInt64}
    (hrun : Runs (LedgerM.creditGenesis id amount) s () s') : Flags ∅ s s' := by
  obtain ⟨acct, -, rfl⟩ := creditGenesis_outcome hrun
  exact Flags.refl.setAccountDirty _ _

end LedgerState

namespace Ledger

variable {L L' : Ledger C}

/-! ### Runs -/

theorem UpToDate.new : (new : Ledger C).UpToDate := by
  refine ⟨fun _ ↦ none, ?_, fun key hkey ↦ ?_⟩
  · have hempty : TrieScheme.contentOf (trieKey C) (fun _ ↦ (none : Option Bytes)) =
        TrieScheme.noContent := by
      funext path
      exact TrieScheme.contentOf_eq_none fun _ _ ↦ rfl
    rw [hempty]
    exact TrieScheme.TrieAt.empty
  · rw [view_new] at hkey ⊢
    cases key with
    | metaRecord => exact absurd rfl hkey
    | _ => simp [LedgerState.leaf, LedgerState.new]

theorem UpToDate.of_flags (hdate : L.UpToDate) (htree : L'.tree = L.tree)
    (hflags : LedgerState.Flags ∅ L.view L'.view) : L'.UpToDate := by
  obtain ⟨stored, hstored, hclean⟩ := hdate
  refine ⟨stored, by rwa [htree], fun key hkey ↦ ?_⟩
  rw [hclean key fun hbefore ↦ hkey (hflags.1 hbefore)]
  exact (hflags.2 key (Set.notMem_empty key) hkey).symm

/-- The state root is computed on a ledger whose entries have paths of their own. -/
def PathsSeparate (L : Ledger C) : LedgerOp C → Prop
  | .stateRoot => L.view.PathsDistinct
  | _ => True

/-- A transaction does not pay a slashing reward into an unflagged account. -/
def PaysFlagged (L : Ledger C) : LedgerOp C → Prop
  | .applyAt tx _ => ¬ L.view.RewardsUnflagged tx
  | _ => True

/-- A step that keeps the trie, and flags what it changes or leaves no trace. -/
theorem UpToDate.settled (hdate : L.UpToDate) (htree : L'.tree = L.tree) {P : Prop}
    (hflags : P → LedgerState.Flags ∅ L.view L'.view) (hobjects : P ∨ L'.clone = L.clone) :
    L'.UpToDate := by
  refine hdate.of_flags htree ?_
  rcases hobjects with hrun | hsame
  · exact hflags hrun
  · rw [view_of_clone_eq hsame]
    exact .refl

/-- One operation keeps the ledger up to date. -/
theorem UpToDate.step (hdate : L.UpToDate) (hL : L.WellFormed) (hs : L.view.SharesBacked)
    (hfree : C.trie.CollisionFree) {op : LedgerOp C} (hpaths : L.PathsSeparate op)
    (hpaid : L.PaysFlagged op) (hstep : L.step op = some L') : L'.UpToDate := by
  cases op with
  | applyAt tx height =>
    have htree := tree_applyAt hstep
    rcases houtcome : L.applyAt tx height with ⟨_ | e | _, M⟩
    · rw [Ledger.step, houtcome] at hstep
      obtain rfl := Option.some.inj hstep
      obtain ⟨-, s', hrun, hview⟩ := hL.applyAt_ok houtcome
      refine hdate.of_flags htree ?_
      rw [hview]
      exact (LedgerState.flags_applyInner hs hpaid hrun).marked
    · rw [Ledger.step, houtcome] at hstep
      obtain rfl := Option.some.inj hstep
      obtain ⟨-, hclone⟩ := hL.clone_applyAt_err hs houtcome
      refine hdate.of_flags htree ?_
      rw [view_of_clone_eq hclone]
      exact .refl
    · rw [Ledger.step, houtcome] at hstep
      cases hstep
  | register id =>
    exact hdate.settled (tree_settled hstep) LedgerState.flags_register
      (hL.settled_run ((register_checksFirst id).failsClean L.view) hstep).2
  | creditPublic id token amount =>
    exact hdate.settled (tree_settled hstep) LedgerState.flags_creditPublic
      (hL.settled_run ((creditPublic_checksFirst id token amount).failsClean L.view) hstep).2
  | creditGenesis id amount =>
    exact hdate.settled (tree_settled hstep) LedgerState.flags_creditGenesis
      (hL.settled_run ((creditGenesis_checksFirst id amount).failsClean L.view) hstep).2
  | rewardMiner miner token amount =>
    exact hdate.settled (tree_settled hstep) LedgerState.flags_rewardMiner
      (hL.settled_run ((rewardMiner_checksFirst miner token amount).failsClean L.view) hstep).2
  | flush =>
    obtain rfl := Option.some.inj hstep
    refine hdate.of_flags (tree_flush L) ?_
    rw [hL.flush.2]
    exact .refl
  | clone =>
    obtain rfl := Option.some.inj hstep
    exact hdate.of_flags rfl .refl
  | stateRoot =>
    obtain ⟨⟨root, M⟩, hrun, rfl⟩ := Option.map_eq_some_iff.mp hstep
    obtain ⟨M', hrun', htree⟩ := hdate.stateRoot hL hfree hpaths
    obtain ⟨-, rfl⟩ := Prod.mk.inj (Option.some.inj (hrun.symm.trans hrun'))
    refine ⟨L.view.leaf, htree, fun key _ ↦ ?_⟩
    rw [hL.view_stateRoot hrun]
    exact (congrFun (LedgerState.leaf_withDirty L.view ∅) key).symm

theorem ReachableBy.upToDate (hfree : C.trie.CollisionFree)
    (hL : ReachableBy (fun L op ↦ L.PathsSeparate op ∧ L.PaysFlagged op) L) : L.UpToDate := by
  induction hL with
  | refl => exact .new
  | step op hbefore hok hstep ih =>
    obtain ⟨hformed, hobjects⟩ := (ReachableBy.reachable hbefore).view
    exact ih.step hformed hobjects.sharesBacked hfree hok.1 hok.2 hstep

/-! ### The root from scratch -/

/-- In every run that pays no slashing reward into an unflagged account, the state root is the root
of the trie over the leaves of the stored records, and so is the root of every trie that is built
from scratch out of these leaves. -/
theorem ReachableBy.stateRoot_from_scratch (hfree : C.trie.CollisionFree)
    (hL : ReachableBy (fun L op ↦ L.PathsSeparate op ∧ L.PaysFlagged op) L)
    (hpaths : L.view.PathsDistinct) :
    ∃ L', L.stateRoot = some (L.view.commitment, L') ∧
      ∀ leaves : List (Bytes32 × Bytes),
        (∀ path value, (path, value) ∈ leaves ↔
          ∃ key, trieKey C key = path ∧ L.view.leaf key = some value) →
        (C.trie.build leaves).map Prod.snd = some L.view.commitment := by
  obtain ⟨hformed, -⟩ := hL.reachable.view
  obtain ⟨L', hrun, -⟩ := (hL.upToDate hfree).stateRoot hformed hfree hpaths
  refine ⟨L', hrun, fun leaves hleaves ↦ ?_⟩
  have hentries : ∀ path value, (path, value) ∈ leaves ↔ L.view.content path = some value :=
    fun path value ↦ (hleaves path value).trans hpaths.content_eq_some.symm
  obtain ⟨tree, hbuild, htree⟩ := TrieScheme.TrieAt.build hfree hentries
  rw [hbuild, Option.map_some, htree.root_eq]
  rfl

/-- Two registered accounts, the first with a public balance. -/
def funded : Ledger freeSuite :=
  ((new.register 5).2.register 6).2.creditPublic 5 LAT_TOKEN 200000000 |>.2

/-- The first of them is a validator with bonded stake. -/
def staked : Ledger freeSuite := (funded.applyAt (.stake 5 100000000 0 5) 1).2

/-- The entries of the two accounts and the validator. -/
def stakedEntries : List DirtyKey := [.account 5, .account 6, .validator 5, .metaRecord]

/-- The run to `staked`, and what it stores and flags. -/
theorem staked_facts :
    (((new : Ledger freeSuite).register 5).1 = .ok () ∧
      (((new : Ledger freeSuite).register 5).2.register 6).1 = .ok ()) ∧
    ((((new : Ledger freeSuite).register 5).2.register 6).2.creditPublic 5 LAT_TOKEN
      200000000).1 = .ok () ∧
    (funded.applyAt (.stake 5 100000000 0 5) 1).1 = .ok () ∧
    (stakedEntries.map (trieKey freeSuite)).Nodup ∧
    (∀ bytes ∈ staked.objectRecords.map Prod.fst, ∃ key ∈ stakedEntries,
      bytes = RecordKey.bytes (.committed key)) ∧
    ∀ key ∈ staked.dirty, key ∈ stakedEntries := by
  decide +kernel

theorem reachable_staked :
    ReachableBy (fun L op ↦ L.PathsSeparate op ∧ L.PaysFlagged op) staked := by
  obtain ⟨⟨hfirst, hsecond⟩, hcredit, hstake, -⟩ := staked_facts
  exact (((ReachesBy.refl.step (.register _) ⟨trivial, trivial⟩ (step_register hfirst)).step
    (.register _) ⟨trivial, trivial⟩ (step_register hsecond)).step (.creditPublic _ _ _)
    ⟨trivial, trivial⟩ (step_creditPublic hcredit)).step (.applyAt (.stake _ _ _ _) _)
      ⟨trivial, not_false⟩ (step_applyAt hstake)

theorem injOn_stakedEntries :
    Set.InjOn (trieKey freeSuite) { key | key ∈ stakedEntries } := by
  obtain ⟨-, -, -, hnodup, -⟩ := staked_facts
  exact fun key hkey key' hkey' heq ↦ List.inj_on_of_nodup_map hnodup hkey hkey' heq

/-- A record of a ledger is listed among its object records. -/
theorem mem_of_record {key : RecordKey} (hrecord : L.record key ≠ none) :
    key.bytes ∈ L.objectRecords.map Prod.fst := by
  obtain ⟨body, hbody⟩ := Option.ne_none_iff_exists'.mp hrecord
  rw [record, ← OverlayMap.lookup_merged] at hbody
  exact List.mem_map_of_mem ((FMap.mem_toList _ _ _).mpr hbody)

theorem record_of_leaf {key : DirtyKey} (hleaf : L.view.leaf key ≠ none) :
    key = .metaRecord ∨ L.record (.committed key) ≠ none := by
  by_contra habsent
  obtain ⟨hmeta, hnone⟩ := not_or.mp habsent
  rw [not_not] at hnone
  cases key <;> simp [LedgerState.leaf, view, LedgerState.ofRecords, hnone] at hleaf hmeta

/-- An entry with a leaf is one of those that the records of a ledger are listed under. -/
theorem mem_of_leaf {entries : List DirtyKey}
    (hkeys : ∀ bytes ∈ L.objectRecords.map Prod.fst, ∃ key ∈ entries,
      bytes = RecordKey.bytes (.committed key)) {key : DirtyKey} (hleaf : L.view.leaf key ≠ none) :
    key = .metaRecord ∨ key ∈ entries := by
  rcases record_of_leaf hleaf with hmeta | hrecord
  · exact .inl hmeta
  · obtain ⟨listed, hlisted, hsame⟩ := hkeys _ (mem_of_record hrecord)
    obtain rfl := RecordKey.committed.inj (RecordKey.bytes_injective hsame)
    exact .inr hlisted

theorem mem_stakedEntries {key : DirtyKey} (hleaf : staked.view.leaf key ≠ none) :
    key ∈ stakedEntries := by
  obtain ⟨-, -, -, -, hkeys, -⟩ := staked_facts
  rcases mem_of_leaf hkeys hleaf with rfl | hlisted
  · decide
  · exact hlisted

theorem pathsDistinct_staked : staked.view.PathsDistinct := by
  obtain ⟨-, -, -, -, -, hdirty⟩ := staked_facts
  exact injOn_stakedEntries.mono fun key hkey ↦ hkey.elim mem_stakedEntries (hdirty key)

theorem stateRoot_staked_from_scratch :
    ∃ L', staked.stateRoot = some (staked.view.commitment, L') := by
  obtain ⟨L', hrun, -⟩ := ReachableBy.stateRoot_from_scratch freeSuite_collisionFree
    reachable_staked pathsDistinct_staked
  exact ⟨L', hrun⟩

/-! ### A stale leaf -/

/-- Evidence that the validator voted for two blocks, submitted by the other account. -/
def evidence : Transaction freeSuite := .slashEvidence 5 6 1 1 5 2 5

/-- The objects once the state root has been computed. -/
def stakedCommitted : LedgerState freeSuite := { staked.view with dirty := ∅ }

/-- The objects that the evidence leads to. -/
def slashedState : LedgerState freeSuite :=
  ((applyInner evidence 2 none).run LedgerState.handler stakedCommitted).2

/-- The evidence is accepted and pays the submitter. -/
theorem slashedState_facts :
    ((applyInner evidence 2 none).run LedgerState.handler stakedCommitted).1 = .ok () ∧
      slashedState.leaf (.account 6) ≠ staked.view.leaf (.account 6) ∧
      (slashedState.account 6).isSome = true := by
  decide +kernel

theorem runs_evidence :
    LedgerState.Runs (applyInner evidence 2 none) stakedCommitted () slashedState :=
  LedgerState.runs_of_ok slashedState_facts.1

/-- The evidence changes the validator and the submitter, and flags neither. -/
theorem flags_slashedState :
    slashedState.dirty = ∅ ∧ ∀ key, key ≠ .validator 5 → key ≠ .account 6 →
      slashedState.leaf key = staked.view.leaf key := by
  have hrun : LedgerState.Runs (applySlashEvidence 5 6 1 1 5 2 5) stakedCommitted () slashedState :=
    runs_evidence
  obtain ⟨unbonding, total, -, -, -, -, -, -, -, hstate⟩ := applySlashEvidence_outcome hrun
  have hflags : LedgerState.Flags {.validator 5, .account 6} stakedCommitted slashedState := by
    rw [hstate]
    exact (LedgerState.Flags.refl.setValidator (by simp) _).slashPaid fun _ _ ↦ .inl (by simp)
  have hclean : slashedState.dirty = ∅ := by
    rw [hstate]
    unfold LedgerState.slashPaid
    split
    · split <;> rfl
    · rfl
  refine ⟨hclean, fun key hvalidator haccount ↦ ?_⟩
  have hleaf := hflags.2 key (fun hmem ↦ hmem.elim hvalidator haccount) (by simp [hclean])
  rw [hleaf, stakedCommitted, LedgerState.leaf_withDirty]

/-- The entries under a trie that was brought up to date after the evidence: the submitter's is that
of before. -/
def staleLeaf (key : DirtyKey) : Option Bytes :=
  if key = .validator 5 then slashedState.leaf key else staked.view.leaf key

theorem leaf_slashedMarked :
    (slashedState.marked [.validator 5]).leaf = slashedState.leaf :=
  LedgerState.leaf_withDirty _ _

theorem mem_slashedMarked (key : DirtyKey) :
    key ∈ (slashedState.marked [.validator 5]).dirty ↔ key = .validator 5 := by
  rw [LedgerState.marked, flags_slashedState.1, Set.empty_union]
  exact List.mem_singleton

/-- The evidence adds no entry. -/
theorem mem_stakedEntries_of_slashed {key : DirtyKey} (hleaf : slashedState.leaf key ≠ none) :
    key ∈ stakedEntries := by
  by_cases hvalidator : key = .validator 5
  · rw [hvalidator]
    decide
  by_cases haccount : key = .account 6
  · rw [haccount]
    decide
  rw [flags_slashedState.2 key hvalidator haccount] at hleaf
  exact mem_stakedEntries hleaf

theorem mem_stakedEntries_of_stale {key : DirtyKey} (hleaf : staleLeaf key ≠ none) :
    key ∈ stakedEntries := by
  unfold staleLeaf at hleaf
  split at hleaf
  · exact mem_stakedEntries_of_slashed hleaf
  · exact mem_stakedEntries hleaf

/-- The submitter's entry is not the one that the trie has. -/
theorem staleLeaf_ne : staleLeaf (.account 6) ≠ slashedState.leaf (.account 6) := by
  rw [staleLeaf, if_neg (by simp)]
  exact slashedState_facts.2.1.symm

theorem pathsDistinct_slashed : (slashedState.marked [.validator 5]).PathsDistinct := by
  refine injOn_stakedEntries.mono fun key hkey ↦ ?_
  rw [Set.mem_ofPred_eq, leaf_slashedMarked, mem_slashedMarked] at hkey
  rcases hkey with hleaf | rfl
  · exact mem_stakedEntries_of_slashed hleaf
  · show DirtyKey.validator 5 ∈ stakedEntries
    decide

/-- A run in which the state root is computed before the evidence is submitted. -/
theorem reachable_slashed :
    ∃ L : Ledger freeSuite, L.Reachable ∧ L.WellFormed ∧
      L.view = slashedState.marked [.validator 5] ∧
      freeSuite.trie.TrieAt L.tree staked.view.content := by
  have hreach := reachable_staked.reachable
  obtain ⟨hformed, -⟩ := hreach.view
  obtain ⟨L₁, hroot₁, htree₁⟩ := (reachable_staked.upToDate freeSuite_collisionFree).stateRoot
    hformed freeSuite_collisionFree pathsDistinct_staked
  have hreach₁ : L₁.Reachable := hreach.step .stateRoot trivial (by rw [Ledger.step, hroot₁]; rfl)
  have hview₁ : L₁.view = stakedCommitted := hformed.view_stateRoot hroot₁
  obtain ⟨-, hformed₁, -⟩ := hformed.stateRoot hroot₁
  obtain ⟨L₂, happly, hformed₂, hview₂⟩ :=
    hformed₁.applyAt_of_runs (by rw [hview₁]; exact runs_evidence)
  have hreach₂ : L₂.Reachable := hreach₁.step (.applyAt evidence 2) trivial
    (by rw [Ledger.step, happly]; rfl)
  have htree₂ : L₂.tree = L₁.tree := tree_applyAt (by rw [happly]; rfl)
  exact ⟨L₂, hreach₂, hformed₂, hview₂, htree₂ ▸ htree₁⟩

theorem submitter_registered :
    ∃ acct, slashedState.account 6 = some acct ∧
      slashedState.leaf (.account 6) = some (accountLeafPreimage 6 acct) := by
  obtain ⟨-, -, hregistered⟩ := slashedState_facts
  obtain ⟨acct, hacct⟩ := Option.isSome_iff_exists.mp hregistered
  refine ⟨acct, hacct, ?_⟩
  rw [LedgerState.leaf, hacct, Option.map_some]

/-- The next state root has the new entry of the validator and the old one of the submitter. -/
theorem stateRoot_slashed {L : Ledger freeSuite} (hL : L.WellFormed)
    (hview : L.view = slashedState.marked [.validator 5])
    (htree : freeSuite.trie.TrieAt L.tree staked.view.content) :
    ∃ L', L.stateRoot = some (L'.root, L') ∧
      freeSuite.trie.TrieAt L'.tree (TrieScheme.contentOf (trieKey freeSuite) staleLeaf) := by
  have hleaf : L.view.leaf = slashedState.leaf := by rw [hview, leaf_slashedMarked]
  have hdirty : ∀ key, key ∈ L.dirty ↔ key = .validator 5 := by
    intro key
    have hmem := mem_slashedMarked key
    rw [← hview] at hmem
    exact hmem
  have hflagged : ∀ key ∈ L.dirty, key ∈ stakedEntries := by
    intro key hkey
    rw [(hdirty key).mp hkey]
    decide
  have hknown : ∀ key, L.view.leaf key ≠ none → key ∈ stakedEntries := by
    rw [hleaf]
    exact fun key ↦ mem_stakedEntries_of_slashed
  obtain ⟨L', hroot, htree'⟩ := hL.stateRoot_tree freeSuite_collisionFree injOn_stakedEntries
    (fun _ ↦ mem_stakedEntries) hknown hflagged htree
  refine ⟨L', hroot, ?_⟩
  have hstale : (fun key ↦ if key ∈ L.dirty then L.view.leaf key else staked.view.leaf key) =
      staleLeaf := by
    funext key
    simp only [hdirty, hleaf, staleLeaf]
  rwa [hstale] at htree'

/-- A run that ends with a slashing: the leaf of the submitter stays as it was before the reward, and
the state root is not the root of the trie from scratch. -/
theorem stale_beneficiary_leaf :
    ∃ (L L' : Ledger freeSuite) (root : FreeDigest), L.Reachable ∧ L.view.PathsDistinct ∧
      L.stateRoot = some (root, L') ∧ root ≠ L.view.commitment := by
  obtain ⟨L, hreach, hformed, hview, htree⟩ := reachable_slashed
  obtain ⟨L', hroot, htree'⟩ := stateRoot_slashed hformed hview htree
  refine ⟨L, L', L'.root, hreach, hview ▸ pathsDistinct_slashed, hroot, fun hsame ↦ ?_⟩
  have hcontent := (TrieScheme.contentRoot_injective freeSuite_collisionFree
    (TrieScheme.samePrefix_keyBits _) (TrieScheme.samePrefix_keyBits _)
    (htree'.root_eq.symm.trans hsame)).2
  have hleaf : L.view.leaf = slashedState.leaf := by rw [hview, leaf_slashedMarked]
  have hleaves := TrieScheme.leaf_eq_of_contentOf_eq injOn_stakedEntries
    (fun _ ↦ mem_stakedEntries_of_stale) (fun key hkey ↦ mem_stakedEntries_of_slashed
      (hleaf ▸ hkey)) hcontent
  rw [hleaf] at hleaves
  exact staleLeaf_ne (congrFun hleaves (.account 6))

end Ledger

end Latebra.State
