import Latebra.Chain.Rejection
import Latebra.State.DirtyEntries
import Latebra.State.ParallelEquivalence

/-!
# What a block does to the objects

The transactions of a block and the reward of its miner are one program on the objects of the
ledger (`blockProgram`), and a node that applies a block runs this program, whatever the number of its
workers (`applied_spec`, `applied_of_runs`). So the caches, the overlay and the stored trie of a
ledger have no part in it.

The state root is then a function of the objects, the flags and the trie
(`Ledger.stateRoot_of_sameObs`).
-/

set_option autoImplicit false
set_option relaxedAutoImplicit false

namespace Latebra.State

open Foundation Crypto Latebra.Types

variable {C : CryptoSuite}

/-! ### Programs -/

namespace LedgerM

/-- Flag a list of entries. -/
def markAll (keys : List DirtyKey) : LedgerM C Unit := Program.forEach keys mark

/-- Apply one transaction, and flag what it touched. -/
def applyTx (height : UInt64) (tx : Transaction C) : LedgerM C Unit :=
  applyInner tx height none >>= fun _ ↦
    nextTokenId >>= fun next ↦ markAll (Ledger.dirtyKeysFor next tx)

end LedgerM

namespace LedgerState

variable {s s' : LedgerState C}

theorem runs_markAll {keys : List DirtyKey} : Runs (LedgerM.markAll keys) s () s' ↔
    s' = s.marked keys := by
  induction keys generalizing s with
  | nil =>
    have hnone : s.marked [] = s := by simp [marked]
    rw [hnone]
    exact (Program.returns_pure ..).trans (and_iff_right rfl)
  | cons key rest ih =>
    have hmore : (s.setDirty key).marked rest = s.marked (key :: rest) := by
      simp only [marked, setDirty, LedgerState.mk.injEq, true_and]
      ext other
      simp [or_assoc, or_comm, or_left_comm]
    refine (Program.returns_bind ..).trans ?_
    constructor
    · rintro ⟨done, s₁, hmark, hrest⟩
      obtain ⟨-, rfl⟩ := Prod.mk.inj (Option.some.inj ((runs_command ..).mp hmark))
      rw [ih.mp hrest, hmore]
    · rintro rfl
      exact ⟨(), s.setDirty key, rfl, ih.mpr hmore.symm⟩

theorem runs_applyTx {height : UInt64} {tx : Transaction C} :
    Runs (LedgerM.applyTx height tx) s () s' ↔ ∃ s₁, Runs (applyInner tx height none) s () s₁ ∧
      s' = s₁.marked (Ledger.dirtyKeysFor s₁.nextTokenId tx) := by
  refine (Program.returns_bind ..).trans ?_
  constructor
  · rintro ⟨done, s₁, hinner, hrest⟩
    obtain ⟨next, s₂, hnext, hmarks⟩ := (Program.returns_bind ..).mp hrest
    obtain ⟨rfl, rfl⟩ := Prod.mk.inj (Option.some.inj ((runs_command ..).mp hnext))
    exact ⟨s₁, hinner, runs_markAll.mp hmarks⟩
  · rintro ⟨s₁, hinner, rfl⟩
    exact ⟨(), s₁, hinner, (Program.returns_bind ..).mpr
      ⟨s₁.nextTokenId, s₁, rfl, runs_markAll.mpr rfl⟩⟩

end LedgerState

namespace Ledger

variable {L L' : Ledger C}

theorem run_markAll (keys : List DirtyKey) (L : Ledger C) :
    (LedgerM.markAll keys).run handler L = (.ok (), L.markAll keys) := by
  induction keys generalizing L with
  | nil => rfl
  | cons key rest ih => exact ih (L.mark key)

/-- Applying a transaction is a run of its program. -/
theorem applyAt_eq_run (L : Ledger C) (tx : Transaction C) (height : UInt64) :
    L.applyAt tx height = (LedgerM.applyTx height tx).run handler L := by
  rw [LedgerM.applyTx, Program.run_bind, applyAt, applyAtWith]
  rcases (applyInner tx height none).run handler L with ⟨_ | _ | _, M⟩
  · exact (run_markAll (dirtyKeysFor M.nextTokenId tx) M).symm
  · rfl
  · rfl

theorem applySequential_eq (txs : List (Transaction C)) (height : UInt64) :
    applySequential txs height =
      Transition.ofProgram handler (Program.forEach txs (LedgerM.applyTx height)) := by
  rw [← Transition.each_ofProgram]
  refine congrArg (fun step ↦ Transition.each step txs) ?_
  funext tx L
  exact L.applyAt_eq_run tx height

/-- The coordinates of a ledger other than its flags. -/
def objectArea : Set Coord := { i | ∀ key, i ≠ .flag key }

/-- No command reads a flag. -/
theorem reads_subset_objectArea (c : LedgerCommand C) : c.reads ⊆ objectArea := by
  intro i hi key heq
  subst heq
  cases c <;> exact nomatch hi

/-- The state root changes no object. -/
theorem WellFormed.agree_stateRoot (hL : L.WellFormed) {root : C.Digest}
    (hrun : L.stateRoot = some (root, L')) : AgreeOn objectArea L' L := by
  obtain ⟨-, hformed, hclone⟩ := hL.stateRoot hrun
  refine ⟨hformed, hL, fun i hi ↦ ?_⟩
  rw [← observe_clone i (L := L'), hclone]
  cases i with
  | flag key => exact absurd rfl (hi key)
  | _ => rfl

/-- A clone has the same objects. -/
theorem WellFormed.agree_clone (hL : L.WellFormed) : AgreeOn objectArea L.clone L :=
  ⟨hL.clone, hL, fun i _ ↦ observe_clone i⟩

/-- A program comes out alike on ledgers that look alike. -/
theorem alike_ofProgram (program : LedgerM C Unit) :
    Alike observe WellFormed (Transition.ofProgram handler program).after
      (Transition.ofProgram handler program).after := by
  intro L M hL hM hsame
  obtain ⟨houtcome, hafter⟩ := run_agree (program.uses_true.mono fun c _ ↦ Set.subset_univ c.reads)
    ⟨hL, hM, fun i _ ↦ hsame i⟩
  unfold Transition.after Transition.ofProgram
  rcases hrunL : program.run handler L with ⟨_ | _ | _, L'⟩ <;>
    rcases hrunM : program.run handler M with ⟨_ | _ | _, M'⟩ <;>
    rw [hrunL, hrunM] at houtcome hafter
  · exact .inr ⟨L', M', rfl, rfl, hafter.left, hafter.right, fun i ↦ hafter.agree i trivial⟩
  all_goals first | exact .inl ⟨rfl, rfl⟩ | exact nomatch houtcome

end Ledger

end Latebra.State

namespace Latebra.Chain

open Foundation Crypto Latebra.Types State

variable {S : ChainSuite}

/-! ### The program of a block -/

/-- Pay the miner of a block. -/
def payMiner (txs : List (Transaction S.toCryptoSuite)) (miner : Bytes32) (height : UInt64) :
    LedgerM S.toCryptoSuite Unit :=
  if miner = 0 then pure ()
  else
    LedgerM.rewardMiner miner LAT_TOKEN (emission height) >>= fun _ ↦
      Program.forEach (txs.filterMap confidentialFee)
          (fun fee ↦ LedgerM.rewardMiner miner fee.1 fee.2) >>= fun _ ↦
        Program.forEach (txs.filterMap publicFee) fun fee ↦ LedgerM.creditPublic miner fee.1 fee.2

/-- What a block does to the objects: its transactions one by one, then the reward of its miner. -/
def blockProgram (txs : List (Transaction S.toCryptoSuite)) (miner : Bytes32) (height : UInt64) :
    LedgerM S.toCryptoSuite Unit :=
  Program.forEach txs (LedgerM.applyTx height) >>= fun _ ↦ payMiner txs miner height

theorem rewardBlock_eq (txs : List (Transaction S.toCryptoSuite)) (miner : Bytes32)
    (height : UInt64) :
    rewardBlock txs miner height =
      Transition.ofProgram Ledger.handler (payMiner txs miner height) := by
  unfold rewardBlock payMiner
  split
  · rfl
  · rw [← Transition.ofProgram_bind, ← Transition.ofProgram_bind, ← Transition.each_ofProgram,
      ← Transition.each_ofProgram]
    rfl

/-- The transactions of a block and the reward of its miner come out as the program of the block
does, however many workers there are. -/
theorem alike_applyTxsAndReward (workers : ℕ) (txs : List (Transaction S.toCryptoSuite))
    (miner : Bytes32) (height : UInt64) :
    Alike Ledger.observe Ledger.WellFormed (applyTxsAndReward workers txs miner height).after
      (Transition.ofProgram Ledger.handler (blockProgram txs miner height)).after := by
  have hreward : Alike Ledger.observe Ledger.WellFormed (rewardBlock txs miner height).after
      (rewardBlock txs miner height).after := by
    rw [rewardBlock_eq]
    exact Ledger.alike_ofProgram _
  have hblock := (Ledger.alike_applyBlockParallel workers txs height).bind hreward
  have hleft : (applyTxsAndReward workers txs miner height).after = fun L ↦
      ((Ledger.applyBlockParallel workers txs height).after L).bind
        (rewardBlock txs miner height).after := by
    funext L
    rw [applyTxsAndReward, Transition.after_mapErr, Transition.after_andThen]
  have hright : (Transition.ofProgram Ledger.handler (blockProgram txs miner height)).after =
      fun L ↦ ((Ledger.applySequential txs height).after L).bind
        (rewardBlock txs miner height).after := by
    funext L
    rw [blockProgram, ← Transition.ofProgram_bind, ← rewardBlock_eq, ← Ledger.applySequential_eq,
      Transition.after_andThen]
  rw [hleft, hright]
  exact hblock

/-! ### The ledger after a block -/

section Applied

variable {workers workers' : ℕ} {txs : List (Transaction S.toCryptoSuite)} {miner : Bytes32}
  {height : UInt64} {L L' M M' : Ledger S.toCryptoSuite}

theorem keeps_backing_rewardBlock (txs : List (Transaction S.toCryptoSuite)) (miner : Bytes32)
    (height : UInt64) : (rewardBlock txs miner height).Keeps Ledger.backing := by
  rw [rewardBlock_eq]
  exact Ledger.backing_run _

/-- A block applied runs its program on the objects, and leaves the stored trie alone. -/
theorem applied_spec (hL : L.WellFormed)
    (hrun : (applyTxsAndReward workers txs miner height).after L = some L') :
    L'.WellFormed ∧ LedgerState.Runs (blockProgram txs miner height) L.view () L'.view ∧
      L'.tree = L.tree := by
  have hkeeps : (applyTxsAndReward (S := S) workers txs miner height).Keeps Ledger.backing :=
    Transition.Keeps.mapErr (Transition.Keeps.andThen
      (Ledger.keeps_backing_applyBlockParallel workers txs height)
      (keeps_backing_rewardBlock txs miner height)) _
  rcases alike_applyTxsAndReward workers txs miner height L L hL hL fun _ ↦ rfl with
    ⟨hnone, -⟩ | ⟨L₁, M, hL₁, hM, hformed, -, hsame⟩
  · exact nomatch hnone.symm.trans hrun
  obtain rfl := Option.some.inj (hL₁.symm.trans hrun)
  obtain ⟨houtcome, -, hview⟩ := Ledger.run_view hL (blockProgram txs miner height)
  rw [Transition.after_eq_some, Transition.ofProgram] at hM
  rw [hM] at houtcome hview
  refine ⟨hformed, ?_, Ledger.tree_of_backing_eq (hkeeps.after hrun)⟩
  rw [Ledger.view_of_sameObs hsame]
  exact Prod.ext houtcome.symm hview.symm

/-- A block whose program runs on the objects is applied. -/
theorem applied_of_runs (workers : ℕ) (hL : L.WellFormed) {s' : LedgerState S.toCryptoSuite}
    (hruns : LedgerState.Runs (blockProgram txs miner height) L.view () s') :
    ∃ L', (applyTxsAndReward workers txs miner height).after L = some L' := by
  obtain ⟨houtcome, -, -⟩ := Ledger.run_view hL (blockProgram txs miner height)
  have hviewed : (blockProgram txs miner height).run LedgerState.handler L.view = (.ok (), s') :=
    hruns
  rw [hviewed] at houtcome
  have hrun : (Transition.ofProgram Ledger.handler (blockProgram txs miner height)).after L =
      some ((blockProgram txs miner height).run Ledger.handler L).2 :=
    Transition.after_eq_some.mpr (Prod.ext houtcome rfl)
  rcases alike_applyTxsAndReward workers txs miner height L L hL hL fun _ ↦ rfl with
    ⟨-, hnone⟩ | ⟨L₁, M, hL₁, -⟩
  · exact nomatch hnone.symm.trans hrun
  · exact ⟨L₁, hL₁⟩

/-- On ledgers that agree on the objects a block leads to ledgers that agree on the objects. -/
theorem applied_agree (hagree : Ledger.AgreeOn Ledger.objectArea L M)
    (hrun : (applyTxsAndReward workers txs miner height).after L = some L')
    (hrun' : (applyTxsAndReward workers' txs miner height).after M = some M') :
    Ledger.AgreeOn Ledger.objectArea L' M' := by
  obtain ⟨-, hmid⟩ := Ledger.run_agree
    ((blockProgram txs miner height).uses_true.mono fun c _ ↦ Ledger.reads_subset_objectArea c) hagree
  rcases alike_applyTxsAndReward workers txs miner height L L hagree.left hagree.left
    fun _ ↦ rfl with ⟨hnone, -⟩ | ⟨L₁, L₂, hL₁, hL₂, hformed, -, hsame⟩
  · exact nomatch hnone.symm.trans hrun
  rcases alike_applyTxsAndReward workers' txs miner height M M hagree.right hagree.right
    fun _ ↦ rfl with ⟨hnone, -⟩ | ⟨M₁, M₂, hM₁, hM₂, hformed', -, hsame'⟩
  · exact nomatch hnone.symm.trans hrun'
  obtain rfl := Option.some.inj (hL₁.symm.trans hrun)
  obtain rfl := Option.some.inj (hM₁.symm.trans hrun')
  rw [Transition.after_eq_some, Transition.ofProgram] at hL₂ hM₂
  rw [hL₂, hM₂] at hmid
  refine ⟨hformed, hformed', fun i hi ↦ ?_⟩
  exact (hsame i).trans ((hmid.agree i hi).trans (hsame' i).symm)

/-- A block transition is its program, then the state root that the header commits. -/
theorem applyBlockState_eq_ok {block : Block S} :
    applyBlockState workers block L = (.ok (), L') ↔
      ∃ M root, (applyTxsAndReward workers block.txs block.header.miner block.header.height).after L =
        some M ∧ M.stateRoot = some (root, L') ∧ S.digestBytes root = block.header.stateRoot := by
  rw [← Transition.after_eq_some, applyBlockState, Transition.after_andThen, Option.bind_eq_some_iff]
  refine exists_congr fun M ↦ ?_
  rw [exists_and_left]
  refine and_congr_right fun _ ↦ ?_
  rw [Transition.after_eq_some, checkStateRoot]
  cases hroot : M.stateRoot with
  | none => simp
  | some answer =>
    obtain ⟨root, L₁⟩ := answer
    by_cases hsame : S.digestBytes root = block.header.stateRoot
    · simp [hsame]
    · simp [hsame]

/-- A ledger depends on its store only through what is found there. -/
theorem validatorSet_eq_of_agree (hagree : Ledger.AgreeOn Ledger.objectArea L M) :
    L.validatorSet = M.validatorSet := by
  have hobjects : L.objects.merged = M.objects.merged := by
    refine FMap.ext fun key ↦ ?_
    rw [OverlayMap.lookup_merged, OverlayMap.lookup_merged]
    exact Sum.inl.inj (hagree.agree (.record key) fun _ ↦ nofun)
  have hmax : L.maxValidators = M.maxValidators :=
    Sum.inr.inj (hagree.agree .maxValidators fun _ ↦ nofun)
  unfold Ledger.validatorSet Ledger.eligible Ledger.scan
  rw [hobjects, hmax]

end Applied

/-! ### The genesis ledger -/

/-- The operations that make the genesis ledger. -/
def Endows : LedgerOp S.toCryptoSuite → Prop
  | .register _ | .creditGenesis _ _ | .creditPublic _ _ _ | .flush => True
  | _ => False

section Genesis

variable {ok : Ledger S.toCryptoSuite → LedgerOp S.toCryptoSuite → Prop}
  {premine publicPremine : List (Bytes32 × UInt64)} {L L' G : Ledger S.toCryptoSuite}

theorem settled_of_ignoreErr {run : Transition LedgerError (Ledger S.toCryptoSuite)}
    (hrun : (Transition.ignoreErr run : Transition Empty _).after L = some L') :
    Ledger.settled (run L) = some L' := by
  unfold Transition.after Transition.ignoreErr at hrun
  rcases houtcome : run L with ⟨_ | _ | _, M⟩ <;> rw [houtcome] at hrun
  · exact hrun
  · exact hrun
  · exact nomatch hrun

theorem settled_of_orPanic {run : Transition LedgerError (Ledger S.toCryptoSuite)}
    (hrun : (Transition.orPanic run : Transition Empty _).after L = some L') :
    Ledger.settled (run L) = some L' := by
  unfold Transition.after Transition.orPanic at hrun
  rcases houtcome : run L with ⟨_ | _ | _, M⟩ <;> rw [houtcome] at hrun
  · exact hrun
  · exact nomatch hrun
  · exact nomatch hrun

/-- An account is endowed by two operations. -/
theorem reachableBy_endowed (hok : ∀ L op, Endows op → ok L op) {id : Bytes32}
    {credit : Transition LedgerError (Ledger S.toCryptoSuite)} (op : LedgerOp S.toCryptoSuite)
    (hop : Endows op) (hcredit : ∀ L : Ledger S.toCryptoSuite, L.step op = Ledger.settled (credit L))
    (hL : Ledger.ReachableBy ok L)
    (hrun : (Transition.andThen
      (Transition.ignoreErr (fun state : Ledger S.toCryptoSuite ↦ state.register id))
      (Transition.orPanic credit) : Transition Empty _).after L = some L') :
    Ledger.ReachableBy ok L' := by
  rw [Transition.after_andThen] at hrun
  obtain ⟨M, hregister, hlast⟩ := Option.bind_eq_some_iff.mp hrun
  have hregistered := hL.step (.register id) (hok _ _ trivial) (settled_of_ignoreErr hregister)
  exact hregistered.step op (hok _ _ hop) ((hcredit M).trans (settled_of_orPanic hlast))

theorem reachableBy_each {α : Type} {step : α → Transition Empty (Ledger S.toCryptoSuite)}
    {list : List α}
    (hstep : ∀ entry L L', Ledger.ReachableBy ok L → (step entry).after L = some L' →
      Ledger.ReachableBy ok L')
    (hL : Ledger.ReachableBy ok L) (hrun : (Transition.each step list).after L = some L') :
    Ledger.ReachableBy ok L' := by
  induction list generalizing L with
  | nil =>
    obtain rfl := Option.some.inj hrun
    exact hL
  | cons entry rest ih =>
    rw [Transition.each, Transition.after_andThen] at hrun
    obtain ⟨M, hfirst, hrest⟩ := Option.bind_eq_some_iff.mp hrun
    exact ih (hstep entry L M hL hfirst) hrest

/-- The genesis ledger is made by registrations and credits alone. -/
theorem reachableBy_genesisState (hok : ∀ L op, Endows op → ok L op)
    (hgenesis : Blockchain.genesisState premine publicPremine = some G) :
    Ledger.ReachableBy ok G := by
  obtain ⟨L, hrun, rfl⟩ := Option.map_eq_some_iff.mp hgenesis
  rw [Transition.after_andThen] at hrun
  obtain ⟨M, hpremine, hpublic⟩ := Option.bind_eq_some_iff.mp hrun
  have hmid : Ledger.ReachableBy ok M :=
    reachableBy_each (fun entry L L' hL hstep ↦ reachableBy_endowed hok
      (.creditGenesis entry.1 entry.2) trivial (fun _ ↦ rfl) hL hstep) .refl hpremine
  have hlast : Ledger.ReachableBy ok L :=
    reachableBy_each (fun entry L L' hL hstep ↦ reachableBy_endowed hok
      (.creditPublic entry.1 LAT_TOKEN entry.2) trivial (fun _ ↦ rfl) hL hstep) hmid hpublic
  exact hlast.step .flush (hok _ _ trivial) rfl

end Genesis

end Latebra.Chain
