import Latebra.Chain.Rehome
import Latebra.State.RecordsBoot

/-!
# Ledgers across restarts

A node restarts from the records of its ledger or from the encoding of its ledger, and it moves its
ledger onto another base. `AcrossRestarts` are the ledgers that it can come to hold so, with any
operations before and in between. No restart shows in a record or in a later transaction, but each of
them sets the cap on the validator set to the default (`AcrossRestarts.restart_alike`). The token
registry survives all of them (`AcrossRestarts.hasRegistry`).
-/

set_option autoImplicit false
set_option relaxedAutoImplicit false

namespace Latebra.State.Ledger

open Foundation Crypto Latebra.Types

variable {C : CryptoSuite} {L L' M : Ledger C}

/-- A way to take a ledger up again: from the encoding, whose sections are short enough, from the
records next to whatever nodes the store has, or on another base. -/
inductive Restarts (L : Ledger C) : Ledger C → Prop where
  | decode {L' : Ledger C} : L.SectionsFit → decode L.encode = .ok L' → Restarts L L'
  | boot {L' M : Ledger C} (root : C.Digest) (nodes : TrieScheme.Nodes Bytes32 Bytes C.Digest) :
    L.stateRoot = some (root, M) → fromRecords M.flush.objects.base nodes = .ok L' → Restarts L L'
  | rehome {L' : Ledger C} (base base' : BaseStore C) (staged : List (Bytes × Bytes)) :
    L.rehomeOnto base staged = some (L', base') → Restarts L L'

/-- The ledgers that a node can come to hold when it also overrides its cap and restarts. -/
inductive AcrossRestarts : Ledger C → Prop where
  | new : AcrossRestarts new
  | step {L L' : Ledger C} (op : LedgerOp C) : AcrossRestarts L → L.step op = some L' →
    AcrossRestarts L'
  | setMaxValidators {L L' : Ledger C} (n : ℕ) : AcrossRestarts L →
    L.setMaxValidators n = some L' → AcrossRestarts L'
  | restart {L L' : Ledger C} : AcrossRestarts L → Restarts L L' → AcrossRestarts L'

/-- What a ledger needs in order to be taken up again. -/
structure Serviceable (L : Ledger C) : Prop where
  formed : L.WellFormed
  canonical : L.Canonical
  registry : L.view.Registry
  shares : L.view.SharesBacked

/-- A restarted ledger stands for the one before, has a canonical copy of the next token id, and the
default cap. -/
structure Resumes (L L' : Ledger C) : Prop where
  agree : AgreeOn readable L' L
  canonical : L'.Canonical
  maxValidators : L'.maxValidators = DEFAULT_MAX_VALIDATORS
  metaRecord : L'.view.metaRecord = L.view.metaRecord ∨
    L'.view.metaRecord = some L.view.nextTokenId

theorem Serviceable.new : (Ledger.new : Ledger C).Serviceable := by
  have hstart : (Ledger.new : Ledger C).Reachable := .refl
  obtain ⟨hformed, hview⟩ := hstart.view
  exact ⟨hformed, hstart.canonical, hview.registry, hview.sharesBacked⟩

theorem Serviceable.step (hL : L.Serviceable) {op : LedgerOp C} (hstep : L.step op = some L') :
    L'.Serviceable := by
  obtain ⟨hformed, hview⟩ := hL.formed.step hL.shares hstep
  refine ⟨hformed, hL.canonical.step hL.formed hstep, ?_, ?_⟩
  · rcases hview with hmoved | hsame
    · exact hmoved.registry hL.registry
    · rw [hsame]
      exact hL.registry
  · rcases hview with hmoved | hsame
    · exact hmoved.sharesBacked hL.shares
    · rw [hsame]
      exact hL.shares

theorem Serviceable.setMaxValidators (hL : L.Serviceable) {n : ℕ}
    (hset : L.setMaxValidators n = some L') : L'.Serviceable := by
  obtain ⟨-, heq⟩ := Option.ite_none_right_eq_some.mp hset
  rw [← Option.some.inj heq]
  exact ⟨⟨hL.formed.records, hL.formed.cache⟩, hL.canonical.of_objects fun _ ↦ rfl, hL.registry,
    hL.shares⟩

/-- The objects of a restarted ledger. -/
theorem Resumes.view (h : Resumes L L') : L'.view =
    { L.view with metaRecord := L'.view.metaRecord, dirty := L'.view.dirty } := by
  have hrecord : ∀ key : RecordKey, key ≠ .committed .metaRecord → L'.record key = L.record key :=
    fun key hkey ↦ h.agree.records_of_readable fun heq ↦ hkey (RecordKey.bytes_injective heq)
  ext1 <;> simp [Ledger.view, LedgerState.ofRecords, hrecord, h.agree.nextTokenId_of_readable]

theorem Serviceable.resume (hL : L.Serviceable) (h : Resumes L L') : L'.Serviceable := by
  refine ⟨h.agree.left, h.canonical, ?_, ?_⟩
  · rw [h.view]
    have hregistry := hL.registry
    refine ⟨⟨hregistry.keyed, hregistry.indexed, ?_⟩, hregistry.started, hregistry.present,
      hregistry.normal, ?_⟩
    · intro id hid
      rcases h.metaRecord with hsame | hcopy
      · exact hregistry.metaCopy id (hsame.symm.trans hid)
      · exact Option.some.inj (hid.symm.trans hcopy)
    · intro hnone
      rcases h.metaRecord with hsame | hcopy
      · exact hregistry.copied (hsame.symm.trans hnone)
      · exact absurd (hnone.symm.trans hcopy) (by simp)
  · rw [h.view]
    exact hL.shares.of_same rfl rfl

/-- Computing the state root changes no record. -/
theorem Resumes.of_stateRoot (h : Resumes L M) {root : C.Digest}
    (hroot : M.stateRoot = some (root, L')) : Resumes L L' := by
  obtain ⟨-, -, hclone⟩ := h.agree.left.stateRoot hroot
  have hobjects : L'.objects = M.objects := (congrArg Ledger.objects hclone :)
  have hmeta : L'.view.metaRecord = M.view.metaRecord := by
    show (L'.objects.get _).bind u32OfLe = (M.objects.get _).bind u32OfLe
    rw [hobjects]
  refine ⟨(h.agree.left.agreeOn_stateRoot hroot).trans h.agree, ?_, ?_, ?_⟩
  · apply h.canonical.of_objects
    intro bytes
    rw [hobjects]
  · rw [← h.maxValidators]
    exact (congrArg Ledger.maxValidators hclone :)
  · rw [hmeta]
    exact h.metaRecord

theorem Serviceable.resumes_decode (hL : L.Serviceable) (hfits : L.SectionsFit)
    (hdecode : decode L.encode = .ok L') : Resumes L L' := by
  obtain ⟨objects, hlists⟩ := hL.canonical.exists_lists
  obtain ⟨n, entries, M, root, hread, hrun, hM, hroot⟩ := decode_eq_ok hdecode
  obtain ⟨rfl, rfl⟩ := Prod.mk.inj (Option.some.inj (hread.symm.trans (hlists.readSnapshot hfits)))
  obtain ⟨hformed, hcanonical, -⟩ := restored_facts hrun
  have hrestores := hlists.restores hL.canonical hL.registry.toTickersIndexed hM
  refine Resumes.of_stateRoot ⟨?_, hcanonical, maxValidators_restored hrun, .inr ?_⟩ hroot
  · exact agreeOn_of_records hformed hL.formed hcanonical hL.canonical hrestores.nextTokenId
      hrestores.records
  · show (M.record (.committed .metaRecord)).bind u32OfLe = some L.nextTokenId
    rw [hrestores.metaRecord, Option.bind_some, u32OfLe_u32Le]

theorem Serviceable.resumes_boot (hL : L.Serviceable) {root : C.Digest}
    {nodes : TrieScheme.Nodes Bytes32 Bytes C.Digest} (hroot : L.stateRoot = some (root, M))
    (hboot : fromRecords M.flush.objects.base nodes = .ok L') : Resumes L L' := by
  have hobjects := get_flush_of_stateRoot hL.formed hroot
  obtain ⟨-, n, tokens, keys, root', hn, hscan, hbooted⟩ := fromRecords_eq_ok.mp hboot
  obtain rfl := Option.some.inj (hn.symm.trans (nextTokenIdOf_eq hL.canonical hL.registry hobjects))
  have hget := get_booted hL.registry hobjects hscan
  refine Resumes.of_stateRoot ⟨?_, hL.canonical.of_objects hget, ?_, .inl ?_⟩ hbooted
  · exact agreeOn_booted hL.formed hL.canonical hL.registry hobjects hscan
  · rw [booted_eq]
    rfl
  · exact congrArg (fun body : Option Bytes ↦ body.bind u32OfLe) (hget _)

theorem Serviceable.resumes_rehome (hL : L.Serviceable) {base base' : BaseStore C}
    {staged : List (Bytes × Bytes)} (hmove : L.rehomeOnto base staged = some (L', base')) :
    Resumes L L' := by
  obtain ⟨⟨root, M⟩, hroot, -⟩ := Option.map_eq_some_iff.mp hmove
  have hmoved := Option.some.inj (hmove.symm.trans (rehomeOnto_eq hroot base staged))
  obtain rfl : L' = M.rehomed := congrArg Prod.fst hmoved
  have hM := hL.formed.agreeOn_stateRoot hroot
  have hget : ∀ bytes, M.rehomed.objects.get bytes = M.objects.get bytes := get_new_merged M.objects
  have hrecords : ∀ bytes, M.objects.get bytes = L.objects.get bytes := by
    intro bytes
    obtain ⟨-, -, hclone⟩ := hL.formed.stateRoot hroot
    rw [show M.objects = L.objects from (congrArg Ledger.objects hclone :)]
  have hagree : AgreeOn readable M.rehomed M := by
    refine ⟨(agreeOn_rehomed hM.left).left, hM.left, ?_⟩
    rintro i (rfl | ⟨bytes, rfl, -⟩)
    · rfl
    · exact congrArg Sum.inl (hget bytes)
  refine ⟨hagree.trans hM, ?_, rfl, .inl ?_⟩
  · exact hL.canonical.of_objects fun bytes ↦ (hget bytes).trans (hrecords bytes)
  · exact congrArg (fun body : Option Bytes ↦ body.bind u32OfLe) ((hget _).trans (hrecords _))

theorem Serviceable.restart (hL : L.Serviceable) (hrestart : Restarts L L') : Resumes L L' := by
  cases hrestart with
  | decode hfits hdecode => exact hL.resumes_decode hfits hdecode
  | boot root nodes hroot hboot => exact hL.resumes_boot hroot hboot
  | rehome base base' staged hmove => exact hL.resumes_rehome hmove

theorem AcrossRestarts.serviceable (hL : L.AcrossRestarts) : L.Serviceable := by
  induction hL with
  | new => exact Serviceable.new
  | step op _ hstep ih => exact ih.step hstep
  | setMaxValidators n _ hset ih => exact ih.setMaxValidators hset
  | restart _ hrestart ih => exact ih.resume (ih.restart hrestart)

/-- The token registry is a bijection in every ledger that a node comes to hold, across restarts. -/
theorem AcrossRestarts.hasRegistry (hL : L.AcrossRestarts) : L.HasRegistry := by
  have hservice := hL.serviceable
  exact Registry.shows hservice.registry hservice.formed hservice.canonical

/-- Every run of operations is one without a restart. -/
theorem Reachable.acrossRestarts (hL : L.Reachable) : L.AcrossRestarts := by
  induction hL with
  | refl => exact .new
  | step op _ _ hstep ih => exact .step op ih hstep

theorem exists_rehomed (hfree : C.trie.CollisionFree) (hL : L.Reachable) :
    ∃ L', Restarts L L' := by
  obtain ⟨root, M, hroot⟩ := hL.exists_stateRoot hfree
  exact ⟨_, .rehome ⟨.new, fun _ ↦ none⟩ _ [] (rehomeOnto_eq hroot _ [])⟩

theorem hasRegistry_tokenCreated :
    ∃ L' : Ledger clearSuite, Restarts tokenCreated L' ∧ L'.HasRegistry := by
  obtain ⟨L', hrestart⟩ := exists_rehomed clearSuite_collisionFree reachable_tokenCreated
  exact ⟨L', hrestart,
    AcrossRestarts.hasRegistry (reachable_tokenCreated.acrossRestarts.restart hrestart)⟩

/-- No restart shows in a record or in a later transaction, whatever happened to the ledger before,
and however often it was restarted already. Every restart sets the cap to the default, and keeps the
validator set of a ledger that had it. -/
theorem AcrossRestarts.restart_alike (hL : L.AcrossRestarts) (hrestart : Restarts L L') :
    Alike L L' ∧ L'.maxValidators = DEFAULT_MAX_VALIDATORS ∧
      (L.maxValidators = DEFAULT_MAX_VALIDATORS → L'.validatorSet = L.validatorSet) := by
  have hresumes := hL.serviceable.restart hrestart
  have halike := hresumes.agree.alike
  refine ⟨halike, hresumes.maxValidators, fun hdefault ↦ ?_⟩
  exact validatorSet_congr (halike.lists REC_VALIDATOR (by decide))
    (hresumes.maxValidators.trans hdefault.symm)

theorem restart_alike_tokenCreated :
    ∃ L' : Ledger clearSuite, Restarts tokenCreated L' ∧ Alike tokenCreated L' ∧
      L'.validatorSet = tokenCreated.validatorSet := by
  obtain ⟨L', hrestart⟩ := exists_rehomed clearSuite_collisionFree reachable_tokenCreated
  obtain ⟨halike, -, hset⟩ :=
    AcrossRestarts.restart_alike reachable_tokenCreated.acrossRestarts hrestart
  exact ⟨L', hrestart, halike, hset reachable_tokenCreated.maxValidators_eq⟩

end Latebra.State.Ledger
