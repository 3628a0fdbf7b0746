import Latebra.State.DirtyEntries
import Latebra.State.LaneSteps
import Latebra.State.SnapshotRoundTrip

/-!
# Booting from a snapshot

Decoding the encoding of a ledger gives a ledger that has its records, answers every query alike,
reacts alike to every later transaction, and whose root is the commitment of these records from
scratch, as long as every kind has fewer than `2 ^ 32` records
(`Reachable.snapshot_round_trips_iff`). The count in front of a section is four bytes wide and keeps
the number of the records only modulo `2 ^ 32`: of a longer section not all records are restored.
-/

set_option autoImplicit false
set_option relaxedAutoImplicit false

namespace Latebra.State.Ledger

open Foundation Crypto Latebra.Types

variable {C : CryptoSuite} {L L' M M' : Ledger C}

/-! ### Ledgers with the same records -/

/-- The coordinates that programs read: all records but the stored copy of the next token id, and
the next token id itself. -/
def readable : Set Coord :=
  { i | i = .nextTokenId ∨
    ∃ bytes, i = .record bytes ∧ bytes ≠ (RecordKey.committed .metaRecord).bytes }

theorem record_mem_readable {key : RecordKey} (hkey : key ≠ .committed .metaRecord) :
    .record key.bytes ∈ readable :=
  .inr ⟨_, rfl, fun heq ↦ hkey (RecordKey.bytes_injective heq)⟩

theorem reads_subset_readable (c : LedgerCommand C) : c.reads ⊆ readable := by
  cases c with
  | nextTokenId | putToken => exact Set.singleton_subset_iff.mpr (.inl rfl)
  | account | isRegistered | tokenById | tickerTaken | contract | hasContract | nullifierSeen |
      validator | pool | curve | lpShares | htlc =>
    exact Set.singleton_subset_iff.mpr (record_mem_readable nofun)
  | _ => exact Set.empty_subset _

/-- Ledgers with the same records answer every query alike. -/
theorem AgreeOn.run_readable (h : AgreeOn readable L M) {α : Type} (program : LedgerM C α) :
    (program.run handler L).1 = (program.run handler M).1 :=
  (run_agree (program.uses_true.mono fun c _ ↦ reads_subset_readable c) h).1

theorem AgreeOn.nextTokenId_of_readable (h : AgreeOn readable L M) : L.nextTokenId = M.nextTokenId :=
  nextTokenId_eq_of_observe (h.agree _ (.inl rfl))

theorem AgreeOn.records_of_readable (h : AgreeOn readable L M) {bytes : Bytes}
    (hbytes : bytes ≠ (RecordKey.committed .metaRecord).bytes) :
    L.objects.get bytes = M.objects.get bytes :=
  Sum.inl.inj (h.agree (.record bytes) (.inr ⟨bytes, rfl, hbytes⟩))

/-- Transactions one after the other, each with its height. A panic ends the run. -/
def applyEach : List (Transaction C × UInt64) → Ledger C →
    List (Outcome LedgerError Unit) × Ledger C
  | [], L => ([], L)
  | (tx, height) :: rest, L =>
    match L.applyAt tx height with
    | (.panicked, L') => ([.panicked], L')
    | (outcome, L') => ((applyEach rest L').1.cons outcome, (applyEach rest L').2)

/-- Ledgers with the same records give the same results, and have the same records afterwards. -/
theorem AgreeOn.applyEach (h : AgreeOn readable L M) (txs : List (Transaction C × UInt64)) :
    (Ledger.applyEach txs L).1 = (Ledger.applyEach txs M).1 ∧
      AgreeOn readable (Ledger.applyEach txs L).2 (Ledger.applyEach txs M).2 := by
  induction txs generalizing L M with
  | nil => exact ⟨rfl, h⟩
  | cons step rest ih =>
    obtain ⟨tx, height⟩ := step
    have huses : (applyInner tx height none).Uses fun c : LedgerCommand C ↦ c.reads ⊆ readable :=
      (Program.uses_true _).mono fun c _ ↦ reads_subset_readable c
    obtain ⟨houtcome, hafter⟩ := applyAtWith_agree huses
      (fun hagree ↦ by rw [hagree.nextTokenId_of_readable]) h
    rw [Ledger.applyEach, Ledger.applyEach, applyAt, applyAt]
    rcases hL : L.applyAtWith tx height none with ⟨outcome, L₁⟩
    rcases hM : M.applyAtWith tx height none with ⟨outcome', M₁⟩
    rw [hL, hM] at houtcome hafter
    obtain rfl : outcome = outcome' := houtcome
    obtain ⟨hresults, hlater⟩ := ih hafter
    cases outcome with
    | panicked => exact ⟨rfl, hafter⟩
    | ok | err => exact ⟨congrArg (List.cons _) hresults, hlater⟩

/-! ### The cap on the validator set -/

theorem maxValidators_run {α : Type} (program : LedgerM C α) (L : Ledger C) :
    (program.run handler L).2.maxValidators = L.maxValidators := by
  have huses : program.Uses fun c : LedgerCommand C ↦ c.changes ⊆ { i | i ≠ .maxValidators } := by
    refine (program.uses_true).mono fun c _ ↦ ?_
    rintro i ⟨next, update, hmem, rfl⟩ hmax
    cases c <;> simp only [LedgerCommand.updates, List.mem_cons, List.not_mem_nil, or_false] at hmem
    all_goals
      rcases hmem with rfl | rfl | rfl
      all_goals exact absurd hmax (by simp)
  exact Sum.inr.inj (run_frame huses L (i := .maxValidators) fun hmem ↦ hmem rfl)

theorem maxValidators_markAll (keys : List DirtyKey) (L : Ledger C) :
    (L.markAll keys).maxValidators = L.maxValidators :=
  Sum.inr.inj (observe_markAll_of_notMem (i := .maxValidators) fun _ _ ↦ nofun)

/-- No operation of a node changes the cap. -/
theorem Reachable.maxValidators_eq (hL : L.Reachable) : L.maxValidators = DEFAULT_MAX_VALIDATORS := by
  have hsettled : ∀ {outcome : Outcome LedgerError Unit × Ledger C} {N : Ledger C},
      Ledger.settled outcome = some N → N = outcome.2 := by
    rintro ⟨_ | _ | _, M⟩ N hN
    · exact (Option.some.inj hN).symm
    · exact (Option.some.inj hN).symm
    · exact absurd hN (by simp [Ledger.settled])
  induction hL with
  | refl => rfl
  | @step before after op hbefore _ hstep ih =>
    rw [← ih]
    cases op with
    | applyAt tx height =>
      have hrun := maxValidators_run (applyInner tx height none) before
      rw [hsettled hstep, applyAt, applyAtWith]
      rcases hend : (applyInner tx height none).run handler before with ⟨_ | _ | _, M⟩ <;>
        rw [hend] at hrun
      · exact (maxValidators_markAll _ M).trans hrun
      · exact hrun
      · exact hrun
    | register | creditPublic | creditGenesis | rewardMiner =>
      rw [hsettled hstep]
      exact maxValidators_run _ before
    | flush | clone =>
      rw [← Option.some.inj hstep]
      rfl
    | stateRoot =>
      obtain ⟨⟨root, M⟩, hrun, rfl⟩ := Option.map_eq_some_iff.mp hstep
      have hformed := (ReachesBy.reachable hbefore .refl).view.1
      exact (congrArg Ledger.maxValidators (hformed.stateRoot hrun).2.2 :)

/-! ### Decoding -/

theorem canonical_blank (n : UInt32) : (blank n : Ledger C).Canonical := by
  intro i
  have hat := congrFun (observe_putRecord (L := { (Ledger.new : Ledger C) with nextTokenId := n })
    (.committed .metaRecord) (u32Le n)) i
  rw [blank, hat, Function.update_apply]
  split
  · next heq =>
    rw [heq]
    exact canonicalAt_record (.committed .metaRecord) ⟨n, rfl⟩
  · have hnew := canonical_new (C := C) i
    cases i with
    | record => exact hnew
    | _ => trivial

/-- What restoring objects leaves as it is: the ledger is well formed, its records are canonical,
and its tree is still empty. -/
theorem restored_facts {n : UInt32} {entries : List (SnapshotEntry C)}
    (hrun : (Program.forEach entries SnapshotEntry.restore).run handler (blank n) = (.ok (), M)) :
    M.WellFormed ∧ M.Canonical ∧ M.tree = (Ledger.new : Ledger C).tree := by
  obtain ⟨-, hformed, -⟩ := run_view (WellFormed.blank n)
    (Program.forEach entries (SnapshotEntry.restore (C := C)))
  have hcanonical := (canonical_blank n).run
    (Program.forEach entries (SnapshotEntry.restore (C := C)))
  have hbacking := backing_run (Program.forEach entries SnapshotEntry.restore) (blank n : Ledger C)
  rw [hrun] at hformed hcanonical hbacking
  exact ⟨hformed, hcanonical, tree_of_backing_eq (L := (Ledger.new : Ledger C)) hbacking⟩

/-- Restored objects have the default cap. -/
theorem maxValidators_restored {n : UInt32} {entries : List (SnapshotEntry C)}
    (hrun : (Program.forEach entries SnapshotEntry.restore).run handler (blank n) = (.ok (), M)) :
    M.maxValidators = DEFAULT_MAX_VALIDATORS := by
  have hsame := maxValidators_run (Program.forEach entries SnapshotEntry.restore) (blank n : Ledger C)
  rw [hrun] at hsame
  exact hsame

/-- A snapshot that reads back decodes to the ledger that restoring its objects makes. -/
theorem decode_of_readSnapshot (hfree : C.trie.CollisionFree) {b : Bytes} {n : UInt32}
    {entries : List (SnapshotEntry C)} (hread : (readSnapshot C).complete b = some (n, entries))
    (hfits : ∀ entry ∈ entries, entry.Fits) :
    ∃ M L', decode b = .ok L' ∧ M.stateRoot = some (L'.root, L') ∧ RestoredFrom n entries M ∧
      M.WellFormed ∧ M.Canonical ∧ M.tree = (Ledger.new : Ledger C).tree := by
  obtain ⟨M, hrun, hobs⟩ := observe_restored hfits (blank n : Ledger C)
  obtain ⟨hformed, hcanonical, htree⟩ := restored_facts hrun
  have hempty : C.trie.TrieAt M.tree TrieScheme.noContent := by
    rw [htree]
    exact TrieScheme.TrieAt.empty
  obtain ⟨L', hroot, -⟩ := hformed.stateRoot_content hfree hempty
  refine ⟨M, L', ?_, hroot, hobs, hformed, hcanonical, htree⟩
  unfold decode
  rw [hread]
  dsimp only
  rw [hrun]
  dsimp only
  rw [hroot]

/-- The root of restored objects is the commitment of their records, from scratch. -/
theorem RestoredFrom.upToDate {n : UInt32} {entries : List (SnapshotEntry C)}
    (hM : RestoredFrom n entries M) (hcanonical : M.Canonical)
    (htree : M.tree = (Ledger.new : Ledger C).tree) : M.UpToDate := by
  refine ⟨fun _ ↦ none, ?_, fun key hkey ↦ ?_⟩
  · have hempty : TrieScheme.contentOf (trieKey C) (fun _ ↦ (none : Option Bytes)) =
        TrieScheme.noContent := by
      funext path
      exact TrieScheme.contentOf_eq_none fun _ _ ↦ rfl
    rw [hempty, htree]
    exact TrieScheme.TrieAt.empty
  · have hmeta : key ≠ .metaRecord := fun heq ↦ hkey (hM.mem_dirty (.inl heq))
    rw [hcanonical.leaf_eq hmeta, hM.record_eq_none hmeta, Option.map_none]
    exact fun entry hentry heq ↦ hkey (hM.mem_dirty (.inr ⟨entry, hentry, heq⟩))

/-- The leaves of restored objects, and the flagged entries, are those of the objects and the meta
entry. -/
theorem RestoredFrom.exists_of_leaf {n : UInt32} {entries : List (SnapshotEntry C)}
    (hM : RestoredFrom n entries M) {key : DirtyKey} (hkey : M.view.leaf key ≠ none ∨ key ∈ M.dirty) :
    key = .metaRecord ∨ ∃ entry ∈ entries, entry.key = key := by
  rcases hkey with hleaf | hdirty
  · rcases record_of_leaf hleaf with hmeta | hrecord
    · exact .inl hmeta
    · by_contra hnone
      obtain ⟨hmeta, hfresh⟩ := not_or.mp hnone
      exact hrecord (hM.record_eq_none hmeta fun entry hentry heq ↦ hfresh ⟨entry, hentry, heq⟩)
  · exact hM.of_mem_dirty hdirty

/-- The root of a decoded ledger is the commitment of the records that were restored. -/
theorem RestoredFrom.stateRoot_eq {n : UInt32} {entries : List (SnapshotEntry C)}
    (hM : RestoredFrom n entries M) (hfree : C.trie.CollisionFree) (hformed : M.WellFormed)
    (hcanonical : M.Canonical) (htree : M.tree = (Ledger.new : Ledger C).tree) {root : C.Digest}
    (hdecoded : M.stateRoot = some (root, L')) (hpaths : Set.InjOn (trieKey C)
      { key | key = .metaRecord ∨ ∃ entry ∈ entries, entry.key = key }) :
    L'.stateRoot = some (M.view.commitment, L') := by
  obtain ⟨M', hcommitment, -⟩ := (hM.upToDate hcanonical htree).stateRoot hformed hfree
    (hpaths.mono fun _ ↦ hM.exists_of_leaf)
  obtain ⟨rfl, rfl⟩ := Prod.mk.inj (Option.some.inj (hdecoded.symm.trans hcommitment))
  obtain ⟨hvalue, -, hclone⟩ := hformed.stateRoot hdecoded
  have hdirty : L'.dirty = [] := (congrArg Ledger.dirty hclone :)
  rw [Ledger.stateRoot, if_pos hdirty, hvalue]

/-- A decoded ledger is up to date with the records that were restored. -/
theorem RestoredFrom.upToDate_decoded {n : UInt32} {entries : List (SnapshotEntry C)}
    (hM : RestoredFrom n entries M) (hfree : C.trie.CollisionFree) (hformed : M.WellFormed)
    (hcanonical : M.Canonical) (htree : M.tree = (Ledger.new : Ledger C).tree) {root : C.Digest}
    (hdecoded : M.stateRoot = some (root, L')) (hpaths : Set.InjOn (trieKey C)
      { key | key = .metaRecord ∨ ∃ entry ∈ entries, entry.key = key }) :
    L'.UpToDate := by
  obtain ⟨M', hcommitment, hstored⟩ := (hM.upToDate hcanonical htree).stateRoot hformed hfree
    (hpaths.mono fun _ ↦ hM.exists_of_leaf)
  obtain ⟨rfl, rfl⟩ := Prod.mk.inj (Option.some.inj (hdecoded.symm.trans hcommitment))
  refine ⟨M.view.leaf, hstored, fun key _ ↦ ?_⟩
  rw [hformed.view_stateRoot hdecoded]
  exact (congrFun (LedgerState.leaf_withDirty M.view ∅) key).symm

/-- What a ledger has in common with another that has its records. -/
theorem Restores.view (hM : Restores L M) :
    M.view = { L.view with
      metaRecord := some L.nextTokenId, dirty := { key | key ∈ M.dirty } } := by
  have hmeta : (M.record (.committed .metaRecord)).bind u32OfLe = some L.nextTokenId := by
    rw [hM.metaRecord, Option.bind_some, u32OfLe_u32Le]
  ext1 <;> simp [Ledger.view, LedgerState.ofRecords, hM.records, hM.nextTokenId, hmeta]

theorem leaf_of_restores (hM : Restores L M) : M.view.leaf = L.view.leaf := by
  funext key
  rw [hM.view]
  cases key <;> rfl

/-- The ledger after its root is computed has its records. -/
theorem WellFormed.agreeOn_stateRoot (hM : M.WellFormed) {root : C.Digest}
    (hroot : M.stateRoot = some (root, L')) : AgreeOn readable L' M := by
  obtain ⟨-, hformed, hclone⟩ := hM.stateRoot hroot
  have hobjects : L'.objects = M.objects := (congrArg Ledger.objects hclone :)
  have hnext : L'.nextTokenId = M.nextTokenId := (congrArg Ledger.nextTokenId hclone :)
  refine ⟨hformed, hM, ?_⟩
  rintro i (rfl | ⟨bytes, rfl, -⟩)
  · simp only [observe, hnext]
  · simp only [observe, hobjects]

/-- A byte string finds the same record in two ledgers whose keys do. -/
theorem get_eq_of_records (hM : M.Canonical) (hL : L.Canonical) {bytes : Bytes}
    (hrecords : ∀ key : RecordKey, bytes = key.bytes → M.record key = L.record key) :
    M.objects.get bytes = L.objects.get bytes := by
  by_cases hkey : ∃ key : RecordKey, bytes = key.bytes
  · obtain ⟨key, rfl⟩ := hkey
    exact hrecords key rfl
  · have hnone : ∀ {N : Ledger C}, N.Canonical → N.objects.get bytes = none := by
      intro N hN
      by_contra hsome
      obtain ⟨body, hbody⟩ := Option.ne_none_iff_exists'.mp hsome
      obtain ⟨key, heq, -⟩ := hN.exists_key hbody
      exact hkey ⟨key, heq⟩
    rw [hnone hM, hnone hL]

/-- Ledgers with the same committed records and ticker index cannot be told apart. -/
theorem agreeOn_of_records (hformed : M.WellFormed) (hformedL : L.WellFormed) (hM : M.Canonical)
    (hL : L.Canonical) (hnext : M.nextTokenId = L.nextTokenId)
    (hrecords : ∀ key, key ≠ .committed .metaRecord → M.record key = L.record key) :
    AgreeOn readable M L := by
  refine ⟨hformed, hformedL, ?_⟩
  rintro i (rfl | ⟨bytes, rfl, hbytes⟩)
  · simp only [observe, hnext]
  · show Sum.inl (M.objects.get bytes) = Sum.inl (L.objects.get bytes)
    apply congrArg Sum.inl
    exact get_eq_of_records hM hL fun key hkey ↦
      hrecords key fun heq ↦ hbytes (hkey.trans (congrArg RecordKey.bytes heq))

/-- A decoded ledger stands for its encoding: it has the same records, answers every query alike,
has the commitment of these records from scratch as its root, and gives the same results and the
same records for every later transaction. The stored copy of the next token id is apart from the
records: decoding always writes it, also where the ledger had none yet, and `object_records` lists
it. -/
structure Reboots (L L' : Ledger C) : Prop where
  decoded : decode L.encode = .ok L'
  records : ∀ bytes, bytes ≠ (RecordKey.committed .metaRecord).bytes →
    L'.objects.get bytes = L.objects.get bytes
  nextTokenId : L'.nextTokenId = L.nextTokenId ∧
    L'.record (.committed .metaRecord) = some (u32Le L.nextTokenId)
  queries : ∀ {α : Type} (program : LedgerM C α),
    (program.run handler L').1 = (program.run handler L).1
  stateRoot : L'.stateRoot = some (L.view.commitment, L')
  transactions : ∀ txs, (applyEach txs L').1 = (applyEach txs L).1
  recordsAfter : ∀ txs bytes, bytes ≠ (RecordKey.committed .metaRecord).bytes →
    (applyEach txs L').2.objects.get bytes = (applyEach txs L).2.objects.get bytes

/-- A ledger whose sections are short enough reboots. -/
theorem Canonical.exists_reboots (hL : L.Canonical) (hformed : L.WellFormed)
    (htickers : L.view.TickersIndexed) (hfree : C.trie.CollisionFree)
    (hpaths : Set.InjOn (trieKey C) { key | L.view.leaf key ≠ none }) (hfits : L.SectionsFit) :
    ∃ L', Reboots L L' := by
  obtain ⟨objects, hlists⟩ := hL.exists_lists
  obtain ⟨M, L', hdecode, hroot, hM, hformedM, hcanonicalM, htree⟩ :=
    decode_of_readSnapshot hfree (hlists.readSnapshot hfits) fun entry hentry ↦
      (hlists.mem.mp hentry).1.fits
  have hrestores := hlists.restores hL htickers hM
  have hpathsM : Set.InjOn (trieKey C)
      { key | key = .metaRecord ∨ ∃ entry ∈ SnapshotSection.all.flatMap objects,
        entry.key = key } := by
    apply hpaths.mono
    rintro key (rfl | ⟨entry, hentry, rfl⟩)
    · exact Option.some_ne_none _
    · obtain ⟨-, hrecord⟩ := hlists.mem.mp hentry
      show L.view.leaf entry.key ≠ none
      rw [hL.leaf_eq entry.key_ne_metaRecord, hrecord]
      exact Option.some_ne_none _
  have hrooted := hformedM.agreeOn_stateRoot hroot
  have hagree : AgreeOn readable L' L :=
    hrooted.trans (agreeOn_of_records hformedM hformed hcanonicalM hL hrestores.nextTokenId
      hrestores.records)
  refine ⟨L', hdecode, fun bytes ↦ hagree.records_of_readable, ?_, hagree.run_readable, ?_,
    fun txs ↦ (hagree.applyEach txs).1, fun txs bytes ↦
      (hagree.applyEach txs).2.records_of_readable⟩
  · obtain ⟨-, -, hclone⟩ := hformedM.stateRoot hroot
    have hobjects : L'.objects = M.objects := (congrArg Ledger.objects hclone :)
    have hrecord : L'.record (.committed .metaRecord) = M.record (.committed .metaRecord) := by
      rw [Ledger.record, Ledger.record, hobjects]
    exact ⟨hagree.nextTokenId_of_readable, hrecord.trans hrestores.metaRecord⟩
  · rw [hM.stateRoot_eq hfree hformedM hcanonicalM htree hroot hpathsM, LedgerState.commitment,
      LedgerState.commitment, LedgerState.content, LedgerState.content, leaf_of_restores hrestores]

/-! ### Sections that are too long -/

/-- Every object of a section is of its kind. -/
theorem yields_sec (sec : SnapshotSection) :
    Reader.Yields (readEntry C sec) fun entry ↦ entry.sec = sec := by
  have hone : ∀ {α : Type} (reader : Reader α) {make : α → SnapshotEntry C},
      (∀ value, (make value).sec = sec) →
      Reader.Yields (reader >>= fun value ↦ pure (make value)) fun entry ↦ entry.sec = sec :=
    fun reader make hmake ↦ (Reader.Yields.any reader).bind fun value _ ↦ .pure (hmake value)
  cases sec with
  | accounts | contracts | validators | htlcs =>
    exact (Reader.Yields.any _).bind fun id _ ↦ hone _ fun _ ↦ rfl
  | tokens | nullifiers | curves => exact hone _ fun _ ↦ rfl
  | pools =>
    refine (Reader.Yields.any _).bind fun p _ ↦ ?_
    split
    · exact .failure
    · exact .pure rfl
  | lps =>
    refine (Reader.Yields.any _).bind fun bytes _ ↦ (Reader.Yields.any _).bind fun token _ ↦
      (Reader.Yields.any _).bind fun provider _ ↦ (Reader.Yields.any _).bind fun shares _ ↦ ?_
    split
    · exact .failure
    · exact .pure rfl

/-- A counted section has as many objects as its count says, all of its kind. -/
theorem yields_counted (sec : SnapshotSection) (n : ℕ) (rest : Bytes)
    {read : List (SnapshotEntry C)} {left : Bytes}
    (hread : readCounted (readEntry C sec) (leBytes 4 n ++ rest) = some (read, left)) :
    read.length = n % 2 ^ 32 ∧ ∀ entry ∈ read, entry.sec = sec := by
  obtain ⟨count, mid, hcount, hmany⟩ := Reader.bind_eq_some.mp hread
  obtain ⟨hlength, hsec⟩ := (yields_sec sec).many count.toNat _ _ _ hmany
  refine ⟨?_, hsec⟩
  have hword : leBytes 4 n = u32Le (UInt32.ofNat n) := by
    rw [u32Le, UInt32.toNat_ofNat', ← leBytes_mod]
    rfl
  have hbytes := Reader.u32_eq_some.mp hcount
  rw [hword] at hbytes
  obtain ⟨hsame, -⟩ := List.append_inj hbytes (by simp)
  rw [hlength, ← u32Le_injective hsame, UInt32.toNat_ofNat']

/-- Objects of one kind after another are each of one of the kinds. -/
theorem yields_sections (secs : List SnapshotSection) :
    Reader.Yields (readSections C secs) fun read ↦ ∀ entry ∈ read, entry.sec ∈ secs := by
  induction secs with
  | nil => exact .pure (by simp)
  | cons sec secs ih =>
    have hcounted : Reader.Yields (readCounted (readEntry C sec)) fun first ↦
        ∀ entry ∈ first, entry.sec = sec :=
      (Reader.Yields.any _).bind fun count _ input value rest hread ↦
        ((yields_sec sec).many count.toNat input value rest hread).2
    refine hcounted.bind fun first hfirst ↦ ih.bind fun others hothers ↦ .pure ?_
    intro entry hentry
    rcases List.mem_append.mp hentry with hmem | hmem
    · rw [hfirst entry hmem]
      exact List.mem_cons_self
    · exact List.mem_cons_of_mem _ (hothers entry hmem)

/-- Of a section that is too long the objects that are read are fewer than its records. -/
theorem Lists.lost {objects : SnapshotSection → List (SnapshotEntry C)} (hlists : L.Lists objects)
    {secs : List SnapshotSection} (hdistinct : secs.Nodup)
    (hlong : ∃ sec ∈ secs, 2 ^ 32 ≤ (L.scan sec.tag).length) {rest left : Bytes}
    {read : List (SnapshotEntry C)}
    (hread : readSections C secs (secs.flatMap L.encodeSection ++ rest) = some (read, left)) :
    ∃ sec ∈ secs, ∃ kept : List (SnapshotEntry C), kept.length < (L.scan sec.tag).length ∧
      ∀ entry ∈ read, entry.sec = sec → entry ∈ kept := by
  induction secs generalizing read left with
  | nil => simp at hlong
  | cons sec secs ih =>
    obtain ⟨hfresh, hdistinct⟩ := List.nodup_cons.mp hdistinct
    obtain ⟨first, mid, hfirst, hothers⟩ := Reader.bind_eq_some.mp hread
    obtain ⟨others, last, hsections, hpure⟩ := Reader.bind_eq_some.mp hothers
    obtain ⟨rfl, -⟩ := Reader.pure_eq_some.mp hpure
    rw [List.flatMap_cons, List.append_assoc] at hfirst
    by_cases hfits : (L.scan sec.tag).length < 2 ^ 32
    · -- the section reads back, so the long one is behind it
      rw [hlists.reads_section hfits] at hfirst
      obtain ⟨rfl, rfl⟩ := Prod.mk.inj (Option.some.inj hfirst)
      have hlater : ∃ later ∈ secs, 2 ^ 32 ≤ (L.scan later.tag).length := by
        obtain ⟨later, hmem, hlength⟩ := hlong
        rcases List.mem_cons.mp hmem with rfl | hmem
        · exact absurd hfits (not_lt.mpr hlength)
        · exact ⟨later, hmem, hlength⟩
      obtain ⟨short, hshort, kept, hlength, hkept⟩ := ih hdistinct hlater hsections
      refine ⟨short, List.mem_cons_of_mem _ hshort, kept, hlength, fun entry hentry hsec ↦ ?_⟩
      rcases List.mem_append.mp hentry with hmem | hmem
      · have hfirst := (hlists.stored sec entry hmem).1
        rw [hsec] at hfirst
        exact absurd (hfirst ▸ hshort) hfresh
      · exact hkept entry hmem hsec
    · refine ⟨sec, List.mem_cons_self, first, ?_, ?_⟩
      · rw [Ledger.encodeSection, List.append_assoc] at hfirst
        have hcount := (yields_counted sec _ _ hfirst).1
        have hbound := Nat.mod_lt (L.scan sec.tag).length (Nat.two_pow_pos 32)
        omega
      · intro entry hentry hsec
        rcases List.mem_append.mp hentry with hmem | hmem
        · exact hmem
        · have hother := yields_sections secs _ _ _ hsections entry hmem
          rw [hsec] at hother
          exact absurd hother hfresh

/-! ### Decoded snapshots -/

/-- An object that is restored made its updates and no others. -/
theorem observe_of_restore {entry : SnapshotEntry C} {value : Unit}
    (hrun : entry.restore.run handler M = (.ok value, M')) :
    (fun i ↦ observe i M') = updated (fun i ↦ observe i M) (entry.updates M.nextTokenId) := by
  rw [SnapshotEntry.restore, Program.run_bind, LedgerM.command, Program.perform,
    Program.run] at hrun
  cases hexec : handler.exec entry.put M with
  | none =>
    rw [hexec] at hrun
    exact absurd (Prod.mk.inj hrun).1 (by simp)
  | some answer =>
    obtain ⟨reply, M₁⟩ := answer
    rw [hexec] at hrun
    have hmark : M' = M₁.mark entry.key := (Prod.mk.inj hrun).2.symm
    rw [hmark, observe_mark, observe_exec hexec, SnapshotEntry.updates, updated, updated,
      List.foldl_append]
    rfl

theorem observe_of_restored {entries : List (SnapshotEntry C)} {value : Unit}
    (hrun : (Program.forEach entries SnapshotEntry.restore).run handler M = (.ok value, M')) :
    (fun i ↦ observe i M') =
      updated (fun i ↦ observe i M) (entries.flatMap (SnapshotEntry.updates M.nextTokenId)) := by
  induction entries generalizing M with
  | nil =>
    obtain rfl : M = M' := (Prod.mk.inj hrun).2
    rfl
  | cons entry rest ih =>
    rw [Program.forEach_cons, Program.run_bind] at hrun
    rcases hfirst : entry.restore.run handler M with ⟨_ | _ | _, M₁⟩
    all_goals rw [hfirst] at hrun
    · have hobs := observe_of_restore hfirst
      have hnext : M₁.nextTokenId = M.nextTokenId := by
        apply nextTokenId_eq_of_observe
        rw [congrFun hobs .nextTokenId]
        exact updated_of_notMem (entry.nextTokenId_notMem_updates _)
      rw [ih hrun, hnext, hobs, List.flatMap_cons, updated, updated, updated, List.foldl_append]
    · exact absurd (Prod.mk.inj hrun).1 (by simp)
    · exact absurd (Prod.mk.inj hrun).1 (by simp)

/-- What a decoded ledger comes from. -/
theorem decode_eq_ok {b : Bytes} (hdecode : decode b = .ok L') :
    ∃ n entries M root, (readSnapshot C).complete b = some (n, entries) ∧
      (Program.forEach entries SnapshotEntry.restore).run handler (blank n) = (.ok (), M) ∧
      RestoredFrom n entries M ∧ M.stateRoot = some (root, L') := by
  unfold decode at hdecode
  cases hread : (readSnapshot C).complete b with
  | none =>
    rw [hread] at hdecode
    exact absurd hdecode (by simp)
  | some parsed =>
    obtain ⟨n, entries⟩ := parsed
    rw [hread] at hdecode
    dsimp only at hdecode
    rcases hrun : (Program.forEach entries SnapshotEntry.restore).run handler
      (blank n : Ledger C) with ⟨_ | _ | _, M⟩
    all_goals
      rw [hrun] at hdecode
      dsimp only at hdecode
    · cases hroot : M.stateRoot with
      | none =>
        rw [hroot] at hdecode
        exact absurd hdecode (by simp)
      | some rooted =>
        obtain ⟨root, L''⟩ := rooted
        rw [hroot] at hdecode
        obtain rfl := Outcome.ok.inj hdecode
        exact ⟨n, entries, M, root, rfl, hrun, observe_of_restored hrun, hroot⟩
    · exact absurd hdecode (by simp)
    · exact absurd hdecode (by simp)

/-- The records of a decoded ledger are records of its objects. -/
theorem RestoredFrom.exists_entry_of_get {n : UInt32} {entries : List (SnapshotEntry C)}
    (hM : RestoredFrom n entries M) {key : DirtyKey} (hkey : key ≠ .metaRecord) {body : Bytes}
    (hget : M.record (.committed key) = some body) : ∃ entry ∈ entries, entry.key = key := by
  by_contra hnone
  rw [hM.record_eq_none hkey fun entry hentry heq ↦ hnone ⟨entry, hentry, heq⟩] at hget
  exact absurd hget (by simp)

theorem scan_nodup (L : Ledger C) (tag : UInt8) : ((L.scan tag).map Prod.fst).Nodup := by
  have hsublist : (L.scan tag).Sublist L.objects.merged.toList := List.filter_sublist
  exact List.Nodup.sublist (hsublist.map _) (FMap.nodup_keys _)

/-- The objects of an encoding are what is read of its sections. -/
theorem readSections_of_readSnapshot {n : UInt32} {entries : List (SnapshotEntry C)}
    (hread : (readSnapshot C).complete L.encode = some (n, entries)) :
    ∃ left, readSections C SnapshotSection.all
      (SnapshotSection.all.flatMap L.encodeSection ++ []) = some (entries, left) := by
  have hwhole := Reader.complete_eq_some.mp hread
  have hmagic : Reader.Reads (Reader.take 8) LEDGER_MAGIC LEDGER_MAGIC :=
    Reader.Reads.take LEDGER_MAGIC
  have hencode : L.encode = LEDGER_MAGIC ++
      (u32Le L.nextTokenId ++ (SnapshotSection.all.flatMap L.encodeSection ++ [])) := by
    rw [encode, List.append_nil, List.append_assoc]
  rw [hencode, readSnapshot, hmagic.bind_apply, if_pos rfl,
    (Reader.Reads.u32 L.nextTokenId).bind_apply] at hwhole
  obtain ⟨read, left, hsections, hpure⟩ := Reader.bind_eq_some.mp hwhole
  obtain ⟨hpair, -⟩ := Reader.pure_eq_some.mp hpure
  rw [← (Prod.mk.inj hpair).2]
  exact ⟨left, hsections⟩

/-- A ledger that reboots has sections that are short enough. -/
theorem Reboots.sectionsFit (hL : L.Canonical) (hreboots : Reboots L L') : L.SectionsFit := by
  by_contra hlong
  obtain ⟨objects, hlists⟩ := hL.exists_lists
  obtain ⟨n, entries, M, root, hread, hrun, hM, hroot⟩ := decode_eq_ok hreboots.decoded
  obtain ⟨hformed, -, -⟩ := restored_facts hrun
  have hobjects : L'.objects = M.objects := by
    obtain ⟨-, -, hclone⟩ := hformed.stateRoot hroot
    exact (congrArg Ledger.objects hclone :)
  obtain ⟨left, hsections⟩ := readSections_of_readSnapshot hread
  have hsome : ∃ sec ∈ SnapshotSection.all, 2 ^ 32 ≤ (L.scan sec.tag).length := by
    obtain ⟨sec, hsec⟩ := not_forall.mp hlong
    exact ⟨sec, sec.mem_all, not_lt.mp hsec⟩
  obtain ⟨sec, -, kept, hlength, hkept⟩ := hlists.lost (by decide) hsome hsections
  have hcovered : (L.scan sec.tag).map Prod.fst ⊆
      kept.map fun entry ↦ (RecordKey.committed entry.key).bytes := by
    intro bytes hmem
    obtain ⟨⟨_, body⟩, hscan, rfl⟩ := List.mem_map.mp hmem
    obtain ⟨hget, hhead⟩ := mem_scan.mp hscan
    obtain ⟨key, rfl, hcanonical⟩ := hL.exists_key hget
    obtain ⟨object, hsec, hstored, hrecord⟩ := exists_entry hcanonical hhead
    have hkey : key = .committed object.key := RecordKey.bytes_injective (Prod.mk.inj hrecord).1.symm
    subst hkey
    have hsame : M.record (.committed object.key) = some body := by
      rw [Ledger.record, ← hobjects, hreboots.records]
      · exact hget
      · intro heq
        exact object.key_ne_metaRecord (RecordKey.committed.inj (RecordKey.bytes_injective heq))
    obtain ⟨entry, hentry, hentryKey⟩ := hM.exists_entry_of_get object.key_ne_metaRecord hsame
    have hentrySec : entry.sec = sec := by
      have hentryHead := entry.head_record
      rw [SnapshotEntry.record, hentryKey, hhead] at hentryHead
      exact (SnapshotSection.tag_injective (Option.some.inj hentryHead)).symm
    exact List.mem_map.mpr ⟨entry, hkept entry hentry hentrySec, by rw [hentryKey]⟩
  have hshort := ((scan_nodup L sec.tag).subperm hcovered).length_le
  rw [List.length_map, List.length_map] at hshort
  omega

/-- A snapshot of a reachable ledger, whose entries have distinct paths, round trips exactly when
every kind has fewer than `2 ^ 32` records. -/
theorem Reachable.snapshot_round_trips_iff (hfree : C.trie.CollisionFree) (hL : L.Reachable)
    (hpaths : Set.InjOn (trieKey C) { key | L.view.leaf key ≠ none }) :
    (∃ L', Reboots L L') ↔ L.SectionsFit := by
  obtain ⟨hformed, hview⟩ := hL.view
  constructor
  · rintro ⟨L', hreboots⟩
    exact hreboots.sectionsFit hL.canonical
  · intro hfits
    exact hL.canonical.exists_reboots hformed hview.tickersIndexed hfree hpaths hfits

/-- A ledger whose records are those of a short list of entries has short sections. -/
theorem sectionsFit_of_keys {entries : List DirtyKey}
    (hkeys : ∀ bytes ∈ L.objectRecords.map Prod.fst, ∃ key ∈ entries,
      bytes = RecordKey.bytes (.committed key)) (hshort : entries.length < 2 ^ 32) :
    L.SectionsFit := by
  intro sec
  have hlisted : (L.scan sec.tag).map Prod.fst ⊆
      entries.map fun key ↦ RecordKey.bytes (.committed key) := by
    intro bytes hmem
    obtain ⟨⟨_, body⟩, hscan, rfl⟩ := List.mem_map.mp hmem
    have hstored := List.mem_map_of_mem (f := Prod.fst) (List.mem_of_mem_filter hscan)
    obtain ⟨key, hkey, hbytes⟩ := hkeys _ hstored
    exact List.mem_map.mpr ⟨key, hkey, hbytes.symm⟩
  have hlength := ((scan_nodup L sec.tag).subperm hlisted).length_le
  rw [List.length_map, List.length_map] at hlength
  omega

/-- The snapshot of `staked` round trips. -/
theorem staked_reboots : ∃ L', Reboots staked L' := by
  refine (Reachable.snapshot_round_trips_iff freeSuite_collisionFree reachable_staked.reachable
    ?_).mpr (sectionsFit_of_keys staked_facts.2.2.2.2.1 (by decide))
  exact injOn_stakedEntries.mono fun key hkey ↦ mem_stakedEntries hkey

/-- A new account is registered. -/
theorem WellFormed.register (hL : L.WellFormed) {id : Bytes32} (hnew : L.view.account id = none) :
    ∃ L', L.step (.register id) = some L' ∧
      L'.view.account = Function.update L.view.account id (some Account.default) := by
  have hruns : LedgerState.Runs (LedgerM.register id) L.view ()
      ((L.view.setAccount id Account.default).setDirty (.account id)) := by
    simp [LedgerM.register, hnew, Account.Fits, Account.default]
  obtain ⟨hsame, -, hview⟩ := run_view hL (LedgerM.register id)
  rw [hruns] at hsame hview
  refine ⟨(L.register id).2, step_register hsame, ?_⟩
  exact (congrArg LedgerState.account hview :)

/-- Ledgers with any number of accounts are reachable. -/
theorem exists_registered (C : CryptoSuite) {n : ℕ} (hn : n ≤ 2 ^ 256) :
    ∃ L : Ledger C, L.Reachable ∧
      ∀ k < 2 ^ 256, L.view.account (BitVec.ofNat 256 k) = none ↔ n ≤ k := by
  induction n with
  | zero =>
    refine ⟨Ledger.new, .refl, fun k _ ↦ iff_of_true ?_ (Nat.zero_le k)⟩
    rw [view_new]
    rfl
  | succ n ih =>
    obtain ⟨L, hL, haccounts⟩ := ih (Nat.le_of_succ_le hn)
    obtain ⟨L', hstep, haccount⟩ := hL.view.1.register ((haccounts n hn).mpr le_rfl)
    refine ⟨L', hL.step (.register _) trivial hstep, fun k hk ↦ ?_⟩
    rw [haccount, Function.update_apply]
    by_cases hsame : k = n
    · subst hsame
      rw [if_pos rfl]
      exact iff_of_false (by simp) (by omega)
    · have hother : BitVec.ofNat 256 k ≠ BitVec.ofNat 256 n := by
        intro heq
        have hvalue := congrArg BitVec.toNat heq
        rw [BitVec.toNat_ofNat, BitVec.toNat_ofNat, Nat.mod_eq_of_lt hk,
          Nat.mod_eq_of_lt hn] at hvalue
        exact hsame hvalue
      rw [if_neg hother, haccounts k hk]
      omega

/-- Every registered account is in the section of the accounts. -/
theorem le_length_scan {n : ℕ} (hn : n ≤ 2 ^ 256)
    (haccounts : ∀ k < n, L.view.account (BitVec.ofNat 256 k) ≠ none) :
    n ≤ (L.scan SnapshotSection.accounts.tag).length := by
  let keys := (List.range n).map fun k ↦ (RecordKey.committed (.account (BitVec.ofNat 256 k))).bytes
  have hdistinct : keys.Nodup := by
    refine List.Nodup.map_on ?_ List.nodup_range
    intro k hk k' hk' heq
    have hsame := DirtyKey.account.inj (RecordKey.committed.inj (RecordKey.bytes_injective heq))
    have hvalue := congrArg BitVec.toNat hsame
    rwa [BitVec.toNat_ofNat, BitVec.toNat_ofNat,
      Nat.mod_eq_of_lt ((List.mem_range.mp hk).trans_le hn),
      Nat.mod_eq_of_lt ((List.mem_range.mp hk').trans_le hn)] at hvalue
  have hstored : keys ⊆ (L.scan SnapshotSection.accounts.tag).map Prod.fst := by
    intro bytes hmem
    obtain ⟨k, hk, rfl⟩ := List.mem_map.mp hmem
    obtain ⟨a, ha⟩ := Option.ne_none_iff_exists'.mp (haccounts k (List.mem_range.mp hk))
    obtain ⟨body, hbody, -⟩ := Option.bind_eq_some_iff.mp ha
    exact List.mem_map.mpr ⟨(_, body), mem_scan.mpr ⟨hbody, rfl⟩, rfl⟩
  have hlength := (hdistinct.subperm hstored).length_le
  rwa [List.length_map, List.length_map, List.length_range] at hlength

/-- A ledger with `2 ^ 32` accounts has no snapshot that it boots from. -/
theorem too_many_accounts_lost :
    ∃ L : Ledger freeSuite, L.Reachable ∧ freeSuite.trie.CollisionFree ∧
      ¬ ∃ L', Reboots L L' := by
  obtain ⟨n, hn⟩ : ∃ n : ℕ, n = 2 ^ 32 := ⟨_, rfl⟩
  have hids : n ≤ 2 ^ 256 := by
    rw [hn]
    exact Nat.pow_le_pow_right Nat.zero_lt_two (by decide)
  obtain ⟨L, hL, haccounts⟩ := exists_registered freeSuite hids
  refine ⟨L, hL, freeSuite_collisionFree, ?_⟩
  rintro ⟨L', hreboots⟩
  have hshort := hreboots.sectionsFit hL.canonical .accounts
  have hlong := le_length_scan hids fun k hk ↦ mt (haccounts k (hk.trans_le hids)).mp hk.not_ge
  omega

end Latebra.State.Ledger
