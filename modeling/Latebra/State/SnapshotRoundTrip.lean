import Latebra.State.Backing
import Latebra.State.Snapshot

/-!
# Snapshots restored

Every record of a ledger that the node reaches is the record of one object of a snapshot
(`SnapshotEntry.record`), and what a snapshot holds of it reads back as that object
(`SnapshotEntry.reads`). Restoring a list of objects puts their records one after the other
(`observe_restored`).

As long as each kind has fewer than `2 ^ 32` records (`SectionsFit`), the snapshot of a ledger reads
back as its next token id and its objects (`Lists.readSnapshot`), and restoring them gives a ledger
with its records (`Lists.restores`).
-/

set_option autoImplicit false
set_option relaxedAutoImplicit false

namespace Latebra.State

open Foundation Crypto Latebra.Types Contracts

variable {C : CryptoSuite}

namespace SnapshotEntry

/-- The record body of an object. -/
def body : SnapshotEntry C → Bytes
  | account _ a => encodeAccount a
  | token t => encodeToken t
  | contract _ c => encodeContract c
  | nullifier _ => [1]
  | validator _ v => encodeValidator v
  | pool p => encodePool p
  | lp _ _ shares => u64Le shares
  | htlc _ h => encodeHtlc h
  | curve c => encodeCurve c

/-- The record of an object. -/
def record (entry : SnapshotEntry C) : Bytes × Bytes :=
  ((RecordKey.committed entry.key).bytes, entry.body)

/-- The counts in the record of an object fit. -/
def Fits : SnapshotEntry C → Prop
  | account _ a => a.Fits
  | token t => t.Fits
  | contract _ c => c.Fits
  | validator _ v => v.Fits
  | _ => True

/-- An object whose write deletes its record. -/
def Empty : SnapshotEntry C → Prop
  | validator _ v => v.Drained
  | pool p => p.lpSupply = 0
  | lp _ _ shares => shares = 0
  | _ => False

instance : DecidablePred (Empty : SnapshotEntry C → Prop)
  | validator _ v => inferInstanceAs (Decidable v.Drained)
  | pool p => inferInstanceAs (Decidable (p.lpSupply = 0))
  | lp _ _ shares => inferInstanceAs (Decidable (shares = 0))
  | account _ _ | token _ | contract _ _ | nullifier _ | htlc _ _ | curve _ =>
    inferInstanceAs (Decidable False)

/-- An object that a ledger stores: its counts fit, and its write does not delete it. -/
structure Stored (entry : SnapshotEntry C) : Prop where
  fits : entry.Fits
  kept : ¬ entry.Empty

/-- The key of a record starts with the tag of its section. -/
theorem head_record (entry : SnapshotEntry C) :
    entry.record.1.head? = some entry.sec.tag := by
  cases entry <;> rfl

theorem key_ne_metaRecord (entry : SnapshotEntry C) : entry.key ≠ .metaRecord := by
  cases entry <;> exact nofun

/-- What a snapshot holds of a stored object reads back. -/
theorem reads {entry : SnapshotEntry C} (hstored : entry.Stored) :
    Reader.Reads (readEntry C entry.sec) entry (entry.sec.written entry.record) := by
  cases entry with
  | account id a =>
    have hreads : Reader.Reads (readEntry C .accounts) (account id a)
        (bytesOf32 id ++ (encodeAccount a ++ [])) :=
      (Reader.Reads.arr32 id).bind ((reads_account hstored.fits).bind (Reader.Reads.pure _))
    rwa [List.append_nil] at hreads
  | token t =>
    have hreads : Reader.Reads (readEntry C .tokens) (token t) (encodeToken t ++ []) :=
      (reads_token hstored.fits).bind (Reader.Reads.pure _)
    rwa [List.append_nil] at hreads
  | contract id c =>
    have hreads : Reader.Reads (readEntry C .contracts) (contract id c)
        (bytesOf32 id ++ (encodeContract c ++ [])) :=
      (Reader.Reads.arr32 id).bind ((reads_contract hstored.fits).bind (Reader.Reads.pure _))
    rwa [List.append_nil] at hreads
  | nullifier nf =>
    have hreads : Reader.Reads (readEntry C .nullifiers) (nullifier nf) (bytesOf32 nf ++ []) :=
      (Reader.Reads.arr32 nf).bind (Reader.Reads.pure _)
    rwa [List.append_nil] at hreads
  | validator id v =>
    have hreads : Reader.Reads (readEntry C .validators) (validator id v)
        (bytesOf32 id ++ (encodeValidator v ++ [])) :=
      (Reader.Reads.arr32 id).bind ((reads_validator hstored.fits).bind (Reader.Reads.pure _))
    rwa [List.append_nil] at hreads
  | pool p =>
    have hkept : p.lpSupply ≠ 0 := hstored.kept
    have hlast : Reader.Reads (if p.lpSupply = 0 then Reader.failure else
        pure (pool p : SnapshotEntry C)) (pool p) [] := by
      rw [if_neg hkept]
      exact Reader.Reads.pure _
    have hreads : Reader.Reads (readEntry C .pools) (pool p) (encodePool p ++ []) :=
      (reads_pool p).bind hlast
    rwa [List.append_nil] at hreads
  | lp paired provider shares =>
    have hkept : shares ≠ 0 := hstored.kept
    have hlast : Reader.Reads (if shares = 0 then Reader.failure else
        pure (lp paired provider shares : SnapshotEntry C)) (lp paired provider shares) [] := by
      rw [if_neg hkept]
      exact Reader.Reads.pure _
    have hpaired := Reader.Reads.take (u32Be paired)
    rw [length_u32Be] at hpaired
    have hreads : Reader.Reads (readEntry C .lps) (lp paired provider shares)
        (u32Be paired ++ ([] ++ (bytesOf32 provider ++ (u64Le shares ++ [])))) :=
      hpaired.bind ((Reader.Reads.ofOption (u32OfBe_u32Be paired)).bind
        ((Reader.Reads.arr32 provider).bind ((Reader.Reads.u64 shares).bind hlast)))
    rw [List.nil_append, List.append_nil, ← List.append_assoc] at hreads
    exact hreads
  | htlc id h =>
    have hreads : Reader.Reads (readEntry C .htlcs) (htlc id h)
        (bytesOf32 id ++ (encodeHtlc h ++ [])) :=
      (Reader.Reads.arr32 id).bind ((reads_htlc h).bind (Reader.Reads.pure _))
    rwa [List.append_nil] at hreads
  | curve c =>
    have hreads : Reader.Reads (readEntry C .curves) (curve c) (encodeCurve c ++ []) :=
      (reads_curve c).bind (Reader.Reads.pure _)
    rwa [List.append_nil] at hreads

/-- Stored objects of one section with the same record are the same. -/
theorem eq_of_record {entry other : SnapshotEntry C} (hstored : entry.Stored)
    (hother : other.Stored) (hsec : other.sec = entry.sec) (hrecord : other.record = entry.record) :
    other = entry := by
  have hreads := reads hother []
  rw [hsec, hrecord, reads hstored []] at hreads
  exact (Prod.mk.inj (Option.some.inj hreads)).1.symm

end SnapshotEntry

/-! ### The objects of a ledger -/

namespace Ledger

variable {L L' M : Ledger C}

/-- A canonical record in a section is the record of a stored object of that section. -/
theorem exists_entry {sec : SnapshotSection} {key : RecordKey} {body : Bytes}
    (hcanonical : CanonicalRecord C body key) (htag : key.bytes.head? = some sec.tag) :
    ∃ entry : SnapshotEntry C, entry.sec = sec ∧ entry.Stored ∧
      entry.record = (key.bytes, body) := by
  have hentry : (∃ entry : SnapshotEntry C, entry.Stored ∧ entry.record = (key.bytes, body)) ∨
      key = .committed .metaRecord ∨ ∃ name, key = .ticker name := by
    rcases key with (id | id | id | nf | id | token | token | ⟨token, provider⟩ | id | _) | name
    · obtain ⟨a, hfits, rfl⟩ := hcanonical
      exact .inl ⟨.account id a, ⟨hfits, not_false⟩, rfl⟩
    · obtain ⟨t, hfits, rfl, rfl⟩ := hcanonical
      exact .inl ⟨.token t, ⟨hfits, not_false⟩, rfl⟩
    · obtain ⟨c, hfits, rfl⟩ := hcanonical
      exact .inl ⟨.contract id c, ⟨hfits, not_false⟩, rfl⟩
    · obtain rfl := hcanonical
      exact .inl ⟨.nullifier nf, ⟨trivial, not_false⟩, rfl⟩
    · obtain ⟨v, hkept, hfits, rfl⟩ := hcanonical
      exact .inl ⟨.validator id v, ⟨hfits, hkept⟩, rfl⟩
    · obtain ⟨p, hkept, rfl, rfl⟩ := hcanonical
      exact .inl ⟨.pool p, ⟨trivial, hkept⟩, rfl⟩
    · obtain ⟨c, rfl, rfl⟩ := hcanonical
      exact .inl ⟨.curve c, ⟨trivial, not_false⟩, rfl⟩
    · obtain ⟨shares, hkept, rfl⟩ := hcanonical
      exact .inl ⟨.lp token provider shares, ⟨trivial, hkept⟩, rfl⟩
    · obtain ⟨h, rfl⟩ := hcanonical
      exact .inl ⟨.htlc id h, ⟨trivial, not_false⟩, rfl⟩
    · exact .inr (.inl rfl)
    · exact .inr (.inr ⟨name, rfl⟩)
  rcases hentry with ⟨entry, hstored, hrecord⟩ | rfl | ⟨name, rfl⟩
  · have hhead := entry.head_record
    rw [hrecord, htag] at hhead
    exact ⟨entry, SnapshotSection.tag_injective (Option.some.inj hhead).symm, hstored, hrecord⟩
  · exact absurd htag (by cases sec <;> decide)
  · have htags : REC_TICKER ≠ sec.tag := by cases sec <;> decide
    exact absurd (Option.some.inj htag) htags

theorem mem_scan {tag : UInt8} {bytes body : Bytes} :
    (bytes, body) ∈ L.scan tag ↔ L.objects.get bytes = some body ∧ bytes.head? = some tag := by
  rw [scan, FMap.mem_entriesWhere, OverlayMap.lookup_merged, decide_eq_true_eq]

/-- The records of a list are the records of stored objects of a section, when each of them is. -/
theorem exists_entries_of_records {sec : SnapshotSection} {records : List (Bytes × Bytes)}
    (hrecords : ∀ found ∈ records, ∃ entry : SnapshotEntry C, entry.sec = sec ∧ entry.Stored ∧
      entry.record = found) :
    ∃ entries : List (SnapshotEntry C), entries.map SnapshotEntry.record = records ∧
      ∀ entry ∈ entries, entry.sec = sec ∧ entry.Stored := by
  induction records with
  | nil => exact ⟨[], rfl, by simp⟩
  | cons found rest ih =>
    obtain ⟨hfirst, hrest⟩ := List.forall_mem_cons.mp hrecords
    obtain ⟨entry, hsec, hstored, hrecord⟩ := hfirst
    obtain ⟨entries, hmap, hentries⟩ := ih hrest
    refine ⟨entry :: entries, by rw [List.map_cons, hrecord, hmap], ?_⟩
    exact List.forall_mem_cons.mpr ⟨⟨hsec, hstored⟩, hentries⟩

/-- The records of a section are those of stored objects. -/
theorem Canonical.exists_entries (hL : L.Canonical) (sec : SnapshotSection) :
    ∃ entries : List (SnapshotEntry C), entries.map SnapshotEntry.record = L.scan sec.tag ∧
      ∀ entry ∈ entries, entry.sec = sec ∧ entry.Stored := by
  apply exists_entries_of_records
  rintro ⟨bytes, body⟩ hfound
  obtain ⟨hstored, htag⟩ := mem_scan.mp hfound
  obtain ⟨key, rfl, hcanonical⟩ := hL.exists_key hstored
  exact exists_entry hcanonical htag

/-- The objects of a ledger, section by section. -/
structure Lists (L : Ledger C) (objects : SnapshotSection → List (SnapshotEntry C)) : Prop where
  records : ∀ sec, (objects sec).map SnapshotEntry.record = L.scan sec.tag
  stored : ∀ sec, ∀ entry ∈ objects sec, entry.sec = sec ∧ entry.Stored

theorem Canonical.exists_lists (hL : L.Canonical) : ∃ objects, L.Lists objects := by
  choose objects hrecords hstored using hL.exists_entries
  exact ⟨objects, hrecords, hstored⟩

theorem Lists.length {objects : SnapshotSection → List (SnapshotEntry C)}
    (hlists : L.Lists objects) (sec : SnapshotSection) :
    (objects sec).length = (L.scan sec.tag).length := by
  rw [← hlists.records sec, List.length_map]

/-- The objects of a ledger are those whose record it has. -/
theorem Lists.mem {objects : SnapshotSection → List (SnapshotEntry C)} (hlists : L.Lists objects)
    {entry : SnapshotEntry C} : entry ∈ SnapshotSection.all.flatMap objects ↔
      entry.Stored ∧ L.record (.committed entry.key) = some entry.body := by
  rw [List.mem_flatMap]
  constructor
  · rintro ⟨sec, -, hentry⟩
    have hrecord := List.mem_map_of_mem (f := SnapshotEntry.record) hentry
    rw [hlists.records sec] at hrecord
    exact ⟨(hlists.stored sec entry hentry).2, (mem_scan.mp hrecord).1⟩
  · rintro ⟨hstored, hrecord⟩
    refine ⟨entry.sec, entry.sec.mem_all, ?_⟩
    have hfound : entry.record ∈ L.scan entry.sec.tag := mem_scan.mpr ⟨hrecord, entry.head_record⟩
    rw [← hlists.records entry.sec] at hfound
    obtain ⟨other, hother, hsame⟩ := List.mem_map.mp hfound
    obtain ⟨hsec, hother'⟩ := hlists.stored _ other hother
    rwa [SnapshotEntry.eq_of_record hstored hother' hsec hsame] at hother

/-- A section that lists given objects. -/
def sectionOf (sec : SnapshotSection) (objects : List (SnapshotEntry C)) : Bytes :=
  leBytes 4 objects.length ++ objects.flatMap fun entry ↦ sec.written entry.record

/-- A snapshot that lists given objects. -/
def snapshotOf (n : UInt32) (objects : SnapshotSection → List (SnapshotEntry C)) : Bytes :=
  LEDGER_MAGIC ++ u32Le n ++ SnapshotSection.all.flatMap fun sec ↦ sectionOf sec (objects sec)

/-- A section reads back when the number of its objects fits. -/
theorem reads_sectionOf {sec : SnapshotSection} {objects : List (SnapshotEntry C)}
    (hstored : ∀ entry ∈ objects, entry.sec = sec ∧ entry.Stored)
    (hshort : objects.length < 2 ^ 32) :
    Reader.Reads (readCounted (readEntry C sec)) objects (sectionOf sec objects) := by
  apply Reads.counted hshort
  intro entry hentry
  obtain ⟨rfl, hkept⟩ := hstored entry hentry
  exact SnapshotEntry.reads hkept

theorem reads_sectionsOf {objects : SnapshotSection → List (SnapshotEntry C)}
    (hstored : ∀ sec, ∀ entry ∈ objects sec, entry.sec = sec ∧ entry.Stored)
    (hshort : ∀ sec, (objects sec).length < 2 ^ 32) (secs : List SnapshotSection) :
    Reader.Reads (readSections C secs) (secs.flatMap objects)
      (secs.flatMap fun sec ↦ sectionOf sec (objects sec)) := by
  induction secs with
  | nil => exact Reader.Reads.pure []
  | cons sec rest ih =>
    have hrest : Reader.Reads (readSections C rest >>= fun others ↦ pure (objects sec ++ others))
        (objects sec ++ rest.flatMap objects)
        ((rest.flatMap fun sec ↦ sectionOf sec (objects sec)) ++ []) :=
      ih.bind (Reader.Reads.pure _)
    rw [List.append_nil] at hrest
    exact (reads_sectionOf (hstored sec) (hshort sec)).bind hrest

/-- A snapshot reads back as its next token id and its objects. -/
theorem readSnapshot_snapshotOf {n : UInt32} {objects : SnapshotSection → List (SnapshotEntry C)}
    (hstored : ∀ sec, ∀ entry ∈ objects sec, entry.sec = sec ∧ entry.Stored)
    (hshort : ∀ sec, (objects sec).length < 2 ^ 32) :
    (readSnapshot C).complete (snapshotOf n objects) =
      some (n, SnapshotSection.all.flatMap objects) := by
  apply Reader.complete_of_reads
  have hmagic : Reader.Reads (Reader.take 8) LEDGER_MAGIC LEDGER_MAGIC :=
    Reader.Reads.take LEDGER_MAGIC
  have hbody : Reader.Reads (if LEDGER_MAGIC = LEDGER_MAGIC then (do
        let nextTokenId ← Reader.u32
        let entries ← readSections C SnapshotSection.all
        return (nextTokenId, entries)) else Reader.failure)
      (n, SnapshotSection.all.flatMap objects)
      (u32Le n ++ ((SnapshotSection.all.flatMap fun sec ↦ sectionOf sec (objects sec)) ++ [])) := by
    rw [if_pos rfl]
    exact (Reader.Reads.u32 _).bind
      ((reads_sectionsOf hstored hshort _).bind (Reader.Reads.pure _))
  have hreads : Reader.Reads (readSnapshot C) (n, SnapshotSection.all.flatMap objects)
      (LEDGER_MAGIC ++ (u32Le n ++
        ((SnapshotSection.all.flatMap fun sec ↦ sectionOf sec (objects sec)) ++ []))) :=
    hmagic.bind hbody
  rw [List.append_nil, ← List.append_assoc] at hreads
  exact hreads

theorem Lists.encodeSection_eq {objects : SnapshotSection → List (SnapshotEntry C)}
    (hlists : L.Lists objects) (sec : SnapshotSection) :
    L.encodeSection sec = sectionOf sec (objects sec) := by
  rw [encodeSection, sectionOf, ← hlists.records sec, List.length_map, List.flatMap_map]

theorem Lists.reads_section {objects : SnapshotSection → List (SnapshotEntry C)}
    (hlists : L.Lists objects) {sec : SnapshotSection}
    (hfits : (L.scan sec.tag).length < 2 ^ 32) :
    Reader.Reads (readCounted (readEntry C sec)) (objects sec) (L.encodeSection sec) := by
  rw [hlists.encodeSection_eq]
  exact reads_sectionOf (hlists.stored sec) (by rwa [hlists.length sec])

/-- Every section is short enough for its count. -/
def SectionsFit (L : Ledger C) : Prop := ∀ sec : SnapshotSection, (L.scan sec.tag).length < 2 ^ 32

/-- The snapshot of a ledger reads back as its next token id and its objects. -/
theorem Lists.readSnapshot {objects : SnapshotSection → List (SnapshotEntry C)}
    (hlists : L.Lists objects) (hfits : L.SectionsFit) :
    (readSnapshot C).complete L.encode =
      some (L.nextTokenId, SnapshotSection.all.flatMap objects) := by
  have hencode : L.encode = snapshotOf L.nextTokenId objects := by
    rw [encode, snapshotOf, funext hlists.encodeSection_eq]
  rw [hencode]
  apply readSnapshot_snapshotOf hlists.stored
  intro sec
  rw [hlists.length sec]
  exact hfits sec

end Ledger

/-! ### Restoring objects -/

namespace SnapshotEntry

/-- What restoring an object changes. -/
def updates (nextTokenId : UInt32) (entry : SnapshotEntry C) : List (Coord × Found) :=
  entry.put.updates nextTokenId ++ [(.flag entry.key, .inr 1)]

variable {M M' : Ledger C}

/-- The write of an object whose counts fit succeeds. -/
theorem exists_exec {entry : SnapshotEntry C} (hfits : entry.Fits) (M : Ledger C) :
    ∃ reply M', Ledger.handler.exec entry.put M = some (reply, M') := by
  cases entry with
  | account id a => exact ⟨_, _, if_pos hfits⟩
  | token t => exact ⟨_, _, if_pos hfits⟩
  | contract id c => exact ⟨_, _, if_pos hfits⟩
  | validator id v =>
    by_cases hdrained : v.Drained
    · exact ⟨_, _, if_pos hdrained⟩
    · exact ⟨_, _, (if_neg hdrained).trans (if_pos hfits)⟩
  | nullifier | pool | lp | htlc | curve => exact ⟨_, _, rfl⟩

/-- Restoring an object makes its updates and no others. -/
theorem run_restore {entry : SnapshotEntry C} (hfits : entry.Fits) (M : Ledger C) :
    ∃ M', entry.restore.run Ledger.handler M = (.ok (), M') ∧
      (fun i ↦ Ledger.observe i M') =
        updated (fun i ↦ Ledger.observe i M) (entry.updates M.nextTokenId) := by
  obtain ⟨reply, M₁, hexec⟩ := exists_exec hfits M
  refine ⟨M₁.mark entry.key, ?_, ?_⟩
  · unfold restore
    rw [Program.run_bind, LedgerM.command, Program.perform, Program.run, hexec]
    rfl
  · rw [Ledger.observe_mark, Ledger.observe_exec hexec, updates, updated, updated,
      List.foldl_append]
    rfl

/-- The updates that a token makes besides its record: its ticker, and the stored copy of the next
token id. -/
def derived (nextTokenId : UInt32) : SnapshotEntry C → List (Coord × Found)
  | token t =>
    [(.record (RecordKey.ticker t.ticker).bytes, .inl (some (u32Be t.id))),
      (.object .metaRecord, .inl (some (u32Le nextTokenId)))]
  | _ => []

/-- The write of an object puts its record, unless it is an empty one. -/
theorem put_updates (entry : SnapshotEntry C) (n : UInt32) :
    entry.put.updates n =
      (.object entry.key, .inl (if entry.Empty then none else some entry.body)) ::
        entry.derived n := by
  cases entry <;> rfl

/-- Restoring keeps the next token id. -/
theorem nextTokenId_notMem_updates (entry : SnapshotEntry C) (n : UInt32) :
    ∀ update ∈ entry.updates n, update.1 ≠ Coord.nextTokenId := by
  unfold updates
  cases entry <;> simp [put, LedgerCommand.updates]

end SnapshotEntry

namespace Ledger

variable {L L' M M' : Ledger C}

theorem nextTokenId_eq_of_observe
    (h : observe .nextTokenId M = observe .nextTokenId L) : M.nextTokenId = L.nextTokenId :=
  UInt32.toNat_inj.mp (Sum.inr.inj h)

/-- Restoring a list of objects makes their updates one after the other. -/
theorem observe_restored {entries : List (SnapshotEntry C)}
    (hfits : ∀ entry ∈ entries, entry.Fits) (M : Ledger C) :
    ∃ M', (Program.forEach entries SnapshotEntry.restore).run handler M = (.ok (), M') ∧
      (fun i ↦ observe i M') =
        updated (fun i ↦ observe i M) (entries.flatMap (SnapshotEntry.updates M.nextTokenId)) := by
  induction entries generalizing M with
  | nil => exact ⟨M, rfl, rfl⟩
  | cons entry rest ih =>
    obtain ⟨hfirst, hrest⟩ := List.forall_mem_cons.mp hfits
    obtain ⟨M₁, hrun, hobs⟩ := SnapshotEntry.run_restore hfirst M
    have hnext : M₁.nextTokenId = M.nextTokenId := by
      apply nextTokenId_eq_of_observe
      rw [congrFun hobs .nextTokenId]
      exact updated_of_notMem (entry.nextTokenId_notMem_updates _)
    obtain ⟨M', hrun', hobs'⟩ := ih hrest M₁
    refine ⟨M', ?_, ?_⟩
    · rw [Program.forEach_cons, Program.run_bind, hrun]
      exact hrun'
    · rw [hobs', hnext, hobs, List.flatMap_cons, updated, updated, updated, List.foldl_append]

/-! ### The restored ledger -/

theorem record_blank (n : UInt32) (key : RecordKey) :
    (blank n : Ledger C).record key =
      if key = .committed .metaRecord then some (u32Le n) else none := by
  rw [blank, record_putRecord, Function.update_apply]
  rfl

theorem WellFormed.blank (n : UInt32) : (blank n : Ledger C).WellFormed := by
  have hnew : ({ (Ledger.new : Ledger C) with nextTokenId := n } : Ledger C).WellFormed :=
    ⟨WellFormed.new.records, fun id a ha ↦ WellFormed.new.cache id a ha⟩
  exact hnew.putRecord (fun _ ↦ nofun) trivial

/-- The update of a stored object at the record of an entry. -/
theorem eq_of_update {n : UInt32} {entry : SnapshotEntry C} {key : DirtyKey}
    (hkey : key ≠ .metaRecord) {update : Coord × Found} (hupdate : update ∈ entry.updates n)
    (hsame : update.1 = .object key) :
    entry.key = key ∧ update.2 = .inl (if entry.Empty then none else some entry.body) := by
  rw [SnapshotEntry.updates, SnapshotEntry.put_updates, List.mem_append, List.mem_cons,
    List.mem_singleton] at hupdate
  rcases hupdate with (rfl | hderived) | rfl
  · have hbytes := RecordKey.bytes_injective (Coord.record.inj hsame)
    exact ⟨RecordKey.committed.inj hbytes, rfl⟩
  · cases entry with
    | token t =>
      rcases List.mem_pair.mp hderived with rfl | rfl
      · exact absurd (RecordKey.bytes_injective (Coord.record.inj hsame)) nofun
      · have hbytes := RecordKey.bytes_injective (Coord.record.inj hsame)
        exact absurd (RecordKey.committed.inj hbytes).symm hkey
    | _ => exact absurd hderived List.not_mem_nil
  · exact absurd hsame nofun

/-- The update of an object at the index of a ticker. -/
theorem eq_of_update_ticker {n : UInt32} {entry : SnapshotEntry C} {name : Text}
    {update : Coord × Found} (hupdate : update ∈ entry.updates n)
    (hsame : update.1 = .record (RecordKey.ticker name).bytes) :
    ∃ t, entry = .token t ∧ t.ticker = name ∧ update.2 = .inl (some (u32Be t.id)) := by
  rw [SnapshotEntry.updates, SnapshotEntry.put_updates, List.mem_append, List.mem_cons,
    List.mem_singleton] at hupdate
  rcases hupdate with (rfl | hderived) | rfl
  · exact absurd (RecordKey.bytes_injective (Coord.record.inj hsame)) nofun
  · cases entry with
    | token t =>
      rcases List.mem_pair.mp hderived with rfl | rfl
      · have hname := RecordKey.bytes_injective (Coord.record.inj hsame)
        exact ⟨t, rfl, RecordKey.ticker.inj hname, rfl⟩
      · exact absurd (RecordKey.bytes_injective (Coord.record.inj hsame)) nofun
    | _ => exact absurd hderived List.not_mem_nil
  · exact absurd hsame nofun

/-- Every object at the meta record writes the next token id there. -/
theorem eq_of_update_meta {n : UInt32} {entry : SnapshotEntry C} {update : Coord × Found}
    (hupdate : update ∈ entry.updates n) (hsame : update.1 = .object .metaRecord) :
    update.2 = .inl (some (u32Le n)) := by
  rw [SnapshotEntry.updates, SnapshotEntry.put_updates, List.mem_append, List.mem_cons,
    List.mem_singleton] at hupdate
  rcases hupdate with (rfl | hderived) | rfl
  · have hbytes := RecordKey.bytes_injective (Coord.record.inj hsame)
    exact absurd (RecordKey.committed.inj hbytes) entry.key_ne_metaRecord
  · cases entry with
    | token t =>
      rcases List.mem_pair.mp hderived with rfl | rfl
      · exact absurd (RecordKey.bytes_injective (Coord.record.inj hsame)) nofun
      · rfl
    | _ => exact absurd hderived List.not_mem_nil
  · exact absurd hsame nofun

/-- Every object flags its entry, and takes no flag away. -/
theorem eq_of_update_flag {n : UInt32} {entry : SnapshotEntry C} {key : DirtyKey}
    {update : Coord × Found} (hupdate : update ∈ entry.updates n) (hsame : update.1 = .flag key) :
    update.2 = .inr 1 := by
  rw [SnapshotEntry.updates, SnapshotEntry.put_updates, List.mem_append, List.mem_cons,
    List.mem_singleton] at hupdate
  rcases hupdate with (rfl | hderived) | rfl
  · exact absurd hsame nofun
  · cases entry with
    | token t =>
      rcases List.mem_pair.mp hderived with rfl | rfl
      · exact absurd hsame nofun
      · exact absurd hsame nofun
    | _ => exact absurd hderived List.not_mem_nil
  · rfl

/-- The ledger has exactly the records of another, apart from the stored copy of the next token id,
which it always has. -/
structure Restores (L M : Ledger C) : Prop where
  records : ∀ key : RecordKey, key ≠ .committed .metaRecord → M.record key = L.record key
  metaRecord : M.record (.committed .metaRecord) = some (u32Le L.nextTokenId)
  nextTokenId : M.nextTokenId = L.nextTokenId

/-- The ledger is what restoring a list of objects makes of the empty one. -/
def RestoredFrom (n : UInt32) (entries : List (SnapshotEntry C)) (M : Ledger C) : Prop :=
  (fun i ↦ observe i M) =
    updated (fun i ↦ observe i (blank n : Ledger C)) (entries.flatMap (SnapshotEntry.updates n))

section RestoredFrom

variable {n : UInt32} {entries : List (SnapshotEntry C)}

/-- Of an entry that no object has there is no record. -/
theorem RestoredFrom.record_eq_none (hM : RestoredFrom n entries M) {key : DirtyKey}
    (hkey : key ≠ .metaRecord) (hnone : ∀ entry ∈ entries, entry.key ≠ key) :
    M.record (.committed key) = none := by
  have hfound := congrFun hM (.object key)
  rw [updated_of_notMem] at hfound
  · have hblank := record_blank (C := C) n (.committed key)
    rw [if_neg fun heq ↦ hkey (RecordKey.committed.inj heq)] at hblank
    exact (Sum.inl.inj hfound).trans hblank
  · intro update hupdate hsame
    obtain ⟨entry, hentry, hupdate⟩ := List.mem_flatMap.mp hupdate
    exact hnone entry hentry (eq_of_update hkey hupdate hsame).1

/-- Where all objects of an entry have one record, this is the record. -/
theorem RestoredFrom.record_eq (hM : RestoredFrom n entries M) {key : DirtyKey}
    (hkey : key ≠ .metaRecord) {body : Option Bytes} (hsome : ∃ entry ∈ entries, entry.key = key)
    (hall : ∀ entry ∈ entries, entry.key = key →
      (if entry.Empty then none else some entry.body) = body) :
    M.record (.committed key) = body := by
  have hfound := congrFun hM (.object key)
  rw [updated_of_forall (x := .inl body)] at hfound
  · exact Sum.inl.inj hfound
  · obtain ⟨entry, hentry, rfl⟩ := hsome
    refine ⟨(.object entry.key, .inl (if entry.Empty then none else some entry.body)),
      List.mem_flatMap.mpr ⟨entry, hentry, ?_⟩, rfl⟩
    apply List.mem_append_left
    rw [SnapshotEntry.put_updates]
    exact List.mem_cons_self
  · intro update hupdate hsame
    obtain ⟨entry, hentry, hupdate⟩ := List.mem_flatMap.mp hupdate
    obtain ⟨hentryKey, hvalue⟩ := eq_of_update hkey hupdate hsame
    rw [hvalue, hall entry hentry hentryKey]

theorem RestoredFrom.ticker_eq_none (hM : RestoredFrom n entries M) {name : Text}
    (hnone : ∀ t, .token t ∈ entries → t.ticker ≠ name) : M.record (.ticker name) = none := by
  have hfound := congrFun hM (.record (RecordKey.ticker name).bytes)
  rw [updated_of_notMem] at hfound
  · have hblank := record_blank (C := C) n (.ticker name)
    rw [if_neg nofun] at hblank
    exact (Sum.inl.inj hfound).trans hblank
  · intro update hupdate hsame
    obtain ⟨entry, hentry, hupdate⟩ := List.mem_flatMap.mp hupdate
    obtain ⟨t, rfl, hname, -⟩ := eq_of_update_ticker hupdate hsame
    exact hnone t hentry hname

theorem RestoredFrom.ticker_eq (hM : RestoredFrom n entries M) {name : Text} {id : UInt32}
    (hsome : ∃ t, .token t ∈ entries ∧ t.ticker = name)
    (hall : ∀ t, .token t ∈ entries → t.ticker = name → t.id = id) :
    M.record (.ticker name) = some (u32Be id) := by
  have hfound := congrFun hM (.record (RecordKey.ticker name).bytes)
  rw [updated_of_forall (x := .inl (some (u32Be id)))] at hfound
  · exact Sum.inl.inj hfound
  · obtain ⟨t, ht, rfl⟩ := hsome
    refine ⟨(.record (RecordKey.ticker t.ticker).bytes, .inl (some (u32Be t.id))),
      List.mem_flatMap.mpr ⟨_, ht, ?_⟩, rfl⟩
    apply List.mem_append_left
    rw [SnapshotEntry.put_updates]
    exact List.mem_cons_of_mem _ List.mem_cons_self
  · intro update hupdate hsame
    obtain ⟨entry, hentry, hupdate⟩ := List.mem_flatMap.mp hupdate
    obtain ⟨t, rfl, hname, hvalue⟩ := eq_of_update_ticker hupdate hsame
    rw [hvalue, hall t hentry hname]

/-- The stored copy of the next token id is always there. -/
theorem RestoredFrom.metaRecord (hM : RestoredFrom n entries M) :
    M.record (.committed .metaRecord) = some (u32Le n) := by
  have hfound := congrFun hM (.object .metaRecord)
  by_cases hsome : ∃ update ∈ entries.flatMap (SnapshotEntry.updates n),
      update.1 = .object .metaRecord
  · rw [updated_of_forall hsome] at hfound
    · exact Sum.inl.inj hfound
    · intro update hupdate hsame
      obtain ⟨entry, hentry, hupdate⟩ := List.mem_flatMap.mp hupdate
      exact eq_of_update_meta hupdate hsame
  · rw [updated_of_notMem fun update hupdate hsame ↦ hsome ⟨update, hupdate, hsame⟩] at hfound
    have hblank := record_blank (C := C) n (.committed .metaRecord)
    rw [if_pos rfl] at hblank
    exact (Sum.inl.inj hfound).trans hblank

theorem RestoredFrom.nextTokenId (hM : RestoredFrom n entries M) : M.nextTokenId = n := by
  have hfound := congrFun hM .nextTokenId
  rw [updated_of_notMem] at hfound
  · exact nextTokenId_eq_of_observe hfound
  · intro update hupdate
    obtain ⟨entry, hentry, hupdate⟩ := List.mem_flatMap.mp hupdate
    exact entry.nextTokenId_notMem_updates n update hupdate

/-- The entries of the objects are flagged, and so is the meta entry. -/
theorem RestoredFrom.mem_dirty (hM : RestoredFrom n entries M) {key : DirtyKey}
    (hkey : key = .metaRecord ∨ ∃ entry ∈ entries, entry.key = key) : key ∈ M.dirty := by
  have hflag : observe (.flag key) M = .inr 1 := by
    rw [congrFun hM (.flag key)]
    by_cases hsome : ∃ update ∈ entries.flatMap (SnapshotEntry.updates n), update.1 = .flag key
    · apply updated_of_forall hsome
      intro update hupdate hsame
      obtain ⟨entry, hentry, hupdate⟩ := List.mem_flatMap.mp hupdate
      exact eq_of_update_flag hupdate hsame
    · rw [updated_of_notMem fun update hupdate hsame ↦ hsome ⟨update, hupdate, hsame⟩]
      rcases hkey with rfl | ⟨entry, hentry, rfl⟩
      · rfl
      · refine absurd ⟨(.flag entry.key, .inr 1), ?_, rfl⟩ hsome
        exact List.mem_flatMap.mpr
          ⟨entry, hentry, List.mem_append_right _ (List.mem_singleton.mpr rfl)⟩
  by_contra hclean
  rw [observe, if_neg hclean] at hflag
  exact absurd (Sum.inr.inj hflag) (by decide)

/-- No other entry is flagged. -/
theorem RestoredFrom.of_mem_dirty (hM : RestoredFrom n entries M) {key : DirtyKey}
    (hkey : key ∈ M.dirty) : key = .metaRecord ∨ ∃ entry ∈ entries, entry.key = key := by
  by_contra hother
  rw [not_or] at hother
  have hflag := congrFun hM (.flag key)
  rw [updated_of_notMem, observe, observe, if_pos hkey] at hflag
  · have hclean : key ∉ (blank n : Ledger C).dirty := fun hmem ↦
      hother.1 (List.mem_singleton.mp hmem)
    rw [if_neg hclean] at hflag
    exact absurd (Sum.inr.inj hflag) (by decide)
  · intro update hupdate hsame
    obtain ⟨entry, hentry, hupdate⟩ := List.mem_flatMap.mp hupdate
    rw [SnapshotEntry.updates, SnapshotEntry.put_updates, List.mem_append, List.mem_cons,
      List.mem_singleton] at hupdate
    rcases hupdate with (rfl | hderived) | rfl
    · exact absurd hsame (by simp)
    · cases entry with
      | token t => rcases List.mem_pair.mp hderived with rfl | rfl <;> exact absurd hsame (by simp)
      | _ => exact absurd hderived List.not_mem_nil
    · exact hother.2 ⟨entry, hentry, Coord.flag.inj hsame⟩

end RestoredFrom

/-! ### The objects of a ledger restored -/

/-- The tokens of a ledger are those whose record it has under their id. -/
theorem Canonical.token_eq_some (hL : L.Canonical) {id : UInt32} {t : TokenMeta} :
    L.view.token id = some t ↔
      t.Fits ∧ t.id = id ∧ L.record (.committed (.token id)) = some (encodeToken t) := by
  constructor
  · intro ht
    obtain ⟨body, hbody, hdecode⟩ := Option.bind_eq_some_iff.mp ht
    obtain ⟨stored, hfits, hid, rfl⟩ := hL.record hbody
    rw [decodeToken_encodeToken hfits] at hdecode
    obtain rfl := Option.some.inj hdecode
    exact ⟨hfits, hid, hbody⟩
  · rintro ⟨hfits, -, hbody⟩
    show (L.record (.committed (.token id))).bind decodeToken = some t
    rw [hbody, Option.bind_some, decodeToken_encodeToken hfits]

theorem Lists.mem_token {objects : SnapshotSection → List (SnapshotEntry C)}
    (hlists : L.Lists objects) (hL : L.Canonical) {t : TokenMeta} :
    .token t ∈ SnapshotSection.all.flatMap objects ↔ L.view.token t.id = some t := by
  rw [hlists.mem, hL.token_eq_some]
  constructor
  · rintro ⟨hstored, hrecord⟩
    exact ⟨hstored.fits, rfl, hrecord⟩
  · rintro ⟨hfits, -, hrecord⟩
    exact ⟨⟨hfits, not_false⟩, hrecord⟩

/-- Every committed record of a ledger is that of one of its objects. -/
theorem Lists.exists_of_record {objects : SnapshotSection → List (SnapshotEntry C)}
    (hlists : L.Lists objects) (hL : L.Canonical) {key : DirtyKey} (hkey : key ≠ .metaRecord)
    (hrecord : L.record (.committed key) ≠ none) :
    ∃ entry ∈ SnapshotSection.all.flatMap objects, entry.key = key := by
  obtain ⟨body, hbody⟩ := Option.ne_none_iff_exists'.mp hrecord
  have hsec : ∃ sec : SnapshotSection, (RecordKey.committed key).bytes.head? = some sec.tag := by
    cases key with
    | account => exact ⟨.accounts, rfl⟩
    | token => exact ⟨.tokens, rfl⟩
    | contract => exact ⟨.contracts, rfl⟩
    | nullifier => exact ⟨.nullifiers, rfl⟩
    | validator => exact ⟨.validators, rfl⟩
    | pool => exact ⟨.pools, rfl⟩
    | curve => exact ⟨.curves, rfl⟩
    | lp => exact ⟨.lps, rfl⟩
    | htlc => exact ⟨.htlcs, rfl⟩
    | metaRecord => exact absurd rfl hkey
  obtain ⟨sec, hsec⟩ := hsec
  obtain ⟨entry, -, hstored, hentry⟩ := exists_entry (hL.record hbody) hsec
  obtain ⟨hbytes, hbodyEq⟩ := Prod.mk.inj hentry
  obtain rfl := RecordKey.committed.inj (RecordKey.bytes_injective hbytes)
  exact ⟨entry, hlists.mem.mpr ⟨hstored, hbody.trans (congrArg some hbodyEq.symm)⟩, rfl⟩

/-- Restoring the objects of a ledger gives its records back. -/
theorem Lists.restores {objects : SnapshotSection → List (SnapshotEntry C)}
    (hlists : L.Lists objects) (hL : L.Canonical) (htickers : L.view.TickersIndexed)
    (hM : RestoredFrom L.nextTokenId (SnapshotSection.all.flatMap objects) M) : Restores L M := by
  refine ⟨fun key hkey ↦ ?_, hM.metaRecord, hM.nextTokenId⟩
  cases key with
  | committed key =>
    have hkey' : key ≠ .metaRecord := fun heq ↦ hkey (congrArg RecordKey.committed heq)
    by_cases hsome : ∃ entry ∈ SnapshotSection.all.flatMap objects, entry.key = key
    · apply hM.record_eq hkey' hsome
      rintro entry hentry rfl
      obtain ⟨hstored, hrecord⟩ := hlists.mem.mp hentry
      rw [if_neg hstored.kept, hrecord]
    · rw [hM.record_eq_none hkey' fun entry hentry heq ↦ hsome ⟨entry, hentry, heq⟩]
      by_contra hrecord
      exact hsome (hlists.exists_of_record hL hkey' (Ne.symm hrecord))
  | ticker name =>
    have hindex := htickers.indexed name
    by_cases hsome : ∃ t, .token t ∈ SnapshotSection.all.flatMap objects ∧ t.ticker = name
    · obtain ⟨t, ht, hname⟩ := hsome
      have hstored := (hindex (u32Be t.id)).mpr ⟨t.id, t, (hlists.mem_token hL).mp ht, hname, rfl⟩
      refine (hM.ticker_eq ⟨t, ht, hname⟩ fun other hother hsame ↦ ?_).trans hstored.symm
      have hother' := (hindex (u32Be other.id)).mpr
        ⟨other.id, other, (hlists.mem_token hL).mp hother, hsame, rfl⟩
      exact u32Be_injective (Option.some.inj (hother'.symm.trans hstored))
    · rw [hM.ticker_eq_none fun t ht heq ↦ hsome ⟨t, ht, heq⟩]
      by_contra hrecord
      obtain ⟨body, hbody⟩ := Option.ne_none_iff_exists'.mp (Ne.symm hrecord)
      obtain ⟨id, t, ht, hname, -⟩ := (hindex body).mp hbody
      obtain ⟨rfl, -⟩ := htickers.keyed id t ht
      exact hsome ⟨t, (hlists.mem_token hL).mpr ht, hname⟩

end Ledger

end Latebra.State
