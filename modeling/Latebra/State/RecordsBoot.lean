import Latebra.State.TokenRegistry

/-!
# Booting from records

A node boots from the object records on disk, or from those of a peer: it scans the records kind by
kind, writes the ticker index anew, flags every entry that it has found, and computes the commitment
from scratch. `scanEntry` is what the scan makes of one record of a kind, and `Scan` what a finished
scan says of all of them.

Curves are neither scanned nor flagged. `Reachable.boots_iff` says that this is the one thing that
is missing: a ledger with the right root boots from its own records into a ledger with this root
exactly when it has no curve, and then the two cannot be told apart.
-/

set_option autoImplicit false
set_option relaxedAutoImplicit false

namespace Latebra.State

open Foundation Crypto Latebra.Types

variable {C : CryptoSuite}

/-! ### Lists of results -/

section MapM

variable {α β : Type} {f : α → Option β} {l : List α} {found : List β}

theorem mapM_cons_eq_some {a : α} :
    (a :: l).mapM f = some found ↔ ∃ b rest, f a = some b ∧ l.mapM f = some rest ∧
      found = b :: rest := by
  rw [List.mapM_cons]
  constructor
  · intro hfound
    obtain ⟨b, hb, hlater⟩ := Option.bind_eq_some_iff.mp hfound
    obtain ⟨rest, hrest, hpure⟩ := Option.bind_eq_some_iff.mp hlater
    exact ⟨b, rest, hb, hrest, (Option.some.inj hpure).symm⟩
  · rintro ⟨b, rest, hb, hrest, rfl⟩
    rw [hb, hrest]
    rfl

/-- What is found is what is read of the elements of the list. -/
theorem mem_of_mapM (hfound : l.mapM f = some found) {b : β} :
    b ∈ found ↔ ∃ a ∈ l, f a = some b := by
  induction l generalizing found with
  | nil =>
    obtain rfl : [] = found := Option.some.inj hfound
    simp
  | cons a l ih =>
    obtain ⟨first, rest, hfirst, hrest, rfl⟩ := mapM_cons_eq_some.mp hfound
    simp [ih hrest, hfirst, eq_comm]

theorem exists_of_mapM (hfound : l.mapM f = some found) {a : α} (ha : a ∈ l) :
    ∃ b ∈ found, f a = some b := by
  induction l generalizing found with
  | nil => exact absurd ha List.not_mem_nil
  | cons first l ih =>
    obtain ⟨b, rest, hb, hrest, rfl⟩ := mapM_cons_eq_some.mp hfound
    rcases List.mem_cons.mp ha with rfl | hlater
    · exact ⟨b, List.mem_cons_self, hb⟩
    · obtain ⟨other, hother, hread⟩ := ih hrest hlater
      exact ⟨other, List.mem_cons_of_mem b hother, hread⟩

theorem mapM_isSome (hall : ∀ a ∈ l, (f a).isSome) : (l.mapM f).isSome := by
  induction l with
  | nil => rfl
  | cons a l ih =>
    obtain ⟨ha, hl⟩ := List.forall_mem_cons.mp hall
    obtain ⟨b, hb⟩ := Option.isSome_iff_exists.mp ha
    obtain ⟨rest, hrest⟩ := Option.isSome_iff_exists.mp (ih hl)
    rw [mapM_cons_eq_some.mpr ⟨b, rest, hb, hrest, rfl⟩]
    rfl

end MapM

/-! ### The scan of one record -/

/-- A record that the scan of its kind accepts. -/
def Scanned (C : CryptoSuite) (body : Bytes) : DirtyKey → Prop
  | .account _ => (decodeAccount C body).isSome
  | .token id => ∃ t, decodeToken body = some t ∧ t.id = id
  | .contract _ => (decodeContract body).isSome
  | .nullifier _ => True
  | .validator _ => (decodeValidator body).isSome
  | .pool token => ∃ p, decodePool body = some p ∧ p.token = token
  | .lp _ _ => (u64OfLe body).isSome
  | .htlc _ => (decodeHtlc body).isSome
  | .curve _ | .metaRecord => False

/-- The entry of a record of a section, when the scan of the section accepts it. -/
def scanEntry (C : CryptoSuite) : SnapshotSection → Bytes × Bytes → Option DirtyKey
  | .accounts, entry => do
    let id ← bytes32Of (entry.1.drop 1)
    let _ ← decodeAccount C entry.2
    return .account id
  | .tokens, entry => do
    let t ← decodeToken entry.2
    if entry.1.drop 1 = u32Be t.id then some (.token t.id) else none
  | .contracts, entry => do
    let id ← bytes32Of (entry.1.drop 1)
    let _ ← decodeContract entry.2
    return .contract id
  | .nullifiers, entry => do
    let nf ← bytes32Of (entry.1.drop 1)
    let _ ← some entry.2
    return .nullifier nf
  | .validators, entry => do
    let id ← bytes32Of (entry.1.drop 1)
    let _ ← decodeValidator entry.2
    return .validator id
  | .pools, entry => do
    let p ← decodePool entry.2
    if entry.1.drop 1 = u32Be p.token then some (.pool p.token) else none
  | .lps, entry => do
    let token ← u32OfBe ((entry.1.drop 1).take 4)
    let provider ← bytes32Of (entry.1.drop 5)
    let _ ← u64OfLe entry.2
    return .lp token provider
  | .htlcs, entry => do
    let id ← bytes32Of (entry.1.drop 1)
    let _ ← decodeHtlc entry.2
    return .htlc id
  | .curves, _ => none

/-- The tag of the record of an entry is that of one section, for all entries but the meta entry. -/
theorem exists_tag {key : DirtyKey} (hkey : key ≠ .metaRecord) :
    ∃ sec : SnapshotSection, (RecordKey.committed key).bytes.head? = some sec.tag := by
  cases key with
  | account => exact ⟨.accounts, rfl⟩
  | token => exact ⟨.tokens, rfl⟩
  | contract => exact ⟨.contracts, rfl⟩
  | nullifier => exact ⟨.nullifiers, rfl⟩
  | validator => exact ⟨.validators, rfl⟩
  | pool => exact ⟨.pools, rfl⟩
  | curve => exact ⟨.curves, rfl⟩
  | lp => exact ⟨.lps, rfl⟩
  | htlc => exact ⟨.htlcs, rfl⟩
  | metaRecord => exact absurd rfl hkey

theorem eq_recKey_of_head {bytes : Bytes} {tag : UInt8} (hhead : bytes.head? = some tag) :
    bytes = recKey tag (bytes.drop 1) := by
  cases bytes with
  | nil => exact absurd hhead (by simp)
  | cons first rest =>
    rw [Option.some.inj hhead]
    rfl

/-- What the scan of a section accepts is a record under the key of an entry of the kind, with a
body that reads as the object of this entry. -/
theorem scanned_of_scanEntry {sec : SnapshotSection} {bytes body : Bytes} {key : DirtyKey}
    (hhead : bytes.head? = some sec.tag) (hscan : scanEntry C sec (bytes, body) = some key) :
    bytes = (RecordKey.committed key).bytes ∧ Scanned C body key := by
  have hbytes := eq_recKey_of_head hhead
  cases sec with
  | accounts | contracts | nullifiers | validators | htlcs =>
    obtain ⟨id, hid, hlater⟩ := Option.bind_eq_some_iff.mp hscan
    obtain ⟨value, hvalue, hpure⟩ := Option.bind_eq_some_iff.mp hlater
    obtain rfl := Option.some.inj hpure
    rw [bytes32Of_eq_some.mp hid] at hbytes
    exact ⟨hbytes, by first | exact trivial | exact Option.isSome_of_eq_some hvalue⟩
  | tokens | pools =>
    obtain ⟨value, hvalue, hlater⟩ := Option.bind_eq_some_iff.mp hscan
    obtain ⟨hid, hpure⟩ := Option.ite_none_right_eq_some.mp hlater
    obtain rfl := Option.some.inj hpure
    rw [hid] at hbytes
    exact ⟨hbytes, value, hvalue, rfl⟩
  | lps =>
    obtain ⟨token, htoken, hlater⟩ := Option.bind_eq_some_iff.mp hscan
    obtain ⟨provider, hprovider, hlater⟩ := Option.bind_eq_some_iff.mp hlater
    obtain ⟨shares, hshares, hpure⟩ := Option.bind_eq_some_iff.mp hlater
    obtain rfl := Option.some.inj hpure
    have hsplit : bytes.drop 1 = u32Be token ++ bytesOf32 provider := by
      rw [← List.take_append_drop 4 (bytes.drop 1), List.drop_drop,
        eq_u32Be_of_u32OfBe htoken, bytes32Of_eq_some.mp hprovider]
    rw [hsplit] at hbytes
    exact ⟨hbytes, Option.isSome_of_eq_some hshares⟩
  | curves => exact absurd hscan (by simp [scanEntry])

/-- The scan of a section accepts the records of its kind. -/
theorem scanEntry_of_scanned {sec : SnapshotSection} {body : Bytes} {key : DirtyKey}
    (hhead : (RecordKey.committed key).bytes.head? = some sec.tag) (hscanned : Scanned C body key) :
    scanEntry C sec ((RecordKey.committed key).bytes, body) = some key := by
  have hsec : ∀ other : SnapshotSection,
      (RecordKey.committed key).bytes.head? = some other.tag → sec = other :=
    fun other hother ↦ SnapshotSection.tag_injective (Option.some.inj (hhead.symm.trans hother))
  cases key with
  | account id =>
    obtain rfl := hsec .accounts rfl
    obtain ⟨a, ha⟩ := Option.isSome_iff_exists.mp hscanned
    simp [scanEntry, RecordKey.bytes, recKey, ha]
  | token id =>
    obtain rfl := hsec .tokens rfl
    obtain ⟨t, ht, rfl⟩ := hscanned
    simp [scanEntry, RecordKey.bytes, recKey, ht]
  | contract id =>
    obtain rfl := hsec .contracts rfl
    obtain ⟨c, hc⟩ := Option.isSome_iff_exists.mp hscanned
    simp [scanEntry, RecordKey.bytes, recKey, hc]
  | nullifier nf =>
    obtain rfl := hsec .nullifiers rfl
    simp [scanEntry, RecordKey.bytes, recKey]
  | validator id =>
    obtain rfl := hsec .validators rfl
    obtain ⟨v, hv⟩ := Option.isSome_iff_exists.mp hscanned
    simp [scanEntry, RecordKey.bytes, recKey, hv]
  | pool token =>
    obtain rfl := hsec .pools rfl
    obtain ⟨p, hp, rfl⟩ := hscanned
    simp [scanEntry, RecordKey.bytes, recKey, hp]
  | lp token provider =>
    obtain rfl := hsec .lps rfl
    obtain ⟨shares, hshares⟩ := Option.isSome_iff_exists.mp hscanned
    have htake : (u32Be token ++ bytesOf32 provider).take 4 = u32Be token :=
      List.take_left' (length_u32Be token)
    have hdrop : (u32Be token ++ bytesOf32 provider).drop 4 = bytesOf32 provider :=
      List.drop_left' (length_u32Be token)
    simp [scanEntry, RecordKey.bytes, recKey, hshares, htake, hdrop]
  | htlc id =>
    obtain rfl := hsec .htlcs rfl
    obtain ⟨h, hh⟩ := Option.isSome_iff_exists.mp hscanned
    simp [scanEntry, RecordKey.bytes, recKey, hh]
  | curve => exact absurd hscanned id
  | metaRecord => exact absurd hscanned id

/-! ### The scan of a ledger -/

namespace Ledger

variable {L L' L'' M : Ledger C} {tokens : List TokenMeta} {keys : List DirtyKey}

/-- What is found of each section. -/
def foundOf (accounts tokens contracts nullifiers validators pools lps htlcs : List DirtyKey) :
    SnapshotSection → List DirtyKey
  | .accounts => accounts
  | .tokens => tokens
  | .contracts => contracts
  | .nullifiers => nullifiers
  | .validators => validators
  | .pools => pools
  | .lps => lps
  | .htlcs => htlcs
  | .curves => []

theorem mapM_tokens {entries : List (Bytes × Bytes)} (hread : (entries.mapM fun entry ↦ do
      let t ← decodeToken entry.2
      if entry.1.drop 1 = u32Be t.id then some t else none) = some tokens) :
    entries.mapM (scanEntry C .tokens) = some (tokens.map fun t ↦ .token t.id) := by
  induction entries generalizing tokens with
  | nil =>
    obtain rfl : [] = tokens := Option.some.inj hread
    rfl
  | cons entry rest ih =>
    obtain ⟨t, others, ht, hothers, rfl⟩ := mapM_cons_eq_some.mp hread
    refine mapM_cons_eq_some.mpr ⟨.token t.id, _, ?_, ih hothers, rfl⟩
    obtain ⟨value, hvalue, hkeyed⟩ := Option.bind_eq_some_iff.mp ht
    obtain ⟨hid, hsame⟩ := Option.ite_none_right_eq_some.mp hkeyed
    obtain rfl := Option.some.inj hsame
    rw [scanEntry, hvalue]
    exact if_pos hid

/-- A finished scan has gone through every section but that of the curves. -/
theorem exists_found (hscan : L.scanRecords = some (tokens, keys)) :
    ∃ found : SnapshotSection → List DirtyKey,
      (∀ sec, sec ≠ .curves → (L.scan sec.tag).mapM (scanEntry C sec) = some (found sec)) ∧
      found .curves = [] ∧ (∀ key, key ∈ keys ↔ key = .metaRecord ∨ ∃ sec, key ∈ found sec) ∧
      L.scanTokens = some tokens := by
  obtain ⟨accounts, haccounts, hscan⟩ := Option.bind_eq_some_iff.mp hscan
  obtain ⟨listed, htokens, hscan⟩ := Option.bind_eq_some_iff.mp hscan
  obtain ⟨contracts, hcontracts, hscan⟩ := Option.bind_eq_some_iff.mp hscan
  obtain ⟨nullifiers, hnullifiers, hscan⟩ := Option.bind_eq_some_iff.mp hscan
  obtain ⟨validators, hvalidators, hscan⟩ := Option.bind_eq_some_iff.mp hscan
  obtain ⟨pools, hpools, hscan⟩ := Option.bind_eq_some_iff.mp hscan
  obtain ⟨lps, hlps, hscan⟩ := Option.bind_eq_some_iff.mp hscan
  obtain ⟨htlcs, hhtlcs, hscan⟩ := Option.bind_eq_some_iff.mp hscan
  obtain ⟨rfl, rfl⟩ := Prod.mk.inj (Option.some.inj hscan)
  refine ⟨foundOf accounts (listed.map fun t ↦ .token t.id) contracts nullifiers validators pools
    lps htlcs, ?_, rfl, ?_, htokens⟩
  · intro sec hsec
    cases sec with
    | accounts => exact haccounts
    | tokens => exact mapM_tokens htokens
    | contracts => exact hcontracts
    | nullifiers => exact hnullifiers
    | validators => exact hvalidators
    | pools => exact hpools
    | lps => exact hlps
    | htlcs => exact hhtlcs
    | curves => exact absurd rfl hsec
  · intro key
    rw [List.mem_cons]
    apply or_congr_right
    constructor
    · intro hkey
      simp only [List.mem_append] at hkey
      rcases hkey with ((((((haccount | htoken) | hcontract) | hnullifier) | hvalidator) | hpool) |
        hlp) | hhtlc
      · exact ⟨.accounts, haccount⟩
      · exact ⟨.tokens, htoken⟩
      · exact ⟨.contracts, hcontract⟩
      · exact ⟨.nullifiers, hnullifier⟩
      · exact ⟨.validators, hvalidator⟩
      · exact ⟨.pools, hpool⟩
      · exact ⟨.lps, hlp⟩
      · exact ⟨.htlcs, hhtlc⟩
    · rintro ⟨sec, hkey⟩
      simp only [List.mem_append]
      cases sec <;> simp only [foundOf, List.not_mem_nil] at hkey <;> tauto

/-- What a finished scan says of the records of a ledger: those of the scanned kinds read as the
objects of their keys, their entries are to be flagged, and the tokens are listed. -/
structure Scan (L : Ledger C) (tokens : List TokenMeta) (keys : List DirtyKey) : Prop where
  keyed : ∀ (sec : SnapshotSection) (bytes body : Bytes), sec ≠ .curves →
    L.objects.get bytes = some body → bytes.head? = some sec.tag →
      ∃ key, bytes = (RecordKey.committed key).bytes ∧ Scanned C body key
  mem : ∀ key, key ∈ keys ↔ key = .metaRecord ∨
    (∀ token, key ≠ .curve token) ∧ L.record (.committed key) ≠ none
  tokens : ∀ t, t ∈ tokens ↔
    ∃ body, L.record (.committed (.token t.id)) = some body ∧ decodeToken body = some t

theorem curve_of_tag {key : DirtyKey}
    (htag : (RecordKey.committed key).bytes.head? = some SnapshotSection.curves.tag) :
    ∃ token, key = .curve token := by
  cases key with
  | curve token => exact ⟨token, rfl⟩
  | _ => exact absurd (Option.some.inj htag) (by decide)

theorem scan_of_scanRecords (hscan : L.scanRecords = some (tokens, keys)) : Scan L tokens keys := by
  obtain ⟨found, hfound, hcurves, hkeys, htokens⟩ := exists_found hscan
  have hkeyed : ∀ (sec : SnapshotSection) (bytes body : Bytes), sec ≠ .curves →
      L.objects.get bytes = some body → bytes.head? = some sec.tag →
        ∃ key ∈ found sec, bytes = (RecordKey.committed key).bytes ∧ Scanned C body key := by
    intro sec bytes body hsec hget hhead
    obtain ⟨key, hkey, hread⟩ := exists_of_mapM (hfound sec hsec) (mem_scan.mpr ⟨hget, hhead⟩)
    exact ⟨key, hkey, scanned_of_scanEntry hhead hread⟩
  constructor
  · intro sec bytes body hsec hget hhead
    obtain ⟨key, -, hkey⟩ := hkeyed sec bytes body hsec hget hhead
    exact ⟨key, hkey⟩
  · intro key
    rw [hkeys]
    constructor
    · rintro (hmeta | ⟨sec, hkey⟩)
      · exact .inl hmeta
      by_cases hsec : sec = .curves
      · rw [hsec, hcurves] at hkey
        exact absurd hkey List.not_mem_nil
      obtain ⟨⟨bytes, body⟩, hmem, hread⟩ := (mem_of_mapM (hfound sec hsec)).mp hkey
      obtain ⟨hget, hhead⟩ := mem_scan.mp hmem
      obtain ⟨rfl, hscanned⟩ := scanned_of_scanEntry hhead hread
      refine .inr ⟨?_, fun hnone ↦ absurd (hget.symm.trans hnone) (Option.some_ne_none body)⟩
      rintro token rfl
      exact hscanned
    · rintro (hmeta | ⟨hcurve, hrecord⟩)
      · exact .inl hmeta
      by_cases hmeta : key = .metaRecord
      · exact .inl hmeta
      obtain ⟨sec, hhead⟩ := exists_tag hmeta
      have hsec : sec ≠ .curves := by
        rintro rfl
        obtain ⟨token, htoken⟩ := curve_of_tag hhead
        exact hcurve token htoken
      obtain ⟨body, hbody⟩ := Option.ne_none_iff_exists'.mp hrecord
      obtain ⟨other, hother, hsame, -⟩ := hkeyed sec _ body hsec hbody hhead
      obtain rfl := RecordKey.committed.inj (RecordKey.bytes_injective hsame)
      exact .inr ⟨sec, hother⟩
  · intro t
    rw [mem_of_mapM htokens]
    constructor
    · rintro ⟨⟨bytes, body⟩, hmem, hread⟩
      obtain ⟨hget, hhead⟩ := mem_scan.mp hmem
      obtain ⟨value, hvalue, hkeyed⟩ := Option.bind_eq_some_iff.mp hread
      obtain ⟨hid, hsame⟩ := Option.ite_none_right_eq_some.mp hkeyed
      obtain rfl := Option.some.inj hsame
      have hbytes := eq_recKey_of_head hhead
      rw [hid] at hbytes
      subst hbytes
      exact ⟨body, hget, hvalue⟩
    · rintro ⟨body, hbody, hdecode⟩
      refine ⟨(_, body), mem_scan.mpr ⟨hbody, rfl⟩, ?_⟩
      simp [RecordKey.bytes, recKey, hdecode]

/-- A ledger whose records of the scanned kinds read as the objects of their keys is scanned. -/
theorem exists_scanRecords (hkeyed : ∀ (sec : SnapshotSection) (bytes body : Bytes),
    sec ≠ .curves → L.objects.get bytes = some body → bytes.head? = some sec.tag →
      ∃ key, bytes = (RecordKey.committed key).bytes ∧ Scanned C body key) :
    ∃ tokens keys, L.scanRecords = some (tokens, keys) := by
  have hall : ∀ sec, sec ≠ .curves → ∃ found, (L.scan sec.tag).mapM (scanEntry C sec) = some found := by
    intro sec hsec
    apply Option.isSome_iff_exists.mp
    apply mapM_isSome
    rintro ⟨bytes, body⟩ hmem
    obtain ⟨hget, hhead⟩ := mem_scan.mp hmem
    obtain ⟨key, rfl, hscanned⟩ := hkeyed sec bytes body hsec hget hhead
    rw [scanEntry_of_scanned hhead hscanned]
    rfl
  have htokens : ∃ tokens, L.scanTokens = some tokens := by
    apply Option.isSome_iff_exists.mp
    apply mapM_isSome
    rintro ⟨bytes, body⟩ hmem
    obtain ⟨hget, hhead⟩ := mem_scan.mp hmem
    obtain ⟨key, rfl, hscanned⟩ := hkeyed .tokens bytes body (by simp) hget hhead
    have hread : scanEntry C .tokens _ = _ := scanEntry_of_scanned hhead hscanned
    obtain ⟨t, ht, hlater⟩ := Option.bind_eq_some_iff.mp hread
    obtain ⟨hid, -⟩ := Option.ite_none_right_eq_some.mp hlater
    show (Option.bind (decodeToken body) fun t ↦
      if _ = u32Be t.id then some t else none).isSome
    rw [ht, Option.bind_some, if_pos hid]
    rfl
  obtain ⟨accounts, haccounts⟩ := hall .accounts (by simp)
  obtain ⟨tokens, htokens⟩ := htokens
  obtain ⟨contracts, hcontracts⟩ := hall .contracts (by simp)
  obtain ⟨nullifiers, hnullifiers⟩ := hall .nullifiers (by simp)
  obtain ⟨validators, hvalidators⟩ := hall .validators (by simp)
  obtain ⟨pools, hpools⟩ := hall .pools (by simp)
  obtain ⟨lps, hlps⟩ := hall .lps (by simp)
  obtain ⟨htlcs, hhtlcs⟩ := hall .htlcs (by simp)
  exact ⟨tokens, _, Option.bind_eq_some_iff.mpr ⟨accounts, haccounts,
    Option.bind_eq_some_iff.mpr ⟨tokens, htokens,
    Option.bind_eq_some_iff.mpr ⟨contracts, hcontracts,
    Option.bind_eq_some_iff.mpr ⟨nullifiers, hnullifiers,
    Option.bind_eq_some_iff.mpr ⟨validators, hvalidators,
    Option.bind_eq_some_iff.mpr ⟨pools, hpools,
    Option.bind_eq_some_iff.mpr ⟨lps, hlps,
    Option.bind_eq_some_iff.mpr ⟨htlcs, hhtlcs, rfl⟩⟩⟩⟩⟩⟩⟩⟩⟩

/-! ### The booted ledger -/

/-- A ledger over object records, before its commitment is computed. -/
def overRecords (objects : FMap Bytes Bytes) (nodes : TrieScheme.Nodes Bytes32 Bytes C.Digest)
    (n : UInt32) : Ledger C :=
  { withStore objects nodes with nextTokenId := n }

/-- The next token id that the records hold; the initial one when they hold none. -/
def nextTokenIdOf (objects : FMap Bytes Bytes) : Option UInt32 :=
  match objects[recKey REC_META []]? with
  | some body => u32OfLe body
  | none => some 1

section Booted

variable {objects : FMap Bytes Bytes} {nodes : TrieScheme.Nodes Bytes32 Bytes C.Digest} {n : UInt32}

/-- The ledger that a boot prepares, before its commitment is computed. -/
def prepared (objects : FMap Bytes Bytes) (nodes : TrieScheme.Nodes Bytes32 Bytes C.Digest) :
    Option (Ledger C) :=
  if objects.isEmpty then none
  else (nextTokenIdOf objects).bind fun n ↦ (overRecords objects nodes n).scanRecords.bind
    fun found ↦ some (((overRecords objects nodes n).indexTickers found.1).markAll found.2)

theorem fromRecords_eq :
    fromRecords objects nodes =
      match prepared objects nodes with
      | none => .err ()
      | some ledger =>
        match ledger.stateRoot with
        | none => .panicked
        | some (_, ledger) => .ok ledger := by
  unfold fromRecords prepared nextTokenIdOf
  cases objects.isEmpty with
  | true => rfl
  | false =>
    cases objects[recKey REC_META []]? with
    | none => rfl
    | some body => rfl

/-- What a booted ledger comes from. -/
theorem fromRecords_eq_ok : fromRecords objects nodes = .ok L' ↔ objects.isEmpty = false ∧
    ∃ n tokens keys root, nextTokenIdOf objects = some n ∧
      (overRecords objects nodes n).scanRecords = some (tokens, keys) ∧
      (((overRecords objects nodes n).indexTickers tokens).markAll keys).stateRoot =
        some (root, L') := by
  rw [fromRecords_eq]
  constructor
  · intro hboot
    split at hboot
    · exact absurd hboot (by simp)
    · next M hprepared =>
      split at hboot
      · exact absurd hboot (by simp)
      · next root last hroot =>
        obtain rfl := Outcome.ok.inj hboot
        unfold prepared at hprepared
        split at hprepared
        · exact absurd hprepared (by simp)
        · next hnonempty =>
          obtain ⟨n, hn, hlater⟩ := Option.bind_eq_some_iff.mp hprepared
          obtain ⟨⟨tokens, keys⟩, hscan, hlast⟩ := Option.bind_eq_some_iff.mp hlater
          obtain rfl := Option.some.inj hlast
          exact ⟨Bool.eq_false_iff.mpr hnonempty, n, tokens, keys, root, hn, hscan, hroot⟩
  · rintro ⟨hnonempty, n, tokens, keys, root, hn, hscan, hroot⟩
    have hprepared : prepared objects nodes =
        some (((overRecords objects nodes n).indexTickers tokens).markAll keys) := by
      rw [prepared, hnonempty, hn, if_neg Bool.false_ne_true, Option.bind_some, hscan,
        Option.bind_some]
    rw [hprepared]
    dsimp only
    rw [hroot]

theorem get_overRecords (bytes : Bytes) :
    (overRecords objects nodes n).objects.get bytes = objects[bytes]? := by
  rw [← OverlayMap.lookup_merged]
  exact congrArg (fun map : FMap Bytes Bytes ↦ map[bytes]?) (OverlayMap.merged_new objects)

/-- The ledger whose commitment a boot computes. -/
def booted (objects : FMap Bytes Bytes) (nodes : TrieScheme.Nodes Bytes32 Bytes C.Digest)
    (n : UInt32) (tokens : List TokenMeta) (keys : List DirtyKey) : Ledger C :=
  ((overRecords objects nodes n).indexTickers tokens).markAll keys

theorem markAll_eq (M : Ledger C) (keys : List DirtyKey) :
    M.markAll keys = { M with dirty := (M.markAll keys).dirty } := by
  unfold markAll
  induction keys generalizing M with
  | nil => rfl
  | cons key rest ih => exact ih (M.mark key)

theorem indexTickers_eq (M : Ledger C) (tokens : List TokenMeta) :
    M.indexTickers tokens = { M with objects := (M.indexTickers tokens).objects } := by
  unfold indexTickers
  induction tokens generalizing M with
  | nil => rfl
  | cons t rest ih => exact ih _

/-- A boot writes records and flags, and nothing else. -/
theorem booted_eq : booted objects nodes n tokens keys =
    { overRecords objects nodes n with
      objects := ((overRecords objects nodes n).indexTickers tokens).objects
      dirty := (booted objects nodes n tokens keys).dirty } := by
  have hmarked := markAll_eq ((overRecords objects nodes n).indexTickers tokens) keys
  exact hmarked.trans (congrArg
    (fun M : Ledger C ↦ { M with dirty := (booted objects nodes n tokens keys).dirty })
    (indexTickers_eq _ tokens))

theorem mem_dirty_booted {key : DirtyKey} :
    key ∈ (booted objects nodes n tokens keys).dirty ↔ key = .metaRecord ∨ key ∈ keys := by
  rw [booted, mem_dirty_markAll, indexTickers_eq]
  exact or_congr_left List.mem_singleton

theorem trieAt_booted (hnodes : C.trie.WellStored nodes) :
    C.trie.TrieAt (booted objects nodes n tokens keys).tree TrieScheme.noContent := by
  have hget : (NodeOverlay.new nodes).get = nodes := by
    funext hash
    simp [NodeOverlay.new, NodeOverlay.get]
  have htree : (booted objects nodes n tokens keys).tree = (nodes, C.trie.emptyRoot) := by
    rw [tree, booted_eq]
    exact congrArg (·, C.trie.emptyRoot) hget
  rw [htree]
  exact ⟨hnodes, (TrieScheme.contentRoot_noContent _).symm, .inl ⟨C.trie.keyBits, rfl⟩⟩

/-- Writing what the index says anyway changes no record. -/
theorem get_indexTickers (htickers : ∀ t ∈ tokens, M.record (.ticker t.ticker) = some (u32Be t.id))
    (bytes : Bytes) : (M.indexTickers tokens).objects.get bytes = M.objects.get bytes := by
  unfold indexTickers
  induction tokens generalizing M with
  | nil => rfl
  | cons t rest ih =>
    obtain ⟨ht, hrest⟩ := List.forall_mem_cons.mp htickers
    have hput : ∀ other, (M.putRecord (.ticker t.ticker) (u32Be t.id)).objects.get other =
        M.objects.get other := by
      intro other
      rw [putRecord, OverlayMap.get_put]
      split
      · next heq =>
        rw [heq]
        exact ht.symm
      · rfl
    rw [List.foldl_cons, ih fun later hlater ↦ (hput _).trans (hrest later hlater), hput]

end Booted

/-! ### Booting from one's own records -/

/-- The body of a canonical record reads as an object. -/
theorem scanned_of_canonical {body : Bytes} {key : DirtyKey}
    (hbody : CanonicalRecord C body (.committed key)) (hmeta : key ≠ .metaRecord)
    (hcurve : ∀ token, key ≠ .curve token) : Scanned C body key := by
  cases key with
  | account id =>
    obtain ⟨a, hfits, rfl⟩ := hbody
    exact Option.isSome_of_eq_some (decodeAccount_encodeAccount hfits)
  | token id =>
    obtain ⟨t, hfits, rfl, rfl⟩ := hbody
    exact ⟨t, decodeToken_encodeToken hfits, rfl⟩
  | contract id =>
    obtain ⟨c, hfits, rfl⟩ := hbody
    exact Option.isSome_of_eq_some (decodeContract_encodeContract hfits)
  | nullifier nf => exact trivial
  | validator id =>
    obtain ⟨v, -, hfits, rfl⟩ := hbody
    exact Option.isSome_of_eq_some (decodeValidator_encodeValidator hfits)
  | pool token =>
    obtain ⟨p, -, rfl, rfl⟩ := hbody
    exact ⟨p, decodePool_encodePool p, rfl⟩
  | lp token provider =>
    obtain ⟨shares, -, rfl⟩ := hbody
    exact Option.isSome_of_eq_some (u64OfLe_u64Le shares)
  | htlc id =>
    obtain ⟨h, rfl⟩ := hbody
    exact Option.isSome_of_eq_some (decodeHtlc_encodeHtlc h)
  | curve token => exact absurd rfl (hcurve token)
  | metaRecord => exact absurd rfl hmeta

/-- The records of a canonical ledger are scanned. -/
theorem Canonical.exists_scanRecords (hL : L.Canonical) :
    ∃ tokens keys, L.scanRecords = some (tokens, keys) := by
  apply Ledger.exists_scanRecords
  intro sec bytes body hsec hget hhead
  obtain ⟨key, rfl, hbody⟩ := hL.exists_key hget
  cases key with
  | ticker name =>
    cases sec <;> exact absurd (Option.some.inj hhead) (by decide)
  | committed key =>
    refine ⟨key, rfl, scanned_of_canonical hbody ?_ ?_⟩
    · rintro rfl
      cases sec <;> exact absurd (Option.some.inj hhead) (by decide)
    · rintro token rfl
      cases sec with
      | curves => exact hsec rfl
      | _ => exact absurd (Option.some.inj hhead) (by decide)

section OwnRecords

variable {objects : FMap Bytes Bytes} {nodes : TrieScheme.Nodes Bytes32 Bytes C.Digest}
  {n : UInt32}

/-- What a boot from the records of a ledger prepares has these records. -/
theorem get_booted (hregistry : L.view.Registry) (hobjects : ∀ bytes, objects[bytes]? = L.objects.get bytes)
    (hscan : (overRecords objects nodes n).scanRecords = some (tokens, keys)) (bytes : Bytes) :
    (booted objects nodes n tokens keys).objects.get bytes = L.objects.get bytes := by
  have hover : ∀ key, (overRecords objects nodes n).record key = L.record key :=
    fun key ↦ (get_overRecords key.bytes).trans (hobjects key.bytes)
  have htickers : ∀ t ∈ tokens,
      (overRecords objects nodes n).record (.ticker t.ticker) = some (u32Be t.id) := by
    intro t ht
    obtain ⟨body, hbody, hdecode⟩ := ((scan_of_scanRecords hscan).tokens t).mp ht
    rw [hover] at hbody
    have htoken : L.view.token t.id = some t := by
      show (L.record (.committed (.token t.id))).bind decodeToken = some t
      rw [hbody, Option.bind_some, hdecode]
    rw [hover]
    exact (hregistry.indexed t.ticker _).mpr ⟨t.id, t, htoken, rfl, rfl⟩
  rw [booted_eq]
  exact (get_indexTickers htickers bytes).trans ((get_overRecords bytes).trans (hobjects bytes))

theorem nextTokenIdOf_eq (hL : L.Canonical) (hregistry : L.view.Registry)
    (hobjects : ∀ bytes, objects[bytes]? = L.objects.get bytes) :
    nextTokenIdOf objects = some L.nextTokenId := by
  unfold nextTokenIdOf
  rw [hobjects]
  cases hstored : L.objects.get (recKey REC_META []) with
  | none =>
    have hnone : L.view.metaRecord = none := by
      show (L.record (.committed .metaRecord)).bind u32OfLe = none
      rw [record, RecordKey.bytes, hstored, Option.bind_none]
    exact congrArg some (hregistry.copied hnone).symm
  | some body =>
    have hrecord : L.record (.committed .metaRecord) = some body := hstored
    obtain ⟨id, rfl⟩ := hL.record hrecord
    have hsome : L.view.metaRecord = some id := by
      show (L.record (.committed .metaRecord)).bind u32OfLe = some id
      rw [hrecord, Option.bind_some, u32OfLe_u32Le]
    rw [hregistry.metaCopy id hsome]
    exact u32OfLe_u32Le _

/-- What a boot from the records of a ledger prepares stands for the ledger. -/
theorem agreeOn_booted (hformed : L.WellFormed) (hcanonical : L.Canonical)
    (hregistry : L.view.Registry) (hobjects : ∀ bytes, objects[bytes]? = L.objects.get bytes)
    (hscan : (overRecords objects nodes L.nextTokenId).scanRecords = some (tokens, keys)) :
    AgreeOn readable (booted objects nodes L.nextTokenId tokens keys) L := by
  have hget := get_booted hregistry hobjects hscan
  have hrecord : ∀ key : RecordKey,
      (booted objects nodes L.nextTokenId tokens keys).record key = L.record key :=
    fun key ↦ hget key.bytes
  have hbooted : (booted objects nodes L.nextTokenId tokens keys).WellFormed := by
    constructor
    · intro key body hbody
      rw [hrecord] at hbody
      exact hformed.records key body hbody
    · intro id a hcached
      rw [booted_eq] at hcached
      exact absurd hcached (by simp [overRecords, withStore])
  apply agreeOn_of_records hbooted hformed (hcanonical.of_objects hget) hcanonical
  · rw [booted_eq]
    rfl
  · exact fun key _ ↦ hrecord key

/-- The entries of a ledger that a boot finds. -/
def foundLeaf (L : Ledger C) : DirtyKey → Option Bytes
  | .curve _ => none
  | key => L.view.leaf key

theorem foundLeaf_of_ne {key : DirtyKey} (hcurve : ∀ token, key ≠ .curve token) :
    L.foundLeaf key = L.view.leaf key := by
  cases key with
  | curve token => exact absurd rfl (hcurve token)
  | _ => rfl

theorem foundLeaf_eq_leaf_iff : L.foundLeaf = L.view.leaf ↔ ∀ token, L.view.curve token = none := by
  constructor
  · intro heq token
    have hleaf : none = (L.view.curve token).map curveLeafPreimage := congrFun heq (.curve token)
    exact Option.map_eq_none_iff.mp hleaf.symm
  · intro hnone
    funext key
    cases key with
    | curve token =>
      show none = (L.view.curve token).map curveLeafPreimage
      rw [hnone, Option.map_none]
    | _ => rfl

/-- The root of a boot from the records of a ledger is that of the entries that the boot finds. -/
theorem stateRoot_booted (hfree : C.trie.CollisionFree) (hformed : L.WellFormed)
    (hcanonical : L.Canonical) (hregistry : L.view.Registry) (hnodes : C.trie.WellStored nodes)
    (hpaths : Set.InjOn (trieKey C) { key | L.view.leaf key ≠ none })
    (hobjects : ∀ bytes, objects[bytes]? = L.objects.get bytes)
    (hscan : (overRecords objects nodes L.nextTokenId).scanRecords = some (tokens, keys)) :
    ∃ L', (booted objects nodes L.nextTokenId tokens keys).stateRoot = some (L'.root, L') ∧
      L'.root = C.trie.contentRoot C.trie.keyBits
        (TrieScheme.contentOf (trieKey C) L.foundLeaf) := by
  have hagree := agreeOn_booted hformed hcanonical hregistry hobjects hscan
  have hfound := scan_of_scanRecords hscan
  have hmeta : ∀ key, key ≠ .metaRecord →
      (booted objects nodes L.nextTokenId tokens keys).record (.committed key) =
        L.record (.committed key) :=
    fun key hkey ↦ hagree.records_of_readable fun heq ↦
      hkey (RecordKey.committed.inj (RecordKey.bytes_injective heq))
  have hleaf : (booted objects nodes L.nextTokenId tokens keys).view.leaf = L.view.leaf := by
    funext key
    by_cases hkey : key = .metaRecord
    · rw [hkey]
      exact congrArg (fun n : UInt32 ↦ some (u32Le n)) hagree.nextTokenId_of_readable
    · rw [(hcanonical.of_objects (get_booted hregistry hobjects hscan)).leaf_eq hkey,
        hcanonical.leaf_eq hkey, hmeta key hkey]
  have hover : ∀ key, (overRecords objects nodes L.nextTokenId).record key = L.record key :=
    fun key ↦ (get_overRecords key.bytes).trans (hobjects key.bytes)
  -- the flagged entries are the stored ones, but for the curves
  have hflagged : ∀ key, key ∈ (booted objects nodes L.nextTokenId tokens keys).dirty ↔
      (∀ token, key ≠ .curve token) ∧ L.view.leaf key ≠ none := by
    intro key
    rw [mem_dirty_booted, hfound.mem]
    by_cases hkey : key = .metaRecord
    · rw [hkey]
      simp [LedgerState.leaf]
    · rw [hcanonical.leaf_eq hkey, hover]
      simp [hkey]
  obtain ⟨L', hroot, htree⟩ := hagree.left.stateRoot_tree hfree hpaths
    (fun key (hkey : (none : Option Bytes) ≠ none) ↦ absurd rfl hkey)
    (fun key hkey ↦ by rw [hleaf] at hkey; exact hkey)
    (fun key hkey ↦ ((hflagged key).mp hkey).2)
    (by
      have hempty : TrieScheme.contentOf (trieKey C) (fun _ ↦ (none : Option Bytes)) =
          TrieScheme.noContent := by
        funext path
        exact TrieScheme.contentOf_eq_none fun _ _ ↦ rfl
      rw [hempty]
      exact trieAt_booted hnodes)
  have hcontent : (fun key ↦ if key ∈ (booted objects nodes L.nextTokenId tokens keys).dirty then
      (booted objects nodes L.nextTokenId tokens keys).view.leaf key else none) = L.foundLeaf := by
    funext key
    rw [hleaf]
    by_cases hcurve : ∃ token, key = .curve token
    · obtain ⟨token, rfl⟩ := hcurve
      exact if_neg fun hmem ↦ ((hflagged _).mp hmem).1 token rfl
    · rw [foundLeaf_of_ne fun token heq ↦ hcurve ⟨token, heq⟩]
      split
      · rfl
      · next hmem =>
        by_contra hsome
        exact hmem ((hflagged key).mpr ⟨fun token heq ↦ hcurve ⟨token, heq⟩, Ne.symm hsome⟩)
  rw [hcontent] at htree
  exact ⟨L', hroot, htree.root_eq⟩

end OwnRecords

/-- What a ledger has on its base once it is flushed. -/
theorem get_flush_of_stateRoot (hL : L.WellFormed) {root : C.Digest}
    (hroot : L.stateRoot = some (root, L')) (key : Bytes) :
    L'.flush.objects.base[key]? = L.objects.get key := by
  obtain ⟨-, -, hclone⟩ := hL.stateRoot hroot
  have hsame : L'.objects = L.objects := (congrArg Ledger.objects hclone :)
  show L'.objects.merged[key]? = _
  rw [hsame, OverlayMap.lookup_merged]

/-- A node that has stored a record boots from its records after every run. What it boots into cannot
be told from the ledger that was stored, and has the commitment of its records as root exactly when
no token has a bonding curve: curves are not scanned. -/
theorem Reachable.boots_iff (hfree : C.trie.CollisionFree) (hL : L.Reachable)
    (hpaths : Set.InjOn (trieKey C) { key | L.view.leaf key ≠ none })
    {nodes : TrieScheme.Nodes Bytes32 Bytes C.Digest} (hnodes : C.trie.WellStored nodes)
    {bytes : Bytes} (hstored : L.objects.get bytes ≠ none) {root : C.Digest}
    (hroot : L.stateRoot = some (root, L')) :
    ∃ M, fromRecords L'.flush.objects.base nodes = .ok M ∧ Alike L M ∧
      ((∃ M', M.stateRoot = some (L.view.commitment, M')) ↔
        ∀ token, L.view.curve token = none) := by
  obtain ⟨hformed, hview⟩ := hL.view
  have hregistry := hview.registry
  have hobjects := get_flush_of_stateRoot hformed hroot
  have hnonempty : L'.flush.objects.base.isEmpty = false := by
    rw [Bool.eq_false_iff]
    intro hempty
    apply hstored
    rw [← hobjects, Std.ExtTreeMap.isEmpty_iff.mp hempty]
    exact FMap.lookup_empty bytes
  obtain ⟨tokens, keys, hscan⟩ : ∃ tokens keys,
      (overRecords L'.flush.objects.base nodes L.nextTokenId : Ledger C).scanRecords =
        some (tokens, keys) := by
    apply Canonical.exists_scanRecords
    exact hL.canonical.of_objects fun key ↦ (get_overRecords key).trans (hobjects key)
  obtain ⟨M, hbooted, hcommitted⟩ :=
    stateRoot_booted hfree hformed hL.canonical hregistry hnodes hpaths hobjects hscan
  have hagree := agreeOn_booted hformed hL.canonical hregistry hobjects hscan
  refine ⟨M, fromRecords_eq_ok.mpr ⟨hnonempty, _, _, _, _,
    nextTokenIdOf_eq hL.canonical hregistry hobjects, hscan, hbooted⟩,
    ((hagree.left.agreeOn_stateRoot hbooted).trans hagree).alike, ?_⟩
  obtain ⟨-, -, hclone⟩ := hagree.left.stateRoot hbooted
  have hclean : M.dirty = [] := (congrArg Ledger.dirty hclone :)
  rw [← foundLeaf_eq_leaf_iff, Ledger.stateRoot, if_pos hclean, hcommitted]
  constructor
  · rintro ⟨M', hsame⟩
    apply leaves_eq_of_root hfree _ (Prod.mk.inj (Option.some.inj hsame)).1
    apply hpaths.mono
    rintro key (hfound | hleaf)
    · cases key with
      | curve token => exact absurd rfl hfound
      | _ => exact hfound
    · exact hleaf
  · intro hsame
    rw [hsame]
    exact ⟨M, rfl⟩

theorem Reachable.exists_stateRoot (hfree : C.trie.CollisionFree) (hL : L.Reachable) :
    ∃ (root : C.Digest) (L' : Ledger C), L.stateRoot = some (root, L') := by
  obtain ⟨content, htree⟩ := (hL.sound hfree).stored
  obtain ⟨L', hroot, -⟩ := hL.view.1.stateRoot_content hfree htree
  exact ⟨L'.root, L', hroot⟩

theorem exists_get_of_token {id : UInt32} {t : TokenMeta} (htoken : L.view.token id = some t) :
    ∃ bytes, L.objects.get bytes ≠ none := by
  obtain ⟨body, hbody, -⟩ := Option.bind_eq_some_iff.mp htoken
  exact ⟨_, fun hnone ↦ absurd (hbody.symm.trans hnone) (Option.some_ne_none body)⟩

/-- A ledger without a curve, over a store without trie nodes. -/
theorem tokenCreated_boots : ∃ (L' M : Ledger clearSuite),
    fromRecords L'.flush.objects.base (fun _ ↦ none) = .ok M ∧ Alike tokenCreated M ∧
      ((∃ M', M.stateRoot = some (tokenCreated.view.commitment, M')) ↔
        ∀ token, tokenCreated.view.curve token = none) := by
  obtain ⟨root, L', hroot⟩ := reachable_tokenCreated.exists_stateRoot clearSuite_collisionFree
  obtain ⟨bytes, hstored⟩ := exists_get_of_token tokenCreated_facts.2.2.1
  obtain ⟨M, hboot⟩ := Reachable.boots_iff clearSuite_collisionFree reachable_tokenCreated
    injOn_createdEntries TrieScheme.TrieAt.empty.wellStored hstored hroot
  exact ⟨L', M, hboot⟩

end Ledger

end Latebra.State
