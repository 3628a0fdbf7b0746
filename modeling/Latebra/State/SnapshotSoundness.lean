import Latebra.State.AccountProofs
import Latebra.State.Pools
import Latebra.State.SnapshotBoot

/-!
# Snapshots under the root check

A node that boots from a snapshot of a peer compares the root of the decoded ledger with a root that
it trusts. The root pins down every record that is committed, and the next token id
(`records_of_root`). It does not cover the index of the tickers, which decoding
writes as it reads the tokens: a token that is given a second time under another ticker leaves the
first ticker in the index. `Reachable.decoded_alike_iff` says that this is all: a decoded ledger with
the right root has the records of the trusted one exactly when every token entry that is the last
with its ticker is the last with its id as well. Its validator set and its proofs of accounts are
right in any case.
-/

set_option autoImplicit false
set_option relaxedAutoImplicit false

namespace Latebra.State

open Foundation Crypto Latebra.Types

variable {C : CryptoSuite}

/-! ### What a root pins down -/

/-- Leaves with one root are the same, when their entries have distinct paths. -/
theorem leaves_eq_of_root {leaf leaf' : DirtyKey → Option Bytes} (hfree : C.trie.CollisionFree)
    (hpaths : Set.InjOn (Ledger.trieKey C) { key | leaf key ≠ none ∨ leaf' key ≠ none })
    (hroot : C.trie.contentRoot C.trie.keyBits (TrieScheme.contentOf (Ledger.trieKey C) leaf) =
      C.trie.contentRoot C.trie.keyBits (TrieScheme.contentOf (Ledger.trieKey C) leaf')) :
    leaf = leaf' := by
  have hcontent : TrieScheme.contentOf (Ledger.trieKey C) leaf =
      TrieScheme.contentOf (Ledger.trieKey C) leaf' :=
    (TrieScheme.contentRoot_injective hfree (TrieScheme.samePrefix_keyBits _)
      (TrieScheme.samePrefix_keyBits _) hroot).2
  funext key
  by_cases hkey : leaf key ≠ none ∨ leaf' key ≠ none
  · have hleaf := TrieScheme.contentOf_path hpaths (fun _ ↦ Or.inl) hkey
    have hleaf' := TrieScheme.contentOf_path hpaths (fun _ ↦ Or.inr) hkey
    rw [← hleaf, ← hleaf']
    exact congrFun hcontent _
  · rw [not_or, not_not, not_not] at hkey
    rw [hkey.1, hkey.2]

/-- Ledgers with one commitment have the same leaves, when their entries have distinct paths. -/
theorem LedgerState.leaf_eq_of_commitment {s s' : LedgerState C} (hfree : C.trie.CollisionFree)
    (hpaths : Set.InjOn (Ledger.trieKey C) { key | s.leaf key ≠ none ∨ s'.leaf key ≠ none })
    (hroot : s.commitment = s'.commitment) : s.leaf = s'.leaf :=
  leaves_eq_of_root hfree hpaths hroot

namespace Ledger

variable {L L' L'' M : Ledger C}

theorem nextTokenId_of_leaf (hleaf : M.view.leaf = L.view.leaf) :
    M.nextTokenId = L.nextTokenId :=
  u32Le_injective (Option.some.inj (congrFun hleaf .metaRecord))

/-! ### The last entry of its kind -/

theorem encodeToken_injOn {t t' : TokenMeta} (hfits : t.Fits) (hfits' : t'.Fits)
    (heq : encodeToken t = encodeToken t') : t = t' := by
  have hdecode := decodeToken_encodeToken hfits
  rw [heq, decodeToken_encodeToken hfits'] at hdecode
  exact (Option.some.inj hdecode).symm

/-- The last element of a list that has a property. -/
theorem exists_last {α : Type} {P : α → Prop} {entries : List α}
    (hsome : ∃ entry ∈ entries, P entry) : ∃ before entry after,
      entries = before ++ entry :: after ∧ P entry ∧ ∀ other ∈ after, ¬ P other := by
  induction entries with
  | nil => simp at hsome
  | cons first rest ih =>
    by_cases hrest : ∃ entry ∈ rest, P entry
    · obtain ⟨before, entry, after, rfl, hentry, hafter⟩ := ih hrest
      exact ⟨first :: before, entry, after, rfl, hentry, hafter⟩
    · obtain ⟨entry, hmem, hentry⟩ := hsome
      have hfirst : entry = first := by
        rcases List.mem_cons.mp hmem with heq | hlater
        · exact heq
        · exact absurd ⟨entry, hlater, hentry⟩ hrest
      subst hfirst
      exact ⟨[], entry, rest, rfl, hentry, fun other hother hP ↦ hrest ⟨other, hother, hP⟩⟩

theorem updated_append (found : Coord → Found) (first second : List (Coord × Found)) :
    updated found (first ++ second) = updated (updated found first) second :=
  List.foldl_append

section Restored

variable {n : UInt32} {entries before after : List (SnapshotEntry C)}

/-- The last entry with its key is the one whose record stays. -/
theorem RestoredFrom.record_last (hM : RestoredFrom n entries M) {entry : SnapshotEntry C}
    (hsplit : entries = before ++ entry :: after)
    (hlast : ∀ other ∈ after, other.key ≠ entry.key) :
    M.record (.committed entry.key) = if entry.Empty then none else some entry.body := by
  have hfound := congrFun hM (.object entry.key)
  rw [hsplit, List.flatMap_append, List.flatMap_cons, updated_append, updated_append,
    updated_of_notMem, updated_of_forall (x := .inl (if entry.Empty then none else some entry.body))]
    at hfound
  · exact Sum.inl.inj hfound
  · refine ⟨(.object entry.key, .inl (if entry.Empty then none else some entry.body)), ?_, rfl⟩
    apply List.mem_append_left
    rw [SnapshotEntry.put_updates]
    exact List.mem_cons_self
  · intro update hupdate hsame
    exact (eq_of_update entry.key_ne_metaRecord hupdate hsame).2
  · intro update hupdate hsame
    obtain ⟨other, hother, hupdate⟩ := List.mem_flatMap.mp hupdate
    exact hlast other hother (eq_of_update entry.key_ne_metaRecord hupdate hsame).1

/-- The last token with its ticker is the one that stays in the index. -/
theorem RestoredFrom.ticker_last (hM : RestoredFrom n entries M) {t : TokenMeta}
    (hsplit : entries = before ++ .token t :: after)
    (hlast : ∀ t', .token t' ∈ after → t'.ticker ≠ t.ticker) :
    M.record (.ticker t.ticker) = some (u32Be t.id) := by
  have hfound := congrFun hM (.record (RecordKey.ticker t.ticker).bytes)
  rw [hsplit, List.flatMap_append, List.flatMap_cons, updated_append, updated_append,
    updated_of_notMem, updated_of_forall (x := .inl (some (u32Be t.id)))] at hfound
  · exact Sum.inl.inj hfound
  · refine ⟨(.record (RecordKey.ticker t.ticker).bytes, .inl (some (u32Be t.id))), ?_, rfl⟩
    apply List.mem_append_left
    rw [SnapshotEntry.put_updates]
    exact List.mem_cons_of_mem _ List.mem_cons_self
  · intro update hupdate hsame
    obtain ⟨t', htoken, -, hvalue⟩ := eq_of_update_ticker hupdate hsame
    obtain rfl := SnapshotEntry.token.inj htoken
    exact hvalue
  · intro update hupdate hsame
    obtain ⟨other, hother, hupdate⟩ := List.mem_flatMap.mp hupdate
    obtain ⟨t', rfl, hname, -⟩ := eq_of_update_ticker hupdate hsame
    exact hlast t' hother hname

/-- Of an entry with a record there is an object, and the last one of them has that record. -/
theorem RestoredFrom.exists_of_record (hM : RestoredFrom n entries M) {key : DirtyKey}
    (hkey : key ≠ .metaRecord) {body : Bytes} (hbody : M.record (.committed key) = some body) :
    ∃ before entry after, entries = before ++ entry :: after ∧ entry.key = key ∧
      entry.body = body := by
  obtain ⟨before, entry, after, hsplit, rfl, hafter⟩ :=
    exists_last (hM.exists_entry_of_get hkey hbody)
  have hrecord := hM.record_last hsplit hafter
  rw [hbody] at hrecord
  by_cases hempty : entry.Empty
  · rw [if_pos hempty] at hrecord
    exact absurd hrecord (Option.some_ne_none body)
  · rw [if_neg hempty] at hrecord
    exact ⟨before, entry, after, hsplit, rfl, (Option.some.inj hrecord).symm⟩

/-- The record of the last token with its id. -/
theorem RestoredFrom.token_last (hM : RestoredFrom n entries M) {t : TokenMeta}
    (hsplit : entries = before ++ .token t :: after)
    (hlast : ∀ t', .token t' ∈ after → t'.id ≠ t.id) :
    M.record (.committed (.token t.id)) = some (encodeToken t) := by
  apply hM.record_last hsplit
  intro other hother hsame
  cases other with
  | token t' => exact hlast t' hother (DirtyKey.token.inj hsame)
  | _ => exact absurd hsame (by simp [SnapshotEntry.key])

end Restored

/-! ### Restored tokens -/

theorem fits_of_restore {t : TokenMeta} {value : Unit}
    (hrun : (SnapshotEntry.token t).restore.run handler M = (.ok value, L')) : t.Fits := by
  by_contra hlong
  have hexec : handler.exec (.putToken t) M = none := if_neg hlong
  rw [SnapshotEntry.restore, Program.run_bind, LedgerM.command, Program.perform, Program.run,
    SnapshotEntry.put, hexec] at hrun
  exact absurd (Prod.mk.inj hrun).1 (by simp)

/-- The tokens that are restored fit. -/
theorem fits_of_restored {entries : List (SnapshotEntry C)} {value : Unit}
    (hrun : (Program.forEach entries SnapshotEntry.restore).run handler M = (.ok value, L'))
    {t : TokenMeta} (ht : .token t ∈ entries) : t.Fits := by
  induction entries generalizing M with
  | nil => exact absurd ht List.not_mem_nil
  | cons entry rest ih =>
    rw [Program.forEach_cons, Program.run_bind] at hrun
    rcases hfirst : entry.restore.run handler M with ⟨_ | _ | _, M₁⟩
    all_goals rw [hfirst] at hrun
    · rcases List.mem_cons.mp ht with rfl | hrest
      · exact fits_of_restore hfirst
      · exact ih hrun hrest
    · exact absurd (Prod.mk.inj hrun).1 (by simp)
    · exact absurd (Prod.mk.inj hrun).1 (by simp)

/-- Every token that is the last with its ticker is the last with its id as well. -/
def LatestTickers (entries : List (SnapshotEntry C)) : Prop :=
  ∀ before t after, entries = before ++ .token t :: after →
    (∀ t', .token t' ∈ after → t'.ticker ≠ t.ticker) → ∀ t', .token t' ∈ after → t'.id ≠ t.id

section Tickers

variable {n : UInt32} {entries : List (SnapshotEntry C)}

/-- The ticker index of a ledger is restored when the tokens that it lists are those that stay. -/
theorem RestoredFrom.ticker_eq_of_latest (hM : RestoredFrom n entries M) (hL : L.Canonical)
    (htickers : L.view.TickersIndexed)
    (hfits : ∀ t, .token t ∈ entries → t.Fits)
    (htokens : ∀ id, M.record (.committed (.token id)) = L.record (.committed (.token id)))
    (hlatest : LatestTickers entries) (name : Text) :
    M.record (.ticker name) = L.record (.ticker name) := by
  by_cases hsome : ∃ entry ∈ entries, ∃ t, entry = .token t ∧ t.ticker = name
  · obtain ⟨before, _, after, hsplit, ⟨t, rfl, rfl⟩, hafter⟩ := exists_last hsome
    have hlast : ∀ t', .token t' ∈ after → t'.ticker ≠ t.ticker :=
      fun t' ht' hsame ↦ hafter _ ht' ⟨t', rfl, hsame⟩
    have hmem : .token t ∈ entries := by
      rw [hsplit]
      exact List.mem_append_right _ List.mem_cons_self
    have hrecord := hM.token_last hsplit (hlatest before t after hsplit hlast)
    rw [htokens] at hrecord
    have htoken : L.view.token t.id = some t := hL.token_eq_some.mpr ⟨hfits t hmem, rfl, hrecord⟩
    rw [hM.ticker_last hsplit hlast]
    exact ((htickers.indexed t.ticker _).mpr ⟨t.id, t, htoken, rfl, rfl⟩).symm
  · have hnone : ∀ t, .token t ∈ entries → t.ticker ≠ name :=
      fun t ht hname ↦ hsome ⟨_, ht, t, rfl, hname⟩
    rw [hM.ticker_eq_none hnone]
    by_contra hrecord
    obtain ⟨body, hbody⟩ := Option.ne_none_iff_exists'.mp (Ne.symm hrecord)
    obtain ⟨id, t, ht, hname, -⟩ := (htickers.indexed name body).mp hbody
    obtain ⟨hfit, rfl, hstored⟩ := hL.token_eq_some.mp ht
    -- the token is among the objects, and none of them has its ticker
    rw [← htokens] at hstored
    obtain ⟨before, entry, after, rfl, hkey, hbody'⟩ :=
      hM.exists_of_record (by simp) hstored
    have hmem : entry ∈ before ++ entry :: after := List.mem_append_right _ List.mem_cons_self
    cases entry with
    | token t' =>
      have hsame : t' = t := encodeToken_injOn (hfits t' hmem) hfit hbody'
      exact hnone t' hmem (hsame ▸ hname)
    | _ => exact absurd hkey (by simp [SnapshotEntry.key])

/-- Where the ticker index is restored, the tokens that it lists are those that stay. -/
theorem RestoredFrom.latest_of_ticker_eq (hM : RestoredFrom n entries M) (hL : L.Canonical)
    (htickers : L.view.TickersIndexed)
    (hfits : ∀ t, .token t ∈ entries → t.Fits)
    (hrecords : ∀ key, key ≠ .committed .metaRecord → M.record key = L.record key) :
    LatestTickers entries := by
  intro before t after hsplit hlast t' ht' hid
  have hticker := hM.ticker_last hsplit hlast
  rw [hrecords _ (by simp)] at hticker
  obtain ⟨id, stored, hstored, hname, hbody⟩ := (htickers.indexed t.ticker _).mp hticker
  obtain rfl := u32Be_injective hbody
  obtain ⟨hfit, -, hrecord⟩ := hL.token_eq_some.mp hstored
  -- the token that stays comes after the one that the index lists
  have hlater : ∃ entry ∈ after, entry.key = .token t.id :=
    ⟨_, ht', congrArg DirtyKey.token hid⟩
  obtain ⟨middle, last, rest, hafter, hkey, hnone⟩ := exists_last hlater
  cases last with
  | token latest =>
    have hlatest : latest.id = t.id := DirtyKey.token.inj hkey
    have hsplit' : entries = (before ++ .token t :: middle) ++ .token latest :: rest := by
      rw [hsplit, hafter, List.append_assoc, List.cons_append]
    have hkept := hM.token_last hsplit' fun t'' ht'' hsame ↦
      hnone _ ht'' (congrArg DirtyKey.token (hsame.trans hlatest))
    rw [hlatest, hrecords _ (by simp), hrecord] at hkept
    have hmem : .token latest ∈ after := by
      rw [hafter]
      exact List.mem_append_right _ List.mem_cons_self
    have hmem' : .token latest ∈ entries := by
      rw [hsplit']
      exact List.mem_append_right _ List.mem_cons_self
    have hsame := encodeToken_injOn hfit (hfits latest hmem') (Option.some.inj hkept)
    exact hlast latest hmem (hsame ▸ hname)
  | _ => exact absurd hkey (by simp [SnapshotEntry.key])

end Tickers

/-! ### Ledgers that cannot be told apart -/

theorem scan_congr {tag : UInt8}
    (hrecords : ∀ bytes : Bytes, bytes.head? = some tag → M.objects.get bytes = L.objects.get bytes) :
    M.scan tag = L.scan tag := by
  apply FMap.entriesWhere_congr
  intro bytes htag
  rw [OverlayMap.lookup_merged, OverlayMap.lookup_merged, hrecords bytes (of_decide_eq_true htag)]

/-- A ledger that cannot be told from another by its records: it has the same records and lists of
records, answers every query of them and runs every program of the ledger alike, and gives the same results and the same records for
every later transaction. The stored copy of the next token id is left out: no transaction reads it,
but `from_records` starts from it and `object_records` lists it. -/
structure Alike (L L' : Ledger C) : Prop where
  records : ∀ bytes, bytes ≠ (RecordKey.committed .metaRecord).bytes →
    L'.objects.get bytes = L.objects.get bytes
  lists : ∀ tag, tag ≠ REC_META → L'.scan tag = L.scan tag
  nextTokenId : L'.nextTokenId = L.nextTokenId
  queries : ∀ {α : Type} (program : LedgerM C α),
    (program.run handler L').1 = (program.run handler L).1
  token : ∀ ticker, L'.token ticker = L.token ticker
  tokenCount : L'.tokenCount = L.tokenCount
  pools : L'.pools = L.pools
  curves : L'.curves = L.curves
  nonce : ∀ id, L'.nonce id = L.nonce id
  transactions : ∀ txs, (applyEach txs L').1 = (applyEach txs L).1
  recordsAfter : ∀ txs bytes, bytes ≠ (RecordKey.committed .metaRecord).bytes →
    (applyEach txs L').2.objects.get bytes = (applyEach txs L).2.objects.get bytes

theorem AgreeOn.alike (h : AgreeOn readable L' L) : Alike L L' := by
  have hlists : ∀ tag, tag ≠ REC_META → L'.scan tag = L.scan tag := by
    intro tag htag
    apply scan_congr
    intro bytes hhead
    apply h.records_of_readable
    rintro rfl
    exact htag (Option.some.inj hhead).symm
  refine ⟨fun bytes ↦ h.records_of_readable, hlists, h.nextTokenId_of_readable, h.run_readable,
    fun ticker ↦ ?_, ?_, ?_, ?_, fun id ↦ ?_, fun txs ↦ (h.applyEach txs).1, fun txs bytes ↦
      (h.applyEach txs).2.records_of_readable⟩
  · have hrecord : ∀ key : RecordKey, key ≠ .committed .metaRecord →
        L'.record key = L.record key := fun key hkey ↦
      h.records_of_readable fun heq ↦ hkey (RecordKey.bytes_injective heq)
    have hdecoded : ∀ id, (L'.decoded decodeToken (.committed (.token id))).map Prod.fst =
        (L.decoded decodeToken (.committed (.token id))).map Prod.fst := by
      intro id
      rw [decoded, decoded, hrecord _ (by simp)]
      cases L.record (.committed (.token id)) with
      | none => rfl
      | some bytes => simp only [Option.map_map]; rfl
    unfold Ledger.token
    simp only [hrecord _ (show RecordKey.ticker _ ≠ _ from by simp), hdecoded]
  · exact congrArg List.length (hlists REC_TICKER (by decide))
  · rw [pools, pools, hlists REC_POOL (by decide)]
  · rw [curves, curves, hlists REC_CURVE (by decide)]
  · have haccount : L'.view.account id = L.view.account id :=
      congrArg (Option.bind · (decodeAccount C))
        (h.records_of_readable fun heq ↦ absurd (RecordKey.bytes_injective heq) (by simp))
    obtain ⟨_, hread, -⟩ := h.right.account_eq id
    obtain ⟨_, hread', -⟩ := h.left.account_eq id
    rw [nonce, nonce, hread, hread', haccount]
    rfl

/-- The validator set is read off the list of the validators and the cap. -/
theorem validatorSet_congr (hscan : M.scan REC_VALIDATOR = L.scan REC_VALIDATOR)
    (hcap : M.maxValidators = L.maxValidators) : M.validatorSet = L.validatorSet := by
  rw [validatorSet, validatorSet, eligible, eligible, hscan, hcap]

/-! ### Decoded ledgers with the root of another -/

section Decoded

variable {b : Bytes} {n : UInt32} {entries : List (SnapshotEntry C)}

/-- A decoded ledger with the root of another comes from objects that give the committed records of
that one, and its next token id. -/
theorem records_of_root (hfree : C.trie.CollisionFree) (hL : L.Canonical)
    (hM : RestoredFrom n entries M) (hformed : M.WellFormed) (hcanonical : M.Canonical)
    (htree : M.tree = (Ledger.new : Ledger C).tree) {root : C.Digest}
    (hdecoded : M.stateRoot = some (root, L'))
    (hroot : L'.stateRoot = some (L.view.commitment, L''))
    (hpaths : Set.InjOn (trieKey C)
      { key | L.view.leaf key ≠ none ∨ ∃ entry ∈ entries, entry.key = key }) :
    (∀ key, key ≠ .metaRecord → M.record (.committed key) = L.record (.committed key)) ∧
      M.nextTokenId = L.nextTokenId := by
  have hkeys : ∀ key, key = .metaRecord ∨ (∃ entry ∈ entries, entry.key = key) →
      L.view.leaf key ≠ none ∨ ∃ entry ∈ entries, entry.key = key := by
    rintro key (rfl | hentry)
    · exact .inl (Option.some_ne_none _)
    · exact .inr hentry
  -- the decoded ledger has nothing to reconcile, so both roots are the commitment of its records
  have hsame : M.view.commitment = L.view.commitment := by
    rw [hM.stateRoot_eq hfree hformed hcanonical htree hdecoded (hpaths.mono hkeys)] at hroot
    exact (Prod.mk.inj (Option.some.inj hroot)).1
  have hleaf : M.view.leaf = L.view.leaf := by
    refine LedgerState.leaf_eq_of_commitment hfree (hpaths.mono ?_) hsame
    rintro key (hleaf | hleaf)
    · exact hkeys key (hM.exists_of_leaf (.inl hleaf))
    · exact .inl hleaf
  exact ⟨fun key hkey ↦ hL.record_eq_of_leaf_eq hcanonical hkey (congrFun hleaf key),
    nextTokenId_of_leaf hleaf⟩

/-- A decoded ledger with the root of another proves the accounts of that one. -/
theorem accountProof_of_root (hfree : C.trie.CollisionFree) (hL : L.Canonical)
    (hM : RestoredFrom n entries M) (hformed : M.WellFormed) (hcanonical : M.Canonical)
    (htree : M.tree = (Ledger.new : Ledger C).tree) {root : C.Digest}
    (hdecoded : M.stateRoot = some (root, L'))
    (hroot : L'.stateRoot = some (L.view.commitment, L''))
    (hpaths : Set.InjOn (trieKey C)
      { key | L.view.leaf key ≠ none ∨ ∃ entry ∈ entries, entry.key = key })
    {id : Bytes32} {acct : Account C} (hacct : L.view.account id = some acct) :
    ∃ p L₁, L'.accountProof id = some (some p, L₁) ∧ p.preimage = accountLeafPreimage id acct ∧
      verifyAccountProof C L.view.commitment p = true := by
  obtain ⟨hcommitted, -⟩ := records_of_root hfree hL hM hformed hcanonical htree hdecoded hroot hpaths
  have hentries : Set.InjOn (trieKey C)
      { key | key = .metaRecord ∨ ∃ entry ∈ entries, entry.key = key } := by
    apply hpaths.mono
    rintro key (rfl | hentry)
    · exact .inl (Option.some_ne_none _)
    · exact .inr hentry
  obtain ⟨-, hformed', hclone⟩ := hformed.stateRoot hdecoded
  have hview := hformed.view_stateRoot hdecoded
  have hleaf : L'.view.leaf = M.view.leaf := by
    rw [hview]
    exact LedgerState.leaf_withDirty M.view ∅
  have hcommitment : L'.view.commitment = L.view.commitment := by
    rw [hM.stateRoot_eq hfree hformed hcanonical htree hdecoded hentries] at hroot
    rw [LedgerState.commitment, LedgerState.content, hleaf]
    exact (Prod.mk.inj (Option.some.inj hroot)).1
  have haccount : L'.view.account id = some acct := by
    rw [hview, ← hacct]
    exact congrArg (Option.bind · (decodeAccount C)) (hcommitted (.account id) (by simp))
  have hdistinct : L'.view.PathsDistinct := by
    refine hentries.mono fun key hkey ↦ hM.exists_of_leaf (.inl ?_)
    rw [← hleaf]
    refine hkey.resolve_right fun hdirty ↦ ?_
    rw [hview] at hdirty
    exact hdirty
  rw [← hcommitment]
  exact (hM.upToDate_decoded hfree hformed hcanonical htree hdecoded hentries).accountProof
    hformed' hfree hdistinct haccount

/-- Ledgers with the same committed validators have the same list of them. -/
theorem scan_validator_of_records (hM : M.Canonical) (hL : L.Canonical)
    (hrecords : ∀ key, key ≠ .metaRecord → M.record (.committed key) = L.record (.committed key)) :
    M.scan REC_VALIDATOR = L.scan REC_VALIDATOR := by
  apply scan_congr
  intro bytes hhead
  refine get_eq_of_records hM hL fun key hkey ↦ ?_
  cases key with
  | committed key =>
    apply hrecords
    rintro rfl
    rw [hkey] at hhead
    exact absurd hhead (by decide)
  | ticker name =>
    rw [hkey] at hhead
    exact absurd (Option.some.inj hhead) (by decide)

/-- A byte string that decodes to a ledger with the root of a reachable one, where the entries of
both have distinct paths, stands for it exactly when each of its tokens that is the last with its
ticker is the last with its id. In any case it gives the validator set of that one, and proofs of its
accounts that the root accepts. -/
theorem Reachable.decoded_alike_iff (hfree : C.trie.CollisionFree) (hL : L.Reachable)
    (hread : (readSnapshot C).complete b = some (n, entries)) (hdecode : decode b = .ok L')
    (hroot : L'.stateRoot = some (L.view.commitment, L''))
    (hpaths : Set.InjOn (trieKey C)
      { key | L.view.leaf key ≠ none ∨ ∃ entry ∈ entries, entry.key = key }) :
    (Alike L L' ↔ LatestTickers entries) ∧
      L'.maxValidators = L.maxValidators ∧ L'.validatorSet = L.validatorSet ∧
      ∀ id acct, L.view.account id = some acct → ∃ p L₁, L'.accountProof id = some (some p, L₁) ∧
        p.preimage = accountLeafPreimage id acct ∧
          verifyAccountProof C L.view.commitment p = true := by
  obtain ⟨hformedL, hview⟩ := hL.view
  obtain ⟨n', entries', M, root, hread', hrun, hM, hdecoded⟩ := decode_eq_ok hdecode
  obtain ⟨rfl, rfl⟩ := Prod.mk.inj (Option.some.inj (hread.symm.trans hread'))
  obtain ⟨hformed, hcanonical, htree⟩ := restored_facts hrun
  obtain ⟨hcommitted, hnext⟩ :=
    records_of_root hfree hL.canonical hM hformed hcanonical htree hdecoded hroot hpaths
  have hfits : ∀ t, .token t ∈ entries → t.Fits := fun t ht ↦ fits_of_restored hrun ht
  have hrooted := hformed.agreeOn_stateRoot hdecoded
  obtain ⟨-, -, hclone⟩ := hformed.stateRoot hdecoded
  have hcap : L'.maxValidators = L.maxValidators := by
    rw [hL.maxValidators_eq, ← maxValidators_restored hrun]
    exact (congrArg Ledger.maxValidators hclone :)
  refine ⟨⟨fun halike ↦ ?_, fun hlatest ↦ ?_⟩, hcap, ?_, fun id acct hacct ↦ ?_⟩
  · apply hM.latest_of_ticker_eq hL.canonical hview.tickersIndexed hfits
    intro key hkey
    have hbytes : key.bytes ≠ (RecordKey.committed .metaRecord).bytes :=
      fun heq ↦ hkey (RecordKey.bytes_injective heq)
    exact (hrooted.records_of_readable hbytes).symm.trans (halike.records _ hbytes)
  · have hagree : AgreeOn readable M L := by
      refine agreeOn_of_records hformed hformedL hcanonical hL.canonical hnext fun key hkey ↦ ?_
      cases key with
      | committed key => exact hcommitted key fun heq ↦ hkey (congrArg RecordKey.committed heq)
      | ticker name =>
        exact hM.ticker_eq_of_latest hL.canonical hview.tickersIndexed hfits
          (fun id ↦ hcommitted (.token id) (by simp)) hlatest name
    exact (hrooted.trans hagree).alike
  · have hobjects : L'.objects = M.objects := (congrArg Ledger.objects hclone :)
    refine validatorSet_congr ?_ hcap
    rw [scan, hobjects]
    exact scan_validator_of_records hcanonical hL.canonical hcommitted
  · exact accountProof_of_root hfree hL.canonical hM hformed hcanonical htree hdecoded hroot hpaths
      hacct

end Decoded

/-! ### A stale token -/

/-- The encoding of a ledger with one more token in front of its own. -/
def encodeBehind (stale : TokenMeta) (L : Ledger C) : Bytes :=
  LEDGER_MAGIC ++ u32Le L.nextTokenId ++ SnapshotSection.all.flatMap fun sec ↦
    if sec = .tokens then
      leBytes 4 ((L.scan sec.tag).length + 1) ++
        (encodeToken stale ++ (L.scan sec.tag).flatMap sec.written)
    else L.encodeSection sec

section Stale

variable {n : UInt32} {first after : List (SnapshotEntry C)} {stale t : TokenMeta}

/-- The objects of a ledger with one more token in front of its own. -/
theorem Lists.readSnapshot_behind {objects : SnapshotSection → List (SnapshotEntry C)}
    (hlists : L.Lists objects) (hshort : ∀ sec : SnapshotSection,
      (L.scan sec.tag).length + 1 < 2 ^ 32) (hstale : stale.Fits) :
    ∃ first after, SnapshotSection.all.flatMap objects = first ++ after ∧
      (∀ entry ∈ first, entry.sec = .accounts) ∧
      (Latebra.State.readSnapshot C).complete (encodeBehind stale L) =
        some (L.nextTokenId, first ++ .token stale :: after) := by
  let listed : SnapshotSection → List (SnapshotEntry C) := fun sec ↦
    if sec = .tokens then .token stale :: objects sec else objects sec
  have hencode : encodeBehind stale L = snapshotOf L.nextTokenId listed := by
    rw [encodeBehind, snapshotOf]
    congr 2
    funext sec
    by_cases htokens : sec = .tokens
    · subst htokens
      rw [if_pos rfl, ← hlists.records, List.length_map, List.flatMap_map]
      rfl
    · show (if sec = .tokens then _ else L.encodeSection sec) =
        sectionOf sec (if sec = .tokens then _ else _)
      rw [if_neg htokens, if_neg htokens, hlists.encodeSection_eq]
  refine ⟨objects .accounts, [.tokens, .contracts, .nullifiers, .validators, .pools, .lps, .htlcs,
    .curves].flatMap objects, rfl, fun entry hentry ↦ (hlists.stored _ entry hentry).1, ?_⟩
  rw [hencode]
  apply readSnapshot_snapshotOf
  · intro sec entry hentry
    by_cases htokens : sec = .tokens
    · subst htokens
      rcases List.mem_cons.mp hentry with rfl | hown
      · exact ⟨rfl, hstale, not_false⟩
      · exact hlists.stored _ entry hown
    · have hown : entry ∈ objects sec := by
        have hlisted : entry ∈ if sec = .tokens then _ else objects sec := hentry
        rwa [if_neg htokens] at hlisted
      exact hlists.stored sec entry hown
  · intro sec
    have hlength := hlists.length sec
    have hbound := hshort sec
    show (if sec = .tokens then _ else _ : List (SnapshotEntry C)).length < 2 ^ 32
    split
    · rw [List.length_cons]
      omega
    · omega

/-- A token in front of the objects of a ledger that has another token under its id does not show in
the committed records. -/
theorem Lists.record_behind {objects : SnapshotSection → List (SnapshotEntry C)}
    (hlists : L.Lists objects) (hL : L.Canonical)
    (hsplit : SnapshotSection.all.flatMap objects = first ++ after)
    (hown : .token t ∈ after) (hid : stale.id = t.id)
    (hM : RestoredFrom n (first ++ .token stale :: after) M) {key : DirtyKey}
    (hkey : key ≠ .metaRecord) :
    M.record (.committed key) = L.record (.committed key) := by
  have hstored : ∀ entry, entry ∈ first ++ after → entry.key = key →
      (if entry.Empty then none else some entry.body) = L.record (.committed key) := by
    rintro entry hentry rfl
    rw [← hsplit] at hentry
    obtain ⟨hstored, hrecord⟩ := hlists.mem.mp hentry
    rw [if_neg hstored.kept, hrecord]
  by_cases hlater : ∃ entry ∈ after, entry.key = key
  · obtain ⟨before, entry, rest, rfl, rfl, hrest⟩ := exists_last hlater
    have hbehind : first ++ .token stale :: (before ++ entry :: rest) =
        (first ++ .token stale :: before) ++ entry :: rest := by simp
    rw [hM.record_last hbehind hrest]
    exact hstored entry (by simp) rfl
  · have hother : ∀ entry ∈ first ++ .token stale :: after, entry.key = key →
        entry ∈ first ++ after := by
      rintro entry hentry rfl
      rw [List.mem_append, List.mem_cons] at hentry
      rcases hentry with hfirst | rfl | hafter
      · exact List.mem_append_left _ hfirst
      · exact absurd ⟨_, hown, congrArg DirtyKey.token hid.symm⟩ hlater
      · exact List.mem_append_right _ hafter
    by_cases hsome : ∃ entry ∈ first ++ .token stale :: after, entry.key = key
    · exact hM.record_eq hkey hsome fun entry hentry heq ↦
        hstored entry (hother entry hentry heq) heq
    · rw [hM.record_eq_none hkey fun entry hentry heq ↦ hsome ⟨entry, hentry, heq⟩]
      by_contra hrecord
      obtain ⟨entry, hentry, heq⟩ := hlists.exists_of_record hL hkey (Ne.symm hrecord)
      rw [hsplit, List.mem_append] at hentry
      apply hsome
      refine ⟨entry, ?_, heq⟩
      rw [List.mem_append, List.mem_cons]
      exact hentry.imp_right .inr

/-- A token in front of the objects of a ledger that has another token under its id does not show in
the root of the decoded ledger, and its ticker is taken there. -/
theorem Canonical.exists_decoded_behind (hL : L.Canonical) (hfree : C.trie.CollisionFree)
    (hpaths : Set.InjOn (trieKey C) { key | L.view.leaf key ≠ none })
    (hshort : ∀ sec : SnapshotSection, (L.scan sec.tag).length + 1 < 2 ^ 32)
    (htickers : L.view.TickersIndexed) (ht : L.view.token t.id = some t) (hid : stale.id = t.id)
    (hstale : stale.Fits) (hfresh : L.record (.ticker stale.ticker) = none) :
    ∃ entries L', (readSnapshot C).complete (encodeBehind stale L) = some (L.nextTokenId, entries) ∧
      decode (encodeBehind stale L) = .ok L' ∧ L'.stateRoot = some (L.view.commitment, L') ∧
      (∀ entry ∈ entries, L.view.leaf entry.key ≠ none) ∧
      L'.record (.ticker stale.ticker) = some (u32Be t.id) := by
  obtain ⟨objects, hlists⟩ := hL.exists_lists
  obtain ⟨first, after, hsplit, hfirst, hread⟩ := hlists.readSnapshot_behind hshort hstale
  have hmem : ∀ entry ∈ first ++ after, entry.Stored ∧ L.view.leaf entry.key ≠ none := by
    intro entry hentry
    rw [← hsplit] at hentry
    obtain ⟨hstored, hrecord⟩ := hlists.mem.mp hentry
    refine ⟨hstored, ?_⟩
    rw [hL.leaf_eq entry.key_ne_metaRecord, hrecord]
    exact Option.some_ne_none _
  have hlisted : ∀ entry ∈ first ++ .token stale :: after,
      entry = .token stale ∨ entry ∈ first ++ after := by
    intro entry hentry
    rw [List.mem_append, List.mem_cons] at hentry
    rw [List.mem_append]
    tauto
  have hown : .token t ∈ after := by
    have hmem := (hlists.mem_token hL).mpr ht
    rw [hsplit, List.mem_append] at hmem
    exact hmem.resolve_left fun hfront ↦ absurd (hfirst _ hfront) (by simp [SnapshotEntry.sec])
  have hleaves : ∀ entry ∈ first ++ .token stale :: after, L.view.leaf entry.key ≠ none := by
    intro entry hentry
    rcases hlisted entry hentry with rfl | hentry
    · have hsame : (SnapshotEntry.token stale : SnapshotEntry C).key =
          (SnapshotEntry.token t : SnapshotEntry C).key := congrArg DirtyKey.token hid
      rw [hsame]
      exact (hmem _ (List.mem_append_right _ hown)).2
    · exact (hmem entry hentry).2
  obtain ⟨M, L', hdecode, hdecoded, hM, hformed, hcanonical, htree⟩ :=
    decode_of_readSnapshot hfree hread fun entry hentry ↦ by
      rcases hlisted entry hentry with rfl | hentry
      · exact hstale
      · exact (hmem entry hentry).1.fits
  have hleaf : M.view.leaf = L.view.leaf := by
    funext key
    by_cases hkey : key = .metaRecord
    · rw [hkey]
      show some (u32Le M.nextTokenId) = some (u32Le L.nextTokenId)
      rw [hM.nextTokenId]
    · rw [hcanonical.leaf_eq hkey, hL.leaf_eq hkey,
        hlists.record_behind hL hsplit hown hid hM hkey]
  refine ⟨_, L', hread, hdecode, ?_, hleaves, ?_⟩
  · have hroot := hM.stateRoot_eq hfree hformed hcanonical htree hdecoded (hpaths.mono ?_)
    · rwa [LedgerState.commitment, LedgerState.content, hleaf] at hroot
    · rintro key (rfl | ⟨entry, hentry, rfl⟩)
      · exact Option.some_ne_none _
      · exact hleaves entry hentry
  · have hobjects : L'.objects = M.objects := by
      obtain ⟨-, -, hclone⟩ := hformed.stateRoot hdecoded
      exact (congrArg Ledger.objects hclone :)
    rw [Ledger.record, hobjects, ← hid]
    apply hM.ticker_last rfl
    intro t' ht' hname
    have hmem' := List.mem_append_right first ht'
    rw [← hsplit] at hmem'
    have hindexed := (htickers.indexed _ _).mpr
      ⟨t'.id, t', (hlists.mem_token hL).mp hmem', hname, rfl⟩
    exact absurd (hindexed.symm.trans hfresh) (Option.some_ne_none _)

end Stale

/-- Whether a ticker is taken is whether it is in the index. -/
theorem run_tickerTaken {name : Text} {taken : Bool}
    (hrecord : (L.record (.ticker name)).isSome = taken) :
    ((LedgerM.tickerTaken name).run handler L).1 = .ok taken :=
  congrArg Outcome.ok hrecord

theorem clearSuite_collisionFree : clearSuite.trie.CollisionFree := freeSuite_collisionFree

/-- The entries of `tokenCreated`. -/
def createdEntries : List DirtyKey := [.account 5, .token 1, .metaRecord]

/-- A token that was never created, under the id of the one of `tokenCreated`. -/
def staleToken : TokenMeta := ⟨1, ['X', 'Y', 'Z'], 5, 1⟩

/-- The token of `tokenCreated`. -/
def createdToken : TokenMeta := ⟨1, ['A', 'B', 'C'], 5, 18446744073709551615⟩

/-- What `tokenCreated` stores. -/
theorem tokenCreated_facts :
    (∀ bytes ∈ tokenCreated.objectRecords.map Prod.fst,
      bytes = RecordKey.bytes (.ticker createdToken.ticker) ∨
        ∃ key ∈ createdEntries, bytes = RecordKey.bytes (.committed key)) ∧
    (createdEntries.map (trieKey clearSuite)).Nodup ∧
    tokenCreated.view.token createdToken.id = some createdToken ∧
    tokenCreated.record (.ticker staleToken.ticker) = none ∧
    tokenCreated.objectRecords.length = 4 ∧ staleToken.Fits := by
  decide +kernel

theorem injOn_createdEntries :
    Set.InjOn (trieKey clearSuite) { key | tokenCreated.view.leaf key ≠ none } := by
  obtain ⟨hkeys, hnodup, -⟩ := tokenCreated_facts
  have hlisted : Set.InjOn (trieKey clearSuite) { key | key ∈ createdEntries } :=
    fun key hkey key' hkey' heq ↦ List.inj_on_of_nodup_map hnodup hkey hkey' heq
  apply hlisted.mono
  intro key hleaf
  rcases record_of_leaf hleaf with rfl | hrecord
  · show DirtyKey.metaRecord ∈ createdEntries
    simp [createdEntries]
  · rcases hkeys _ (mem_of_record hrecord) with hticker | ⟨other, hother, hbytes⟩
    · exact absurd (RecordKey.bytes_injective hticker) (by simp)
    · obtain rfl := RecordKey.committed.inj (RecordKey.bytes_injective hbytes)
      exact hother

/-- The encoding of `tokenCreated` with that token in front decodes to a ledger with its root, in
which the ticker is taken. -/
theorem exists_decoded_stale :
    ∃ entries L', (readSnapshot clearSuite).complete (encodeBehind staleToken tokenCreated) =
        some (tokenCreated.nextTokenId, entries) ∧
      decode (encodeBehind staleToken tokenCreated) = .ok L' ∧
      L'.stateRoot = some (tokenCreated.view.commitment, L') ∧
      Set.InjOn (trieKey clearSuite)
        { key | tokenCreated.view.leaf key ≠ none ∨ ∃ entry ∈ entries, entry.key = key } ∧
      L'.record (.ticker staleToken.ticker) = some (u32Be 1) := by
  obtain ⟨-, -, htoken, hfree, hlength, hstale⟩ := tokenCreated_facts
  have htickers := reachable_tokenCreated.view.2.tickersIndexed
  have hid : staleToken.id = createdToken.id := rfl
  have hshort : ∀ sec : SnapshotSection, (tokenCreated.scan sec.tag).length + 1 < 2 ^ 32 := by
    intro sec
    have hle : (tokenCreated.scan sec.tag).length ≤ tokenCreated.objectRecords.length :=
      List.length_filter_le _ _
    rw [hlength] at hle
    omega
  obtain ⟨entries, L', hread, hdecode, hroot, hleaves, hticker⟩ :=
    reachable_tokenCreated.canonical.exists_decoded_behind clearSuite_collisionFree
      injOn_createdEntries hshort htickers htoken hid hstale hfree
  refine ⟨entries, L', hread, hdecode, hroot, injOn_createdEntries.mono ?_, hticker⟩
  rintro key (hleaf | ⟨entry, hentry, rfl⟩)
  · exact hleaf
  · exact hleaves entry hentry

/-- The root does not tell whether the snapshot of `tokenCreated` has a stale token, but the account
of its creator is proved. -/
theorem stale_told_by_entries :
    ∃ (entries : List (SnapshotEntry clearSuite)) (L' : Ledger clearSuite),
      decode (encodeBehind staleToken tokenCreated) = .ok L' ∧
        (Alike tokenCreated L' ↔ LatestTickers entries) ∧
        L'.validatorSet = tokenCreated.validatorSet ∧
        ∃ p L₁, L'.accountProof 5 = some (some p, L₁) ∧
          verifyAccountProof clearSuite tokenCreated.view.commitment p = true := by
  obtain ⟨entries, L', hread, hdecode, hroot, hpaths, -⟩ := exists_decoded_stale
  obtain ⟨hiff, -, hset, hproofs⟩ := Reachable.decoded_alike_iff clearSuite_collisionFree
    reachable_tokenCreated hread hdecode hroot hpaths
  obtain ⟨acct, hacct⟩ : ∃ acct, tokenCreated.view.account 5 = some acct :=
    Option.isSome_iff_exists.mp (by decide +kernel)
  obtain ⟨p, L₁, hproof, -, haccept⟩ := hproofs 5 acct hacct
  exact ⟨entries, L', hdecode, hiff, hset, p, L₁, hproof, haccept⟩

/-- With the root of `tokenCreated`, a decoded ledger in which another ticker is taken. -/
theorem stale_ticker_taken :
    tokenCreated.Reachable ∧ clearSuite.trie.CollisionFree ∧
      ∃ entries L', (readSnapshot clearSuite).complete (encodeBehind staleToken tokenCreated) =
          some (tokenCreated.nextTokenId, entries) ∧
        decode (encodeBehind staleToken tokenCreated) = .ok L' ∧
        L'.stateRoot = some (tokenCreated.view.commitment, L') ∧
        Set.InjOn (trieKey clearSuite)
          { key | tokenCreated.view.leaf key ≠ none ∨ ∃ entry ∈ entries, entry.key = key } ∧
        ((LedgerM.tickerTaken ['X', 'Y', 'Z']).run handler L').1 = .ok true ∧
        ((LedgerM.tickerTaken ['X', 'Y', 'Z']).run handler tokenCreated).1 = .ok false := by
  obtain ⟨entries, L', hread, hdecode, hroot, hpaths, hticker⟩ := exists_decoded_stale
  obtain ⟨-, -, -, hfree, -⟩ := tokenCreated_facts
  refine ⟨reachable_tokenCreated, clearSuite_collisionFree, entries, L', hread, hdecode, hroot,
    hpaths, ?_, ?_⟩
  · exact run_tickerTaken (congrArg Option.isSome hticker)
  · exact run_tickerTaken (congrArg Option.isSome hfree)

end Ledger

end Latebra.State
