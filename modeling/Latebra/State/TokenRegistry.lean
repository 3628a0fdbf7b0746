import Latebra.State.SnapshotSoundness

/-!
# The token registry

Tokens get consecutive ids, from 1 on, and a ticker that no token has yet. `Registry` is the
invariant that every transaction keeps: the stored tokens are those with the ids below the next one,
each under its normalized ticker. `HasRegistry` is what the queries of a ledger show of it: a ticker
in any spelling is found exactly when some token has its normal form, no two tokens share a ticker,
and the count of tokens is that of the ids given out.
-/

set_option autoImplicit false
set_option relaxedAutoImplicit false

namespace Latebra.Types

open Foundation Crypto

/-! ### Normal tickers -/

theorem forall_ascii {P : Char → Prop} (htable : ∀ code : Fin 128, P (Char.ofNat code))
    {letter : Char} (hascii : letter.toNat ≤ 0x7f) : P letter := by
  have hletter := htable ⟨letter.toNat, by omega⟩
  rwa [Char.ofNat_toNat] at hletter

/-- The upper case of a letter or digit is a letter or digit in upper case, and stands neither for
white space nor for the prefix of a ticker. -/
theorem toUpper_of_isAlphanum {letter : Char} (halnum : letter.isAlphanum = true) :
    letter.toUpper.isAlphanum = true ∧ letter.toUpper.toUpper = letter.toUpper ∧
      isWhitespace letter.toUpper = false ∧ letter.toUpper ≠ '$' := by
  have htable : ∀ code : Fin 128, (Char.ofNat code).isAlphanum = true →
      (Char.ofNat code).toUpper.isAlphanum = true ∧
        (Char.ofNat code).toUpper.toUpper = (Char.ofNat code).toUpper ∧
          isWhitespace (Char.ofNat code).toUpper = false ∧ (Char.ofNat code).toUpper ≠ '$' := by
    decide
  exact forall_ascii (P := fun letter ↦ letter.isAlphanum = true →
    letter.toUpper.isAlphanum = true ∧ letter.toUpper.toUpper = letter.toUpper ∧
      isWhitespace letter.toUpper = false ∧ letter.toUpper ≠ '$') htable
    (toNat_le_of_isAlphanum halnum) halnum

theorem trim_eq_self {text : Text} (hblank : ∀ letter ∈ text, isWhitespace letter = false) :
    trim text = text := by
  have hkept : ∀ other : Text, (∀ letter ∈ other, isWhitespace letter = false) →
      other.dropWhile isWhitespace = other := by
    intro other hother
    cases other with
    | nil => rfl
    | cons first rest => rw [List.dropWhile_cons_of_neg (by simp [hother first List.mem_cons_self])]
  have hreverse : ∀ letter ∈ text.reverse, isWhitespace letter = false :=
    fun letter hmem ↦ hblank letter (List.mem_reverse.mp hmem)
  rw [trim, hkept text hblank, hkept text.reverse hreverse, List.reverse_reverse]

/-- What a normalized ticker is made of. -/
theorem exists_of_normalizeTicker {input ticker : Text}
    (hnormal : normalizeTicker input = some ticker) :
    ∃ s : Text, s.isEmpty = false ∧ (Text.asBytes s).length ≤ 10 ∧
      (∀ letter ∈ s, letter.isAlphanum = true) ∧ ticker = s.map Char.toUpper := by
  have hsplit : ∀ s : Text, (if s.isEmpty ∨ (Text.asBytes s).length > 10 ∨ ¬ s.all Char.isAlphanum
      then none else some (s.map Char.toUpper)) = some ticker →
        s.isEmpty = false ∧ (Text.asBytes s).length ≤ 10 ∧
          (∀ letter ∈ s, letter.isAlphanum = true) ∧ ticker = s.map Char.toUpper := by
    intro s hs
    obtain ⟨hguard, hticker⟩ := Option.ite_none_left_eq_some.mp hs
    rw [not_or, not_or, not_not, List.all_eq_true, Bool.not_eq_true, not_lt] at hguard
    exact ⟨hguard.1, hguard.2.1, hguard.2.2, (Option.some.inj hticker).symm⟩
  exact ⟨_, hsplit _ hnormal⟩

/-- A text without white space around it or a prefix is normalized letter by letter. -/
theorem normalizeTicker_eq {text : Text} (hnonempty : text.isEmpty = false)
    (hlength : (Text.asBytes text).length ≤ 10)
    (hletters : ∀ letter ∈ text, letter.isAlphanum = true ∧ isWhitespace letter = false ∧
      letter ≠ '$') : normalizeTicker text = some (text.map Char.toUpper) := by
  have hall : text.all Char.isAlphanum = true :=
    List.all_eq_true.mpr fun letter hmem ↦ (hletters letter hmem).1
  have hguard : ¬ (text.isEmpty = true ∨ (Text.asBytes text).length > 10 ∨
      ¬ text.all Char.isAlphanum = true) := by
    rw [not_or, not_or, not_not, hnonempty]
    exact ⟨Bool.false_ne_true, not_lt.mpr hlength, hall⟩
  have hchecked : ∀ s : Text, s = text →
      (if s.isEmpty ∨ (Text.asBytes s).length > 10 ∨ ¬ s.all Char.isAlphanum
        then none else some (s.map Char.toUpper)) = some (text.map Char.toUpper) := by
    rintro s rfl
    exact if_neg hguard
  unfold normalizeTicker
  apply hchecked
  rw [trim_eq_self fun letter hmem ↦ (hletters letter hmem).2.1]
  split
  · next rest =>
    exact absurd rfl (hletters '$' List.mem_cons_self).2.2
  · rfl

/-- A normalized ticker is its own normal form. -/
theorem normalizeTicker_idem {input ticker : Text} (hnormal : normalizeTicker input = some ticker) :
    normalizeTicker ticker = some ticker := by
  have hlength := length_asBytes_normalizeTicker hnormal
  obtain ⟨s, hnonempty, -, halnum, rfl⟩ := exists_of_normalizeTicker hnormal
  have hupper : ∀ letter ∈ s.map Char.toUpper, letter.isAlphanum = true ∧
      letter.toUpper = letter ∧ isWhitespace letter = false ∧ letter ≠ '$' := by
    intro letter hmem
    obtain ⟨before, hbefore, rfl⟩ := List.mem_map.mp hmem
    exact toUpper_of_isAlphanum (halnum before hbefore)
  rw [normalizeTicker_eq (by rw [List.isEmpty_map, hnonempty]) hlength fun letter hmem ↦
    ⟨(hupper letter hmem).1, (hupper letter hmem).2.2⟩]
  apply congrArg some
  rw [List.map_congr_left fun letter hmem ↦ (hupper letter hmem).2.1, List.map_id']

end Latebra.Types

namespace Latebra.State

open Foundation Crypto Latebra.Types

variable {C : CryptoSuite}

/-! ### The invariant -/

namespace LedgerState

variable {s s' : LedgerState C}

/-- The stored tokens are those with the ids from 1 on below the next one, with normal tickers, and
the next token id is stored as soon as there is a token. -/
structure Registry (s : LedgerState C) : Prop extends TickersIndexed s where
  started : 0 < s.nextTokenId.toNat
  present : ∀ id, s.token id ≠ none ↔ 0 < id.toNat ∧ id.toNat < s.nextTokenId.toNat
  normal : ∀ id t, s.token id = some t → normalizeTicker t.ticker = some t.ticker
  copied : s.metaRecord = none → s.nextTokenId = 1

theorem registry_new : (new : LedgerState C).Registry where
  toTickersIndexed := tickersIndexed_new
  started := Nat.one_pos
  present := by
    intro id
    simp only [new, ne_eq, not_true_eq_false, UInt32.toNat_one, false_iff]
    omega
  normal := by simp [new]
  copied := fun _ ↦ rfl

theorem Registry.of_slice (hs : s.Registry) (hslice : s'.slice .token = s.slice .token) :
    s'.Registry := by
  have hnext : s'.nextTokenId = s.nextTokenId := (congrArg LedgerState.nextTokenId hslice :)
  have htoken : s'.token = s.token := (congrArg LedgerState.token hslice :)
  have hmeta : s'.metaRecord = s.metaRecord := (congrArg LedgerState.metaRecord hslice :)
  refine ⟨hs.toTickersIndexed.of_slice hslice, ?_, ?_, ?_, ?_⟩
  · rw [hnext]
    exact hs.started
  · rw [htoken, hnext]
    exact hs.present
  · rw [htoken]
    exact hs.normal
  · rw [hmeta, hnext]
    exact hs.copied

/-- A token is created under the next id. -/
theorem Registry.createToken (hs : s.Registry) {input norm : Text} {creator : Bytes32}
    {supply : UInt64} (hnormal : normalizeTicker input = some norm) (hfree : s.ticker norm = none)
    (hbound : s.nextTokenId.toNat + 1 < 2 ^ 32) :
    ((s.setNextTokenId (s.nextTokenId + 1)).setToken
      ⟨s.nextTokenId, norm, creator, supply⟩).Registry := by
  have hnext : (s.nextTokenId + 1).toNat = s.nextTokenId.toNat + 1 := by
    rw [UInt32.toNat_add, UInt32.toNat_one]
    exact Nat.mod_eq_of_lt hbound
  refine ⟨hs.toTickersIndexed.createToken hfree hbound, ?_, ?_, ?_, ?_⟩
  · show 0 < (s.nextTokenId + 1).toNat
    rw [hnext]
    exact Nat.succ_pos _
  · intro id
    simp only [setToken_token, setNextTokenId_token]
    show _ ↔ 0 < id.toNat ∧ id.toNat < (s.nextTokenId + 1).toNat
    by_cases hid : id = s.nextTokenId
    · rw [hid, Function.update_self, hnext]
      simp [hs.started]
    · rw [Function.update_of_ne hid, hs.present, hnext]
      have hother : id.toNat ≠ s.nextTokenId.toNat := fun heq ↦ hid (UInt32.toNat.inj heq)
      omega
  · intro id t ht
    simp only [setToken_token, setNextTokenId_token, Function.update_apply] at ht
    split at ht
    · rw [← Option.some.inj ht]
      exact normalizeTicker_idem hnormal
    · exact hs.normal id t ht
  · intro hnone
    exact absurd hnone (by simp [setToken])

theorem Step.registry (hstep : Step s s') (hs : s.Registry) : s'.Registry := by
  cases hstep with
  | register id hrun =>
    obtain ⟨-, rfl⟩ := register_outcome hrun
    exact hs.of_slice rfl
  | creditPublic id token amount hrun =>
    rw [creditPublic_outcome hrun, credited]
    split <;> exact hs.of_slice rfl
  | rewardMiner miner token amount hrun =>
    rw [rewardMiner_outcome hrun, rewarded]
    split <;> exact hs.of_slice rfl
  | creditGenesis id amount hrun =>
    obtain ⟨_, -, rfl⟩ := creditGenesis_outcome hrun
    exact hs.of_slice rfl
  | apply tx height hrun =>
    cases tx with
    | createToken ticker creator supply sig =>
      obtain ⟨norm, acct, next, -, hnormal, hfree, -, -, hbound, rfl, rfl⟩ :=
        applyCreateToken_outcome hrun
      exact (hs.createToken hnormal hfree hbound).of_slice rfl
    | _ =>
      have hsame : slice .token _ = s.slice .token := Runs.slice_eq hrun (by simp [writesOf])
      exact hs.of_slice hsame
  | commit => exact hs.of_slice rfl

theorem Reachable.registry (hs : Reachable s) : s.Registry := by
  induction hs with
  | new => exact registry_new
  | step _ hstep ih => exact hstep.registry ih

/-- No two tokens have the same ticker. -/
theorem TickersIndexed.token_injective (hs : s.TickersIndexed) {id id' : UInt32}
    {t t' : TokenMeta} (ht : s.token id = some t) (ht' : s.token id' = some t')
    (hname : t.ticker = t'.ticker) : id = id' := by
  have hentry := (hs.indexed t.ticker (u32Be id)).mpr ⟨id, t, ht, rfl, rfl⟩
  have hentry' := (hs.indexed t.ticker (u32Be id')).mpr ⟨id', t', ht', hname.symm, rfl⟩
  exact u32Be_injective (Option.some.inj (hentry.symm.trans hentry'))

end LedgerState

/-! ### The queries -/

namespace Ledger

variable {L L' : Ledger C}

/-- The registry of a ledger, as its queries show it. -/
structure HasRegistry (L : Ledger C) : Prop where
  ids : ∀ id, L.view.token id ≠ none ↔ 0 < id.toNat ∧ id.toNat < L.nextTokenId.toNat
  keyed : ∀ id t, L.view.token id = some t → t.id = id ∧ normalizeTicker t.ticker = some t.ticker
  unique : ∀ id id' t t', L.view.token id = some t → L.view.token id' = some t' →
    t.ticker = t'.ticker → id = id'
  answered : ∀ input, L.token input ≠ none
  found : ∀ input t, L.token input = some (some t) ↔
    L.view.token t.id = some t ∧ normalizeTicker input = some t.ticker
  taken : ∀ name, L.record (.ticker name) ≠ none ↔ ∃ id t, L.view.token id = some t ∧ t.ticker = name
  count : L.tokenCount + 1 = L.nextTokenId.toNat

/-- The query by ticker, on a ledger whose token records read. -/
theorem WellFormed.token_eq (hL : L.WellFormed) (input : Text) :
    L.token input = some (((normalizeTicker input).bind fun norm ↦
      (L.view.ticker norm).bind u32OfBe).bind L.view.token) := by
  have hread : ∀ id, (L.decoded decodeToken (.committed (.token id))).map Prod.fst =
      some (L.view.token id) := by
    intro id
    have hreads : ∀ body, L.record (.committed (.token id)) = some body →
        (decodeToken body).isSome := fun body hbody ↦ hL.records _ body hbody
    rw [decoded_eq hreads]
    rfl
  unfold token
  split
  · next hfound =>
    have hnone : ((normalizeTicker input).bind fun norm ↦ (L.view.ticker norm).bind u32OfBe) = none :=
      hfound
    rw [hnone]
    rfl
  · next id hfound =>
    have hsome : ((normalizeTicker input).bind fun norm ↦ (L.view.ticker norm).bind u32OfBe) =
        some id := hfound
    rw [hsome]
    exact hread id

/-- The ticker index has one entry a token. -/
theorem Canonical.tokenCount_eq (hL : L.Canonical) (hregistry : L.view.Registry) :
    L.tokenCount + 1 = L.nextTokenId.toNat := by
  have hentry : ∀ entry, entry ∈ L.scan REC_TICKER ↔ ∃ id t, L.view.token id = some t ∧
      entry = ((RecordKey.ticker t.ticker).bytes, u32Be id) := by
    rintro ⟨bytes, body⟩
    rw [mem_scan]
    constructor
    · rintro ⟨hget, hhead⟩
      obtain ⟨key, rfl, -⟩ := hL.exists_key hget
      cases key with
      | ticker name =>
        obtain ⟨id, t, ht, rfl, rfl⟩ := (hregistry.indexed name body).mp hget
        exact ⟨id, t, ht, rfl⟩
      | committed key =>
        cases key <;> exact absurd (Option.some.inj hhead) (by decide)
    · rintro ⟨id, t, ht, heq⟩
      obtain ⟨rfl, rfl⟩ := Prod.mk.inj heq
      exact ⟨(hregistry.indexed t.ticker _).mpr ⟨id, t, ht, rfl, rfl⟩, rfl⟩
  -- the entries list the ids given out, each once
  let listed : Bytes × Bytes → ℕ := fun entry ↦ ((u32OfBe entry.2).getD 0).toNat
  have hlisted : ∀ bytes id, listed (bytes, u32Be id) = id.toNat := by
    intro bytes id
    show ((u32OfBe (u32Be id)).getD 0).toNat = id.toNat
    rw [u32OfBe_u32Be, Option.getD_some]
  have hnodup : ((L.scan REC_TICKER).map listed).Nodup := by
    apply List.Nodup.map_on _ (List.Nodup.of_map _ (scan_nodup L REC_TICKER))
    intro entry hmem entry' hmem' hsame
    obtain ⟨id, t, ht, rfl⟩ := (hentry entry).mp hmem
    obtain ⟨id', t', ht', rfl⟩ := (hentry entry').mp hmem'
    rw [hlisted, hlisted] at hsame
    obtain rfl := UInt32.toNat.inj hsame
    obtain rfl := Option.some.inj (ht.symm.trans ht')
    rfl
  have hids : ∀ n, n ∈ (L.scan REC_TICKER).map listed ↔
      n ∈ List.range' 1 (L.nextTokenId.toNat - 1) := by
    intro n
    rw [List.mem_map, List.mem_range'_1]
    constructor
    · rintro ⟨entry, hmem, rfl⟩
      obtain ⟨id, t, ht, rfl⟩ := (hentry entry).mp hmem
      obtain ⟨hpos, hlow⟩ := (hregistry.present id).mp (by rw [ht]; exact Option.some_ne_none t)
      have hlow : id.toNat < L.nextTokenId.toNat := hlow
      rw [hlisted]
      omega
    · intro hn
      have hsmall := L.nextTokenId.toNat_lt
      have hid : (UInt32.ofNat n).toNat = n :=
        UInt32.toNat_ofNat_of_lt' (show n < 2 ^ 32 by omega)
      have hstored : L.view.token (UInt32.ofNat n) ≠ none := by
        apply (hregistry.present _).mpr
        show 0 < (UInt32.ofNat n).toNat ∧ (UInt32.ofNat n).toNat < L.nextTokenId.toNat
        omega
      obtain ⟨t, ht⟩ := Option.ne_none_iff_exists'.mp hstored
      exact ⟨_, (hentry _).mpr ⟨_, t, ht, rfl⟩, (hlisted _ _).trans hid⟩
  have hperm := ((List.perm_ext_iff_of_nodup hnodup List.nodup_range').mpr hids).length_eq
  rw [List.length_map, List.length_range'] at hperm
  have hstarted : 0 < L.nextTokenId.toNat := hregistry.started
  rw [tokenCount, hperm]
  omega

theorem Registry.shows (hregistry : L.view.Registry) (hL : L.WellFormed)
    (hcanonical : L.Canonical) : L.HasRegistry where
  ids := hregistry.present
  keyed id t ht := ⟨(hregistry.keyed id t ht).1, hregistry.normal id t ht⟩
  unique id id' t t' ht ht' hname := hregistry.token_injective ht ht' hname
  answered input := by
    rw [hL.token_eq]
    exact Option.some_ne_none _
  found input t := by
    rw [hL.token_eq, Option.some_inj, Option.bind_eq_some_iff]
    constructor
    · rintro ⟨id, hid, ht⟩
      obtain ⟨norm, hnorm, hlater⟩ := Option.bind_eq_some_iff.mp hid
      obtain ⟨body, hbody, hread⟩ := Option.bind_eq_some_iff.mp hlater
      obtain ⟨other, t', ht', rfl, rfl⟩ := (hregistry.indexed norm body).mp hbody
      rw [u32OfBe_u32Be, Option.some_inj] at hread
      subst hread
      obtain rfl := Option.some.inj (ht.symm.trans ht')
      rw [(hregistry.keyed other t ht).1]
      exact ⟨ht, hnorm⟩
    · rintro ⟨ht, hnorm⟩
      refine ⟨t.id, ?_, ht⟩
      have hentry := (hregistry.indexed t.ticker (u32Be t.id)).mpr ⟨t.id, t, ht, rfl, rfl⟩
      rw [hnorm, Option.bind_some, hentry, Option.bind_some, u32OfBe_u32Be]
  taken name := by
    rw [Option.ne_none_iff_exists']
    constructor
    · rintro ⟨body, hbody⟩
      obtain ⟨id, t, ht, hname, -⟩ := (hregistry.indexed name body).mp hbody
      exact ⟨id, t, ht, hname⟩
    · rintro ⟨id, t, ht, hname⟩
      exact ⟨_, (hregistry.indexed name _).mpr ⟨id, t, ht, hname, rfl⟩⟩
  count := hcanonical.tokenCount_eq hregistry

end Ledger

end Latebra.State
