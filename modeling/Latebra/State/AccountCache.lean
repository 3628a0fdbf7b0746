import Latebra.State.Accesses
import Latebra.State.Backing

/-!
# The read cache of accounts

A ledger keeps decoded accounts beside their records. The cache `Mirrors` the records when every
cached account is what its record decodes to, and every way to write an account keeps it so: the
typed write puts the same account into both, the raw write of a worker's record drops the cached
one, and nothing else touches an account record. A ledger whose cache mirrors its records answers
like its clone, whose cache is empty (`Mirrors.exec_clone`).

That a written account reads back is the part that can fail. The number of entries of a map is
written in four bytes, and the map with an entry for every token id has one entry too many.
-/

set_option autoImplicit false
set_option relaxedAutoImplicit false

namespace Latebra.State

open Foundation Crypto Latebra.Types

variable {C : CryptoSuite}

/-! ### Accounts read back -/

/-- A counted map has as many entries as four bytes can count. -/
theorem length_of_readCounted {K V : Type} [Ord K] [Std.TransOrd K] {reader : Reader (K × V)}
    {map : FMap K V} {input rest : Bytes}
    (hread : (readCounted reader >>= fun entries ↦ pure (FMap.ofEntries entries)) input =
      some (map, rest)) :
    map.toList.length < 2 ^ 32 := by
  obtain ⟨entries, mid, hentries, hmap⟩ := Reader.bind_eq_some.mp hread
  obtain ⟨rfl, -⟩ := Reader.pure_eq_some.mp hmap
  obtain ⟨n, after, -, hmany⟩ := Reader.bind_eq_some.mp hentries
  have hlength := Reader.length_of_many hmany
  have hle := FMap.length_ofEntries_le entries
  have hlt := n.toNat_lt
  omega

theorem fits_of_decodeAccount {bytes : Bytes} {a : Account C}
    (hdecode : decodeAccount C bytes = some a) : a.Fits := by
  have hread := Reader.complete_eq_some.mp hdecode
  obtain ⟨nonce, _, -, hread⟩ := Reader.bind_eq_some.mp hread
  obtain ⟨balances, _, hbalances, hread⟩ := Reader.bind_eq_some.mp hread
  obtain ⟨pendings, _, hpendings, hread⟩ := Reader.bind_eq_some.mp hread
  obtain ⟨publics, _, hpublics, hread⟩ := Reader.bind_eq_some.mp hread
  obtain ⟨rfl, -⟩ := Reader.pure_eq_some.mp hread
  exact ⟨length_of_readCounted hbalances, length_of_readCounted hpendings,
    length_of_readCounted hpublics⟩

/-- An account reads back from its record exactly when four bytes can count its entries. -/
theorem decodeAccount_encodeAccount_iff (a : Account C) :
    decodeAccount C (encodeAccount a) = some a ↔ a.Fits := by
  constructor
  · exact fits_of_decodeAccount
  · exact decodeAccount_encodeAccount

/-- The commands that look into the read cache. -/
def LedgerCommand.UsesCache : LedgerCommand C → Prop
  | .account _ | .putAccount _ _ | .isRegistered _ => True
  | _ => False

/-- Only the typed write of an account changes an account record. -/
theorem LedgerCommand.usesCache_of_changes {c : LedgerCommand C} {id : Bytes32}
    (hchanges : Coord.object (.account id) ∈ c.changes) : c.UsesCache := by
  obtain ⟨next, update, hmem, hupdate⟩ := hchanges
  cases c with
  | putAccount => trivial
  | _ =>
    simp only [updates, List.mem_cons, List.not_mem_nil, or_false] at hmem <;>
      rcases hmem with rfl | rfl | rfl <;> simp [RecordKey.bytes_injective.eq_iff] at hupdate

namespace Ledger

variable {L L' M : Ledger C}

/-! ### The cache mirrors the records -/

/-- Every cached account is what its record decodes to. -/
def Mirrors (L : Ledger C) : Prop :=
  ∀ id a, L.cache[id]? = some a → (L.accountRecord id).bind (decodeAccount C) = some a

theorem Mirrors.of_clone (L : Ledger C) : L.clone.Mirrors := by
  intro id a hcached
  rw [show L.clone.cache[id]? = none from FMap.lookup_empty id] at hcached
  exact absurd hcached (by simp)

/-- A ledger whose account records are the same, and that caches no more, mirrors them too. -/
theorem Mirrors.mono (hL : L.Mirrors) (hrecord : ∀ id, L'.accountRecord id = L.accountRecord id)
    (hcache : ∀ (id : Bytes32) (a : Account C), L'.cache[id]? = some a → L.cache[id]? = some a) :
    L'.Mirrors := by
  intro id a hcached
  rw [hrecord]
  exact hL id a (hcache id a hcached)

/-- What a write of one account has to see to. -/
theorem Mirrors.update (hL : L.Mirrors) (id : Bytes32)
    (hrecord : ∀ other, other ≠ id → L'.accountRecord other = L.accountRecord other)
    (hcache : ∀ (other : Bytes32) (b : Account C), other ≠ id →
      L'.cache[other]? = some b → L.cache[other]? = some b)
    (hid : ∀ b : Account C, L'.cache[id]? = some b →
      (L'.accountRecord id).bind (decodeAccount C) = some b) : L'.Mirrors := by
  intro other b hcached
  by_cases hother : other = id
  · rw [hother] at hcached ⊢
    exact hid b hcached
  · rw [hrecord other hother]
    exact hL other b (hcache other b hother hcached)

@[simp]
theorem clone_cached (L : Ledger C) (id : Bytes32) (a : Account C) :
    (L.cached id a).clone = L.clone :=
  rfl

@[simp]
theorem clone_clone (L : Ledger C) : L.clone.clone = L.clone := rfl

theorem lookup_cached (L : Ledger C) (id other : Bytes32) (a : Account C) :
    (L.cached id a).cache[other]? =
      if other = id then some a
      else if ACCOUNT_CACHE_CAP ≤ L.cache.size then none else L.cache[other]? := by
  rw [show (L.cached id a).cache =
    (if ACCOUNT_CACHE_CAP ≤ L.cache.size then ∅ else L.cache).insert id a from rfl,
    FMap.lookup_insert]
  by_cases hfull : ACCOUNT_CACHE_CAP ≤ L.cache.size
  · rw [if_pos hfull, if_pos hfull, FMap.lookup_empty]
  · rw [if_neg hfull, if_neg hfull]

theorem cache_of_lookup_cached {id other : Bytes32} {a b : Account C} (hother : other ≠ id)
    (hcached : (L.cached id a).cache[other]? = some b) : L.cache[other]? = some b := by
  rw [lookup_cached, if_neg hother] at hcached
  split at hcached
  · exact absurd hcached (by simp)
  · exact hcached

theorem accountRecord_putRecord (L : Ledger C) (id other : Bytes32) (body : Bytes) :
    (L.putRecord (.committed (.account id)) body).accountRecord other =
      if other = id then some body else L.accountRecord other := by
  rw [accountRecord, record_putRecord, Function.update_apply]
  simp only [RecordKey.committed.injEq, DirtyKey.account.injEq]
  rfl

/-- A read caches what it decoded. -/
theorem Mirrors.cached (hL : L.Mirrors) {id : Bytes32} {a : Account C}
    (hrecord : (L.accountRecord id).bind (decodeAccount C) = some a) : (L.cached id a).Mirrors := by
  refine hL.update id (fun _ _ ↦ rfl) (fun other b ↦ cache_of_lookup_cached) ?_
  intro b hcached
  rw [lookup_cached, if_pos rfl] at hcached
  rw [← hcached]
  exact hrecord

theorem Mirrors.account (hL : L.Mirrors) {id : Bytes32} {answer : Option (Account C)}
    (hread : L.account id = some (answer, L')) : L'.Mirrors := by
  unfold Ledger.account at hread
  split at hread
  · obtain ⟨-, rfl⟩ := Prod.mk.inj (Option.some.inj hread)
    exact hL
  · split at hread
    · obtain ⟨-, rfl⟩ := Prod.mk.inj (Option.some.inj hread)
      exact hL
    · next bytes hbytes =>
      obtain ⟨a, hdecode, heq⟩ := Option.map_eq_some_iff.mp hread
      obtain ⟨-, rfl⟩ := Prod.mk.inj heq
      apply hL.cached
      rw [accountRecord, hbytes, Option.bind_some, hdecode]

/-- The typed write puts the same account into the record and into the cache. -/
theorem Mirrors.putAccount (hL : L.Mirrors) {id : Bytes32} {a : Account C} {reply : Unit}
    (hput : L.putAccount id a = some (reply, L')) : L'.Mirrors := by
  obtain ⟨hfits, heq⟩ := Option.ite_none_right_eq_some.mp hput
  obtain ⟨-, rfl⟩ := Prod.mk.inj (Option.some.inj heq)
  have hrecord := fun other ↦ accountRecord_putRecord L id other (encodeAccount a)
  refine hL.update id (fun other hother ↦ ?_) (fun other b hother hcached ↦ ?_) ?_
  · exact (hrecord other).trans (if_neg hother)
  · exact cache_of_lookup_cached hother hcached
  · intro b hcached
    rw [lookup_cached, if_pos rfl] at hcached
    rw [show ((L.putRecord (.committed (.account id)) (encodeAccount a)).cached id a).accountRecord
      id = some (encodeAccount a) from (hrecord id).trans (if_pos rfl), ← hcached]
    exact decodeAccount_encodeAccount hfits

/-- The raw write drops the cached account. -/
theorem Mirrors.adoptAccountRecord (hL : L.Mirrors) (id : Bytes32) (bytes : Bytes) :
    (L.adoptAccountRecord id bytes).Mirrors := by
  have hcache : ∀ other : Bytes32, (L.adoptAccountRecord id bytes).cache[other]? =
      if other = id then none else L.cache[other]? :=
    fun other ↦ FMap.lookup_erase L.cache id other
  have hrecord := fun other ↦ accountRecord_putRecord L id other bytes
  refine hL.update id (fun other hother ↦ ?_) (fun other b hother hcached ↦ ?_) ?_
  · exact (hrecord other).trans (if_neg hother)
  · rw [hcache, if_neg hother] at hcached
    exact hcached
  · intro b hcached
    rw [hcache, if_pos rfl] at hcached
    exact absurd hcached (by simp)

/-! ### Commands -/

/-- The same ledger with another cache. -/
def withCache (L : Ledger C) (cache : FMap Bytes32 (Account C)) : Ledger C :=
  { L with cache := cache }

theorem decoded_withCache {α : Type} (decode : Bytes → Option α) (key : RecordKey)
    (cache : FMap Bytes32 (Account C)) :
    (L.withCache cache).decoded decode key =
      (L.decoded decode key).map fun answer ↦ (answer.1, answer.2.withCache cache) := by
  unfold decoded
  rw [show (L.withCache cache).record key = L.record key from rfl]
  cases L.record key with
  | none => rfl
  | some bytes => cases hdecode : decode bytes <;> simp [hdecode]

/-- A command that is not about an account neither reads nor writes the cache. -/
theorem exec_withCache (cache : FMap Bytes32 (Account C)) {c : LedgerCommand C}
    (hc : ¬ c.UsesCache) :
    handler.exec c (L.withCache cache) =
      (handler.exec c L).map fun answer ↦ (answer.1, answer.2.withCache cache) := by
  cases c with
  | account | putAccount | isRegistered => exact absurd trivial hc
  | tokenById | contract | validator | pool | curve | htlc => exact decoded_withCache _ _ _
  | putToken t =>
    show (L.withCache cache).putToken t = (L.putToken t).map _
    unfold putToken
    split <;> rfl
  | putContract id contract =>
    show (L.withCache cache).putContract id contract = (L.putContract id contract).map _
    unfold putContract
    split <;> rfl
  | putValidator id v =>
    show (L.withCache cache).putValidator id v = (L.putValidator id v).map _
    unfold putValidator
    by_cases hdrained : v.Drained
    · rw [if_pos hdrained, if_pos hdrained]
      rfl
    · rw [if_neg hdrained, if_neg hdrained]
      split <;> rfl
  | putPool p =>
    show some ((), (L.withCache cache).putPool p) = some ((), (L.putPool p).withCache cache)
    unfold putPool
    split <;> rfl
  | putLp token provider shares =>
    show some ((), (L.withCache cache).putLp token provider shares) =
      some ((), (L.putLp token provider shares).withCache cache)
    unfold putLp
    split <;> rfl
  | _ => rfl

/-- Every command keeps the cache a mirror of the records. -/
theorem Mirrors.exec (hL : L.Mirrors) {c : LedgerCommand C} {reply : c.Reply}
    (hexec : handler.exec c L = some (reply, L')) : L'.Mirrors := by
  by_cases hc : c.UsesCache
  · cases c with
    | account id => exact hL.account hexec
    | putAccount id a => exact hL.putAccount hexec
    | isRegistered id =>
      rw [← (Prod.mk.inj (Option.some.inj hexec)).2]
      exact hL
    | _ => exact absurd hc id
  · have hsame := exec_withCache (L := L) L.cache hc
    rw [show L.withCache L.cache = L from rfl, hexec, Option.map_some] at hsame
    have heq : L' = L'.withCache L.cache := (Prod.mk.inj (Option.some.inj hsame)).2
    have hcache : L'.cache = L.cache := by
      rw [heq]
      rfl
    apply hL.mono
    · intro id
      apply record_eq_of_observe
      exact observe_exec_of_notMem hexec fun hchanges ↦
        hc (LedgerCommand.usesCache_of_changes hchanges)
    · intro id a hcached
      rwa [hcache] at hcached

/-- A read answers as it does when nothing is cached. -/
theorem Mirrors.account_clone (hL : L.Mirrors) (id : Bytes32) :
    (L.account id).map (fun answer ↦ (answer.1, answer.2.clone)) =
      (L.clone.account id).map fun answer ↦ (answer.1, answer.2.clone) := by
  unfold Ledger.account
  rw [show L.clone.cache[id]? = none from FMap.lookup_empty id,
    show L.clone.record (.committed (.account id)) = L.accountRecord id from rfl,
    show L.record (.committed (.account id)) = L.accountRecord id from rfl]
  cases hcached : L.cache[id]? with
  | none =>
    cases L.accountRecord id with
    | none => rfl
    | some bytes => cases hdecode : decodeAccount C bytes <;> simp [hdecode]
  | some a =>
    obtain ⟨bytes, hbytes, hdecode⟩ := Option.bind_eq_some_iff.mp (hL id a hcached)
    simp [hbytes, hdecode]

theorem Mirrors.isRegistered (hL : L.Mirrors) (id : Bytes32) :
    (L.cache[id]?.isSome || (L.accountRecord id).isSome) = (L.accountRecord id).isSome := by
  cases hcached : L.cache[id]? with
  | none => rfl
  | some a =>
    obtain ⟨bytes, hbytes, -⟩ := Option.bind_eq_some_iff.mp (hL id a hcached)
    rw [hbytes]
    rfl

/-- Every command does and answers what it does when nothing is cached. -/
theorem Mirrors.exec_clone (hL : L.Mirrors) (c : LedgerCommand C) :
    (handler.exec c L).map (fun answer ↦ (answer.1, answer.2.clone)) =
      (handler.exec c L.clone).map fun answer ↦ (answer.1, answer.2.clone) := by
  by_cases hc : c.UsesCache
  · cases c with
    | account id => exact hL.account_clone id
    | putAccount id a =>
      show (L.putAccount id a).map _ = (L.clone.putAccount id a).map _
      unfold Ledger.putAccount
      split <;> rfl
    | isRegistered id =>
      show some (L.cache[id]?.isSome || (L.accountRecord id).isSome, L.clone) =
        some (L.clone.cache[id]?.isSome || (L.accountRecord id).isSome, L.clone)
      rw [hL.isRegistered, show L.clone.cache[id]? = none from FMap.lookup_empty id]
      rfl
    | _ => exact absurd hc id
  · rw [show L.clone = L.withCache ∅ from rfl, exec_withCache ∅ hc, Option.map_map]
    rfl

end Ledger

/-! ### An account with a balance of every token -/

/-- A transparent balance of every token below `n`. -/
def everyToken : ℕ → FMap UInt32 UInt64
  | 0 => ∅
  | n + 1 => (everyToken n).insert (UInt32.ofNat n) 0

theorem lookup_everyToken {n : ℕ} (hn : n ≤ 2 ^ 32) (token : UInt32) :
    (everyToken n)[token]? = if token.toNat < n then some 0 else none := by
  induction n with
  | zero => rw [everyToken, FMap.lookup_empty, if_neg (Nat.not_lt_zero _)]
  | succ n ih =>
    have hword : (UInt32.ofNat n).toNat = n := UInt32.toNat_ofNat_of_lt' hn
    rw [everyToken, FMap.lookup_insert, ih (by omega)]
    by_cases htoken : token = UInt32.ofNat n
    · rw [if_pos htoken, htoken, hword, if_pos (Nat.lt_succ_self n)]
    · have hne : token.toNat ≠ n := by
        intro heq
        apply htoken
        apply UInt32.toNat_inj.mp
        rw [hword, heq]
      rw [if_neg htoken]
      congr 1
      exact propext ⟨fun h ↦ by omega, fun h ↦ by omega⟩

theorem size_everyToken {n : ℕ} (hn : n ≤ 2 ^ 32) : (everyToken n).size = n := by
  induction n with
  | zero => rw [everyToken, Std.ExtTreeMap.size_empty]
  | succ n ih =>
    have hword : (UInt32.ofNat n).toNat = n := UInt32.toNat_ofNat_of_lt' hn
    have hfresh : (everyToken n).contains (UInt32.ofNat n) ≠ true := by
      rw [Std.ExtTreeMap.contains_eq_isSome_getElem?, lookup_everyToken (by omega), hword,
        if_neg (Nat.lt_irrefl n)]
      simp
    rw [everyToken, Std.ExtTreeMap.size_insert, if_neg hfresh, ih (by omega)]

theorem not_fits_everyToken {n : ℕ} (hn : n = 2 ^ 32) :
    ¬ (⟨∅, ∅, everyToken n, 0⟩ : Account C).Fits := by
  intro hfits
  have hlength := hfits.2.2
  rw [Std.ExtTreeMap.length_toList, size_everyToken hn.le, hn] at hlength
  exact lt_irrefl _ hlength

/-- A write of an account that does not read back leaves a cache that does not mirror. -/
theorem Ledger.not_mirrors_of_lost {a : Account C}
    (hlost : decodeAccount C (encodeAccount a) ≠ some a) (L : Ledger C) (id : Bytes32) :
    ¬ ((L.putRecord (.committed (.account id)) (encodeAccount a)).cached id a).Mirrors := by
  intro hmirrors
  have hcached := hmirrors id a (by rw [lookup_cached, if_pos rfl])
  have hrecord := accountRecord_putRecord L id id (encodeAccount a)
  rw [if_pos rfl] at hrecord
  exact hlost
    ((congrArg (fun body ↦ body.bind (decodeAccount C)) hrecord).symm.trans hcached)

/-- An account that holds every token does not read back, and a ledger that writes it caches what
its record does not decode to. -/
theorem everyToken_not_mirrored :
    ∃ a : Account freeSuite, decodeAccount freeSuite (encodeAccount a) ≠ some a ∧
      ¬ ((Ledger.new.putRecord (.committed (.account 0)) (encodeAccount a)).cached 0
        a).Mirrors := by
  obtain ⟨n, hn⟩ : ∃ n : ℕ, n = 2 ^ 32 := ⟨_, rfl⟩
  have hlost := mt (decodeAccount_encodeAccount_iff _).mp (not_fits_everyToken (C := freeSuite) hn)
  exact ⟨⟨∅, ∅, everyToken n, 0⟩, hlost, Ledger.not_mirrors_of_lost hlost .new 0⟩

end Latebra.State
