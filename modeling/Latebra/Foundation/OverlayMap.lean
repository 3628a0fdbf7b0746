import Mathlib

/-!
# Ordered finite maps and copy-on-write overlays

`FMap` is the ordered finite map that stands for a map of the modelled program: two maps with the
same lookups are equal, and its entries list in ascending key order.

An `OverlayMap` layers uncommitted writes over a committed base: a lookup reads the top, then
stops at a tombstone, then falls through to the base. It carries the invariant that no key is both
written and tombstoned. `OverlayMap.merged` is the one map that an overlay stands for;
`merged_put`, `merged_delete` and `merged_flush` say that a put and a delete are an insertion and
an erasure there, and that folding the writes into the base changes nothing.
-/

set_option autoImplicit false
set_option relaxedAutoImplicit false

namespace Latebra.Foundation

/-- Ordered finite maps. -/
abbrev FMap (K V : Type) [Ord K] := Std.ExtTreeMap K V

variable {K V : Type} [Ord K] [Std.TransOrd K]

namespace FMap

@[simp]
theorem lookup_empty (key : K) : (∅ : FMap K V)[key]? = none := Std.ExtTreeMap.getElem?_empty

@[simp]
theorem lookup_insert_self (map : FMap K V) (key : K) (value : V) :
    (map.insert key value)[key]? = some value := Std.ExtTreeMap.getElem?_insert_self

@[simp]
theorem lookup_erase_self (map : FMap K V) (key : K) : (map.erase key)[key]? = none :=
  Std.ExtTreeMap.getElem?_erase_self

theorem lookup_union (first second : FMap K V) (key : K) :
    (first ∪ second)[key]? = second[key]?.or first[key]? :=
  Std.ExtTreeMap.getElem?_union

variable [Std.LawfulEqOrd K]

theorem ext {first second : FMap K V} (hsame : ∀ key : K, first[key]? = second[key]?) :
    first = second :=
  Std.ExtTreeMap.ext_getElem? fun {key} ↦ hsame key

theorem lookup_insert [DecidableEq K] (map : FMap K V) (key other : K) (value : V) :
    (map.insert key value)[other]? = if other = key then some value else map[other]? := by
  rw [Std.ExtTreeMap.getElem?_insert]
  simp only [Std.LawfulEqOrd.compare_eq_iff_eq, eq_comm (a := other)]

theorem lookup_erase [DecidableEq K] (map : FMap K V) (key other : K) :
    (map.erase key)[other]? = if other = key then none else map[other]? := by
  rw [Std.ExtTreeMap.getElem?_erase]
  simp only [Std.LawfulEqOrd.compare_eq_iff_eq, eq_comm (a := other)]

theorem lookup_filter (map : FMap K V) (keep : K → V → Bool) (key : K) :
    (map.filter keep)[key]? = map[key]?.filter (keep key) :=
  Std.ExtTreeMap.getElem?_filter'

/-- The entries whose key satisfies a test, in ascending key order. -/
def entriesWhere (map : FMap K V) (test : K → Bool) : List (K × V) :=
  map.toList.filter fun entry ↦ test entry.1

theorem mem_toList (map : FMap K V) (key : K) (value : V) :
    (key, value) ∈ map.toList ↔ map[key]? = some value :=
  Std.ExtTreeMap.mem_toList_iff_getElem?_eq_some

theorem mem_entriesWhere (map : FMap K V) (test : K → Bool) (key : K) (value : V) :
    (key, value) ∈ map.entriesWhere test ↔ map[key]? = some value ∧ test key = true := by
  rw [entriesWhere, List.mem_filter, mem_toList]

/-- Maps that agree on the keys that satisfy a test have the same entries there. -/
theorem entriesWhere_congr {first second : FMap K V} {test : K → Bool}
    (hsame : ∀ key, test key = true → first[key]? = second[key]?) :
    first.entriesWhere test = second.entriesWhere test := by
  have hfilter : ∀ map : FMap K V,
      map.entriesWhere test = (map.filter fun key _ ↦ test key).toList :=
    fun map ↦ (Std.ExtTreeMap.toList_filter (t := map) (f := fun key _ ↦ test key)).symm
  rw [hfilter, hfilter]
  apply congrArg Std.ExtTreeMap.toList
  apply FMap.ext
  intro key
  rw [lookup_filter, lookup_filter]
  by_cases htest : test key = true
  · rw [hsame key htest]
  · rw [Option.filter_eq_none_iff.mpr fun _ _ ↦ htest, Option.filter_eq_none_iff.mpr fun _ _ ↦ htest]

theorem nodup_keys (map : FMap K V) : (map.toList.map Prod.fst).Nodup := by
  have hdistinct := Std.ExtTreeMap.distinct_keys_toList (t := map)
  rw [List.Nodup, List.pairwise_map]
  refine hdistinct.imp fun {a b} hne heq ↦ hne ?_
  rw [heq]
  exact Std.ReflOrd.compare_self

/-- The map of a list of entries; of two entries with one key, the later one stays. -/
def ofEntries (entries : List (K × V)) : FMap K V :=
  entries.foldl (fun map entry ↦ map.insert entry.1 entry.2) ∅

theorem lookup_foldl_insert [DecidableEq K] (entries : List (K × V))
    (hnodup : (entries.map Prod.fst).Nodup) (map : FMap K V) (key : K) :
    (entries.foldl (fun map entry ↦ map.insert entry.1 entry.2) map)[key]? =
      ((entries.find? fun entry ↦ entry.1 = key).map Prod.snd).or map[key]? := by
  induction entries generalizing map with
  | nil => simp
  | cons entry rest ih =>
    rw [List.map_cons, List.nodup_cons] at hnodup
    rw [List.foldl_cons, ih hnodup.2, lookup_insert]
    by_cases hkey : entry.1 = key
    · have hgone : rest.find? (fun entry ↦ entry.1 = key) = none := by
        refine List.find?_eq_none.mpr fun other hmem hother ↦ hnodup.1 ?_
        exact hkey ▸ (of_decide_eq_true hother) ▸ List.mem_map_of_mem hmem
      rw [List.find?_cons_of_pos (by simpa using hkey), hgone]
      simp [hkey]
    · rw [List.find?_cons_of_neg (by simpa using hkey), if_neg (Ne.symm hkey)]

theorem lookup_foldl_insert_of_notMem [DecidableEq K] (entries : List (K × V)) (map : FMap K V)
    {key : K} (hkey : key ∉ entries.map Prod.fst) :
    (entries.foldl (fun map entry ↦ map.insert entry.1 entry.2) map)[key]? = map[key]? := by
  induction entries generalizing map with
  | nil => rfl
  | cons entry rest ih =>
    rw [List.map_cons, List.mem_cons, not_or] at hkey
    rw [List.foldl_cons, ih _ hkey.2, lookup_insert, if_neg hkey.1]

/-- A key that is inserted gets one of the values that it is inserted with. -/
theorem exists_lookup_foldl_insert [DecidableEq K] (entries : List (K × V)) (map : FMap K V)
    {key : K} (hkey : key ∈ entries.map Prod.fst) :
    ∃ value, (key, value) ∈ entries ∧
      (entries.foldl (fun map entry ↦ map.insert entry.1 entry.2) map)[key]? = some value := by
  induction entries generalizing map with
  | nil => exact absurd hkey List.not_mem_nil
  | cons entry rest ih =>
    rw [List.foldl_cons]
    by_cases hrest : key ∈ rest.map Prod.fst
    · obtain ⟨value, hmem, hlookup⟩ := ih (map.insert entry.1 entry.2) hrest
      exact ⟨value, List.mem_cons_of_mem _ hmem, hlookup⟩
    · have hfirst : key = entry.1 := (List.mem_cons.mp hkey).resolve_right hrest
      refine ⟨entry.2, ?_, ?_⟩
      · rw [hfirst]
        exact List.mem_cons_self
      · rw [lookup_foldl_insert_of_notMem _ _ hrest, lookup_insert, if_pos hfirst]

omit [Std.LawfulEqOrd K] in
theorem length_ofEntries_le (entries : List (K × V)) :
    (ofEntries entries).toList.length ≤ entries.length := by
  have hfold : ∀ map : FMap K V,
      (entries.foldl (fun map entry ↦ map.insert entry.1 entry.2) map).size ≤
        map.size + entries.length := by
    induction entries with
    | nil => exact fun map ↦ le_refl _
    | cons entry rest ih =>
      intro map
      have hsize : (map.insert entry.1 entry.2).size ≤ map.size + 1 := by
        rw [Std.ExtTreeMap.size_insert]
        split <;> omega
      have hrest := ih (map.insert entry.1 entry.2)
      rw [List.foldl_cons, List.length_cons]
      omega
  have hle := hfold ∅
  rw [Std.ExtTreeMap.size_empty, zero_add] at hle
  rw [Std.ExtTreeMap.length_toList]
  exact hle

/-- A map is the map of its entries. -/
theorem ofEntries_toList [DecidableEq K] (map : FMap K V) : ofEntries map.toList = map := by
  refine ext fun key ↦ ?_
  rw [ofEntries, lookup_foldl_insert _ map.nodup_keys, lookup_empty, Option.or_none]
  cases hvalue : map[key]? with
  | some value =>
    have hmem := (mem_toList map key value).mpr hvalue
    cases hfind : map.toList.find? fun entry ↦ entry.1 = key with
    | none => exact absurd (List.find?_eq_none.mp hfind _ hmem) (by simp)
    | some entry =>
      obtain ⟨other, found⟩ := entry
      have hkey : other = key := by simpa using List.find?_some hfind
      have hother := (mem_toList map other found).mp (List.mem_of_find?_eq_some hfind)
      rw [hkey, hvalue] at hother
      exact hother.symm
  | none =>
    rw [Option.map_eq_none_iff]
    refine List.find?_eq_none.mpr fun entry hmem hkey ↦ ?_
    have hentry := (mem_toList map entry.1 entry.2).mp hmem
    rw [of_decide_eq_true hkey, hvalue] at hentry
    exact nomatch hentry

end FMap

/-- Uncommitted writes over a committed base. No key is both written and tombstoned. -/
structure OverlayMap (K V : Type) [Ord K] [Std.TransOrd K] [Std.LawfulEqOrd K] where
  /-- The committed entries. -/
  base : FMap K V
  /-- The uncommitted writes. -/
  top : FMap K V
  /-- The keys deleted since the last commit. -/
  tombstones : FMap K Unit
  disjoint : ∀ key : K, tombstones[key]?.isSome = true → top[key]? = none

namespace OverlayMap

variable [Std.LawfulEqOrd K]

/-- An overlay over a base, with nothing written yet. -/
def new (base : FMap K V) : OverlayMap K V where
  base := base
  top := ∅
  tombstones := ∅
  disjoint := by simp

/-- Look a key up: the top, then the tombstones, then the base. -/
def get (overlay : OverlayMap K V) (key : K) : Option V :=
  match overlay.top[key]? with
  | some value => some value
  | none => if overlay.tombstones[key]?.isSome then none else overlay.base[key]?

/-- Write a key: into the top, clearing its tombstone. -/
def put [DecidableEq K] (overlay : OverlayMap K V) (key : K) (value : V) : OverlayMap K V where
  base := overlay.base
  top := overlay.top.insert key value
  tombstones := overlay.tombstones.erase key
  disjoint := by
    intro other hdead
    rw [FMap.lookup_erase] at hdead
    rw [FMap.lookup_insert]
    split
    · next heq => simp [heq] at hdead
    · next hne => exact overlay.disjoint other (by simpa [hne] using hdead)

/-- Delete a key: out of the top, leaving a tombstone. -/
def delete [DecidableEq K] (overlay : OverlayMap K V) (key : K) : OverlayMap K V where
  base := overlay.base
  top := overlay.top.erase key
  tombstones := overlay.tombstones.insert key ()
  disjoint := by
    intro other hdead
    rw [FMap.lookup_insert] at hdead
    rw [FMap.lookup_erase]
    split
    · rfl
    · next hne => exact overlay.disjoint other (by simpa [hne] using hdead)

/-- The map that the overlay stands for: the base, overridden by the top, without the tombstoned
keys. -/
def merged (overlay : OverlayMap K V) : FMap K V :=
  (overlay.base ∪ overlay.top).filter fun key _ ↦ !overlay.tombstones[key]?.isSome

/-- Fold the writes into the base. -/
def flush (overlay : OverlayMap K V) : OverlayMap K V := new overlay.merged

variable (overlay : OverlayMap K V)

/-- Lookups read the merged map. -/
theorem lookup_merged (key : K) : overlay.merged[key]? = overlay.get key := by
  have hdisjoint := overlay.disjoint key
  rw [merged, FMap.lookup_filter, FMap.lookup_union, get]
  cases htop : overlay.top[key]? with
  | some value =>
    have halive : overlay.tombstones[key]?.isSome = false := by
      by_contra hdead
      rw [hdisjoint (by simpa using hdead)] at htop
      exact nomatch htop
    simp [halive]
  | none =>
    cases hdead : overlay.tombstones[key]?.isSome <;> cases overlay.base[key]? <;> simp

theorem get_put [DecidableEq K] (key other : K) (value : V) :
    (overlay.put key value).get other = if other = key then some value else overlay.get other := by
  simp only [get, put, FMap.lookup_insert, FMap.lookup_erase]
  by_cases heq : other = key <;> simp [heq]

theorem get_delete [DecidableEq K] (key other : K) :
    (overlay.delete key).get other = if other = key then none else overlay.get other := by
  simp only [get, delete, FMap.lookup_insert, FMap.lookup_erase]
  by_cases heq : other = key <;> simp [heq]

@[simp]
theorem merged_put [DecidableEq K] (key : K) (value : V) :
    (overlay.put key value).merged = overlay.merged.insert key value := by
  refine FMap.ext fun other ↦ ?_
  rw [FMap.lookup_insert, lookup_merged, lookup_merged, get_put]

@[simp]
theorem merged_delete [DecidableEq K] (key : K) :
    (overlay.delete key).merged = overlay.merged.erase key := by
  refine FMap.ext fun other ↦ ?_
  rw [FMap.lookup_erase, lookup_merged, lookup_merged, get_delete]

@[simp]
theorem merged_new (base : FMap K V) : (new base).merged = base := by
  refine FMap.ext fun key ↦ ?_
  rw [lookup_merged]
  simp [get, new]

/-- Folding the writes into the base changes nothing. -/
@[simp]
theorem merged_flush : overlay.flush.merged = overlay.merged := merged_new _

end OverlayMap

end Latebra.Foundation
