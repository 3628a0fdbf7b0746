import Latebra.Foundation.OverlayMap

/-!
# Prefix scans of an ordered map

The keys of a map are strings in lexicographic order. A prefix scan starts at the first key that is
not below the prefix and takes keys as long as they start with it.

A string is not below its prefixes, and what lies between a prefix and one of its extensions extends
it as well, so the keys with a prefix are contiguous and the scan finds all of them
(`scanPrefix_eq`). `mem_scanPrefix` and `scanPrefix_ascending` say what a scan holds and in which
order.
-/

set_option autoImplicit false
set_option relaxedAutoImplicit false

namespace Latebra.Foundation

section Prefixes

variable {α : Type} [Ord α] [Std.LawfulEqOrd α]

/-- A string is not below its prefixes. -/
theorem not_lt_of_isPrefix {start key : List α} (hstarts : start <+: key) :
    compare key start ≠ .lt := by
  induction start generalizing key with
  | nil =>
    cases key with
    | nil => exact nofun
    | cons letter rest => exact nofun
  | cons first start ih =>
    obtain ⟨rest, rfl⟩ := hstarts
    rw [List.cons_append, List.compare_cons_cons, Std.ReflOrd.compare_self, Ordering.then]
    exact ih ⟨rest, rfl⟩

/-- What lies between a prefix and an extension of it extends it. -/
theorem isPrefix_of_between {start key later : List α} (hfrom : compare key start ≠ .lt)
    (hbelow : compare key later = .lt) (hlater : start <+: later) : start <+: key := by
  induction start generalizing key later with
  | nil => exact List.nil_prefix
  | cons first start ih =>
    obtain ⟨rest, rfl⟩ := hlater
    cases key with
    | nil => exact absurd rfl hfrom
    | cons letter key =>
      rw [List.compare_cons_cons] at hfrom
      rw [List.cons_append, List.compare_cons_cons] at hbelow
      cases hletter : compare letter first with
      | lt => exact absurd (by rw [hletter]; rfl) hfrom
      | gt =>
        rw [hletter] at hbelow
        exact absurd hbelow nofun
      | eq =>
        rw [hletter] at hfrom hbelow
        obtain rfl := Std.LawfulEqOrd.eq_of_compare hletter
        exact List.cons_prefix_cons.mpr ⟨rfl, ih hfrom hbelow ⟨rest, rfl⟩⟩

end Prefixes

section Scans

variable {α V : Type} [Ord α] [Std.TransOrd α] [Std.LawfulEqOrd α] [DecidableEq α]

/-- The entries of an ascending list from a prefix up to the first key that no longer shares it. -/
def scanFrom (start : List α) (entries : List (List α × V)) : List (List α × V) :=
  (entries.dropWhile fun entry ↦ compare entry.1 start = .lt).takeWhile fun entry ↦
    start.isPrefixOf entry.1

theorem scanFrom_eq_filter (start : List α) {entries : List (List α × V)}
    (hsorted : entries.Pairwise fun first second ↦ compare first.1 second.1 = .lt) :
    scanFrom start entries = entries.filter fun entry ↦ start.isPrefixOf entry.1 := by
  unfold scanFrom
  induction entries with
  | nil => rfl
  | cons entry rest ih =>
    obtain ⟨hfirst, hrest⟩ := List.pairwise_cons.mp hsorted
    by_cases hlt : compare entry.1 start = .lt
    · have hskip : start.isPrefixOf entry.1 = false := by
        rw [Bool.eq_false_iff, ne_eq, List.isPrefixOf_iff_prefix]
        exact fun hstarts ↦ not_lt_of_isPrefix hstarts hlt
      rw [List.dropWhile_cons_of_pos (by simpa using hlt), ih hrest,
        List.filter_cons_of_neg (by simp [hskip])]
    · have habove : ∀ later ∈ rest, compare later.1 start ≠ .lt := by
        intro later hlater hbelow
        exact hlt (Std.TransCmp.lt_trans (hfirst later hlater) hbelow)
      have hnone : rest.dropWhile (fun entry ↦ compare entry.1 start = .lt) = rest := by
        cases rest with
        | nil => rfl
        | cons next rest =>
          exact List.dropWhile_cons_of_neg (by simpa using habove next List.mem_cons_self)
      rw [List.dropWhile_cons_of_neg (by simpa using hlt)]
      by_cases hstarts : start <+: entry.1
      · have htake := ih hrest
        rw [hnone] at htake
        rw [List.takeWhile_cons_of_pos (by simpa using hstarts),
          List.filter_cons_of_pos (by simpa using hstarts), htake]
      · have hothers : rest.filter (fun entry ↦ start.isPrefixOf entry.1) = [] := by
          rw [List.filter_eq_nil_iff]
          intro later hlater hextends
          exact hstarts (isPrefix_of_between hlt (hfirst later hlater)
            (List.isPrefixOf_iff_prefix.mp hextends))
        rw [List.takeWhile_cons_of_neg (by simpa using hstarts),
          List.filter_cons_of_neg (by simpa using hstarts), hothers]

namespace FMap

/-- Every entry whose key starts with a prefix, in ascending key order. -/
def scanPrefix (map : FMap (List α) V) (start : List α) : List (List α × V) :=
  scanFrom start map.toList

theorem scanPrefix_eq (map : FMap (List α) V) (start : List α) :
    map.scanPrefix start = (map.filter fun key _ ↦ start.isPrefixOf key).toList := by
  rw [scanPrefix, scanFrom_eq_filter start Std.ExtTreeMap.ordered_keys_toList,
    Std.ExtTreeMap.toList_filter]

theorem mem_scanPrefix (map : FMap (List α) V) (start key : List α) (value : V) :
    (key, value) ∈ map.scanPrefix start ↔ map[key]? = some value ∧ start <+: key := by
  rw [scanPrefix_eq, mem_toList, lookup_filter, Option.filter_eq_some_iff,
    List.isPrefixOf_iff_prefix]

theorem scanPrefix_ascending (map : FMap (List α) V) (start : List α) :
    (map.scanPrefix start).Pairwise fun first second ↦ compare first.1 second.1 = .lt := by
  rw [scanPrefix_eq]
  exact Std.ExtTreeMap.ordered_keys_toList

/-- A scan of every key is the list of the entries. -/
theorem scanPrefix_nil (map : FMap (List α) V) : map.scanPrefix [] = map.toList := by
  rw [scanPrefix_eq]
  refine congrArg _ (FMap.ext fun key ↦ ?_)
  rw [lookup_filter]
  cases map[key]? <;> simp

/-- A map is rebuilt from its entries with a prefix. -/
theorem ofEntries_scanPrefix (map : FMap (List α) V) (start : List α) :
    ofEntries (map.scanPrefix start) = map.filter fun key _ ↦ start.isPrefixOf key := by
  rw [scanPrefix_eq, ofEntries_toList]

end FMap

end Scans

end Latebra.Foundation
