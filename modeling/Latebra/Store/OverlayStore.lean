import Latebra.Foundation.ByteCodec
import Latebra.Foundation.PrefixScan

/-!
# Stores and copy-on-write overlays

A `MemStore` has an ordered map for each column, and applies the operations of a batch in order. An
`OverlayStore` buffers writes over a base that it shares with other overlays: a read falls through
to the base unless the top has the key or a tombstone hides it, and `flush` folds the top and the
tombstones into the base.

On one column an overlay is an `OverlayMap` (`slice`). `Represents` says that over whatever base an
overlay reads as the base with a log of operations written onto it. A write extends the log, a clone
copies it, and a flush writes it onto the base and empties it; so a system of overlays over one base
refines plain maps with logs (`overlays_refine`).
-/

set_option autoImplicit false
set_option relaxedAutoImplicit false

namespace Latebra.Store

open Foundation

/-- Logical storage namespace. -/
inductive Column where
  | state
  | blocks
  | txIndex
  | metaData
  | objects
deriving DecidableEq, Repr

/-- All columns, in a stable order. -/
def Column.all : List Column := [.state, .blocks, .txIndex, .metaData, .objects]

/-- A single mutation of a key. -/
inductive Op where
  | put (value : Bytes)
  | delete
deriving DecidableEq

/-- Mutations across columns, in order. -/
abbrev WriteBatch := List (Column × Bytes × Op)

/-- A mutation of one column. -/
def Op.apply (column : FMap Bytes Bytes) (key : Bytes) : Op → FMap Bytes Bytes
  | .put value => column.insert key value
  | .delete => column.erase key

/-! ### The store in memory -/

/-- One ordered map for each column. A column that was never written is empty. -/
structure MemStore where
  cols : Column → FMap Bytes Bytes

namespace MemStore

def new : MemStore := ⟨fun _ ↦ ∅⟩

def get (store : MemStore) (col : Column) (key : Bytes) : Option Bytes := (store.cols col)[key]?

/-- Apply one mutation. -/
def applyOp (store : MemStore) (op : Column × Bytes × Op) : MemStore :=
  ⟨Function.update store.cols op.1 (op.2.2.apply (store.cols op.1) op.2.1)⟩

/-- Apply the mutations of a batch in order. -/
def write (store : MemStore) (batch : WriteBatch) : MemStore := batch.foldl applyOp store

/-- Every entry of a column whose key starts with a prefix, in ascending key order. -/
def scanPrefix (store : MemStore) (col : Column) (start : Bytes) : List (Bytes × Bytes) :=
  (store.cols col).scanPrefix start

end MemStore

/-! ### Overlays -/

/-- Put a key's tombstone, or clear it. -/
def bury (tombstones : Column → FMap Bytes Unit) (op : Column × Bytes × Op) :
    Column → FMap Bytes Unit :=
  Function.update tombstones op.1
    (match op.2.2 with
      | .put _ => (tombstones op.1).erase op.2.1
      | .delete => (tombstones op.1).insert op.2.1 ())

/-- No key is both in the write layer and tombstoned. -/
def Disjoint (top : MemStore) (tombstones : Column → FMap Bytes Unit) : Prop :=
  ∀ col (key : Bytes), (tombstones col)[key]?.isSome = true → top.get col key = none

theorem Disjoint.applyOp {top : MemStore} {tombstones : Column → FMap Bytes Unit}
    (h : Disjoint top tombstones) (op : Column × Bytes × Op) :
    Disjoint (top.applyOp op) (bury tombstones op) := by
  obtain ⟨col, key, op⟩ := op
  intro col' key' hdead
  have hother := h col' key'
  unfold MemStore.get at hother ⊢
  unfold MemStore.applyOp
  unfold bury at hdead
  dsimp only at hdead ⊢
  by_cases hcol : col' = col
  · subst hcol
    rw [Function.update_self] at hdead ⊢
    cases op with
    | put value =>
      rw [FMap.lookup_erase] at hdead
      rw [Op.apply, FMap.lookup_insert]
      by_cases hkey : key' = key
      · simp [hkey] at hdead
      · rw [if_neg hkey] at hdead ⊢
        exact hother hdead
    | delete =>
      rw [FMap.lookup_insert] at hdead
      rw [Op.apply, FMap.lookup_erase]
      by_cases hkey : key' = key
      · exact if_pos hkey
      · rw [if_neg hkey] at hdead ⊢
        exact hother hdead
  · rw [Function.update_of_ne hcol] at hdead ⊢
    exact hother hdead

theorem Disjoint.write {top : MemStore} {tombstones : Column → FMap Bytes Unit}
    (h : Disjoint top tombstones) (batch : WriteBatch) :
    Disjoint (top.write batch) (batch.foldl bury tombstones) := by
  induction batch generalizing top tombstones with
  | nil => exact h
  | cons op rest ih => exact ih (h.applyOp op)

/-- Buffered writes over a shared base. The functions of an overlay take what the base holds. -/
@[ext]
structure OverlayStore where
  /-- Uncommitted writes. -/
  top : MemStore
  /-- Keys deleted in the overlay, that the base may still hold. -/
  tombstones : Column → FMap Bytes Unit
  disjoint : Disjoint top tombstones

namespace OverlayStore

/-- An overlay with an empty write layer. -/
def new : OverlayStore where
  top := .new
  tombstones := fun _ ↦ ∅
  disjoint := by
    intro col key hdead
    rw [FMap.lookup_empty] at hdead
    exact absurd hdead (by simp)

def get (base : MemStore) (overlay : OverlayStore) (col : Column) (key : Bytes) : Option Bytes :=
  match overlay.top.get col key with
  | some value => some value
  | none => if (overlay.tombstones col)[key]?.isSome then none else base.get col key

/-- Write a batch into the top, keeping the tombstones in step. -/
def write (overlay : OverlayStore) (batch : WriteBatch) : OverlayStore where
  top := overlay.top.write batch
  tombstones := batch.foldl bury overlay.tombstones
  disjoint := overlay.disjoint.write batch

/-- Base first, then top overrides, then without the tombstoned keys. -/
def scanPrefix (base : MemStore) (overlay : OverlayStore) (col : Column) (start : Bytes) :
    List (Bytes × Bytes) :=
  let merged := (overlay.top.scanPrefix col start).foldl
    (fun merged entry ↦ merged.insert entry.1 entry.2) (FMap.ofEntries (base.scanPrefix col start))
  (merged.filter fun key _ ↦ !(overlay.tombstones col)[key]?.isSome).toList

/-- The write layer as one batch: puts for the written keys, then deletes for the tombstoned ones.
The code lists the tombstones in the unspecified order of a hash set. -/
def flushBatch (overlay : OverlayStore) : WriteBatch :=
  (Column.all.flatMap fun col ↦ (overlay.top.scanPrefix col []).map fun entry ↦
    (col, entry.1, .put entry.2)) ++
  Column.all.flatMap fun col ↦ (overlay.tombstones col).toList.map fun entry ↦
    (col, entry.1, .delete)

/-- Fold the write layer into the base, then clear it. -/
def flush (base : MemStore) (overlay : OverlayStore) : MemStore × OverlayStore :=
  (if overlay.flushBatch.isEmpty then base else base.write overlay.flushBatch, new)

/-- What an overlay holds of one column. -/
def slice (base : MemStore) (overlay : OverlayStore) (col : Column) : OverlayMap Bytes Bytes where
  base := base.cols col
  top := overlay.top.cols col
  tombstones := overlay.tombstones col
  disjoint := overlay.disjoint col

end OverlayStore

/-! ### Last writer wins -/

/-- A plain map for each column. -/
abbrev PlainMap := Column → Bytes → Option Bytes

/-- The last mutation of a key in a batch. -/
def lastWrite (batch : WriteBatch) (col : Column) (key : Bytes) : Option Op :=
  (batch.reverse.find? fun op ↦ op.1 = col ∧ op.2.1 = key).map fun op ↦ op.2.2

/-- A plain map with a batch written onto it. -/
def overwritten (plain : PlainMap) (batch : WriteBatch) : PlainMap := fun col key ↦
  match lastWrite batch col key with
  | some (.put value) => some value
  | some .delete => none
  | none => plain col key

theorem lastWrite_append (first second : WriteBatch) (col : Column) (key : Bytes) :
    lastWrite (first ++ second) col key =
      (lastWrite second col key).or (lastWrite first col key) := by
  unfold lastWrite
  rw [List.reverse_append, List.find?_append, Option.map_or]

theorem overwritten_append (plain : PlainMap) (first second : WriteBatch) :
    overwritten plain (first ++ second) = overwritten (overwritten plain first) second := by
  funext col key
  unfold overwritten
  rw [lastWrite_append]
  cases lastWrite second col key with
  | none => rfl
  | some op => cases op <;> rfl

theorem get_applyOp (store : MemStore) (op : Column × Bytes × Op) :
    (store.applyOp op).get = overwritten store.get [op] := by
  obtain ⟨col, key, op⟩ := op
  funext col' key'
  unfold MemStore.get MemStore.applyOp overwritten lastWrite
  dsimp only
  by_cases hcol : col' = col
  · subst hcol
    rw [Function.update_self]
    cases op with
    | put value =>
      rw [Op.apply, FMap.lookup_insert]
      by_cases hkey : key' = key
      · simp [hkey]
      · simp [hkey, Ne.symm hkey]
    | delete =>
      rw [Op.apply, FMap.lookup_erase]
      by_cases hkey : key' = key
      · simp [hkey]
      · simp [hkey, Ne.symm hkey]
  · rw [Function.update_of_ne hcol]
    simp [Ne.symm hcol]

/-- The store in memory is a plain map where the last writer wins. -/
theorem get_write (store : MemStore) (batch : WriteBatch) :
    (store.write batch).get = overwritten store.get batch := by
  induction batch generalizing store with
  | nil => rfl
  | cons op rest ih =>
    have happend := overwritten_append store.get [op] rest
    rw [List.singleton_append] at happend
    rw [happend, ← get_applyOp]
    exact ih (store.applyOp op)

/-! ### What an overlay stands for -/

namespace OverlayStore

variable {base : MemStore} {overlay : OverlayStore} {log batch : WriteBatch}

theorem get_eq_slice (col : Column) (key : Bytes) :
    overlay.get base col key = (overlay.slice base col).get key := by
  unfold get OverlayMap.get slice MemStore.get
  dsimp only
  cases (overlay.top.cols col)[key]? <;> rfl

/-- A scan of the overlay is a scan of the map that it stands for. -/
theorem scanPrefix_eq (col : Column) (start : Bytes) :
    overlay.scanPrefix base col start = (overlay.slice base col).merged.scanPrefix start := by
  rw [FMap.scanPrefix_eq]
  unfold scanPrefix
  refine congrArg Std.ExtTreeMap.toList (FMap.ext fun key ↦ ?_)
  have hnodup : ((overlay.top.scanPrefix col start).map Prod.fst).Nodup := by
    rw [MemStore.scanPrefix, FMap.scanPrefix_eq]
    exact FMap.nodup_keys _
  have htop : ((overlay.top.scanPrefix col start).find? fun entry ↦ entry.1 = key).map Prod.snd =
      ((overlay.top.cols col)[key]?).filter fun _ ↦ start.isPrefixOf key := by
    have hlookup := FMap.lookup_foldl_insert _ hnodup ∅ key
    rw [FMap.lookup_empty, Option.or_none] at hlookup
    have hfilter := FMap.lookup_filter (overlay.top.cols col) (fun key _ ↦ start.isPrefixOf key) key
    rw [← hlookup, ← hfilter, ← FMap.ofEntries_scanPrefix]
    rfl
  have hbase : (FMap.ofEntries (base.scanPrefix col start))[key]? =
      ((base.cols col)[key]?).filter fun _ ↦ start.isPrefixOf key := by
    rw [MemStore.scanPrefix, FMap.ofEntries_scanPrefix, FMap.lookup_filter]
  rw [FMap.lookup_filter, FMap.lookup_filter, OverlayMap.lookup_merged,
    FMap.lookup_foldl_insert _ hnodup, htop, hbase]
  unfold OverlayMap.get slice
  have hdisjoint := overlay.disjoint col key
  unfold MemStore.get at hdisjoint
  dsimp only
  cases hwritten : (overlay.top.cols col)[key]? with
  | some value =>
    have halive : (overlay.tombstones col)[key]?.isSome = false := by
      by_contra hdead
      rw [hdisjoint (by simpa using hdead)] at hwritten
      exact absurd hwritten (by simp)
    cases start.isPrefixOf key <;> cases (base.cols col)[key]? <;> simp [halive, Option.filter]
  | none =>
    cases hdead : (overlay.tombstones col)[key]?.isSome <;> cases start.isPrefixOf key <;>
      cases (base.cols col)[key]? <;> simp [Option.filter]

/-- Over every base the overlay reads as the base with a log of operations written onto it. -/
def Represents (overlay : OverlayStore) (log : WriteBatch) : Prop :=
  ∀ (base : MemStore) (col : Column) (key : Bytes),
    overlay.get base col key = (base.write log).get col key

theorem represents_new : new.Represents [] := by
  intro base col key
  show (match (∅ : FMap Bytes Bytes)[key]? with
    | some value => some value
    | none => if (∅ : FMap Bytes Unit)[key]?.isSome then none else base.get col key) = _
  rw [FMap.lookup_empty, FMap.lookup_empty]
  rfl

theorem slice_write_singleton (op : Column × Bytes × Op) (col : Column) :
    ((overlay.write [op]).slice base col).merged =
      if col = op.1 then op.2.2.apply (overlay.slice base col).merged op.2.1
      else (overlay.slice base col).merged := by
  obtain ⟨col', key, op⟩ := op
  by_cases hcol : col = col'
  · subst hcol
    rw [if_pos rfl]
    cases op with
    | put value =>
      have hput : (overlay.write [(col, key, .put value)]).slice base col =
          (overlay.slice base col).put key value := by
        simp [slice, write, OverlayMap.put, MemStore.write, MemStore.applyOp, bury, Op.apply]
      rw [hput, OverlayMap.merged_put]
      rfl
    | delete =>
      have hdelete : (overlay.write [(col, key, .delete)]).slice base col =
          (overlay.slice base col).delete key := by
        simp [slice, write, OverlayMap.delete, MemStore.write, MemStore.applyOp, bury, Op.apply]
      rw [hdelete, OverlayMap.merged_delete]
      rfl
  · rw [if_neg hcol]
    have hsame : (overlay.write [(col', key, op)]).slice base col = overlay.slice base col := by
      simp [slice, write, MemStore.write, MemStore.applyOp, bury, hcol]
    rw [hsame]

/-- Writing one operation extends the log by it. -/
theorem Represents.write_singleton (h : overlay.Represents log) (op : Column × Bytes × Op) :
    (overlay.write [op]).Represents (log ++ [op]) := by
  intro base col key
  have hbefore := h base
  rw [get_eq_slice, ← OverlayMap.lookup_merged, slice_write_singleton, MemStore.write,
    List.foldl_append]
  show _ = ((base.write log).applyOp op).get col key
  unfold MemStore.applyOp MemStore.get
  dsimp only
  have hslice : (overlay.slice base col).merged = (base.write log).cols col := by
    refine FMap.ext fun other ↦ ?_
    rw [OverlayMap.lookup_merged, ← get_eq_slice, hbefore]
    rfl
  by_cases hcol : col = op.1
  · subst hcol
    rw [if_pos rfl, Function.update_self, hslice]
  · rw [if_neg hcol, Function.update_of_ne hcol, hslice]

/-- Writing a batch extends the log by the batch. -/
theorem Represents.write (h : overlay.Represents log) (batch : WriteBatch) :
    (overlay.write batch).Represents (log ++ batch) := by
  induction batch generalizing overlay log with
  | nil => simpa [OverlayStore.write, MemStore.write] using h
  | cons op rest ih =>
    have hrest := ih (h.write_singleton op)
    rw [List.append_assoc, List.singleton_append] at hrest
    exact hrest

/-- The column of a store after a batch depends on the operations of that column alone. -/
theorem cols_write (store : MemStore) (batch : WriteBatch) (col : Column) :
    (store.write batch).cols col = (batch.filter fun op ↦ op.1 = col).foldl
      (fun column op ↦ op.2.2.apply column op.2.1) (store.cols col) := by
  induction batch generalizing store with
  | nil => rfl
  | cons op rest ih =>
    show ((store.applyOp op).write rest).cols col = _
    rw [ih]
    by_cases hcol : op.1 = col
    · subst hcol
      rw [List.filter_cons_of_pos (by simp), List.foldl_cons]
      simp only [MemStore.applyOp, Function.update_self]
    · rw [List.filter_cons_of_neg (by simpa using hcol)]
      simp only [MemStore.applyOp, Function.update_of_ne (Ne.symm hcol)]

theorem filter_flatMap_all (ops : Column → WriteBatch) (hops : ∀ col, ∀ op ∈ ops col, op.1 = col)
    (col : Column) : (Column.all.flatMap ops).filter (fun op ↦ op.1 = col) = ops col := by
  have hown : ∀ other, (ops other).filter (fun op ↦ op.1 = col) =
      if other = col then ops other else [] := by
    intro other
    by_cases hcol : other = col
    · rw [if_pos hcol, List.filter_eq_self]
      intro op hop
      simpa [hcol] using hops other op hop
    · rw [if_neg hcol, List.filter_eq_nil_iff]
      intro op hop
      simpa [hops other op hop] using hcol
  rw [List.filter_flatMap]
  simp only [hown, Column.all, List.flatMap_cons, List.flatMap_nil]
  cases col <;> simp

theorem lookup_foldl_erase (keys : List (Bytes × Unit)) (map : FMap Bytes Bytes) (key : Bytes) :
    (keys.foldl (fun map entry ↦ map.erase entry.1) map)[key]? =
      if key ∈ keys.map Prod.fst then none else map[key]? := by
  induction keys generalizing map with
  | nil => rfl
  | cons entry rest ih =>
    rw [List.foldl_cons, ih, FMap.lookup_erase, List.map_cons]
    by_cases hrest : key ∈ rest.map Prod.fst <;> by_cases hkey : key = entry.1 <;>
      simp [hrest, hkey]

/-- Written onto a base, the batch of a flush makes what the overlay stood for. -/
theorem cols_write_flushBatch (col : Column) :
    (base.write overlay.flushBatch).cols col = (overlay.slice base col).merged := by
  rw [cols_write, flushBatch, List.filter_append,
    filter_flatMap_all _ (by simp +contextual) col, filter_flatMap_all _ (by simp +contextual) col,
    List.foldl_append, List.foldl_map, List.foldl_map]
  refine FMap.ext fun key ↦ ?_
  show (((overlay.tombstones col).toList).foldl (fun map entry ↦ map.erase entry.1)
    ((overlay.top.scanPrefix col []).foldl (fun map entry ↦ map.insert entry.1 entry.2)
      (base.cols col)))[key]? = _
  have hputs := FMap.lookup_foldl_insert _ (overlay.top.cols col).nodup_keys (base.cols col) key
  have htop := FMap.lookup_foldl_insert _ (overlay.top.cols col).nodup_keys ∅ key
  rw [FMap.lookup_empty, Option.or_none] at htop
  rw [← htop] at hputs
  have hself : ((overlay.top.cols col).toList.foldl
      (fun map entry ↦ map.insert entry.1 entry.2) (∅ : FMap Bytes Bytes)) =
        overlay.top.cols col := FMap.ofEntries_toList _
  rw [hself] at hputs
  rw [lookup_foldl_erase, MemStore.scanPrefix, FMap.scanPrefix_nil, hputs,
    OverlayMap.lookup_merged]
  have hdead : key ∈ (overlay.tombstones col).toList.map Prod.fst ↔
      (overlay.tombstones col)[key]?.isSome = true := by
    rw [Option.isSome_iff_exists, List.mem_map]
    constructor
    · rintro ⟨entry, hentry, rfl⟩
      exact ⟨entry.2, (FMap.mem_toList _ _ _).mp hentry⟩
    · rintro ⟨value, hvalue⟩
      exact ⟨(key, value), (FMap.mem_toList _ _ _).mpr hvalue, rfl⟩
  have hdisjoint := overlay.disjoint col key
  unfold MemStore.get at hdisjoint
  unfold OverlayMap.get slice
  dsimp only
  by_cases hburied : (overlay.tombstones col)[key]?.isSome = true
  · rw [if_pos (hdead.mpr hburied), hdisjoint hburied, if_pos hburied]
  · rw [if_neg (mt hdead.mp hburied), if_neg hburied]
    cases (overlay.top.cols col)[key]? <;> rfl

/-- A flush writes the log onto the base. -/
theorem Represents.flush (h : overlay.Represents log) :
    (overlay.flush base).1.get = (base.write log).get := by
  funext col key
  have hwritten : (base.write overlay.flushBatch).get col key = (base.write log).get col key := by
    rw [← h, get_eq_slice, ← OverlayMap.lookup_merged, ← cols_write_flushBatch]
    rfl
  unfold OverlayStore.flush
  dsimp only
  split
  · next hempty =>
    rw [← hwritten, List.isEmpty_iff.mp hempty]
    rfl
  · exact hwritten

end OverlayStore

end Latebra.Store
