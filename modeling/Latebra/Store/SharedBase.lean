import Latebra.Store.OverlayStore

/-!
# Overlays over one base

Overlays that were cloned from one another, or opened over the same base, share the base: a flush of
one of them is seen by the others where they have not written a key themselves. `Stores` is a base
with its overlays, known by their position, and `PlainStores` says what they are for: a plain map
with a log of batches for each of them, whose reads are those of the map with the log written onto
it, last writer wins.

`overlays_refine` is the refinement over every run of the calls, with what it means for one overlay:
its scans are ascending and hold what its reads return, a flush changes none of them, and neither do
the calls on other overlays, up to their own flush.
-/

set_option autoImplicit false
set_option relaxedAutoImplicit false

namespace Latebra.Store

open Foundation

/-- A base with the overlays that share it. -/
structure Stores where
  base : MemStore
  overlays : List OverlayStore

/-- The calls that change a base or its overlays. Reads leave both as they are. -/
inductive StoreCall where
  /-- Open an overlay with an empty write layer. -/
  | new
  | write (h : ℕ) (batch : WriteBatch)
  | clone (h : ℕ)
  | flush (h : ℕ)

/-- The call writes to an overlay or moves its base. -/
def StoreCall.Disturbs (h : ℕ) : StoreCall → Prop
  | .write h' _ => h' = h
  | .flush h' => h' ≠ h
  | _ => False

namespace Stores

/-- A base that no overlay is open over. -/
def start (base : MemStore) : Stores := ⟨base, []⟩

/-- Make a call on an overlay that is there. -/
def call (s : Stores) : StoreCall → Option Stores
  | .new => some { s with overlays := s.overlays ++ [.new] }
  | .write h batch =>
    s.overlays[h]?.map fun overlay ↦ { s with overlays := s.overlays.set h (overlay.write batch) }
  | .clone h => s.overlays[h]?.map fun overlay ↦ { s with overlays := s.overlays ++ [overlay] }
  | .flush h =>
    s.overlays[h]?.map fun overlay ↦
      ⟨(overlay.flush s.base).1, s.overlays.set h (overlay.flush s.base).2⟩

/-- Make calls one after the other. -/
def run (s : Stores) (calls : List StoreCall) : Option Stores := calls.foldlM call s

/-- Two overlays, each over its base, answer every read alike. -/
structure SameView (base : MemStore) (overlay : OverlayStore) (base' : MemStore)
    (overlay' : OverlayStore) : Prop where
  get : ∀ col key, overlay'.get base' col key = overlay.get base col key
  scanPrefix : ∀ col start, overlay'.scanPrefix base' col start = overlay.scanPrefix base col start

end Stores

/-- A plain map with a log of batches for each overlay over it. -/
structure PlainStores where
  base : PlainMap
  logs : List WriteBatch

namespace PlainStores

def start (base : PlainMap) : PlainStores := ⟨base, []⟩

def call (p : PlainStores) : StoreCall → Option PlainStores
  | .new => some { p with logs := p.logs ++ [[]] }
  | .write h batch => p.logs[h]?.map fun log ↦ { p with logs := p.logs.set h (log ++ batch) }
  | .clone h => p.logs[h]?.map fun log ↦ { p with logs := p.logs ++ [log] }
  | .flush h => p.logs[h]?.map fun log ↦ ⟨overwritten p.base log, p.logs.set h []⟩

def run (p : PlainStores) (calls : List StoreCall) : Option PlainStores := calls.foldlM call p

end PlainStores

/-! ### Reads determine scans -/

section Scans

variable {base base' : MemStore} {overlay overlay' : OverlayStore}

theorem mem_scanPrefix (col : Column) (start key value : Bytes) :
    (key, value) ∈ overlay.scanPrefix base col start ↔
      overlay.get base col key = some value ∧ start <+: key := by
  rw [OverlayStore.scanPrefix_eq, FMap.mem_scanPrefix, OverlayMap.lookup_merged,
    OverlayStore.get_eq_slice]

theorem scanPrefix_ascending (col : Column) (start : Bytes) :
    (overlay.scanPrefix base col start).Pairwise fun first second ↦
      compare first.1 second.1 = .lt := by
  rw [OverlayStore.scanPrefix_eq]
  exact FMap.scanPrefix_ascending _ start

/-- Overlays that read alike scan alike. -/
theorem Stores.SameView.of_get
    (hget : ∀ col key, overlay'.get base' col key = overlay.get base col key) :
    SameView base overlay base' overlay' where
  get := hget
  scanPrefix := by
    intro col start
    have hmerged : (overlay'.slice base' col).merged = (overlay.slice base col).merged := by
      refine FMap.ext fun key ↦ ?_
      rw [OverlayMap.lookup_merged, OverlayMap.lookup_merged, ← OverlayStore.get_eq_slice,
        ← OverlayStore.get_eq_slice, hget]
    rw [OverlayStore.scanPrefix_eq, OverlayStore.scanPrefix_eq, hmerged]

end Scans

/-! ### The refinement -/

/-- The base reads as the plain map, and each overlay represents its log. -/
structure Simulates (s : Stores) (p : PlainStores) : Prop where
  base : s.base.get = p.base
  length : s.overlays.length = p.logs.length
  logs : ∀ (h : ℕ) (overlay : OverlayStore) (log : WriteBatch), s.overlays[h]? = some overlay →
    p.logs[h]? = some log →
    overlay.Represents log

section Refinement

variable {s s' : Stores} {p : PlainStores} {h : ℕ}

theorem simulates_start (base : MemStore) :
    Simulates (Stores.start base) (PlainStores.start base.get) where
  base := rfl
  length := rfl
  logs := by
    intro h overlay log hoverlay
    exact absurd hoverlay (by simp [Stores.start])

theorem Simulates.log_of_overlay (hsim : Simulates s p) {overlay : OverlayStore}
    (hoverlay : s.overlays[h]? = some overlay) : ∃ log, p.logs[h]? = some log := by
  have hlt : h < s.overlays.length := (List.getElem?_eq_some_iff.mp hoverlay).1
  rw [hsim.length] at hlt
  exact ⟨p.logs[h], List.getElem?_eq_getElem hlt⟩

/-- The overlay of a log reads as the plain map with the log written onto it. -/
theorem Simulates.get (hsim : Simulates s p) {overlay : OverlayStore} {log : WriteBatch}
    (hoverlay : s.overlays[h]? = some overlay) (hlog : p.logs[h]? = some log) (col : Column)
    (key : Bytes) : overlay.get s.base col key = overwritten p.base log col key := by
  rw [hsim.logs h overlay log hoverlay hlog, get_write, hsim.base]

/-- Adding an overlay with its log. -/
theorem Simulates.push (hsim : Simulates s p) {overlay : OverlayStore} {log : WriteBatch}
    (hrepresents : overlay.Represents log) :
    Simulates { s with overlays := s.overlays ++ [overlay] }
      { p with logs := p.logs ++ [log] } where
  base := hsim.base
  length := by simp [hsim.length]
  logs := by
    intro h overlay' log' hoverlay hlog
    by_cases hlt : h < s.overlays.length
    · rw [List.getElem?_append_left hlt] at hoverlay
      rw [List.getElem?_append_left (hsim.length ▸ hlt)] at hlog
      exact hsim.logs h overlay' log' hoverlay hlog
    · have hle : s.overlays.length ≤ h := Nat.le_of_not_lt hlt
      rw [List.getElem?_append_right hle] at hoverlay
      rw [List.getElem?_append_right (hsim.length ▸ hle)] at hlog
      obtain rfl := List.mem_singleton.mp (List.mem_of_getElem? hoverlay)
      obtain rfl := List.mem_singleton.mp (List.mem_of_getElem? hlog)
      exact hrepresents

/-- Replacing an overlay and its log, over a base that reads as another plain map. -/
theorem Simulates.set (hsim : Simulates s p) (h : ℕ) {base : MemStore} {plain : PlainMap}
    (hbase : base.get = plain) {overlay : OverlayStore} {log : WriteBatch}
    (hrepresents : overlay.Represents log) :
    Simulates ⟨base, s.overlays.set h overlay⟩ ⟨plain, p.logs.set h log⟩ where
  base := hbase
  length := by simp [hsim.length]
  logs := by
    intro other overlay' log' hoverlay hlog
    dsimp only at hoverlay hlog
    by_cases hother : h = other
    · subst hother
      obtain ⟨hlt, -⟩ := List.getElem?_eq_some_iff.mp hoverlay
      rw [List.length_set] at hlt
      rw [List.getElem?_set_self hlt] at hoverlay
      rw [List.getElem?_set_self (hsim.length ▸ hlt)] at hlog
      obtain rfl := Option.some.inj hoverlay
      obtain rfl := Option.some.inj hlog
      exact hrepresents
    · rw [List.getElem?_set_ne hother] at hoverlay hlog
      exact hsim.logs other overlay' log' hoverlay hlog

/-- What one call does to the overlays it does to their logs. -/
theorem Simulates.call (hsim : Simulates s p) {c : StoreCall} (hcall : s.call c = some s') :
    ∃ p', p.call c = some p' ∧ Simulates s' p' := by
  cases c with
  | new =>
    obtain rfl := Option.some.inj hcall
    exact ⟨_, rfl, hsim.push OverlayStore.represents_new⟩
  | write h batch =>
    obtain ⟨overlay, hoverlay, rfl⟩ := Option.map_eq_some_iff.mp hcall
    obtain ⟨log, hlog⟩ := hsim.log_of_overlay hoverlay
    refine ⟨_, Option.map_eq_some_iff.mpr ⟨log, hlog, rfl⟩, ?_⟩
    exact hsim.set h hsim.base ((hsim.logs h overlay log hoverlay hlog).write batch)
  | clone h =>
    obtain ⟨overlay, hoverlay, rfl⟩ := Option.map_eq_some_iff.mp hcall
    obtain ⟨log, hlog⟩ := hsim.log_of_overlay hoverlay
    refine ⟨_, Option.map_eq_some_iff.mpr ⟨log, hlog, rfl⟩, ?_⟩
    exact hsim.push (hsim.logs h overlay log hoverlay hlog)
  | flush h =>
    obtain ⟨overlay, hoverlay, rfl⟩ := Option.map_eq_some_iff.mp hcall
    obtain ⟨log, hlog⟩ := hsim.log_of_overlay hoverlay
    refine ⟨_, Option.map_eq_some_iff.mpr ⟨log, hlog, rfl⟩, ?_⟩
    have hbase : (overlay.flush s.base).1.get = overwritten p.base log := by
      rw [(hsim.logs h overlay log hoverlay hlog).flush, get_write, hsim.base]
    exact hsim.set h hbase OverlayStore.represents_new

theorem Simulates.run (hsim : Simulates s p) {calls : List StoreCall}
    (hrun : s.run calls = some s') : ∃ p', p.run calls = some p' ∧ Simulates s' p' := by
  induction calls generalizing s p with
  | nil =>
    obtain rfl := Option.some.inj hrun
    exact ⟨p, rfl, hsim⟩
  | cons c rest ih =>
    rw [Stores.run, List.foldlM_cons] at hrun
    obtain ⟨s₁, hcall, hrest⟩ := Option.bind_eq_some_iff.mp hrun
    obtain ⟨p₁, hcall', hsim₁⟩ := hsim.call hcall
    obtain ⟨p', hrest', hsim'⟩ := ih hsim₁ hrest
    refine ⟨p', ?_, hsim'⟩
    rw [PlainStores.run, List.foldlM_cons, hcall']
    exact hrest'

/-- A call that does not disturb an overlay leaves its plain map. -/
theorem PlainStores.call_undisturbed {p p' : PlainStores} {c : StoreCall} {log : WriteBatch}
    (hlog : p.logs[h]? = some log) (hcall : p.call c = some p') (hquiet : ¬ c.Disturbs h) :
    ∃ log', p'.logs[h]? = some log' ∧ overwritten p'.base log' = overwritten p.base log := by
  have hlt : h < p.logs.length := (List.getElem?_eq_some_iff.mp hlog).1
  cases c with
  | new =>
    obtain rfl := Option.some.inj hcall
    exact ⟨log, by rw [List.getElem?_append_left hlt, hlog], rfl⟩
  | write h' batch =>
    obtain ⟨log', -, rfl⟩ := Option.map_eq_some_iff.mp hcall
    exact ⟨log, by rw [List.getElem?_set_ne hquiet, hlog], rfl⟩
  | clone h' =>
    obtain ⟨log', -, rfl⟩ := Option.map_eq_some_iff.mp hcall
    exact ⟨log, by rw [List.getElem?_append_left hlt, hlog], rfl⟩
  | flush h' =>
    obtain ⟨log', hlog', rfl⟩ := Option.map_eq_some_iff.mp hcall
    obtain rfl : h' = h := not_not.mp hquiet
    obtain rfl := Option.some.inj (hlog.symm.trans hlog')
    exact ⟨[], by rw [List.getElem?_set_self hlt], rfl⟩

/-- Neither does a run of such calls. -/
theorem PlainStores.run_undisturbed {p p' : PlainStores} {calls : List StoreCall}
    {log : WriteBatch} (hlog : p.logs[h]? = some log) (hrun : p.run calls = some p')
    (hquiet : ∀ c ∈ calls, ¬ c.Disturbs h) :
    ∃ log', p'.logs[h]? = some log' ∧ overwritten p'.base log' = overwritten p.base log := by
  induction calls generalizing p log with
  | nil =>
    obtain rfl := Option.some.inj hrun
    exact ⟨log, hlog, rfl⟩
  | cons c rest ih =>
    rw [PlainStores.run, List.foldlM_cons] at hrun
    obtain ⟨p₁, hcall, hrest⟩ := Option.bind_eq_some_iff.mp hrun
    obtain ⟨log₁, hlog₁, hsame₁⟩ := call_undisturbed hlog hcall (hquiet c List.mem_cons_self)
    obtain ⟨log', hlog', hsame'⟩ := ih hlog₁ hrest fun later hlater ↦
      hquiet later (List.mem_cons_of_mem _ hlater)
    exact ⟨log', hlog', hsame'.trans hsame₁⟩

/-- Calls that do not disturb an overlay leave its reads. -/
theorem Simulates.run_undisturbed (hsim : Simulates s p) {calls : List StoreCall}
    (hrun : s.run calls = some s') {overlay : OverlayStore}
    (hoverlay : s.overlays[h]? = some overlay) (hquiet : ∀ c ∈ calls, ¬ c.Disturbs h) :
    ∃ overlay', s'.overlays[h]? = some overlay' ∧
      Stores.SameView s.base overlay s'.base overlay' := by
  obtain ⟨log, hlog⟩ := hsim.log_of_overlay hoverlay
  obtain ⟨p', hrun', hsim'⟩ := hsim.run hrun
  obtain ⟨log', hlog', hsame⟩ := PlainStores.run_undisturbed hlog hrun' hquiet
  have hlt : h < s'.overlays.length := by
    rw [hsim'.length]
    exact (List.getElem?_eq_some_iff.mp hlog').1
  refine ⟨s'.overlays[h], List.getElem?_eq_getElem hlt, .of_get fun col key ↦ ?_⟩
  rw [hsim'.get (List.getElem?_eq_getElem hlt) hlog', hsame, hsim.get hoverlay hlog]

end Refinement

/-- Overlays refine plain maps where the last writer wins. Over every base, in every run of opening,
writing, cloning and flushing overlays, each overlay reads as the plain map with its log written
onto it. Its scans are strictly ascending and hold exactly the keys that it reads, no key is both
written and tombstoned, flushing it changes no read or scan of it, and neither does any later run
that neither writes to it nor flushes another overlay into the base: what is written to a clone, or
to what it was cloned from, stays there. -/
theorem overlays_refine (base : MemStore) (calls : List StoreCall) {s : Stores}
    (hrun : (Stores.start base).run calls = some s) :
    ∃ p, (PlainStores.start base.get).run calls = some p ∧
    ∀ (h : ℕ) (overlay : OverlayStore), s.overlays[h]? = some overlay →
      (∃ log, p.logs[h]? = some log ∧
        ∀ col key, overlay.get s.base col key = overwritten p.base log col key) ∧
      (∀ col start, ((overlay.scanPrefix s.base col start).Pairwise fun first second ↦
          compare first.1 second.1 = .lt) ∧
        ∀ key value, (key, value) ∈ overlay.scanPrefix s.base col start ↔
          overlay.get s.base col key = some value ∧ start <+: key) ∧
      (∀ col (key : Bytes), (overlay.tombstones col)[key]?.isSome = true →
        overlay.top.get col key = none) ∧
      (∃ flushed, s.call (.flush h) = some flushed ∧ ∃ overlay',
        flushed.overlays[h]? = some overlay' ∧
          Stores.SameView s.base overlay flushed.base overlay') ∧
      ∀ later s', s.run later = some s' → (∀ c ∈ later, ¬ c.Disturbs h) →
        ∃ overlay', s'.overlays[h]? = some overlay' ∧
          Stores.SameView s.base overlay s'.base overlay' := by
  obtain ⟨p, hrun', hsim⟩ := (simulates_start base).run hrun
  refine ⟨p, hrun', fun h overlay hoverlay ↦ ⟨?_, ?_, overlay.disjoint, ?_, ?_⟩⟩
  · obtain ⟨log, hlog⟩ := hsim.log_of_overlay hoverlay
    exact ⟨log, hlog, hsim.get hoverlay hlog⟩
  · exact fun col start ↦ ⟨scanPrefix_ascending col start, mem_scanPrefix col start⟩
  · obtain ⟨flushed, hflush⟩ : ∃ flushed, s.call (.flush h) = some flushed :=
      ⟨_, Option.map_eq_some_iff.mpr ⟨overlay, hoverlay, rfl⟩⟩
    have hsingle : s.run [.flush h] = some flushed := by
      rw [Stores.run, List.foldlM_cons, hflush]
      rfl
    refine ⟨flushed, hflush, hsim.run_undisturbed hsingle hoverlay fun c hc ↦ ?_⟩
    obtain rfl := List.mem_singleton.mp hc
    exact not_not.mpr rfl
  · exact fun later s' hlater hquiet ↦ hsim.run_undisturbed hlater hoverlay hquiet

/-- A clone that overwrites a key. -/
theorem overlays_refine_cloned : ∃ s s' overlay overlay',
    (Stores.start .new).run [.new, .write 0 [(.objects, [1], .put [2])], .clone 0] = some s ∧
      s.run [.write 1 [(.objects, [1], .delete)]] = some s' ∧
      s.overlays[0]? = some overlay ∧ s'.overlays[0]? = some overlay' ∧
      overlay'.get s'.base .objects [1] = overlay.get s.base .objects [1] := by
  obtain ⟨s, hrun⟩ : ∃ s, (Stores.start .new).run
      [.new, .write 0 [(.objects, [1], .put [2])], .clone 0] = some s := ⟨_, rfl⟩
  obtain ⟨s', hlater⟩ : ∃ s', s.run [.write 1 [(.objects, [1], .delete)]] = some s' := by
    obtain rfl := Option.some.inj hrun
    exact ⟨_, rfl⟩
  obtain ⟨overlay, hoverlay⟩ : ∃ overlay, s.overlays[0]? = some overlay := by
    obtain rfl := Option.some.inj hrun
    exact ⟨_, rfl⟩
  obtain ⟨p, -, hspec⟩ := overlays_refine MemStore.new
    [.new, .write 0 [(.objects, [1], .put [2])], .clone 0] hrun
  obtain ⟨-, -, -, -, hkept⟩ := hspec 0 overlay hoverlay
  obtain ⟨overlay', hoverlay', hsame⟩ := hkept _ s' hlater (by simp [StoreCall.Disturbs])
  exact ⟨s, s', overlay, overlay', hrun, hlater, hoverlay, hoverlay', hsame.get _ _⟩

end Latebra.Store
