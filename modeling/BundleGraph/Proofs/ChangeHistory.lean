import BundleGraph.Change

/-!
# Change sets and the events behind them

A change set forgets how its events came about, but not what became of each
path: `ChangeSets.Reflects` compares the sets with the latest event of every
path. Recording keeps this, and so does putting back older changes under newer
ones, although the newer ones are then replayed in an order of their own.
-/

namespace BundleGraph

namespace ChangeEvent

variable {events newer : List ChangeEvent} {path : String}

/-- The last event about a path; the events come oldest first. -/
def latest? (events : List ChangeEvent) (path : String) : Option ChangeEvent :=
  events.reverse.find? (·.path == path)

def isDeletion : ChangeEvent → Bool
  | deleted _ => true
  | added _ | modified _ => false

/-- What became of a path: whether its latest event deletes it. -/
def fate (events : List ChangeEvent) (path : String) : Option Bool :=
  (latest? events path).map isDeletion

theorem latest?_append : latest? (events ++ newer) path =
    (latest? newer path).or (latest? events path) := by
  simp [latest?, List.find?_append]

theorem fate_append :
    fate (events ++ newer) path = (fate newer path).or (fate events path) := by
  rw [fate, latest?_append, fate, fate]
  cases latest? newer path <;> rfl

theorem fate_singleton (e : ChangeEvent) :
    fate [e] path = if e.path = path then some e.isDeletion else none := by
  unfold fate latest?
  split <;> simp_all

theorem fate_map (make : String → ChangeEvent) (deletion : Bool) {paths : List String}
    (hpath : ∀ p, (make p).path = p) (hkind : ∀ p, (make p).isDeletion = deletion) :
    fate (paths.map make) path = if path ∈ paths then some deletion else none := by
  induction paths with
  | nil => rfl
  | cons p paths ih =>
    have hcons : (p :: paths).map make = [make p] ++ paths.map make := rfl
    rw [hcons, fate_append, ih, fate_singleton, hpath, hkind]
    by_cases hmem : path ∈ paths
    · simp [hmem]
    · by_cases hp : p = path
      · simp [hp, hmem]
      · simp [hmem, hp, Ne.symm hp]

theorem path_of_latest? {e : ChangeEvent} (h : latest? events path = some e) : e.path = path := by
  simpa using List.find?_some h

theorem fate_eq_true : fate events path = some true ↔ latest? events path = some (.deleted path) := by
  unfold fate
  cases h : latest? events path with
  | none => simp
  | some e =>
    have hpath := path_of_latest? h
    cases e <;> simp_all [isDeletion, ChangeEvent.path]

theorem fate_eq_false : fate events path = some false ↔
    latest? events path = some (.added path) ∨ latest? events path = some (.modified path) := by
  unfold fate
  cases h : latest? events path with
  | none => simp
  | some e =>
    have hpath := path_of_latest? h
    cases e <;> simp_all [isDeletion, ChangeEvent.path]

end ChangeEvent

namespace ChangeSets

open ChangeEvent (latest? fate fate_append fate_singleton fate_map fate_eq_true fate_eq_false)

variable {s older newer : ChangeSets} {events earlier later : List ChangeEvent} {path : String}

/-- The deleted paths are those whose latest event deletes them, and the added
and modified ones together those whose latest event adds or modifies them. -/
structure Reflects (s : ChangeSets) (events : List ChangeEvent) : Prop where
  deleted : ∀ path, s.deleted.contains path ↔ latest? events path = some (.deleted path)
  changed : ∀ path, (s.added.contains path ∨ s.modified.contains path) ↔
    latest? events path = some (.added path) ∨ latest? events path = some (.modified path)

theorem reflects_iff : s.Reflects events ↔ ∀ path,
    (s.deleted.contains path ↔ fate events path = some true) ∧
      ((s.added.contains path ∨ s.modified.contains path) ↔ fate events path = some false) := by
  constructor
  · exact fun h path => ⟨(h.deleted path).trans fate_eq_true.symm,
      (h.changed path).trans fate_eq_false.symm⟩
  · exact fun h => ⟨fun path => (h path).1.trans fate_eq_true,
      fun path => (h path).2.trans fate_eq_false⟩

theorem Reflects.congr (h : s.Reflects events) (hfate : ∀ path, fate later path = fate events path) :
    s.Reflects later := by
  rw [reflects_iff] at h ⊢
  exact fun path => by rw [hfate]; exact h path

/-- The sets alone say what became of each path. -/
theorem Reflects.fate_eq (h : s.Reflects events) (h' : s.Reflects later) (path : String) :
    fate events path = fate later path := by
  rw [reflects_iff] at h h'
  have hdeleted := (h path).1.symm.trans (h' path).1
  have hchanged := (h path).2.symm.trans (h' path).2
  rcases hfate : fate events path with _ | _ | _ <;>
    rcases hfate' : fate later path with _ | _ | _ <;> simp_all

theorem reflects_empty (overflowed : Bool) : Reflects { overflowed } [] :=
  reflects_iff.mpr fun path => by simp [fate, latest?]

-- ---------------------------------------------------------------------------
-- Recording
-- ---------------------------------------------------------------------------

theorem Reflects.record (h : s.Reflects events) (e : ChangeEvent) :
    (s.record e).Reflects (events ++ [e]) := by
  rw [reflects_iff] at h ⊢
  intro path
  replace h := h path
  rw [fate_append, fate_singleton]
  cases e with
  | deleted p =>
    by_cases hp : p = path <;>
      simp_all [ChangeSets.record, OrderedSet.contains_insert, OrderedSet.contains_erase,
        ChangeEvent.path, ChangeEvent.isDeletion]
  | added p =>
    by_cases hp : p = path <;>
      simp_all [ChangeSets.record, OrderedSet.contains_insert, OrderedSet.contains_erase,
        ChangeEvent.path, ChangeEvent.isDeletion]
  | modified p =>
    by_cases hadded : s.added.contains p <;> by_cases hp : p = path <;>
      simp_all [ChangeSets.record, OrderedSet.contains_insert, OrderedSet.contains_erase,
        ChangeEvent.path, ChangeEvent.isDeletion]

theorem Reflects.recordAll (h : s.Reflects events) (batch : List ChangeEvent) :
    (s.recordAll batch).Reflects (events ++ batch) := by
  induction batch generalizing s events with
  | nil => simpa [ChangeSets.recordAll] using h
  | cons e batch ih => simpa [ChangeSets.recordAll] using ih (h.record e)

@[simp] theorem overflowed_record (s : ChangeSets) (e : ChangeEvent) :
    (s.record e).overflowed = s.overflowed := by
  cases e with
  | deleted | added => rfl
  | modified path => by_cases h : s.added.contains path <;> simp [ChangeSets.record, h]

@[simp] theorem overflowed_recordAll (s : ChangeSets) (events : List ChangeEvent) :
    (s.recordAll events).overflowed = s.overflowed := by
  induction events generalizing s with
  | nil => rfl
  | cons e events ih => exact (ih _).trans (overflowed_record s e)

-- ---------------------------------------------------------------------------
-- Putting back
-- ---------------------------------------------------------------------------

/-- The sets replayed: no path is both deleted and changed, so the order of the
replay does not matter. -/
theorem Reflects.replay (h : s.Reflects events) : s.Reflects s.events := by
  rw [reflects_iff] at h ⊢
  intro path
  obtain ⟨hdeleted, hchanged⟩ := h path
  simp only [ChangeSets.events, fate_append, OrderedSet.mem_toList,
    fate_map ChangeEvent.deleted true (fun _ => rfl) (fun _ => rfl),
    fate_map ChangeEvent.added false (fun _ => rfl) (fun _ => rfl),
    fate_map ChangeEvent.modified false (fun _ => rfl) (fun _ => rfl)]
  cases hd : s.deleted.contains path <;> cases ha : s.added.contains path <;>
    cases hm : s.modified.contains path <;> simp_all

@[simp] theorem overflowed_restore (newer older : ChangeSets) :
    (newer.restore older).overflowed = (older.overflowed || newer.overflowed) := by
  simp [restore]

/-- Older changes put back under newer ones stand for all their events. -/
theorem Reflects.restore (holder : older.Reflects earlier) (hnewer : newer.Reflects later) :
    (newer.restore older).Reflects (earlier ++ later) := by
  have hflag : ChangeSets.Reflects { older with overflowed := older.overflowed || newer.overflowed }
      earlier := ⟨holder.deleted, holder.changed⟩
  refine (hflag.recordAll newer.events).congr fun path => ?_
  rw [fate_append, fate_append, hnewer.fate_eq hnewer.replay]

-- ---------------------------------------------------------------------------
-- Sets that say the same
-- ---------------------------------------------------------------------------

/-- They say the same of every path, although a path that changed may be among
the added ones of the one and the modified ones of the other. -/
structure Agrees (s s' : ChangeSets) : Prop where
  overflowed : s.overflowed = s'.overflowed
  deleted : ∀ path, s.deleted.contains path ↔ s'.deleted.contains path
  changed : ∀ path, (s.added.contains path ∨ s.modified.contains path) ↔
    (s'.added.contains path ∨ s'.modified.contains path)

/-- The first sets say what the second ones say once `taken` is put back. -/
structure Extends (taken s s' : ChangeSets) : Prop where
  overflowed : s.overflowed = (taken.overflowed || s'.overflowed)
  reflects : ∃ earlier later, taken.Reflects earlier ∧ s'.Reflects later ∧
    s.Reflects (earlier ++ later)

variable {taken s' : ChangeSets}

theorem Reflects.extends_empty (h : taken.Reflects events) : Extends taken taken {} :=
  ⟨(Bool.or_false _).symm, events, [], h, reflects_empty false, by simpa using h⟩

theorem Extends.recordAll (h : Extends taken s s') (batch : List ChangeEvent) :
    Extends taken (s.recordAll batch) (s'.recordAll batch) := by
  obtain ⟨earlier, later, htaken, hlater, hboth⟩ := h.reflects
  refine ⟨by simpa using h.overflowed, earlier, later ++ batch, htaken, hlater.recordAll batch, ?_⟩
  rw [← List.append_assoc]
  exact hboth.recordAll batch

theorem Extends.overflow (h : Extends taken s s') :
    Extends taken { s with overflowed := true } { s' with overflowed := true } := by
  obtain ⟨earlier, later, htaken, hlater, hboth⟩ := h.reflects
  exact ⟨(Bool.or_true _).symm, earlier, later, htaken, ⟨hlater.deleted, hlater.changed⟩,
    hboth.deleted, hboth.changed⟩

theorem Extends.restore (h : Extends taken s s') : (s'.restore taken).Agrees s := by
  obtain ⟨earlier, later, htaken, hlater, hboth⟩ := h.reflects
  have hrestored := htaken.restore hlater
  exact ⟨by rw [overflowed_restore, h.overflowed],
    fun path => (hrestored.deleted path).trans (hboth.deleted path).symm,
    fun path => (hrestored.changed path).trans (hboth.changed path).symm⟩

end ChangeSets

end BundleGraph
