import Mathlib.Data.List.DropRight
import BundleGraph.Proofs.ChangeHistory

/-!
# Paths that are recorded twice

The deleted paths are kept apart from the added and the modified ones. The added
and the modified ones are not kept apart from each other: an addition leaves a
path among the modified ones. Which paths are in both sets is read off the events
since the last deletion of each.
-/

namespace BundleGraph

namespace ChangeEvent

variable {events : List ChangeEvent} {path : String}

/-- The events about a path after its last deletion, oldest first. -/
def sinceDeletion (events : List ChangeEvent) (path : String) : List ChangeEvent :=
  (events.filter (·.path == path)).rtakeWhile (!·.isDeletion)

theorem sinceDeletion_concat (e : ChangeEvent) :
    sinceDeletion (events ++ [e]) path =
      if e.path = path then
        if e.isDeletion then [] else sinceDeletion events path ++ [e]
      else sinceDeletion events path := by
  unfold sinceDeletion
  by_cases hpath : e.path = path
  · cases hdeletion : e.isDeletion <;> simp [hpath, hdeletion, List.filter_append]
  · simp [hpath, List.filter_append]

theorem filter_path_map (make : String → ChangeEvent) {paths : List String}
    (hmake : ∀ p, (make p).path = p) (hpaths : paths.Nodup) :
    (paths.map make).filter (·.path == path) = if path ∈ paths then [make path] else [] := by
  have hcomp : ((·.path == path) : ChangeEvent → Bool) ∘ make = (· == path) := by
    funext p
    simp [hmake]
  rw [List.filter_map, hcomp, List.filter_beq, hpaths.count]
  split <;> rfl

theorem mem_sinceDeletion {e : ChangeEvent} (h : e ∈ sinceDeletion events path) :
    e = .added path ∨ e = .modified path := by
  have hkind : e.isDeletion = false := by simpa using List.mem_rtakeWhile_imp h
  have hpath : e.path = path := by
    simpa using (List.mem_filter.mp ((List.rtakeWhile_suffix _ _).subset h)).2
  cases e <;> simp_all [isDeletion, ChangeEvent.path]

/-- Since its last deletion the path was first modified, and added later. -/
def ModifiedThenAdded (events : List ChangeEvent) (path : String) : Prop :=
  (sinceDeletion events path).head? = some (.modified path) ∧
    .added path ∈ sinceDeletion events path

end ChangeEvent

namespace ChangeSets

open ChangeEvent

variable {s older newer : ChangeSets} {events earlier later : List ChangeEvent}
  {e : ChangeEvent} {path : String}

-- ---------------------------------------------------------------------------
-- Recording
-- ---------------------------------------------------------------------------

/-- An addition counts until the next deletion, a modification if it is the first
event since the last one. -/
structure Records (s : ChangeSets) (events : List ChangeEvent) : Prop where
  added : ∀ path, s.added.contains path ↔ .added path ∈ sinceDeletion events path
  modified : ∀ path, s.modified.contains path ↔
    (sinceDeletion events path).head? = some (.modified path)

theorem records_iff : s.Records events ↔ ∀ path,
    (s.added.contains path ↔ .added path ∈ sinceDeletion events path) ∧
      (s.modified.contains path ↔ (sinceDeletion events path).head? = some (.modified path)) :=
  ⟨fun h path => ⟨h.added path, h.modified path⟩,
    fun h => ⟨fun path => (h path).1, fun path => (h path).2⟩⟩

theorem records_empty : Records {} [] :=
  records_iff.mpr fun path => by simp [sinceDeletion]

theorem Records.sinceDeletion_eq_nil (h : s.Records events) (hadded : ¬ s.added.contains path)
    (hmodified : ¬ s.modified.contains path) : sinceDeletion events path = [] := by
  rw [h.added] at hadded
  rw [h.modified] at hmodified
  cases hsince : sinceDeletion events path with
  | nil => rfl
  | cons e since =>
    rcases mem_sinceDeletion (hsince ▸ List.mem_cons_self) with rfl | rfl
    · simp [hsince] at hadded
    · simp [hsince] at hmodified

theorem contains_record_of_ne (s : ChangeSets) (h : e.path ≠ path) :
    (s.record e).added.contains path = s.added.contains path ∧
      (s.record e).modified.contains path = s.modified.contains path := by
  cases e with
  | deleted p => simp_all [record, OrderedSet.contains_erase, ChangeEvent.path]
  | added p => simp_all [record, OrderedSet.contains_insert, ChangeEvent.path]
  | modified p =>
    by_cases hin : s.added.contains p <;>
      simp_all [record, OrderedSet.contains_insert, ChangeEvent.path]

theorem Records.record (h : s.Records events) (e : ChangeEvent) :
    (s.record e).Records (events ++ [e]) := by
  rw [records_iff] at h ⊢
  intro path
  by_cases hpath : e.path = path
  case neg =>
    obtain ⟨hadded, hmodified⟩ := s.contains_record_of_ne hpath
    rw [sinceDeletion_concat, if_neg hpath, hadded, hmodified]
    exact h path
  case pos =>
    subst hpath
    obtain ⟨hadded, hmodified⟩ := h e.path
    rw [sinceDeletion_concat, if_pos rfl]
    cases e with
    | deleted p => simp [ChangeSets.record, OrderedSet.contains_erase, ChangeEvent.path, isDeletion]
    | added p =>
      cases hsince : sinceDeletion events p <;>
        simp_all [ChangeSets.record, OrderedSet.contains_insert, ChangeEvent.path, isDeletion]
    | modified p =>
      by_cases hin : s.added.contains p
      · cases hsince : sinceDeletion events p <;>
          simp_all [ChangeSets.record, ChangeEvent.path, isDeletion]
      · -- What is not recorded as added has at most modifications to its name, so the
        -- first of them is either recorded already or this one.
        have hnil := (records_iff.mpr h).sinceDeletion_eq_nil hin
        cases hsince : sinceDeletion events p <;>
          simp_all [ChangeSets.record, OrderedSet.contains_insert, ChangeEvent.path, isDeletion]

theorem Records.recordAll (h : s.Records events) (batch : List ChangeEvent) :
    (s.recordAll batch).Records (events ++ batch) := by
  induction batch generalizing s events with
  | nil => simpa [ChangeSets.recordAll] using h
  | cons e batch ih => simpa [ChangeSets.recordAll] using ih (h.record e)

theorem records_recordAll (events : List ChangeEvent) :
    (recordAll {} events).Records events := by
  simpa using records_empty.recordAll events

theorem reflects_recordAll (events : List ChangeEvent) :
    (recordAll {} events).Reflects events := by
  simpa using (reflects_empty false).recordAll events

-- ---------------------------------------------------------------------------
-- Sets apart
-- ---------------------------------------------------------------------------

def DeletedApart (s : ChangeSets) : Prop :=
  ∀ path, s.deleted.contains path → ¬ s.added.contains path ∧ ¬ s.modified.contains path

/-- A path that is recorded as added and as modified. -/
def Twice (s : ChangeSets) (path : String) : Prop :=
  s.added.contains path ∧ s.modified.contains path

theorem Reflects.deletedApart (h : s.Reflects events) : s.DeletedApart := by
  rw [reflects_iff] at h
  intro path hdeleted
  obtain ⟨hdel, hchanged⟩ := h path
  rw [← not_or, hchanged, hdel.mp hdeleted]
  simp

theorem Records.twice_iff (h : s.Records events) :
    s.Twice path ↔ ModifiedThenAdded events path := by
  rw [Twice, h.added, h.modified, ModifiedThenAdded, and_comm]

-- ---------------------------------------------------------------------------
-- Putting back
-- ---------------------------------------------------------------------------

theorem sinceDeletion_events (events : List ChangeEvent) (s : ChangeSets) (path : String) :
    sinceDeletion (events ++ s.events) path =
      (if s.deleted.contains path then [] else sinceDeletion events path) ++
      (if s.added.contains path then [.added path] else []) ++
      (if s.modified.contains path then [.modified path] else []) := by
  simp only [sinceDeletion, ChangeSets.events, List.filter_append, OrderedSet.mem_toList,
    filter_path_map ChangeEvent.deleted (fun _ => rfl) s.deleted.nodup_toList,
    filter_path_map ChangeEvent.added (fun _ => rfl) s.added.nodup_toList,
    filter_path_map ChangeEvent.modified (fun _ => rfl) s.modified.nodup_toList]
  cases s.deleted.contains path <;> cases s.added.contains path <;>
    cases s.modified.contains path <;>
    simp [List.rtakeWhile, isDeletion]

theorem Records.restore (holder : older.Records earlier) (newer : ChangeSets) :
    (newer.restore older).Records (earlier ++ newer.events) := by
  have hflag : ChangeSets.Records { older with overflowed := older.overflowed || newer.overflowed }
      earlier := ⟨holder.added, holder.modified⟩
  exact hflag.recordAll newer.events

/-- Replayed additions come before replayed modifications, so a path that is
recorded twice was modified before the replay. -/
theorem modifiedThenAdded_events : ModifiedThenAdded (events ++ s.events) path ↔
    ¬ s.deleted.contains path ∧
      (sinceDeletion events path).head? = some (.modified path) ∧
      (.added path ∈ sinceDeletion events path ∨ s.added.contains path) := by
  rw [ModifiedThenAdded, sinceDeletion_events]
  cases s.deleted.contains path <;> cases s.added.contains path <;>
    cases s.modified.contains path <;> cases sinceDeletion events path <;> simp

theorem twice_restore (holder : older.Records earlier) (hnewer : newer.Records later)
    (hlater : newer.Reflects later) : (newer.restore older).Twice path ↔
      latest? later path ≠ some (.deleted path) ∧
        (sinceDeletion earlier path).head? = some (.modified path) ∧
        (.added path ∈ sinceDeletion earlier path ∨ .added path ∈ sinceDeletion later path) := by
  rw [(holder.restore newer).twice_iff, modifiedThenAdded_events, hlater.deleted, hnewer.added]

/-- The deleted paths of folded events are apart from the added and the modified ones,
also once older changes were put back under newer ones. A path is recorded as added
and as modified if it was first modified and later added since its last deletion, and
when older changes are put back, if it was modified in these, is not deleted in the
newer ones, and was added in either. -/
theorem overlaps_of_folded_events (events earlier later : List ChangeEvent) :
    (recordAll {} events).DeletedApart ∧
    (∀ path, (recordAll {} events).Twice path ↔ ModifiedThenAdded events path) ∧
    ((recordAll {} later).restore (recordAll {} earlier)).DeletedApart ∧
    ∀ path, ((recordAll {} later).restore (recordAll {} earlier)).Twice path ↔
      latest? later path ≠ some (.deleted path) ∧
        (sinceDeletion earlier path).head? = some (.modified path) ∧
        (.added path ∈ sinceDeletion earlier path ∨ .added path ∈ sinceDeletion later path) := by
  refine ⟨(reflects_recordAll events).deletedApart, fun path => ?_, ?_, fun path => ?_⟩
  · exact (records_recordAll events).twice_iff
  · exact ((reflects_recordAll earlier).restore (reflects_recordAll later)).deletedApart
  · exact twice_restore (records_recordAll earlier) (records_recordAll later)
      (reflects_recordAll later)

/-- An addition after a modification, in one set and in two that are joined. -/
theorem overlaps_of_folded_events_modified_first :
    (recordAll {} [.modified "/a", .added "/a"]).Twice "/a" ∧
      ((recordAll {} [.added "/a"]).restore (recordAll {} [.modified "/a"])).Twice "/a" := by
  obtain ⟨_, hfolded, _, hrestored⟩ :=
    overlaps_of_folded_events [.modified "/a", .added "/a"] [.modified "/a"] [.added "/a"]
  exact ⟨(hfolded "/a").mpr ⟨by decide, by decide⟩,
    (hrestored "/a").mpr ⟨by decide, by decide, .inr (by decide)⟩⟩

end ChangeSets

end BundleGraph
