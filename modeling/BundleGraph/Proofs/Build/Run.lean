import BundleGraph.Proofs.Build.Discovery
import Mathlib.Algebra.BigOperators.Group.Finset.Basic
import Mathlib.Data.Set.Finite.List

/-!
# Whole runs

A build whose loader delivers the files ends as they say, whatever the order in
which the loads complete. When it succeeds, what it discovered is `Complete`;
when it fails, something needed does not resolve or load. With finitely many
paths to build it does one of both within a number of moves that does not depend
on the order.
-/

namespace BundleGraph.Build

open Queue

variable {σ : Type} {i : Input} {s s' : State σ} {loader : Loader σ} {task : Task}
  {ts next : List Task}

theorem file?_start (path : String) :
    (start i.resolve loader i.options task s).2.file? path = s.file? path := by
  unfold start
  split
  · rfl
  · rfl
  · split <;> rfl

theorem known_start {path : String} (h : s.Known (some path)) :
    (start i.resolve loader i.options task s).2.Known (some path) :=
  h.imp fun _ hfile => (file?_start path).trans hfile

theorem known_accumulate {arrival : Option Arrival}
    (hacc : accumulate task arrival s = (.ok next, s')) {path : String}
    (h : s.Known (some path)) : s'.Known (some path) := by
  rcases accumulate_ok hacc with ⟨_, _, rfl⟩ | ⟨a, _, ⟨_, _, rfl⟩ | ⟨file, _, _, _, rfl⟩⟩
  · exact h
  · exact (known_recordEdge _).mpr h
  · exact (known_discover _ _ _).mpr (.inr ((known_recordEdge _).mpr h))

theorem Input.Delivers.mono {result : Except BuildError (Option Arrival)}
    (h : i.Delivers s task result) (hgrows : ∀ path, s.Known (some path) → s'.Known (some path)) :
    i.Delivers s' task result := by
  cases h with
  | absent hpath => exact .absent hpath
  | known hpath hknown => exact .known hpath (hknown.imp_right (hgrows _))
  | loaded hpath hskip hfile => exact .loaded hpath hskip hfile
  | failed he hfails => exact .failed he hfails

theorem Discovering.perm (h : Discovering i ts s) {ts' : List Task} (hp : ts.Perm ts') :
    Discovering i ts' s where
  memo := h.memo
  due := fun task hmem => h.due task (hp.mem_iff.mpr hmem)
  files := h.files
  length := h.length
  slots := fun task hknown hmem => (h.slots task hknown hmem).imp_right (.imp_left hp.mem_iff.mp)
  leads := h.leads

theorem invariant (hloads : i.Loads loader) :
    Invariant (accumulator i.resolve loader i.options) i.Delivers (Discovering i) where
  perm := fun hp h => h.perm hp
  start := fun h => h.start hloads
  accumulate := fun h hdelivers hacc => h.accumulate hdelivers hacc
  started := fun h => h.mono fun _ => known_start
  accumulated := fun _ hacc h => h.mono fun _ => known_accumulate hacc

theorem fails : Fails (accumulator i.resolve loader i.options) i.Delivers (Discovering (σ := σ) i)
    fun e => e ≠ .budgetSpent ∧ ¬ i.Buildable where
  result := fun _ hdelivers => by
    cases hdelivers with
    | failed he hfails => exact ⟨he, hfails⟩
  accumulate := fun h hdelivers hacc => h.accumulate_error hdelivers hacc

theorem discovering_initial (i : Input) (host : σ) :
    Discovering i (i.tasks none) { memo := { host }, entries := i.entries.map fun _ => none } where
  memo := fun path st hst => by simp at hst
  due := fun task hmem => by
    have horigin := (Input.mem_tasks.mp hmem).1
    rw [horigin]
    exact ⟨trivial, hmem⟩
  files := fun path file hfile => by simp [State.file?] at hfile
  length := fun origin hknown => by
    cases origin with
    | none => simp [State.slots, Input.dependencies]
    | some path =>
      obtain ⟨file, hfile⟩ := hknown
      simp [State.file?] at hfile
  slots := fun task hknown hmem => by
    obtain ⟨origin, index, d⟩ := task
    cases origin with
    | none =>
      refine .inr ⟨hmem, ?_⟩
      have hlt := (List.getElem?_eq_some_iff.mp (Input.mem_tasks.mp hmem).2).1
      simp only [Input.dependencies, List.length_map] at hlt
      simp [State.slots, hlt]
    | some path =>
      obtain ⟨file, hfile⟩ := hknown
      simp [State.file?] at hfile
  leads := fun path ⟨origin, edge, hmem, _⟩ => by
    cases origin with
    | none => simp [State.slots] at hmem
    | some origin => simp [State.slots] at hmem

-- ---------------------------------------------------------------------------
-- The end of a run
-- ---------------------------------------------------------------------------

theorem known_none : s.Known none := trivial

/-- Everything that is built is discovered, with all its edges, and nothing else. -/
structure Complete (i : Input) (s : State σ) : Prop where
  slots : ∀ origin, s.Known origin → s.slots origin = (i.dependencies origin).map (i.edge? origin)
  files : ∀ path file, s.file? path = some file ↔ i.Included path ∧ i.files path = .ok file
  buildable : i.Buildable

namespace Discovering

theorem path?_ok (h : Discovering i [] s) {origin : Option String} (hknown : s.Known origin)
    {index : Nat} {d : Dependency} (hd : (i.dependencies origin)[index]? = some d) :
    ∃ target, i.path? origin d = .ok target ∧
      (s.slots origin)[index]? = some (target.map (⟨·, d⟩)) :=
  (h.slots ⟨origin, index, d⟩ hknown (Input.mem_tasks.mpr ⟨rfl, hd⟩)).resolve_right
    fun hmem => List.not_mem_nil hmem.1

theorem slots_eq (h : Discovering i [] s) {origin : Option String} (hknown : s.Known origin) :
    s.slots origin = (i.dependencies origin).map (i.edge? origin) := by
  refine List.ext_getElem? fun index => ?_
  rw [List.getElem?_map]
  cases hd : (i.dependencies origin)[index]? with
  | none =>
    rw [List.getElem?_eq_none_iff] at hd
    rw [Option.map_none, List.getElem?_eq_none_iff, h.length origin hknown]
    exact hd
  | some d =>
    obtain ⟨target, hpath, hslot⟩ := h.path?_ok hknown hd
    rw [hslot, Option.map_some, Input.edge?_of_path? hpath]

theorem known_of_target (h : Discovering i [] s) {origin : Option String} {path : String}
    (hknown : s.Known origin) (hpath : path ∈ i.targets origin) (hskip : i.skips path = false) :
    s.Known (some path) := by
  obtain ⟨edge, hedge, rfl⟩ := List.mem_map.mp hpath
  obtain ⟨d, hd, hedge⟩ := List.mem_filterMap.mp hedge
  have hslot : some edge ∈ s.slots origin := by
    rw [h.slots_eq hknown]
    exact List.mem_map.mpr ⟨d, hd, hedge⟩
  refine (h.leads _ ⟨origin, edge, hslot, rfl⟩).resolve_left fun hskips => ?_
  rw [hskip] at hskips
  cases hskips

theorem known_of_included (h : Discovering i [] s) {path : String} (hpath : i.Included path) :
    s.Known (some path) := by
  obtain ⟨hreached, hskip⟩ := hpath
  induction hreached with
  | entry hpath => exact h.known_of_target known_none hpath hskip
  | dependency _ hskip' hpath ih => exact h.known_of_target (ih hskip') hpath hskip

theorem buildable (h : Discovering i [] s) : i.Buildable where
  entries := fun entry hentry => by
    obtain ⟨index, hindex⟩ := List.getElem?_of_mem hentry
    have hd : (i.dependencies none)[index]? = some (.ofName entry) := by
      simp [Input.dependencies, hindex]
    obtain ⟨target, hpath, _⟩ := h.path?_ok known_none hd
    cases target with
    | some path => exact ⟨path, Input.path?_eq_some.mp hpath⟩
    | none =>
      have := (Resolver.path?_eq_none.mp hpath).1
      cases this
  loads := fun path hpath => by
    obtain ⟨file, hfile⟩ := h.known_of_included hpath
    exact ⟨file, (h.files path file hfile).2.1⟩
  keys := fun path hpath => by
    obtain ⟨file, hfile⟩ := h.known_of_included hpath
    exact (h.files path file hfile).2.2
  resolves := fun path hpath d hd => by
    obtain ⟨index, hindex⟩ := List.getElem?_of_mem hd
    obtain ⟨target, hpath, _⟩ := h.path?_ok (h.known_of_included hpath) hindex
    cases target with
    | some target => exact .inl ⟨target, Input.path?_eq_some.mp hpath⟩
    | none => exact .inr (Resolver.path?_eq_none.mp hpath)

theorem complete (h : Discovering i [] s) : Complete i s where
  slots := fun _ => h.slots_eq
  files := fun path file => by
    refine ⟨fun hfile => ⟨(h.files path file hfile).1, (h.files path file hfile).2.1⟩, ?_⟩
    rintro ⟨hpath, hfile⟩
    obtain ⟨found, hfound⟩ := h.known_of_included hpath
    have hsame := (h.files path found hfound).2.1
    rw [hfile, Except.ok.injEq] at hsame
    rw [hsame]
    exact hfound
  buildable := h.buildable

end Discovering

theorem Complete.finite (h : Complete i s) : {path | i.Included path}.Finite := by
  refine (List.finite_toSet s.modules.keys).subset fun path hpath => ?_
  obtain ⟨file, hfile⟩ := h.buildable.loads path hpath
  have hknown : s.Known (some path) := ⟨file, (h.files path file).mpr ⟨hpath, hfile⟩⟩
  exact Std.TreeMap.mem_keys.mpr (Std.TreeMap.contains_iff_mem.mp (known_some.mp hknown))

def Input.outcome (i : Input) (loader : Loader σ) (pace : Pace) (host : σ) :
    Except BuildError BuildResult :=
  (run i.resolve loader i.options pace i.entries host).1

theorem outcome_ok (hloads : i.Loads loader) {pace : Pace} {host : σ} {result : BuildResult}
    (h : i.outcome loader pace host = .ok result) :
    ∃ s : State σ, Complete i s ∧ result = collect s.entries s.modules := by
  unfold Input.outcome run at h
  rw [seeds_entries] at h
  dsimp only at h
  split at h
  · rename_i s hdrain
    cases h
    have hend := drain_invariant (invariant hloads) pace _ _ (discovering_initial i host) hdrain
    exact ⟨s, hend.complete, rfl⟩
  · cases h
  · cases h

theorem outcome_error (hloads : i.Loads loader) {pace : Pace} {host : σ} {e : BuildError}
    (he : e ≠ .budgetSpent) (h : i.outcome loader pace host = .error e) : ¬ i.Buildable := by
  unfold Input.outcome run at h
  rw [seeds_entries] at h
  dsimp only at h
  split at h
  · cases h
  · rename_i hdrain
    cases h
    exact (drain_error (invariant hloads) fails pace _ _ (discovering_initial i host) hdrain).2
  · cases h
    exact absurd rfl he

-- ---------------------------------------------------------------------------
-- Termination
-- ---------------------------------------------------------------------------

/-- Two moves for each dependency of the paths that are not discovered yet. -/
def left (i : Input) (paths : Finset String) (s : State σ) : Nat :=
  ∑ path ∈ paths with (s.file? path).isNone, 2 * (i.dependencies (some path)).length

theorem left_congr {paths : Finset String} (h : ∀ path, s'.file? path = s.file? path) :
    left i paths s' = left i paths s := by
  simp only [left, h]

theorem left_discover {paths : Finset String} {path : String} {file : LoadedFile}
    (hpath : path ∈ paths) (hnew : s.file? path = none) :
    left i paths (discover s path file) + 2 * (i.dependencies (some path)).length =
      left i paths s := by
  have hfilter : paths.filter (fun p => ((discover s path file).file? p).isNone) =
      (paths.filter fun p => (s.file? p).isNone).erase path := by
    ext p
    simp only [Finset.mem_filter, Finset.mem_erase, file?_discover]
    by_cases hp : path = p
    · simp [hp]
    · simp [hp, Ne.symm hp]
  rw [left, left, hfilter, Finset.sum_erase_add]
  exact Finset.mem_filter.mpr ⟨hpath, by rw [hnew]; rfl⟩

theorem dwindles {paths : Finset String} (hpaths : ∀ path, i.Included path → path ∈ paths) :
    Dwindles (accumulator i.resolve loader i.options) i.Delivers (Discovering i)
      (left i paths) where
  start := fun task s => (left_congr file?_start).le
  accumulate := fun {task ts arrival s next s'} h hdelivers hacc => by
    have hcases := accumulate_ok hacc
    clear hacc
    obtain ⟨_, rfl, rfl⟩ | ⟨⟨path, _⟩, rfl, hcases⟩ := hcases
    · exact le_rfl
    · obtain ⟨_, rfl, rfl⟩ | ⟨file, rfl, hnew, hnext, rfl⟩ := hcases
      · exact (left_congr file?_recordEdge).le
      · cases hdelivers with
        | loaded hpath hskip hfile =>
          have hlength : next.length = (i.dependencies (some path)).length := by
            rw [(tasks_ok hnext).1, List.length_map, List.length_zipIdx, Input.dependencies, hfile]
          have hmem := hpaths path ⟨h.reached hpath, hskip⟩
          rw [hlength, left_discover hmem ((file?_recordEdge path).trans hnew)]
          exact (left_congr file?_recordEdge).le

/-- A build of finitely many paths ends within a number of moves that depends on
neither the order of completion nor the loader. -/
theorem outcome_ends (hfinite : {path | i.Included path}.Finite) :
    ∃ moves, ∀ (loader : Loader σ) (pace : Pace) (host : σ), i.Loads loader →
      moves < pace.budget → i.outcome loader pace host ≠ .error .budgetSpent := by
  refine ⟨2 * (i.tasks none).length +
    ∑ path ∈ hfinite.toFinset, 2 * (i.dependencies (some path)).length, ?_⟩
  intro loader pace host hloads hbudget h
  have hinitial := discovering_initial i host
  have hleft : left i hfinite.toFinset
      { memo := { host }, entries := i.entries.map fun _ => none : State σ } =
        ∑ path ∈ hfinite.toFinset, 2 * (i.dependencies (some path)).length := by
    simp [left, State.file?]
  obtain ⟨result, s', hdrain⟩ := drain_ends (invariant hloads)
    (dwindles fun path hpath => hfinite.mem_toFinset.mpr hpath) pace _ _ hinitial
    (by rw [hleft]; exact hbudget)
  unfold Input.outcome run at h
  rw [seeds_entries] at h
  dsimp only at h
  rw [hdrain] at h
  cases result with
  | ok _ => cases h
  | error e =>
    simp only [Except.error.injEq] at h
    exact (drain_error (invariant hloads) fails pace _ _ hinitial hdrain).1 h

end BundleGraph.Build
