import BundleGraph.Proofs.Build.Loads
import BundleGraph.Proofs.Graph.Initial
import BundleGraph.Proofs.InsertionOrder

/-!
# Progress

Builds and traversals report after each module how many are processed and how many
are known. Both numbers only grow, and when a build or a traversal succeeds they
meet in its last report: whatever is known is still among the tasks until it is
processed.
-/

namespace BundleGraph

open Queue

/-- Numbers of modules that are processed, with the numbers of those that are known. -/
abbrev Reports := List (Nat × Nat)

namespace Reports

/-- The reports, the latest first, by which `done` of `total` modules are processed. -/
inductive Advance : Nat → Nat → Reports → Prop
  | start (total : Nat) : Advance 0 total []
  | grow {done total more : Nat} {reports : Reports} :
    Advance done total reports → total ≤ more → Advance done more reports
  | report {done total : Nat} {reports : Reports} :
    Advance done total reports → done < total →
      Advance (done + 1) total ((done + 1, total) :: reports)

/-- All reports in their order: the number processed rises by one each time, the total
never falls or lies below it, and the last total is the number of reports. -/
structure Full (reports : Reports) : Prop where
  processed : reports.map (·.1) = List.range' 1 reports.length
  totals : (reports.map (·.2)).Pairwise (· ≤ ·)
  le_total : ∀ r ∈ reports, r.1 ≤ r.2
  last : ∀ r, reports.getLast? = some r → r.2 = reports.length

variable {done total : Nat} {reports : Reports}

namespace Advance

theorem processed (h : Advance done total reports) :
    reports.reverse.map (·.1) = List.range' 1 done := by
  induction h with
  | start => rfl
  | grow _ _ ih => exact ih
  | report _ _ ih =>
    rw [List.reverse_cons, List.map_append, ih, List.range'_1_concat, Nat.add_comm]
    rfl

theorem length_eq (h : Advance done total reports) : reports.length = done := by
  have hlength := congrArg List.length h.processed
  simpa using hlength

theorem le_total (h : Advance done total reports) : ∀ r ∈ reports, r.1 ≤ r.2 ∧ r.2 ≤ total := by
  induction h with
  | start => exact nofun
  | grow _ hmore ih => exact fun r hr => ⟨(ih r hr).1, (ih r hr).2.trans hmore⟩
  | report _ hlt ih => exact List.forall_mem_cons.mpr ⟨⟨hlt, Nat.le_refl _⟩, ih⟩

theorem totals (h : Advance done total reports) :
    (reports.reverse.map (·.2)).Pairwise (· ≤ ·) := by
  induction h with
  | start => exact .nil
  | grow _ _ ih => exact ih
  | report hbefore _ ih =>
    rw [List.reverse_cons, List.map_append, List.pairwise_append]
    refine ⟨ih, List.pairwise_singleton _ _, fun n hn m hm => ?_⟩
    obtain ⟨r, hr, rfl⟩ := List.mem_map.mp hn
    rw [List.map_singleton, List.mem_singleton] at hm
    rw [hm]
    exact (hbefore.le_total r (List.mem_reverse.mp hr)).2

theorem full (h : Advance done total reports)
    (hlast : ∀ r, reports.head? = some r → r.2 = done) : Full reports.reverse where
  processed := by rw [h.processed, List.length_reverse, h.length_eq]
  totals := h.totals
  le_total := fun r hr => (h.le_total r (List.mem_reverse.mp hr)).1
  last := fun r hr => by
    rw [List.getLast?_reverse] at hr
    rw [hlast r hr, List.length_reverse, h.length_eq]

end Advance

end Reports

open Reports (Advance Full)

variable {σ : Type}

-- ---------------------------------------------------------------------------
-- Traversals
-- ---------------------------------------------------------------------------

namespace Traversal

variable {ctx : Context σ} {tasks next : List String} {path : String} {file : LoadedFile}
  {t t' : Traversal σ}

/-- Every module that is known is processed or has a task, and the latest report knows
of all. -/
structure Tallied (tasks : List String) (t : Traversal σ) : Prop where
  total : t.total = t.done + tasks.length
  advance : Advance t.done t.total t.reports
  latest : ∀ r, t.reports.head? = some r → r.2 = t.total

theorem accumulate_report (h : accumulate ctx path file t = (.ok next, t')) :
    t'.done = t.done + 1 ∧ t'.total = t.total + next.length ∧
      t'.reports = (t.done + 1, t.total + next.length) :: t.reports := by
  unfold accumulate at h
  dsimp only at h
  split at h
  · cases h
  · cases h
    exact ⟨rfl, rfl, rfl⟩

theorem Tallied.accumulate (h : Tallied (path :: tasks) t)
    (hacc : accumulate ctx path file t = (.ok next, t')) : Tallied (tasks ++ next) t' := by
  obtain ⟨hdone, htotal, hreports⟩ := accumulate_report hacc
  have hbefore := h.total
  rw [List.length_cons] at hbefore
  refine ⟨?_, ?_, ?_⟩
  · rw [htotal, hdone, List.length_append]
    omega
  · rw [htotal, hdone, hreports]
    exact (h.advance.grow (Nat.le_add_right _ _)).report (by omega)
  · rw [hreports, htotal]
    rintro r ⟨⟩
    rfl

theorem tallied (ctx : Context σ) : Invariant (accumulator ctx) (fun _ _ _ => True) Tallied where
  perm := fun hp h => { h with total := by rw [h.total, hp.length_eq] }
  start := fun h => ⟨⟨h.total, h.advance, h.latest⟩, trivial⟩
  accumulate := fun h _ hacc => h.accumulate hacc
  started := id
  accumulated := fun _ _ => id

theorem full_drain {e : Edit} {host : σ} {seeds : List String}
    (h : (ofEdit e host seeds.length).drain ctx seeds = (.ok (), t)) : Full t.reports.reverse := by
  have hstart : Tallied seeds (ofEdit e host seeds.length) :=
    ⟨(Nat.zero_add _).symm, .start _, nofun⟩
  have hend := drain_invariant (tallied ctx) hstart h
  refine hend.advance.full fun r hr => ?_
  rw [hend.latest r hr, hend.total, List.length_nil, Nat.add_zero]

end Traversal

namespace Graph

variable {g : Graph} {ctx : Traversal.Context σ} {host : σ} {d : GraphDelta} {t : Traversal σ}

theorem full_initialTraverse (h : g.initialTraverse ctx host = (.ok d, t)) :
    Full t.reports.reverse := by
  obtain ⟨_, start, hdrain, ht⟩ := initialTraverse_ok h
  have hreports : t.reports = start.reports := by rw [ht]
  rw [hreports]
  exact Traversal.full_drain hdrain

theorem full_traverse {modified deleted : List String}
    (h : g.traverse ctx modified deleted host = (.ok d, t)) : Full t.reports.reverse := by
  rw [traverse_eq] at h
  split at h
  · cases congrArg Prod.fst h
  · rename_i start hworked
    have hreports : t.reports = start.reports := (congrArg (·.2.reports) h).symm
    rw [hreports]
    exact Traversal.full_drain hworked

end Graph

-- ---------------------------------------------------------------------------
-- Builds
-- ---------------------------------------------------------------------------

namespace Build

variable {resolve : Resolver} {loader : Loader σ} {options : Options} {s s' : State σ}
  {task : Task} {next : List Task}

/-- A path that is requested is one that the memo holds, every discovered path is
requested, and the latest report knows of all requests when all are discovered. -/
structure Tallied (s : State σ) : Prop where
  requested : ∀ path, s.requested.contains path ↔ ∃ result, s.memo.Holds path result
  discovered : ∀ path, s.modules.contains path → s.requested.contains path
  processed : s.modules.size = s.processed
  advance : Advance s.processed s.requested.size s.reports
  latest : (∀ path, s.requested.contains path → s.modules.contains path) →
    ∀ r, s.reports.head? = some r → r.2 = s.requested.size

theorem size_modules_le (h : ∀ path, s.modules.contains path → s.requested.contains path) :
    s.modules.size ≤ s.requested.size := by
  rw [← Std.TreeMap.length_keys, ← OrderedSet.length_toList]
  refine (s.modules.nodup_keys.subperm fun path hpath => ?_).length_le
  rw [Std.TreeMap.mem_keys, ← Std.TreeMap.contains_iff_mem] at hpath
  exact (OrderedSet.mem_toList _ _).mpr (h path hpath)

theorem size_requested_le (h : ∀ path, s.requested.contains path → s.modules.contains path) :
    s.requested.size ≤ s.modules.size := by
  rw [← Std.TreeMap.length_keys, ← OrderedSet.length_toList]
  refine ((OrderedSet.nodup_toList _).subperm fun path hpath => ?_).length_le
  rw [Std.TreeMap.mem_keys, ← Std.TreeMap.contains_iff_mem]
  exact h path ((OrderedSet.mem_toList _ _).mp hpath)

theorem counts_recordEdge (s : State σ) (task : Task) (edge : Edge) :
    (recordEdge s task edge).requested = s.requested ∧
      (recordEdge s task edge).processed = s.processed ∧
      (recordEdge s task edge).reports = s.reports ∧
      (recordEdge s task edge).modules.size = s.modules.size := by
  unfold recordEdge
  split
  · exact ⟨rfl, rfl, rfl, rfl⟩
  · split
    · rename_i origin _ _ found hfound
      have horigin : origin ∈ s.modules :=
        Std.TreeMap.mem_iff_isSome_getElem?.mpr (by rw [hfound]; rfl)
      exact ⟨rfl, rfl, rfl, Std.TreeMap.size_insert.trans (if_pos horigin)⟩
    · exact ⟨rfl, rfl, rfl, rfl⟩

theorem contains_recordEdge (s : State σ) (task : Task) (edge : Edge) (path : String) :
    (recordEdge s task edge).modules.contains path = s.modules.contains path := by
  rw [contains_modules, file?_recordEdge, ← contains_modules]

theorem contains_discover (s : State σ) (path : String) (file : LoadedFile) (p : String) :
    (discover s path file).modules.contains p = (decide (path = p) || s.modules.contains p) := by
  rw [contains_modules, file?_discover, contains_modules]
  by_cases hp : path = p <;> simp [hp]

theorem size_discover {path : String} (hnew : s.file? path = none) (file : LoadedFile) :
    (discover s path file).modules.size = s.modules.size + 1 := by
  have hpath : path ∉ s.modules := by
    rw [← Std.TreeMap.contains_iff_mem, contains_modules, hnew]
    exact Bool.false_ne_true
  exact Std.TreeMap.size_insert.trans (if_neg hpath)

namespace Tallied

theorem initial (host : σ) (entries : List (Option Edge)) :
    Tallied ({ memo := { host }, entries } : State σ) where
  requested := fun path => by simp [LoadMemo.Holds]
  discovered := fun path hpath => by simp at hpath
  processed := rfl
  advance := .start _
  latest := nofun

theorem recordEdge (h : Tallied s) (task : Task) (edge : Edge) :
    Tallied (recordEdge s task edge) := by
  obtain ⟨hrequested, hprocessed, hreports, hsize⟩ := counts_recordEdge s task edge
  have hcontains := contains_recordEdge s task edge
  exact
    { requested := by simpa only [hrequested, memo_recordEdge] using h.requested
      discovered := by simpa only [hrequested, hcontains] using h.discovered
      processed := by rw [hsize, hprocessed, h.processed]
      advance := by simpa only [hrequested, hprocessed, hreports] using h.advance
      latest := by simpa only [hrequested, hcontains, hreports] using h.latest }

theorem discover (h : Tallied s) {path : String} {file : LoadedFile}
    (hnew : s.file? path = none) (hheld : s.memo.Loaded path file) :
    Tallied (discover s path file) := by
  have hpath : s.requested.contains path := (h.requested path).mpr ⟨_, hheld⟩
  have hdiscovered : ∀ p, (Build.discover s path file).modules.contains p →
      s.requested.contains p := by
    intro p hp
    rw [contains_discover, Bool.or_eq_true, decide_eq_true_eq] at hp
    rcases hp with rfl | hp
    · exact hpath
    · exact h.discovered p hp
  have hsize : (Build.discover s path file).modules.size = s.processed + 1 := by
    rw [size_discover hnew, h.processed]
  have hlt : s.processed < s.requested.size := by
    have hle := size_modules_le (s := Build.discover s path file) hdiscovered
    rw [hsize] at hle
    exact hle
  exact
    { requested := fun p => by
        rw [show (Build.discover s path file).memo = s.memo.settle path file from rfl]
        simp only [LoadMemo.holds_settle hheld]
        exact h.requested p
      discovered := hdiscovered
      processed := hsize
      advance := h.advance.report hlt
      latest := fun _ r hr => by
        cases hr
        rfl }

theorem request (h : Tallied s) (loader : Loader σ) (path : String) :
    Tallied { s with
      memo := (s.memo.load loader path).2
      requested := s.requested.insert path } where
  requested := fun p => by
    rw [OrderedSet.contains_insert, Bool.or_eq_true, decide_eq_true_eq, h.requested]
    constructor
    · rintro (rfl | ⟨result, hheld⟩)
      · exact ⟨_, LoadMemo.holds_load loader s.memo path⟩
      · exact ⟨result, hheld.load path⟩
    · rintro ⟨result, hheld⟩
      exact hheld.of_load.imp_right fun hheld => ⟨result, hheld⟩
  discovered := fun p hp => by
    rw [OrderedSet.contains_insert, h.discovered p hp, Bool.or_true]
  processed := h.processed
  advance := h.advance.grow (s.requested.size_le_insert path)
  latest := fun hall => by
    -- a path that was not requested is not discovered
    have hpath : s.requested.contains path :=
      h.discovered path (hall path (by simp [OrderedSet.contains_insert]))
    have hsame : s.requested.insert path = s.requested := if_pos hpath
    simp only [hsame] at hall ⊢
    exact h.latest hall

end Tallied

theorem tallied (resolve : Resolver) (loader : Loader σ) (options : Options) :
    Invariant (accumulator resolve loader options) Held fun _ s => Tallied s where
  perm := fun _ h => h
  start := fun {task ts s} h => by
    refine ⟨?_, held_start⟩
    show Tallied (start resolve loader options task s).2
    rcases start_cases resolve loader options task s with ⟨heq, _⟩ | ⟨path, _, _, heq⟩
    · rwa [heq]
    · rw [heq]
      exact h.request loader path
  accumulate := fun {task ts arrival s next s'} h hheld hacc => by
    rcases accumulate_ok hacc with ⟨_, _, rfl⟩ | ⟨a, rfl, ⟨_, _, rfl⟩ | ⟨file, hfile, hnew, _, rfl⟩⟩
    · exact h
    · exact h.recordEdge task _
    · refine (h.recordEdge task _).discover ((file?_recordEdge a.path).trans hnew) ?_
      rw [memo_recordEdge]
      exact hheld a.path file (by rw [← hfile])
  started := fun h => h.mono fun _ _ => holds_start
  accumulated := fun hheld hacc h => h.mono fun p r => (hheld.holds_accumulate hacc p r).mpr

theorem tallied_run {pace : Pace} {entries : List String} {host : σ} {result : BuildResult}
    (h : run resolve loader options pace entries host = (.ok result, s)) : Tallied s :=
  drain_invariant (tallied resolve loader options) pace _ _ (.initial host _) (drain_of_run h).1

theorem full_run {pace : Pace} {entries : List String} {host : σ} {result : BuildResult}
    (h : run resolve loader options pace entries host = (.ok result, s)) :
    Full s.reports.reverse ∧ s.reports.length = result.modules.length := by
  have htallied := tallied_run h
  obtain ⟨s', hrun, rfl⟩ : ∃ s', run resolve loader.recording options pace entries (host, []) =
      (.ok result, s') ∧ s = s'.unrecorded := by
    rw [run_recording resolve loader options pace entries host []] at h
    obtain ⟨hok, hs⟩ := Prod.mk.inj h
    exact ⟨_, Prod.ext hok rfl, hs.symm⟩
  obtain ⟨i, hend, -, -, hresult⟩ := exists_awaiting hrun
  have hall : ∀ path, s'.requested.contains path → s'.modules.contains path := by
    intro path hpath
    obtain ⟨held, hheld⟩ := (htallied.requested path).mp hpath
    obtain ⟨-, hknown | ⟨_, hnone, -⟩⟩ := hend.awaited path held hheld
    · exact known_some.mp hknown
    · cases hnone
  have hsize : s'.requested.size = s'.processed :=
    (Nat.le_antisymm (size_requested_le hall) (size_modules_le htallied.discovered)).trans
      htallied.processed
  refine ⟨htallied.advance.full fun r hr => (htallied.latest hall r hr).trans hsize, ?_⟩
  have hlength := hend.perm_modules.length_eq
  rw [List.length_map, Std.TreeMap.length_keys, ← hresult] at hlength
  rw [htallied.advance.length_eq, hlength]
  exact htallied.processed.symm

end Build

-- ---------------------------------------------------------------------------
-- Whole calls
-- ---------------------------------------------------------------------------

/-- A build or a traversal that succeeds has reported every module it processed, one
by one. The number that is known never falls or lies below the number processed, and
is this number in the last report. A build has processed the modules of its result. -/
theorem progress_meets_total {σ : Type} (host : σ) :
    (∀ resolve loader options pace entries result s,
      Build.run resolve loader options pace entries host = (.ok result, s) →
        Full s.reports.reverse ∧ s.reports.length = result.modules.length) ∧
    ∀ (g : Graph) (ctx : Traversal.Context σ),
      (∀ d t, g.initialTraverse ctx host = (.ok d, t) → Full t.reports.reverse) ∧
      ∀ modified deleted d t, g.traverse ctx modified deleted host = (.ok d, t) →
        Full t.reports.reverse :=
  ⟨fun _ _ _ _ _ _ _ h => Build.full_run h,
    fun _ _ => ⟨fun _ _ h => Graph.full_initialTraverse h, fun _ _ _ _ h => Graph.full_traverse h⟩⟩

/-- One of two modules imports a third one, which is on a cycle. -/
def importsCycle (origin path : String) : List String :=
  if path = "a" then ["b", "x"] else if path = origin then ["c"]
  else if path = "c" then ["d"] else if path = "d" then ["c"] else []

/-- A build whose entry is requested twice, and a traversal that drops a module and
discovers it again. -/
theorem progress_meets_total_rediscovered :
    (∃ result s, Build.run (fun _ d _ => .ok d.name) Loader.fourTimes {} { budget := 30 }
        ["/a", "/a"] 0 = (.ok result, s) ∧
      s.reports.reverse = [(1, 1), (2, 3), (3, 4), (4, 4)] ∧ Full s.reports.reverse ∧
      s.reports.length = result.modules.length) ∧
    ∃ g, (∃ d t, (Graph.ofEntries ["a"] {}).initialTraverse (.ofImports (importsCycle "b")) () =
          (.ok d, t) ∧ t.edit.graph = g ∧
        t.reports.reverse = [(1, 3), (2, 4), (3, 4), (4, 5), (5, 5)] ∧ Full t.reports.reverse) ∧
      ∃ d t, g.traverse (.ofImports (importsCycle "x")) ["b", "x"] ["c"] () = (.ok d, t) ∧
        t.reports.reverse = [(1, 2), (2, 3), (3, 4), (4, 4)] ∧ Full t.reports.reverse := by
  obtain ⟨hbuild, -⟩ := progress_meets_total 0
  obtain ⟨-, htraversals⟩ := progress_meets_total ()
  let built := Build.run (fun _ d _ => .ok d.name) Loader.fourTimes {} { budget := 30 }
    ["/a", "/a"] 0
  let initial := (Graph.ofEntries ["a"] {}).initialTraverse (.ofImports (importsCycle "b")) ()
  let later := initial.2.edit.graph.traverse (.ofImports (importsCycle "x")) ["b", "x"] ["c"] ()
  have hevaluated : (built.1.isOk, initial.1.isOk, later.1.isOk) = (true, true, true) ∧
      built.2.reports.reverse = [(1, 1), (2, 3), (3, 4), (4, 4)] ∧
      initial.2.reports.reverse = [(1, 3), (2, 4), (3, 4), (4, 5), (5, 5)] ∧
      later.2.reports.reverse = [(1, 2), (2, 3), (3, 4), (4, 4)] := by
    decide +kernel
  obtain ⟨hok, hbuilt, hinitial, hlater⟩ := hevaluated
  simp only [Prod.mk.injEq] at hok
  obtain ⟨result, hresult⟩ := Graph.exists_of_isOk hok.1
  obtain ⟨d, hd⟩ := Graph.exists_of_isOk hok.2.1
  obtain ⟨d', hd'⟩ := Graph.exists_of_isOk hok.2.2
  obtain ⟨hfull, hlength⟩ := hbuild _ _ _ _ _ _ _ hresult
  exact ⟨⟨result, _, hresult, hbuilt, hfull, hlength⟩, _,
    ⟨d, _, hd, rfl, hinitial, (htraversals _ _).1 _ _ hd⟩,
    d', _, hd', hlater, (htraversals _ _).2 _ _ _ _ hd'⟩

end BundleGraph
