import BundleGraph.Proofs.Graph.Traverse

/-!
# What an initial traversal leaves

An initial traversal loads every path once and removes nothing, so it leaves no
possible roots: its graph is exact, and all of it is reached from the entry
points.
-/

namespace BundleGraph

/-- What an initial traversal is to keep: nothing is old or miscounted, and everything
is reached. -/
def Aim.initial (settings : OrderedSet String × Transform.Options) (ok : Module → Prop) : Aim :=
  { settings, slack := fun _ _ => 0, old := fun _ => False, reached := True, ok }

namespace Edit

variable {slack : String → String → Nat} {e e' : Edit} {path : String} {file : LoadedFile}
  {previous current : List Edge} {tasks next : List String} {resolve : Resolver}

/-- No task has been in the graph before, each is being loaded, and nothing was
marked. -/
structure Pristine (tasks : List String) (e : Edit) : Prop where
  nodup : tasks.Nodup
  fresh : ∀ q ∈ tasks, e.graph.contains q = false
  loading : ∀ q ∈ tasks, e.loading.contains q
  no_root : ∀ q, e.graph.possibleRoots.contains q = false
  black : ∀ q, e.graph.contains q → e.graph.color q = .black

theorem Pristine.perm {tasks' : List String} (h : Pristine tasks e) (hp : tasks.Perm tasks') :
    Pristine tasks' e :=
  { h with
    nodup := hp.nodup_iff.mp h.nodup
    fresh := fun q hq => h.fresh q (hp.mem_iff.mpr hq)
    loading := fun q hq => h.loading q (hp.mem_iff.mpr hq) }

/-- What counting edges discovers: every path once, and none that was known. -/
structure Discovers (e e' : Edit) (next : List String) : Prop where
  content : ∀ q, e'.graph.content? q = e.graph.content? q
  roots : e'.graph.possibleRoots = e.graph.possibleRoots
  color : ∀ q, e'.graph.color q = e.graph.color q ∨ e'.graph.color q = .black
  nodup : next.Nodup
  fresh : ∀ q ∈ next, e.graph.contains q = false ∧ e.loading.contains q = false
  loading : ∀ q, e.loading.contains q ∨ q ∈ next → e'.loading.contains q

theorem Discovers.add (h : Discovers e e' next) (path : String) (edge : Edge) :
    Discovers e (e'.addEdge path edge).1 (next ++ (e'.addEdge path edge).2.toList) := by
  have hnew : ∀ q ∈ (e'.addEdge path edge).2.toList, e'.graph.contains q = false ∧
      e'.loading.contains q = false := by
    intro q hq
    obtain ⟨_, hc, hl⟩ := snd_addEdge_eq_some.mp (Option.mem_toList.mp hq)
    exact ⟨hc, loading_contains_eq_false.mpr hl⟩
  refine
    { content := fun q => (content?_addEdge path edge q).trans (h.content q)
      roots := (possibleRoots_addEdge path edge).trans h.roots
      color := fun q => ?_
      nodup := ?_
      fresh := fun q hq => ?_
      loading := fun q hq => ?_ }
  · rw [color_addEdge]
    split
    · exact .inr rfl
    · exact h.color q
  · refine List.nodup_append.mpr ⟨h.nodup, ?_, fun q hq q' hq' heq => ?_⟩
    · cases (e'.addEdge path edge).2 <;> simp
    · have hl := h.loading q (.inr hq)
      rw [heq, (hnew q' hq').2] at hl
      cases hl
  · rcases List.mem_append.mp hq with hq | hq
    · exact h.fresh q hq
    · obtain ⟨hc, hl⟩ := hnew q hq
      refine ⟨by rwa [← Graph.contains_congr (h.content q)], ?_⟩
      rw [← Bool.not_eq_true] at hl ⊢
      exact fun hold => hl (h.loading q (.inl hold))
  · rw [loading_contains_addEdge]
    rcases hq with hq | hq
    · exact .inl (h.loading q (.inl hq))
    · rcases List.mem_append.mp hq with hq | hq
      · exact .inl (h.loading q (.inr hq))
      · exact .inr (Option.mem_toList.mp hq)

theorem discovers_addEdges (e : Edit) (path : String) (previous current : List Edge) :
    Discovers e (e.addEdges false path previous current).1
      (e.addEdges false path previous current).2 := by
  suffices hfold : ∀ (todo : List Edge) (e' : Edit) (next : List String), Discovers e e' next →
      Discovers e (todo.foldl (addNewEdge false path previous) (e', next)).1
        (todo.foldl (addNewEdge false path previous) (e', next)).2 by
    refine hfold current e [] ?_
    exact
      { content := fun _ => rfl, roots := rfl, color := fun _ => .inl rfl, nodup := List.nodup_nil,
        fresh := nofun, loading := fun q hq => hq.resolve_right List.not_mem_nil }
  intro todo
  induction todo with
  | nil => exact fun e' next h => h
  | cons edge todo ih =>
    intro e' next h
    rw [List.foldl_cons]
    rcases addNewEdge_cases path previous e' next edge with ⟨_, _, heq⟩ | ⟨_, heq⟩
    · rw [heq]
      exact ih e' next h
    · rw [heq]
      exact ih _ _ (h.add path edge)

theorem Pristine.discover {arrived : Edit} (h : Pristine (path :: tasks) e)
    (ha : Arrived path file e arrived) (hd : Discovers arrived e' next) (edges : List Edge) :
    Pristine (tasks ++ next) (e'.setEdges path edges) := by
  obtain ⟨hpath, hnodup⟩ := List.nodup_cons.mp h.nodup
  have hnew := h.fresh path List.mem_cons_self
  have hne : ∀ q ∈ tasks, path ≠ q := fun q hq hp => hpath (hp ▸ hq)
  have hcontains : ∀ q, (e'.setEdges path edges).graph.contains q ↔
      path = q ∨ e.graph.contains q := by
    intro q
    rw [contains_setEdges, Graph.contains_congr (hd.content q), ha.contains]
  have hfresh : ∀ q, path ≠ q → e.graph.contains q = false →
      (e'.setEdges path edges).graph.contains q = false := by
    intro q hq hc
    rw [← Bool.not_eq_true, hcontains, hc]
    simp [hq]
  have hloading : ∀ q ∈ tasks, arrived.loading.contains q :=
    fun q hq => (ha.loading q).mpr ⟨hne q hq, h.loading q (.tail _ hq)⟩
  refine
    { nodup := List.nodup_append.mpr ⟨hnodup, hd.nodup, fun q hq q' hq' heq => ?_⟩
      fresh := fun q hq => ?_
      loading := fun q hq => ?_
      no_root := fun q => ?_
      black := fun q hq => ?_ }
  · have hl := hloading q hq
    rw [heq, (hd.fresh q' hq').2] at hl
    cases hl
  · rcases List.mem_append.mp hq with hq | hq
    · exact hfresh q (hne q hq) (h.fresh q (.tail _ hq))
    · have hc := (hd.fresh q hq).1
      rw [← Bool.not_eq_true, ha.contains, not_or] at hc
      exact hfresh q hc.1 (by simpa using hc.2)
  · rcases List.mem_append.mp hq with hq | hq
    · exact hd.loading q (.inl (hloading q hq))
    · exact hd.loading q (.inr hq)
  · rw [possibleRoots_setEdges, hd.roots, ha.roots]
    exact h.no_root q
  · rw [color_setEdges]
    rcases hd.color q with hsame | hb
    · rw [hsame, ha.color]
      split
      · rfl
      · rename_i hnot
        refine h.black q (((hcontains q).mp hq).resolve_left fun hp => hnot ?_)
        exact ⟨hp, hnew⟩
    · exact hb

theorem Pristine.process (h : Pristine (path :: tasks) e) (hs : Steady slack e)
    (hprocess : e.process resolve false path file = (.ok next, e')) :
    Pristine (tasks ++ next) e' := by
  obtain ⟨hpath, hnodup⟩ := List.nodup_cons.mp h.nodup
  rcases process_cases hs.sound.apart hprocess with
    ⟨_, hl, _, _⟩ | ⟨_, _, _, _, rfl, rfl⟩ | ⟨current, arrived, _, ha, hrest⟩
  · rw [h.loading path List.mem_cons_self] at hl
    cases hl
  · rw [List.append_nil]
    refine
      { nodup := hnodup
        fresh := fun q hq => by rw [graph_forget]; exact h.fresh q (.tail _ hq)
        loading := fun q hq => ?_
        no_root := by rw [graph_forget]; exact h.no_root
        black := by rw [graph_forget]; exact h.black }
    have hne : path ≠ q := fun hp => hpath (hp ▸ hq)
    simp [Std.TreeMap.contains_erase, hne, h.loading q (.tail _ hq)]
  · -- a new module has no edges to drop
    have hedges : arrived.graph.edges path = [] := by
      rw [ha.edges, Graph.edges_eq_nil (h.fresh path List.mem_cons_self)]
    have hdrop : arrived.dropEdges path (arrived.graph.edges path) current = arrived := by
      rw [hedges]
      rfl
    have harrived : arrived.graph.contains path := (ha.contains path).mpr (.inl rfl)
    rw [hdrop] at hrest
    rcases hrest with ⟨hgone, _⟩ | ⟨_, rfl, rfl⟩
    · rw [harrived] at hgone
      cases hgone
    · exact h.discover ha (discovers_addEdges arrived path _ current) current

theorem getElem?_loading_foldl_enqueue (seeds : List String) (e : Edit) (q : String) :
    (seeds.foldl (fun e entry => e.enqueue entry none) e).loading[q]? =
      if q ∈ seeds then some (.ofList []) else e.loading[q]? := by
  induction seeds generalizing e with
  | nil => rfl
  | cons entry seeds ih =>
    rw [List.foldl_cons, ih, getElem?_loading_enqueue]
    by_cases hq : q ∈ seeds
    · simp [hq]
    · by_cases hentry : entry = q
      · simp [hentry]
      · simp [hq, hentry, Ne.symm hentry]

theorem graph_foldl_enqueue (seeds : List String) (e : Edit) :
    (seeds.foldl (fun e entry => e.enqueue entry none) e).graph = e.graph := by
  induction seeds generalizing e with
  | nil => rfl
  | cons entry seeds ih => rw [List.foldl_cons, ih, graph_enqueue]

theorem underway_initial {g : Graph} {a : Aim} (hempty : ∀ q, g.contains q = false)
    (hsettings : g.settings = a.settings) (hold : ∀ t, ¬ a.old t) :
    Underway a g.entryPoints.toList
      (g.entryPoints.toList.foldl (fun e entry => e.enqueue entry none) { graph := g }) := by
  have hgraph := graph_foldl_enqueue g.entryPoints.toList { graph := g }
  have hget := getElem?_loading_foldl_enqueue g.entryPoints.toList { graph := g }
  generalize g.entryPoints.toList.foldl (fun (e : Edit) entry => e.enqueue entry none)
    { graph := g } = e at hgraph hget ⊢
  have hcount : ∀ t p, e.count t p = 0 := by
    intro t p
    unfold count
    rw [hget, hgraph]
    by_cases ht : t ∈ g.entryPoints.toList
    · simp [ht]
    · simp [ht, Graph.count_eq_zero (hempty t)]
  have hnone : ∀ q m, g.content? q ≠ some m := by
    intro q m hm
    have hc := Graph.contains_of_content? hm
    rw [hempty q] at hc
    cases hc
  refine
    { steady :=
        { sound :=
            { count_le := fun p t => by rw [hcount]; exact Nat.zero_le _
              le_count := fun p t => by
                rw [hgraph, Graph.edgeCount_eq_zero (hempty p)]
                exact Nat.zero_le _
              apart := fun p hp => by rw [hgraph, hempty p] at hp; cases hp
              painted := fun p hp => by rw [hgraph, hempty p] at hp; cases hp
              wellFormed := by
                rw [hgraph]
                refine ⟨fun hm => absurd hm (hnone _ _), fun q => ?_⟩
                rw [Graph.edges_eq_nil (hempty q)]
                exact List.nodup_nil }
          referenced := fun t ht => by rw [hgraph, hempty t] at ht; cases ht }
      settings := by rw [hgraph, hsettings]
      loading := fun q hq => ?_
      entries := fun q hq => .inr ?_
      ok := fun q m hm => by rw [hgraph] at hm; exact absurd hm (hnone q m)
      marked := fun _ t ht => by rw [hgraph, hempty t] at ht; cases ht
      reported := ⟨fun t ht => absurd ht (hold t), fun t ht => absurd ht (hold t)⟩ }
  · obtain ⟨_, hl⟩ := (loading_contains_iff q).mp hq
    rw [hget] at hl
    by_contra hq'
    rw [if_neg hq'] at hl
    simp at hl
  · rw [hgraph] at hq
    refine (loading_contains_iff q).mpr ⟨.ofList [], ?_⟩
    rw [hget, if_pos ((OrderedSet.mem_toList _ q).mpr hq)]

theorem pristine_initial {g : Graph} (hempty : ∀ q, g.contains q = false)
    (hroots : ∀ q, g.possibleRoots.contains q = false) :
    Pristine g.entryPoints.toList
      (g.entryPoints.toList.foldl (fun e entry => e.enqueue entry none) { graph := g }) where
  nodup := OrderedSet.nodup_toList _
  fresh := fun q _ => by rw [graph_foldl_enqueue]; exact hempty q
  loading := fun q hq => (loading_contains_iff q).mpr
    ⟨.ofList [], by rw [getElem?_loading_foldl_enqueue, if_pos hq]⟩
  no_root := fun q => by rw [graph_foldl_enqueue]; exact hroots q
  black := fun q hq => by
    rw [graph_foldl_enqueue, hempty q] at hq
    cases hq

/-- Without roots, everything that is marked is reached from an entry point. -/
theorem Marked.reached (h : Marked (fun _ => False) e)
    (hroots : ∀ q, e.graph.possibleRoots.contains q = false) {t : String}
    (ht : e.graph.contains t) : ∃ r, e.graph.isEntry r ∧ e.graph.Reaches r t := by
  obtain ⟨r, hr | hr | hr, _, hreach⟩ := h t ht
  · exact ⟨r, hr, hreach⟩
  · rw [hroots r] at hr
    cases hr
  · exact hr.elim

theorem Underway.exact {a : Aim} (h : e.Underway a []) (hp : Pristine [] e)
    (hslack : ∀ p t, a.slack p t = 0) : e.graph.Exact where
  count_le := h.counted.count_le
  entries := fun _ ht => h.contains_entry ht
  referenced := h.counted.referenced
  no_root := hp.no_root
  black := hp.black
  wellFormed := h.steady.sound.wellFormed
  le_count := fun p t => by
    have hle := h.le_count p t
    rwa [hslack, Nat.add_zero] at hle

end Edit

namespace Graph

variable {σ : Type} {g : Graph} {ctx : Traversal.Context σ} {host : σ} {d : GraphDelta}
  {t : Traversal σ}

-- ---------------------------------------------------------------------------
-- The order of the modules
-- ---------------------------------------------------------------------------

theorem get?_reorder (g : Graph) (path : String) :
    g.reorder.modules.get? path = g.modules.get? path := by
  unfold reorder
  dsimp only
  rw [OrderedMap.get?_ofList g.modules]
  · split
    · rfl
    · rename_i hnot
      cases hm : g.modules.get? path with
      | none => rfl
      | some m =>
        refine absurd ?_ hnot
        rw [List.map_append, List.mem_append]
        by_cases horder : path ∈ g.order
        · exact .inl (List.mem_map.mpr ⟨(path, m),
            List.mem_filterMap.mpr ⟨path, horder, by simp [hm]⟩, rfl⟩)
        · refine .inr (List.mem_map.mpr ⟨(path, m), List.mem_filter.mpr ⟨?_, ?_⟩, rfl⟩)
          · exact (g.modules.mem_toList path m).mpr hm
          · simpa [OrderedSet.contains_ofList] using horder
  · rintro ⟨p, m⟩ he
    rcases List.mem_append.mp he with he | he
    · obtain ⟨q, _, hq⟩ := List.mem_filterMap.mp he
      obtain ⟨m', hm', heq⟩ := Option.map_eq_some_iff.mp hq
      cases heq
      exact hm'
    · exact (g.modules.mem_toList p m).mp (List.mem_filter.mp he).1

theorem content?_reorder (g : Graph) (path : String) :
    g.reorder.content? path = g.content? path := by
  rw [content?, get?_reorder, content?]

theorem count_reorder (g : Graph) (path referrer : String) :
    g.reorder.count path referrer = g.count path referrer := by
  rw [count, get?_reorder, count]

theorem settings_reorder (g : Graph) : g.reorder.settings = g.settings := by
  unfold settings reorder
  rfl

theorem possibleRoots_reorder (g : Graph) : g.reorder.possibleRoots = g.possibleRoots := by
  unfold reorder
  rfl

theorem color_reorder (g : Graph) (path : String) : g.reorder.color path = g.color path := by
  unfold reorder color
  rfl

theorem isEntry_reorder (g : Graph) (path : String) : g.reorder.isEntry path = g.isEntry path :=
  isEntry_congr g.settings_reorder path

theorem Exact.reorder (hg : g.Exact) : g.reorder.Exact where
  count_le := fun p t => by
    rw [count_reorder, edgeCount_congr (g.content?_reorder p)]
    exact hg.count_le p t
  entries := fun t ht => by
    rw [isEntry_reorder] at ht
    rw [contains_congr (g.content?_reorder t)]
    exact hg.entries t ht
  referenced := fun t ht => by
    rw [contains_congr (g.content?_reorder t)] at ht
    simp only [isEntry_reorder, count_reorder]
    exact hg.referenced t ht
  no_root := fun t => by
    rw [possibleRoots_reorder]
    exact hg.no_root t
  black := fun t ht => by
    rw [contains_congr (g.content?_reorder t)] at ht
    rw [color_reorder]
    exact hg.black t ht
  wellFormed := hg.wellFormed.of_content fun q m hm =>
    .inl ((g.content?_reorder q).symm.trans hm)
  le_count := fun p t => by
    rw [count_reorder, edgeCount_congr (g.content?_reorder p)]
    exact hg.le_count p t

-- ---------------------------------------------------------------------------
-- The traversal
-- ---------------------------------------------------------------------------

theorem AllReached.reorder (hg : g.AllReached) : g.reorder.AllReached := by
  intro t ht
  rw [contains_congr (g.content?_reorder t)] at ht
  obtain ⟨r, hr, hreach⟩ := hg t ht
  exact ⟨r, by rwa [isEntry_reorder], reaches_congr (fun q => (g.content?_reorder q).symm) hreach⟩

/-- The graph an initial traversal starts with, nothing marked yet. -/
def blank (g : Graph) : Graph :=
  { g with
    colors := g.entryPoints.toList.foldl (fun t entry => t.insert entry .black) ∅
    possibleRoots := ∅ }

/-- The entry points are to be loaded into the blank graph. -/
def seeded (g : Graph) : Edit :=
  g.blank.entryPoints.toList.foldl (fun e entry => e.enqueue entry none) { graph := g.blank }

/-- An initial traversal whose tasks are done, before the modules are put in order. -/
def filled (g : Graph) (ctx : Traversal.Context σ) (host : σ) :
    Except BuildError Unit × Traversal σ :=
  (Traversal.ofEdit g.seeded host g.entryPoints.toList.length).drain ctx g.entryPoints.toList

theorem initialTraverse_ok (h : g.initialTraverse ctx host = (.ok d, t)) :
    g.modules.isEmpty ∧ ∃ start, g.filled ctx host = (.ok (), start) ∧
      t = { start with edit := { start.edit with graph := start.edit.graph.reorder } } := by
  unfold initialTraverse at h
  dsimp only at h
  split at h
  · cases congrArg Prod.fst h
  · rename_i hempty
    refine ⟨by simpa using hempty, ?_⟩
    split at h
    · cases congrArg Prod.fst h
    · rename_i start hdrain
      split at h
      · cases congrArg Prod.fst h
      · simp only [Prod.mk.injEq, Except.ok.injEq] at h
        exact ⟨start, hdrain, h.2.symm⟩

theorem initial_invariant {a : Aim} (hshallow : ctx.shallow = false)
    (hmakes : ctx.Makes a.settings.2.platform a.ok) :
    Queue.Invariant (Traversal.accumulator ctx) (fun _ => ctx.Loads) fun tasks t =>
      (t.edit.Underway a tasks ∧ t.memo.Delivers ctx.Loads) ∧ t.edit.Pristine tasks := by
  have hunderway := Traversal.underway hshallow hmakes
  refine
    { perm := fun hp hi => ⟨hunderway.perm hp hi.1, hi.2.perm hp⟩
      start := fun hi => ?_
      accumulate := fun hi hgood hacc => ⟨hunderway.accumulate hi.1 hgood hacc, ?_⟩
      started := id
      accumulated := fun _ _ => id }
  · obtain ⟨hkept, hgood⟩ := hunderway.start hi.1
    exact ⟨⟨hkept, hi.2⟩, hgood⟩
  · have hprocess := (Traversal.accumulate_ok hacc).1
    rw [hshallow] at hprocess
    exact hi.2.process hi.1.1.steady hprocess

theorem initial_seeded (ok : Module → Prop) (hempty : g.modules.isEmpty) :
    g.seeded.Underway (.initial g.settings ok) g.entryPoints.toList ∧
      g.seeded.Pristine g.entryPoints.toList := by
  have hnone : ∀ q, g.blank.contains q = false := (OrderedMap.isEmpty_iff _).mp hempty
  exact ⟨Edit.underway_initial hnone rfl fun _ => not_false,
    Edit.pristine_initial hnone fun _ => rfl⟩

theorem filled_spec (ok : Module → Prop) (hempty : g.modules.isEmpty)
    (hshallow : ctx.shallow = false) (hmakes : ctx.Makes g.options.platform ok)
    (h : g.filled ctx host = (.ok (), t)) :
    t.edit.graph.Exact ∧ t.edit.graph.AllReached ∧ t.edit.graph.settings = g.settings ∧
      ∀ q m, t.edit.graph.content? q = some m → ok m := by
  obtain ⟨hstart, hpristine⟩ := initial_seeded ok hempty
  obtain ⟨⟨hu, _⟩, hp⟩ := Traversal.drain_invariant (initial_invariant hshallow hmakes)
    ⟨⟨hstart, Traversal.delivers_ofEdit _ host _⟩, hpristine⟩ h
  exact ⟨hu.exact hp fun _ _ => rfl, fun q hq => (hu.marked trivial).reached hp.no_root hq,
    hu.settings, fun q m hm => (hu.ok q m hm).resolve_right List.not_mem_nil⟩

/-- A whole initial traversal: its graph is exact and reached from the entry
points, and every module is as it is to be. -/
theorem initialTraverse_spec (ok : Module → Prop) (hshallow : ctx.shallow = false)
    (hmakes : ctx.Makes g.options.platform ok)
    (h : g.initialTraverse ctx host = (.ok d, t)) :
    t.edit.graph.Exact ∧ t.edit.graph.AllReached ∧ t.edit.graph.settings = g.settings ∧
      ∀ q m, t.edit.graph.content? q = some m → ok m := by
  obtain ⟨hempty, start, hfilled, ht⟩ := initialTraverse_ok h
  obtain ⟨hexact, hreached, hsettings, hok⟩ := filled_spec ok hempty hshallow hmakes hfilled
  have hgraph : t.edit.graph = start.edit.graph.reorder := by rw [ht]
  rw [hgraph]
  refine ⟨hexact.reorder, hreached.reorder, ?_, fun q m hm => ?_⟩
  · rw [settings_reorder]
    exact hsettings
  · rw [content?_reorder] at hm
    exact hok q m hm

section Whole

variable (hshallow : ctx.shallow = false) (h : g.initialTraverse ctx host = (.ok d, t))

include hshallow h

theorem whole_initialTraverse :
    t.edit.graph.Exact ∧ t.edit.graph.AllReached ∧ t.edit.graph.settings = g.settings := by
  obtain ⟨hexact, hreached, hsettings, _⟩ := initialTraverse_spec (fun _ => True)
    hshallow (fun _ _ _ _ _ => trivial) h
  exact ⟨hexact, hreached, hsettings⟩

theorem exact_initialTraverse : t.edit.graph.Exact :=
  (whole_initialTraverse hshallow h).1

theorem allReached_initialTraverse : t.edit.graph.AllReached :=
  (whole_initialTraverse hshallow h).2.1

theorem settings_initialTraverse : t.edit.graph.settings = g.settings :=
  (whole_initialTraverse hshallow h).2.2

end Whole

theorem exists_of_isOk {α τ : Type} {r : Except BuildError α × τ} (h : r.1.isOk) :
    ∃ a, r = (.ok a, r.2) := by
  obtain ⟨result, t⟩ := r
  cases result with
  | error e => cases h
  | ok a => exact ⟨a, rfl⟩

theorem exact_of_isOk (hshallow : ctx.shallow = false)
    (h : (g.initialTraverse ctx host).1.isOk) :
    (g.initialTraverse ctx host).2.edit.graph.Exact :=
  have ⟨_, hd⟩ := exists_of_isOk h
  exact_initialTraverse hshallow hd

end Graph

end BundleGraph
