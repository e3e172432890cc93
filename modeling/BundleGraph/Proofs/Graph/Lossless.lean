import BundleGraph.Proofs.Graph.Ends
import BundleGraph.Proofs.InsertionOrder
import BundleGraph.Proofs.Loads.Calls

/-!
# Initial traversals lose nothing

Every path that an initial traversal asks for becomes a module, made of the file
that was loaded for it, and every module is reached from the entry points. So the
walk that puts the modules in order comes to all of them, and to nothing else.
-/

namespace BundleGraph

variable {σ : Type}

namespace Graph

variable {g : Graph}

-- ---------------------------------------------------------------------------
-- The order of the modules
-- ---------------------------------------------------------------------------

/-- The modules are in depth-first pre-order from the entry points, over their own
edges. -/
def InOrder (g : Graph) : Prop :=
  Preorder.Descent (fun p => (g.modules.get? p).map Module.targets) g.entryPoints.toList []
    g.modules.keys

theorem descent_order_modules (g : Graph) :
    Preorder.Descent (fun p => (g.modules.get? p).map Module.targets) g.entryPoints.toList []
      g.order := by
  simp only [← getElem?_adjacency]
  exact Preorder.descent_preorder g.adjacency g.entryPoints.toList

theorem map_fst_withModules {paths : List String} (h : ∀ p ∈ paths, g.contains p) :
    (g.withModules paths).map (·.1) = paths := by
  induction paths with
  | nil => rfl
  | cons p paths ih =>
    obtain ⟨m, hm⟩ := (OrderedMap.contains_iff _ _).mp (h p (.head _))
    rw [withModules, List.filterMap_cons_some (by rw [hm]; rfl), List.map_cons, ← withModules,
      ih fun q hq => h q (.tail _ hq)]

theorem keys_reorder (hg : g.Exact) (hall : g.AllReached) : g.reorder.modules.keys = g.order := by
  have hfront : (g.withModules g.order).map (·.1) = g.order :=
    map_fst_withModules fun p hp => (mem_order hg hall p).mp hp
  have hrest : g.modules.toList.filter (fun e => !(OrderedSet.ofList g.order).contains e.1) = [] := by
    rw [List.filter_eq_nil_iff]
    rintro ⟨p, m⟩ hmem
    have hp := (g.modules.contains_iff p).mpr ⟨m, (g.modules.mem_toList p m).mp hmem⟩
    simpa [OrderedSet.contains_ofList] using (mem_order hg hall p).mpr hp
  have hmodules : g.reorder.modules = .ofList (g.withModules g.order) := by
    unfold reorder
    dsimp only
    rw [hrest, List.append_nil, withModules]
  have hnodup : ((g.withModules g.order).map (·.1)).Nodup := by
    rw [hfront]
    exact OrderedSet.nodup_toList _
  rw [hmodules, OrderedMap.keys, OrderedMap.toList_ofList _ hnodup, hfront]

theorem inOrder_reorder (hg : g.Exact) (hall : g.AllReached) : g.reorder.InOrder := by
  rw [InOrder, keys_reorder hg hall, entryPoints_congr g.settings_reorder]
  simp only [get?_reorder]
  exact g.descent_order_modules

end Graph

-- ---------------------------------------------------------------------------
-- What an initial traversal loads
-- ---------------------------------------------------------------------------

/-- The content of the file is that of the module. -/
def Module.file (m : Module) : LoadedFile := ⟨m.result, m.digest⟩

/-- What an initial traversal keeps while it works off its tasks: what was loaded is
a module or a task, and what is a module was loaded. -/
structure Filling (settings : OrderedSet String × Transform.Options) (tasks : List String)
    (t : Traversal (σ × LoadLog)) : Prop where
  underway : t.edit.Underway (.initial settings fun _ => True) tasks
  pristine : t.edit.Pristine tasks
  expected : t.edit.Expected tasks
  noted : t.memo.Noted
  held : ∀ p result, t.memo.Holds p result → t.edit.graph.contains p ∨ p ∈ tasks
  content : ∀ p m, t.edit.graph.content? p = some m → t.memo.Holds p (.ok m.file)

namespace Filling

variable {settings : OrderedSet String × Transform.Options} {tasks next : List String}
  {t t' : Traversal (σ × LoadLog)} {ctx : Traversal.Context σ} {path : String} {file : LoadedFile}

theorem perm {tasks' : List String} (h : Filling settings tasks t) (hp : tasks.Perm tasks') :
    Filling settings tasks' t :=
  { h with
    underway := h.underway.perm hp
    pristine := h.pristine.perm hp
    expected := h.expected.perm hp
    held := fun p result hheld => (h.held p result hheld).imp_right hp.mem_iff.mp }

theorem start (h : Filling settings (path :: tasks) t) :
    Filling settings (path :: tasks) (Traversal.start ctx.recording path t).2 := by
  have hmemo : (Traversal.start ctx.recording path t).2.memo =
    (t.memo.load ctx.loader.recording path).2 := rfl
  refine
    { h with
      noted := h.noted.load ctx.loader path
      held := fun p result hheld => ?_
      content := fun p m hm => ?_ }
  · rw [hmemo] at hheld
    rcases hheld.of_load with rfl | hheld
    · exact .inr (.head _)
    · exact h.held p result hheld
  · rw [hmemo]
    exact (h.content p m hm).load path

theorem accumulate {resolve : Resolver} (h : Filling settings (path :: tasks) t)
    (hheld : t.memo.Holds path (.ok file)) (hmemo : t'.memo = t.memo.settle path file)
    (hprocess : t.edit.process resolve false path file = (.ok next, t'.edit)) :
    Filling settings (tasks ++ next) t' := by
  obtain ⟨current, arrived, -, harrived, hnext, hedit⟩ :=
    h.pristine.arrives h.expected h.underway.steady hprocess
  have hapart := harrived.apart h.underway.steady.sound.apart
  have hcounting := Edit.counting_addEdges path [] current hapart
  have hgrows := harrived.grows current
  rw [← hnext] at hcounting
  rw [← hnext, ← hedit] at hgrows
  obtain ⟨hprocessed, -⟩ := Edit.processed (fun _ => False) h.underway.steady hprocess
  have hholds : ∀ {p result}, t'.memo.Holds p result ↔ t.memo.Holds p result := by
    rw [hmemo]
    exact LoadMemo.holds_settle hheld
  refine
    { underway := h.underway.process (fun _ _ => trivial) hprocess
      pristine := h.pristine.process h.underway.steady hprocess
      expected := ?_
      noted := ?_
      held := fun p result hp => ?_
      content := fun p m hm => ?_ }
  · rw [hedit]
    exact h.expected.process harrived hcounting
  · rw [hmemo]
    exact h.noted.settle hheld
  · rw [hgrows.contains]
    rcases h.held p result (hholds.mp hp) with hp | hp
    · exact .inl (.inr hp)
    · rcases List.mem_cons.mp hp with rfl | hp
      · exact .inl (.inl rfl)
      · exact .inr (List.mem_append_left _ hp)
  · rw [hholds]
    have hcontains := Graph.contains_of_content? hm
    by_cases hp : path = p
    · subst hp
      obtain ⟨_, -, hself⟩ := hprocessed.self hcontains
      rw [hself, Option.some.injEq] at hm
      exact hm ▸ hheld
    · rw [hprocessed.other p hp hcontains] at hm
      exact h.content p m hm

end Filling

theorem filling_seeded {g : Graph} (hempty : g.modules.isEmpty) (host : σ) (total : Nat) :
    Filling g.settings g.entryPoints.toList (.ofEdit g.seeded (host, []) total) := by
  obtain ⟨hunderway, hpristine⟩ := Graph.initial_seeded (fun _ => True) hempty
  have hgraph : g.seeded.graph = g.blank := Edit.graph_foldl_enqueue _ _
  refine
    { underway := hunderway
      pristine := hpristine
      expected := fun q hq => .inl ?_
      noted := LoadMemo.noted_new host
      held := fun p result hheld => ?_
      content := fun p m hm => ?_ }
  · rw [Traversal.ofEdit, hgraph]
    exact (OrderedSet.mem_toList _ q).mp hq
  · obtain ⟨st, hst, -⟩ := hheld
    simp [Traversal.ofEdit] at hst
  · have hp := Graph.contains_of_content? hm
    rw [Traversal.ofEdit, hgraph] at hp
    have hnone : g.blank.contains p = false := (OrderedMap.isEmpty_iff _).mp hempty p
    rw [hnone] at hp
    cases hp

namespace Filling

variable {settings : OrderedSet String × Transform.Options} {t : Traversal (σ × LoadLog)}

theorem mem_log (h : Filling settings [] t) {p : String} {outcome : Except BuildError LoadedFile} :
    (p, outcome) ∈ t.memo.host.2 ↔
      ∃ m, t.edit.graph.content? p = some m ∧ outcome = .ok m.file := by
  constructor
  · intro hmem
    have hheld := (h.noted p _).mpr ⟨outcome, hmem, rfl⟩
    have hcontains := (h.held p _ hheld).resolve_right List.not_mem_nil
    obtain ⟨m, hm⟩ := Graph.exists_content? hcontains
    exact ⟨m, hm, LoadMemo.sharedOutcome_eq_ok.mp (hheld.unique (h.content p m hm))⟩
  · rintro ⟨m, hm, rfl⟩
    obtain ⟨outcome, hmem, hshared⟩ := (h.noted p _).mp (h.content p m hm)
    rwa [← LoadMemo.sharedOutcome_eq_ok.mp hshared]

theorem loads (h : Filling settings [] t) (hpassed : t.memo.passed.Nodup) {g : Graph}
    (hg : ∀ p, g.content? p = t.edit.graph.content? p) :
    t.memo.host.2.Perm (g.modules.toList.map fun e => (e.1, .ok e.2.file)) := by
  have hkeys : ((g.modules.toList.map fun e => (e.1, Except.ok (ε := BuildError) e.2.file)).map
      (·.1)).Nodup := by
    rw [List.map_map]
    exact g.modules.nodup_keys
  refine (List.perm_ext_iff_of_nodup (.of_map _ hpassed) (.of_map _ hkeys)).mpr ?_
  rintro ⟨p, outcome⟩
  rw [h.mem_log, ← hg, List.mem_map]
  constructor
  · rintro ⟨m, hm, rfl⟩
    obtain ⟨m', hm', rfl⟩ := Option.map_eq_some_iff.mp hm
    exact ⟨(p, m'), (g.modules.mem_toList p m').mpr hm', rfl⟩
  · rintro ⟨⟨q, m⟩, hm, heq⟩
    cases heq
    have hget := (g.modules.mem_toList q m).mp hm
    exact ⟨m.content, by rw [Graph.content?, hget]; rfl, rfl⟩

end Filling

-- ---------------------------------------------------------------------------
-- The traversal
-- ---------------------------------------------------------------------------

/-- A graph in order that has a module for each path that was loaded, made of what
was loaded and resolved for it, and no other module. -/
structure Graph.Lossless (ctx : Traversal.Context σ) (log : LoadLog) (g : Graph) : Prop where
  order : g.InOrder
  entries : ∀ p, g.isEntry p → g.contains p
  targets : ∀ p q, q ∈ g.targets p → g.contains q
  edges : ∀ p m, g.modules.get? p = some m → m.path = p ∧
    ctx.resolve.edges m.path g.options.platform m.result.dependencies [] = .ok m.edges
  loads : log.Perm (g.modules.toList.map fun e => (e.1, .ok e.2.file))

namespace Graph

variable {g : Graph} {ctx : Traversal.Context σ} {host : σ} {d : GraphDelta} {t : Traversal σ}

theorem initial_fails (ctx : Traversal.Context σ) (Inv : List String → Traversal σ → Prop) :
    Queue.Fails (Traversal.accumulator ctx) (fun _ => ctx.Loads) Inv fun e =>
      ∀ reason, e ≠ .invalidOperation reason where
  result := fun {path ts t e} _ hgood reason => by
    obtain ⟨host, hhost⟩ := hgood
    rintro rfl
    cases hload : (ctx.loader.load path host).1.outcome <;>
      simp [hload, LoadMemo.sharedOutcome, Except.mapError] at hhost
  accumulate := fun _ _ hacc reason => by
    rintro rfl
    rcases Resolver.edges_error (Traversal.accumulate_error hacc) with ⟨_, h⟩ | ⟨_, h⟩ <;> cases h

theorem filled_error (hempty : g.modules.isEmpty) (hshallow : ctx.shallow = false) {e : BuildError}
    (h : g.filled ctx host = (.error e, t)) (reason : String) : e ≠ .invalidOperation reason := by
  obtain ⟨hstart, hpristine⟩ := initial_seeded (fun _ => True) hempty
  have hinvariant := initial_invariant (a := .initial g.settings fun _ => True) hshallow
    fun _ _ _ _ _ => trivial
  unfold filled Traversal.drain at h
  split at h
  · rename_i hdrain
    cases h
    exact Queue.drain_error hinvariant (initial_fails ctx _) _ _ _
      ⟨⟨hstart, Traversal.delivers_ofEdit _ host _⟩, hpristine⟩ hdrain reason
  · cases h
    exact nofun

/-- Whatever the tasks of a whole traversal come to, putting the modules in order does
not fail. -/
theorem initialTraverse_of_empty (hempty : g.modules.isEmpty) (hshallow : ctx.shallow = false)
    (host : σ) : g.initialTraverse ctx host =
      match g.filled ctx host with
      | (.error e, t) => (.error e, t)
      | (.ok (), t) => (.ok ⟨t.edit.graph.reorder.modules.toList, [], []⟩,
          { t with edit := { t.edit with graph := t.edit.graph.reorder } }) := by
  cases hfilled : g.filled ctx host with
  | mk result t =>
    cases result with
    | error e => exact initialTraverse_of_failed hempty hfilled
    | ok _ =>
      obtain ⟨hexact, hreached, -, -⟩ :=
        filled_spec (fun _ => True) hempty hshallow (fun _ _ _ _ _ => trivial) hfilled
      exact initialTraverse_of_filled hempty hfilled (length_order hexact hreached)

theorem initialTraverse_ne_invalidOperation (hempty : g.modules.isEmpty)
    (hshallow : ctx.shallow = false) (host : σ) (reason : String) :
    (g.initialTraverse ctx host).1 ≠ .error (.invalidOperation reason) := by
  rw [initialTraverse_of_empty hempty hshallow]
  cases hfilled : g.filled ctx host with
  | mk result t =>
    cases result with
    | error e =>
      have hne := filled_error hempty hshallow hfilled reason
      simpa using hne
    | ok _ => exact nofun

theorem filling_filled {t : Traversal (σ × LoadLog)} (hempty : g.modules.isEmpty)
    (hshallow : ctx.shallow = false) (h : g.filled ctx.recording (host, []) = (.ok (), t)) :
    Filling g.settings [] t := by
  refine Traversal.drain_invariant (Traversal.holding ?_ ?_ ?_)
    (filling_seeded hempty host g.entryPoints.toList.length) h
  · exact fun hp h => h.perm hp
  · exact fun h => h.start
  · intro path ts t file next t' h hheld hmemo hprocess
    have hrecording : ctx.recording.shallow = false := hshallow
    rw [hrecording] at hprocess
    exact h.accumulate hheld hmemo hprocess

theorem lossless_recording {t : Traversal (σ × LoadLog)} (hempty : g.modules.isEmpty)
    (hshallow : ctx.shallow = false)
    (h : g.initialTraverse ctx.recording (host, []) = (.ok d, t)) :
    Lossless ctx t.memo.host.2 t.edit.graph ∧ t.edit.graph.settings = g.settings ∧
      d = ⟨t.edit.graph.modules.toList, [], []⟩ := by
  have hrecording : ctx.recording.shallow = false := hshallow
  have hfresh := fresh_initialTraverse hrecording h
  have hcalled : t.memo.Called ctx.loader.recording (host, []) := by
    have hcalled := called_initialTraverse g ctx.recording (host, [])
    rwa [h] at hcalled
  rw [initialTraverse_of_empty hempty hrecording] at h
  cases hfilled : g.filled ctx.recording (host, []) with
  | mk result start =>
    rw [hfilled] at h
    cases result with
    | error e => cases h
    | ok _ =>
      obtain ⟨hexact, hreached, hsettings, -⟩ :=
        filled_spec (fun _ => True) hempty hrecording (fun _ _ _ _ _ => trivial) hfilled
      have hfilling := filling_filled hempty hshallow hfilled
      obtain ⟨hd, rfl⟩ := Prod.mk.inj h
      obtain rfl := Except.ok.inj hd
      refine ⟨?_, (settings_reorder _).trans hsettings, rfl⟩
      exact
        { order := inOrder_reorder hexact hreached
          entries := hexact.reorder.entries
          targets := fun p q => hexact.reorder.contains_target
          edges := fun p m hm => (hfresh.module hexact.reorder hm).imp_right (·.resolved)
          loads := hfilling.loads hcalled.nodup start.edit.graph.content?_reorder }

/-- A whole traversal of an empty graph loses nothing. Whatever the loader delivers and
in whatever order, it does not fail for a module that is not reached; and when it
succeeds, the graph has the loaded modules and no others, in depth-first pre-order from
the entry points, and it reports them all as added in this order. -/
theorem initialTraverse_lossless (hempty : g.modules.isEmpty) (hshallow : ctx.shallow = false)
    (host : σ) :
    (∀ reason, (g.initialTraverse ctx host).1 ≠ .error (.invalidOperation reason)) ∧
    ∀ d t, g.initialTraverse ctx host = (.ok d, t) →
      d = ⟨t.edit.graph.modules.toList, [], []⟩ ∧ t.edit.graph.settings = g.settings ∧
      ∃ recorded, g.initialTraverse ctx.recording (host, []) = (.ok d, recorded) ∧
        recorded.unrecorded = t ∧ t.edit.graph.Lossless ctx recorded.memo.host.2 := by
  refine ⟨initialTraverse_ne_invalidOperation hempty hshallow host, fun d t h => ?_⟩
  rw [g.initialTraverse_recording ctx host []] at h
  obtain ⟨hresult, rfl⟩ := Prod.mk.inj h
  have hrecorded : g.initialTraverse ctx.recording (host, []) =
      (.ok d, (g.initialTraverse ctx.recording (host, [])).2) := Prod.ext hresult rfl
  obtain ⟨hlossless, hsettings, hdelta⟩ := lossless_recording hempty hshallow hrecorded
  exact ⟨hdelta, hsettings, _, hrecorded, rfl, hlossless⟩

/-- `y` is loaded before `z`, which only `x` imports, but comes behind it in the graph;
`z` imports the entry. -/
theorem initialTraverse_lossless_reordered :
    ∃ (g : Graph) (ctx : Traversal.Context Unit) (d : GraphDelta) (t : Traversal Unit)
      (log : LoadLog), g.modules.isEmpty ∧ ctx.shallow = false ∧
      g.initialTraverse ctx () = (.ok d, t) ∧ t.edit.graph.Lossless ctx log ∧
      log.map (·.1) = ["e", "x", "y", "z"] ∧ d.added.map (·.1) = ["e", "x", "z", "y"] := by
  let g := Graph.ofEntries ["e"] {}
  let ctx := Traversal.Context.ofImports fun path =>
    if path = "e" then ["x", "y"] else if path = "x" then ["z"] else if path = "z" then ["e"] else []
  have hrun : ((g.initialTraverse ctx.recording ((), [])).1.toOption.map (·.added.map (·.1)),
      (g.initialTraverse ctx.recording ((), [])).2.memo.host.2.map (·.1)) =
      (some ["e", "x", "z", "y"], ["e", "x", "y", "z"]) := by
    decide +kernel
  have hempty : g.modules.isEmpty := rfl
  have hshallow : ctx.shallow = false := rfl
  clear_value g ctx
  obtain ⟨hadded, hlog⟩ := Prod.mk.inj hrun
  obtain ⟨d, hd⟩ : ∃ d, (g.initialTraverse ctx.recording ((), [])).1 = .ok d := by
    cases hresult : (g.initialTraverse ctx.recording ((), [])).1 with
    | error e => simp [hresult, Except.toOption] at hadded
    | ok d => exact ⟨d, rfl⟩
  have h := g.initialTraverse_recording ctx () []
  rw [hd] at h
  obtain ⟨-, -, recorded, hrecorded, -, hlossless⟩ :=
    (initialTraverse_lossless hempty hshallow ()).2 d _ h
  refine ⟨g, ctx, d, _, _, hempty, hshallow, h, hlossless, ?_, ?_⟩
  · rwa [hrecorded] at hlog
  · simpa [hd, Except.toOption] using hadded

end Graph

end BundleGraph
