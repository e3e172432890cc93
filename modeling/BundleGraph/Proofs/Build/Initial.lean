import BundleGraph.Proofs.Build.Run
import BundleGraph.Proofs.Graph.Expected

/-!
# Initial traversals of an input

An initial traversal knows the same input as a build: entries, a resolver and
files. It loads what a build loads, and it succeeds when all of that loads and
gets its edges. It asks less than a build of the keys of the dependencies, and
nothing of the entries, which it takes for paths.
-/

namespace BundleGraph.Build

variable {σ : Type}

namespace Input

/-- What is needed loads, and its dependencies become edges. -/
def Traversable (i : Input) : Prop :=
  ∀ path, i.Included path → ∃ file es, i.files path = .ok file ∧
    i.resolve.edges path i.options.platform file.result.dependencies [] = .ok es

/-- The entries are paths already. -/
def Rooted (i : Input) : Prop :=
  ∀ entry ∈ i.entries, i.resolve none (.ofName entry) i.options.platform = .ok entry

def context (i : Input) (loader : Loader σ) (pace : Pace) : Traversal.Context σ :=
  { resolve := i.resolve, loader, pace }

/-- The graph for the entries before its initial traversal. -/
def graph (i : Input) (options : Transform.Options) : Graph :=
  .ofEntries i.entries { options with platform := i.options.platform }

def traversal (i : Input) (options : Transform.Options) (loader : Loader σ) (pace : Pace)
    (host : σ) : Except BuildError GraphDelta × Traversal σ :=
  (i.graph options).initialTraverse (i.context loader pace) host

variable {i : Input} {loader : Loader σ} {pace : Pace} {host : σ} {options : Transform.Options}
  {path : String} {file : LoadedFile} {es : List Edge}

-- ---------------------------------------------------------------------------
-- Edges
-- ---------------------------------------------------------------------------

theorem Rooted.targets (h : i.Rooted) : i.targets none = i.entries := by
  unfold Input.targets Input.edges Input.dependencies
  suffices hall : ∀ entries : List String, (∀ entry ∈ entries, entry ∈ i.entries) →
      ((entries.map .ofName).filterMap (i.edge? none)).map (·.target) = entries from
    hall i.entries fun _ => id
  intro entries
  induction entries with
  | nil => exact fun _ => rfl
  | cons entry entries ih =>
    intro hin
    have hedge : i.edge? none (.ofName entry) = some ⟨entry, .ofName entry⟩ := by
      rw [edge?, h entry (hin entry (.head _))]
    rw [List.map_cons, List.filterMap_cons_some hedge, List.map_cons,
      ih fun entry h => hin entry (.tail _ h)]

theorem edges_eq (hfile : i.files path = .ok file)
    (h : i.resolve.edges path i.options.platform file.result.dependencies [] = .ok es) :
    es = i.edges (some path) := by
  have hdependencies : i.dependencies (some path) = file.result.dependencies := by
    simp [Input.dependencies, hfile]
  rw [Input.edges, hdependencies]
  generalize file.result.dependencies = ds, ([] : List String) = keys at h
  clear hdependencies
  induction ds generalizing keys es with
  | nil =>
    cases h
    rfl
  | cons d ds ih =>
    rcases Resolver.edges_cons h with ⟨hnone, hrest⟩ | ⟨target, rest, _, hresolve, hrest, rfl⟩
    · rw [ih keys hrest, List.filterMap_cons_none (edge?_of_path? hnone)]
    · have hedge : i.edge? (some path) d = some ⟨target, d⟩ := by rw [edge?, hresolve]
      rw [ih (d.key :: keys) hrest, List.filterMap_cons_some hedge]

-- ---------------------------------------------------------------------------
-- What an initial traversal keeps true
-- ---------------------------------------------------------------------------

theorem loads_ok (hloads : i.Loads loader) (h : (i.context loader pace).Loads path (.ok file)) :
    i.files path = .ok file := by
  obtain ⟨host, hhost⟩ := h
  rw [← hloads path host]
  exact LoadMemo.sharedOutcome_eq_ok.mp hhost.symm

theorem loads_error (hloads : i.Loads loader) {e : BuildError}
    (h : (i.context loader pace).Loads path (.error e)) : ∀ file, i.files path ≠ .ok file := by
  obtain ⟨host, hhost⟩ := h
  intro file hfile
  have hok := LoadMemo.sharedOutcome_eq_ok.mpr ((hloads path host).trans hfile)
  cases hhost.trans hok

/-- Everything that is known is needed, and every task is expected. -/
structure Needed (i : Input) (tasks : List String) (e : Edit) : Prop where
  included : ∀ q ∈ tasks, i.Included q
  contains : ∀ q, e.graph.contains q → i.Included q
  expected : e.Expected tasks

/-- Nothing is asked of the modules but where they come from. -/
def aim (i : Input) (options : Transform.Options) : Aim :=
  { settings := (i.graph options).settings, slack := fun _ _ => 0, old := fun _ => False,
    reached := True, ok := fun _ => True }

/-- What an initial traversal of an input keeps while it works off its tasks. -/
structure Growing (i : Input) (options : Transform.Options) (loader : Loader σ) (pace : Pace)
    (tasks : List String) (t : Traversal σ) : Prop where
  kept : (t.edit.Underway (i.aim options) tasks ∧ t.memo.Delivers (i.context loader pace).Loads) ∧
    t.edit.Pristine tasks
  needed : i.Needed tasks t.edit

section Growing

variable {tasks next : List String} {t t' : Traversal σ}

theorem Growing.platform (h : i.Growing options loader pace tasks t) :
    t.edit.graph.options.platform = i.options.platform := by
  have hoptions : t.edit.graph.options = { options with platform := i.options.platform } :=
    congrArg Prod.snd h.kept.1.1.settings
  rw [hoptions]

theorem Growing.advance (h : i.Growing options loader pace (path :: tasks) t)
    (hskip : ∀ p, i.skips p = false) (hfile : i.files path = .ok file)
    (hprocess : t.edit.process i.resolve false path file = (.ok next, t'.edit)) :
    Edit.Grows path t.edit next t'.edit ∧ i.Needed (tasks ++ next) t'.edit := by
  have hpath := h.needed.included path (.head _)
  obtain ⟨current, arrived, hedges, harrived, hnext, hedit⟩ :=
    h.kept.2.arrives h.needed.expected h.kept.1.1.steady hprocess
  rw [h.platform] at hedges
  obtain rfl := edges_eq hfile hedges
  have hapart := harrived.apart h.kept.1.1.steady.sound.apart
  have hcounting := Edit.counting_addEdges path [] (i.edges (some path)) hapart
  rw [← hnext] at hcounting
  have hgrows := harrived.grows (i.edges (some path))
  rw [← hnext, ← hedit] at hgrows
  have hincluded : ∀ q ∈ next, i.Included q := fun q hq =>
    ⟨.dependency hpath.1 hpath.2 (hcounting.next q hq).2, hskip q⟩
  refine ⟨hgrows, fun q hq => ?_, fun q hq => ?_, ?_⟩
  · rcases List.mem_append.mp hq with hq | hq
    · exact h.needed.included q (.tail _ hq)
    · exact hincluded q hq
  · rcases (hgrows.contains q).mp hq with rfl | hq
    · exact hpath
    · exact h.needed.contains q hq
  · rw [hedit]
    exact h.needed.expected.process harrived hcounting

theorem growing (options : Transform.Options) (pace : Pace) (hloads : i.Loads loader)
    (hskip : ∀ p, i.skips p = false) :
    Queue.Invariant (Traversal.accumulator (i.context loader pace))
      (fun _ => (i.context loader pace).Loads) (i.Growing options loader pace) := by
  have hinvariant : Queue.Invariant (Traversal.accumulator (i.context loader pace))
      (fun _ => (i.context loader pace).Loads) fun tasks t =>
        (t.edit.Underway (i.aim options) tasks ∧ t.memo.Delivers (i.context loader pace).Loads) ∧
          t.edit.Pristine tasks :=
    Graph.initial_invariant rfl fun _ _ _ _ _ => trivial
  refine
    { perm := fun hp h => ⟨hinvariant.perm hp h.kept, fun q hq => h.needed.included q (hp.mem_iff.mpr hq),
        h.needed.contains, h.needed.expected.perm hp⟩
      start := fun h => ?_
      accumulate := fun h hgood hacc => ?_
      started := id
      accumulated := fun _ _ => id }
  · obtain ⟨hkept, hgood⟩ := hinvariant.start h.kept
    exact ⟨⟨hkept, h.needed⟩, hgood⟩
  · have hprocess := (Traversal.accumulate_ok hacc).1
    exact ⟨hinvariant.accumulate h.kept hgood hacc,
      (h.advance hskip (loads_ok hloads hgood) hprocess).2⟩

theorem growing_start (options : Transform.Options) (loader : Loader σ) (pace : Pace)
    (hskip : ∀ p, i.skips p = false) (hrooted : i.Rooted) (host : σ) (total : Nat) :
    i.Growing options loader pace (i.graph options).entryPoints.toList
      (.ofEdit ((i.graph options).blank.entryPoints.toList.foldl
        (fun e entry => e.enqueue entry none) { graph := (i.graph options).blank }) host total) := by
  have hempty : ∀ q, (i.graph options).blank.contains q = false := fun _ => rfl
  refine ⟨⟨⟨Edit.underway_initial hempty rfl fun _ => not_false,
    Traversal.delivers_ofEdit _ host total⟩, Edit.pristine_initial hempty fun _ => rfl⟩,
    fun q hq => ?_, fun q hq => ?_, fun q hq => .inl ?_⟩
  · have hmem : q ∈ i.entries := by
      rw [OrderedSet.mem_toList] at hq
      simpa [Input.graph, Graph.ofEntries, OrderedSet.contains_ofList] using hq
    exact ⟨.entry (hrooted.targets ▸ hmem), hskip q⟩
  · have hgraph := Edit.graph_foldl_enqueue (i.graph options).blank.entryPoints.toList
      { graph := (i.graph options).blank }
    simp only [Traversal.ofEdit, hgraph, hempty q, Bool.false_eq_true] at hq
  · have hgraph := Edit.graph_foldl_enqueue (i.graph options).blank.entryPoints.toList
      { graph := (i.graph options).blank }
    simp only [Traversal.ofEdit, hgraph]
    exact (OrderedSet.mem_toList _ q).mp hq

theorem fails (hloads : i.Loads loader) :
    Queue.Fails (Traversal.accumulator (i.context loader pace))
      (fun _ => (i.context loader pace).Loads) (i.Growing options loader pace)
      fun _ => ¬ i.Traversable where
  result := fun {task ts t e} h hgood htraversable => by
    obtain ⟨file, _, hfile, _⟩ := htraversable task (h.needed.included task (.head _))
    exact loads_error hloads hgood file hfile
  accumulate := fun {task ts file t e t'} h hgood hacc htraversable => by
    obtain ⟨file', es, hfile, hedges⟩ := htraversable task (h.needed.included task (.head _))
    obtain rfl : file' = file := by
      rw [loads_ok hloads hgood, Except.ok.injEq] at hfile
      exact hfile.symm
    obtain ⟨edit, hprocess⟩ : ∃ edit, t.edit.process i.resolve false task file' =
        (.error e, edit) := by
      simp only [Traversal.accumulator, Traversal.accumulate] at hacc
      split at hacc
      · rename_i hprocess
        cases hacc
        exact ⟨_, hprocess⟩
      · cases hacc
    have herror := Edit.process_error hprocess
    rw [h.platform, hedges] at herror
    cases herror

theorem dwindles (options : Transform.Options) (pace : Pace) (hloads : i.Loads loader)
    (hskip : ∀ p, i.skips p = false) {paths : Finset String}
    (hpaths : ∀ path, i.Included path → path ∈ paths) :
    Queue.Dwindles (Traversal.accumulator (i.context loader pace))
      (fun _ => (i.context loader pace).Loads) (i.Growing options loader pace)
      fun t => 2 * (t.edit.unknown paths).card where
  start := fun _ _ => Nat.le_refl _
  accumulate := fun h hgood hacc => by
    obtain ⟨hgrows, hneeded⟩ :=
      h.advance hskip (loads_ok hloads hgood) (Traversal.accumulate_ok hacc).1
    have hcard := hgrows.card_unknown fun q hq =>
      hpaths q (hneeded.included q (List.mem_append_right _ hq))
    omega

end Growing

-- ---------------------------------------------------------------------------
-- The graph of an input
-- ---------------------------------------------------------------------------

/-- Every module of a graph is what the input makes of its path. -/
def Describes (i : Input) (g : Graph) : Prop :=
  ∀ p m, g.modules.get? p = some m → m.path = p ∧ i.files p = .ok ⟨m.result, m.digest⟩ ∧
    i.resolve.edges p i.options.platform m.result.dependencies [] = .ok m.edges

theorem Describes.targets {g : Graph} (h : i.Describes g) (hpath : g.contains path) :
    g.targets path = i.targets (some path) := by
  obtain ⟨m, hm⟩ := (OrderedMap.contains_iff _ _).mp hpath
  obtain ⟨_, hfile, hedges⟩ := h path m hm
  rw [Graph.targets, Graph.edges, hm, Input.targets, ← edges_eq hfile hedges]

/-- The graph of everything that is needed, and of nothing else. -/
structure Grown (i : Input) (g : Graph) : Prop where
  exact : g.Exact
  reached : g.AllReached
  entries : g.entryPoints.toList = i.entries.eraseDups
  contains : ∀ p, g.contains p ↔ i.Included p
  describes : i.Describes g

theorem Grown.traversable {g : Graph} (h : i.Grown g) : i.Traversable := by
  intro path hpath
  obtain ⟨m, hm⟩ := (OrderedMap.contains_iff _ _).mp ((h.contains path).mpr hpath)
  obtain ⟨_, hfile, hedges⟩ := h.describes path m hm
  exact ⟨_, m.edges, hfile, hedges⟩

theorem Grown.finite {g : Graph} (h : i.Grown g) : {path | i.Included path}.Finite :=
  (List.finite_toSet g.modules.keys).subset fun path hpath =>
    (g.modules.mem_keys path).mpr ((h.contains path).mpr hpath)

theorem entryPoints_graph (i : Input) (options : Transform.Options) :
    (i.graph options).entryPoints.toList = i.entries.eraseDups :=
  OrderedSet.toList_ofList_eq_eraseDups i.entries

theorem isEntry_graph (i : Input) (options : Transform.Options) :
    (i.graph options).isEntry path ↔ path ∈ i.entries := by
  rw [Graph.isEntry, ← OrderedSet.mem_toList, entryPoints_graph, List.mem_eraseDups]

variable {d : GraphDelta} {t : Traversal σ}

theorem grown (hloads : i.Loads loader) (hskip : ∀ p, i.skips p = false) (hrooted : i.Rooted)
    (h : i.traversal options loader pace host = (.ok d, t)) : i.Grown t.edit.graph := by
  obtain ⟨hexact, hreached, hsettings⟩ := Graph.whole_initialTraverse rfl h
  have hfresh := Graph.fresh_initialTraverse rfl h
  have hplatform : t.edit.graph.options.platform = i.options.platform := by
    rw [Graph.options_congr hsettings]
    rfl
  have hdescribes : i.Describes t.edit.graph := by
    intro p m hm
    obtain ⟨rfl, ⟨host, hhost⟩, hresolved⟩ := hfresh.module hexact hm
    rw [hplatform] at hresolved
    exact ⟨rfl, (hloads m.path host).symm.trans hhost, hresolved⟩
  have hentry : ∀ p, t.edit.graph.isEntry p ↔ p ∈ i.entries := by
    intro p
    rw [Graph.isEntry_congr hsettings, isEntry_graph]
  refine ⟨hexact, hreached, ?_, fun p => ⟨fun hp => ⟨?_, hskip p⟩, fun hp => ?_⟩, hdescribes⟩
  · rw [Graph.entryPoints_congr hsettings, entryPoints_graph]
  · obtain ⟨r, hr, hreach⟩ := hreached p hp
    clear hp
    induction hreach with
    | refl => exact .entry (hrooted.targets ▸ (hentry r).mp hr)
    | tail _ hs ih =>
      have hx := Graph.contains_of_mem_targets hs.1
      exact .dependency ih (hskip _) (hdescribes.targets hx ▸ hs.1)
  · induction hp.1 with
    | entry hpath => exact hexact.entries _ ((hentry _).mpr (hrooted.targets ▸ hpath))
    | dependency horigin _ hpath ih =>
      have hcontains := ih ⟨horigin, hskip _⟩
      exact hexact.contains_target (hdescribes.targets hcontains ▸ hpath)

/-- When everything needed loads and gets its edges, and is finitely much, a
traversal succeeds within a number of moves that does not depend on the order. -/
theorem traverses (hskip : ∀ p, i.skips p = false) (hrooted : i.Rooted)
    (htraversable : i.Traversable) (hfinite : {path | i.Included path}.Finite) :
    ∃ moves, ∀ (loader : Loader σ) (pace : Pace) (host : σ), i.Loads loader →
      moves < pace.budget → ∃ d t, i.traversal options loader pace host = (.ok d, t) := by
  refine ⟨2 * (i.graph options).entryPoints.toList.length + 2 * hfinite.toFinset.card, ?_⟩
  intro loader pace host hloads hbudget
  have hinvariant := growing options pace hloads hskip
  have hstart := growing_start options loader pace hskip hrooted host
    (i.graph options).entryPoints.toList.length
  have hdwindles := dwindles options pace hloads hskip fun path hpath =>
    hfinite.mem_toFinset.mpr hpath
  have hdrains := Queue.drain_ends hinvariant hdwindles (i.context loader pace).pace _ _ hstart
    (Nat.lt_of_le_of_lt (Nat.add_le_add_left (Nat.mul_le_mul_left 2 (Edit.card_unknown_le _ _)) _)
      hbudget)
  obtain ⟨result, start, hdrain⟩ := hdrains
  cases result with
  | error e =>
    exact absurd htraversable (Queue.drain_error hinvariant (fails hloads) _ _ _ hstart hdrain)
  | ok _ =>
    have hend := Queue.drain_invariant hinvariant _ _ _ hstart hdrain
    have hexact := hend.kept.1.1.exact hend.kept.2 fun _ _ => rfl
    have hreached : start.edit.graph.AllReached :=
      fun q hq => (hend.kept.1.1.marked trivial).reached hend.kept.2.no_root hq
    refine ⟨_, _, Graph.initialTraverse_of_filled rfl ?_ (Graph.length_order hexact hreached)⟩
    unfold Graph.filled Graph.seeded Traversal.drain
    rw [hdrain]

end Input

end BundleGraph.Build
