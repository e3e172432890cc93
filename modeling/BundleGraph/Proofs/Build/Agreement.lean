import BundleGraph.Proofs.Build.Closure
import BundleGraph.Proofs.Build.Initial

/-!
# Builds and initial traversals agree

The one-shot build and the initial traversal of a graph are two programs for one
closure. Where both succeed they give the same modules in the same order. They
differ in what they ask of declared keys: a build refuses a module that declares
a key twice, a traversal only one that has an edge for the key already, so that
an optional dependency that is not found leaves its key free.
-/

namespace BundleGraph

open BundleGraph.Preorder (Descent)

/-- The same path, edges and content, and the same referrers as often. -/
structure Module.Same (m m' : Module) : Prop where
  path : m.path = m'.path
  edges : m.edges = m'.edges
  result : m.result = m'.result
  digest : m.digest = m'.digest
  inverse : ∀ origin, m.inverse.count origin = m'.inverse.count origin

/-- The same modules in the same order, and the same entries. -/
structure BuildResult.Same (r r' : BuildResult) : Prop where
  modules : List.Forall₂ Module.Same r.modules r'.modules
  entries : List.Forall₂ Module.Same r.entries r'.entries

theorem Resolver.edges_ok {resolve : Resolver} {origin : String} {platform : Option String}
    {ds : List Dependency} (keys : List String) (hnodup : (ds.map (·.key)).Nodup)
    (hkeys : ∀ d ∈ ds, d.key ∉ keys)
    (hpath : ∀ d ∈ ds, ∃ target, resolve.path? (some origin) d platform = .ok target) :
    ∃ es, resolve.edges origin platform ds keys = .ok es := by
  induction ds generalizing keys with
  | nil => exact ⟨[], rfl⟩
  | cons d ds ih =>
    obtain ⟨hd, hnodup⟩ := List.nodup_cons.mp hnodup
    obtain ⟨target, htarget⟩ := hpath d (.head _)
    have hrest := fun d' hd' => hpath d' (.tail _ hd')
    rw [edges, if_neg (hkeys d (.head _)), htarget]
    cases target with
    | none => exact ih keys hnodup (fun d' hd' => hkeys d' (.tail _ hd')) hrest
    | some target =>
      have hfree : ∀ d' ∈ ds, d'.key ∉ d.key :: keys := by
        intro d' hd' hmem
        rcases List.mem_cons.mp hmem with heq | hmem
        · exact hd (List.mem_map.mpr ⟨d', hd', heq⟩)
        · exact hkeys d' (.tail _ hd') hmem
      obtain ⟨es, hes⟩ := ih (d.key :: keys) hnodup hfree hrest
      exact ⟨⟨target, d⟩ :: es, by rw [hes]; rfl⟩

theorem Resolver.path?_of_edges {resolve : Resolver} {origin : String} {platform : Option String}
    {ds : List Dependency} {keys : List String} {es : List Edge}
    (h : resolve.edges origin platform ds keys = .ok es) {d : Dependency} (hd : d ∈ ds) :
    ∃ target, resolve.path? (some origin) d platform = .ok target := by
  induction ds generalizing keys es with
  | nil => cases hd
  | cons d' ds ih =>
    rcases edges_cons h with ⟨hnone, hrest⟩ | ⟨target, rest, _, hresolve, hrest, _⟩
    · rcases List.mem_cons.mp hd with rfl | hd
      · exact ⟨none, hnone⟩
      · exact ih hrest hd
    · rcases List.mem_cons.mp hd with rfl | hd
      · exact ⟨some target, path?_eq_some.mpr hresolve⟩
      · exact ih hrest hd

theorem forall₂_of_map_eq {α β : Type} {R : α → α → Prop} {f : α → β} {l l' : List α}
    (hmap : l.map f = l'.map f) (hR : ∀ a ∈ l, ∀ a' ∈ l', f a = f a' → R a a') :
    List.Forall₂ R l l' := by
  induction l generalizing l' with
  | nil =>
    obtain rfl : l' = [] := by simpa using hmap.symm
    exact .nil
  | cons a l ih =>
    cases l' with
    | nil => cases hmap
    | cons a' l' =>
      rw [List.map_cons, List.map_cons, List.cons.injEq] at hmap
      exact .cons (hR a (.head _) a' (.head _) hmap.1)
        (ih hmap.2 fun b hb b' hb' => hR b (.tail _ hb) b' (.tail _ hb'))

namespace Build

variable {i : Input}

/-- What a build asks for beyond what a traversal does. -/
def Input.DistinctKeys (i : Input) : Prop :=
  ∀ path, i.Included path → ((i.dependencies (some path)).map (·.key)).Nodup

theorem Input.Rooted.buildable_iff (hrooted : i.Rooted) :
    i.Buildable ↔ i.Traversable ∧ i.DistinctKeys := by
  constructor
  · intro h
    refine ⟨fun path hpath => ?_, h.keys⟩
    obtain ⟨file, hfile⟩ := h.loads path hpath
    have hdependencies : i.dependencies (some path) = file.result.dependencies := by
      simp [Input.dependencies, hfile]
    have hnodup := h.keys path hpath
    rw [hdependencies] at hnodup
    obtain ⟨es, hes⟩ := Resolver.edges_ok [] hnodup (fun _ _ => List.not_mem_nil)
      fun d hd => h.path?_ok (show i.Origin (some path) from hpath) (hdependencies ▸ hd)
    exact ⟨file, es, hfile, hes⟩
  · rintro ⟨htraversable, hkeys⟩
    refine ⟨fun entry hentry => ⟨entry, hrooted entry hentry⟩, fun path hpath => ?_, hkeys,
      fun path hpath d hd => ?_⟩
    · obtain ⟨file, _, hfile, _⟩ := htraversable path hpath
      exact ⟨file, hfile⟩
    · obtain ⟨file, es, hfile, hes⟩ := htraversable path hpath
      have hmem : d ∈ file.result.dependencies := by
        simpa [Input.dependencies, hfile] using hd
      obtain ⟨target, htarget⟩ := Resolver.path?_of_edges hes hmem
      cases target with
      | none => exact .inr (Resolver.path?_eq_none.mp htarget)
      | some target => exact .inl ⟨target, Resolver.path?_eq_some.mp htarget⟩

-- ---------------------------------------------------------------------------
-- One closure
-- ---------------------------------------------------------------------------

namespace Input

variable {g : Graph} {r r' : BuildResult}

theorem Grown.map_path (h : i.Grown g) {paths : List String} (hpaths : ∀ p ∈ paths, g.contains p) :
    (paths.filterMap g.modules.get?).map (·.path) = paths := by
  induction paths with
  | nil => rfl
  | cons p paths ih =>
    obtain ⟨m, hm⟩ := (OrderedMap.contains_iff _ _).mp (hpaths p (.head _))
    rw [List.filterMap_cons_some hm, List.map_cons, (h.describes p m hm).1,
      ih fun q hq => hpaths q (.tail _ hq)]

theorem Grown.mem_modules (h : i.Grown g) {m : Module} :
    m ∈ g.buildResult.modules ↔ g.modules.get? m.path = some m := by
  rw [Graph.buildResult, List.mem_filterMap]
  constructor
  · rintro ⟨p, _, hm⟩
    rwa [(h.describes p m hm).1]
  · intro hm
    exact ⟨m.path, (Graph.mem_order h.exact h.reached m.path).mpr
      ((OrderedMap.contains_iff _ _).mpr ⟨m, hm⟩), hm⟩

theorem Grown.edgeCount_eq (h : i.Grown g) (origin target : String) :
    g.buildResult.edgeCount origin target = (g.targets origin).count target := by
  have hmap : g.buildResult.modules.map (·.path) = g.order :=
    h.map_path fun p => (Graph.mem_order h.exact h.reached p).mp
  have hnodup : (g.buildResult.modules.map (·.path)).Nodup := by
    rw [hmap]
    exact (Graph.descent_order (fun p => some (g.targets p)) (fun _ _ => h.exact.contains_target)
      h.exact.entries fun _ _ => rfl).2.1
  unfold BuildResult.edgeCount
  rw [Graph.targets, Graph.edges]
  cases hm : g.modules.get? origin with
  | some m =>
    obtain rfl := (h.describes origin m hm).1
    rw [filter_key hnodup (h.mem_modules.mpr hm)]
    simp [Module.targets]
  | none =>
    rw [List.filter_eq_nil_iff.mpr]
    · rfl
    · rintro m hmem heq
      obtain rfl : m.path = origin := of_decide_eq_true heq
      rw [h.mem_modules.mp hmem] at hm
      cases hm

theorem Grown.isClosure (h : i.Grown g) (hskip : ∀ p, i.skips p = false) (hrooted : i.Rooted) :
    i.IsClosure g.buildResult := by
  have hmem := Graph.mem_order h.exact h.reached
  have hmap : g.buildResult.modules.map (·.path) = g.order := h.map_path fun p => (hmem p).mp
  have hchildren : ∀ p, g.contains p → i.children p = some (g.targets p) := by
    intro p hp
    rw [Input.children, if_neg (by simp [hskip p]), h.describes.targets hp]
  have horder := Graph.descent_order i.children (fun _ _ => h.exact.contains_target)
    h.exact.entries hchildren
  have hentries : ∀ p ∈ g.entryPoints.toList, g.contains p :=
    fun p hp => h.exact.entries p ((OrderedSet.mem_toList _ p).mp hp)
  exact
    { order := by
        rw [hmap, hrooted.targets]
        exact Descent.of_eraseDups (h.entries ▸ horder.1)
      included := fun p => by rw [hmap, hmem, h.contains]
      nodup := by
        rw [hmap]
        exact horder.2.1
      content := fun m hm => by
        obtain ⟨_, hfile, hedges⟩ := h.describes m.path m (h.mem_modules.mp hm)
        exact ⟨hfile, edges_eq hfile hedges⟩
      inverse := fun m hm origin => by
        rw [h.edgeCount_eq]
        exact (h.exact.consistent m.path m (h.mem_modules.mp hm)).2 origin
      entries := by
        have hall : i.entries.eraseDups.filter (!i.skips ·) = i.entries.eraseDups :=
          List.filter_eq_self.mpr fun p _ => by simp [hskip p]
        rw [hrooted.targets, hall, ← h.entries]
        exact h.map_path hentries
      mem_entries := fun m hm => by
        obtain ⟨p, _, hp⟩ := List.mem_filterMap.mp hm
        rw [h.mem_modules, (h.describes p m hp).1]
        exact hp }

theorem IsClosure.edgeCount_eq (h : i.IsClosure r) (origin target : String) :
    r.edgeCount origin target = (((r.modules.map (·.path)).filter (· = origin)).flatMap
      fun p => i.targets (some p)).count target := by
  rw [BuildResult.edgeCount, List.filter_map, List.flatMap_map]
  congr 1
  refine List.flatMap_congr fun m hm => ?_
  rw [Module.targets, (h.content m (List.mem_filter.mp hm).1).2]
  rfl

theorem IsClosure.same (h : i.IsClosure r) (h' : i.IsClosure r') : r.Same r' := by
  have hpaths : r.modules.map (·.path) = r'.modules.map (·.path) := h.order.unique h'.order
  have hmodule : ∀ m ∈ r.modules, ∀ m' ∈ r'.modules, m.path = m'.path → m.Same m' := by
    intro m hm m' hm' hpath
    obtain ⟨hfile, hedges⟩ := h.content m hm
    obtain ⟨hfile', hedges'⟩ := h'.content m' hm'
    rw [hpath, hfile', Except.ok.injEq, LoadedFile.mk.injEq] at hfile
    refine ⟨hpath, ?_, hfile.1.symm, hfile.2.symm, fun origin => ?_⟩
    · rw [hedges, hedges', hpath]
    · rw [h.inverse m hm, h'.inverse m' hm', hpath, h.edgeCount_eq, h'.edgeCount_eq, hpaths]
  refine ⟨forall₂_of_map_eq hpaths hmodule, ?_⟩
  exact forall₂_of_map_eq (h.entries.trans h'.entries.symm) fun m hm m' hm' =>
    hmodule m (h.mem_entries m hm) m' (h'.mem_entries m' hm')

end Input

-- ---------------------------------------------------------------------------
-- Builds against traversals
-- ---------------------------------------------------------------------------

variable {σ τ : Type} {loader : Loader σ} {loader' : Loader τ}

/-- For entries that are paths and no skipped path, a build succeeds exactly when
the initial traversal does and no module that it leaves declares a key twice,
whatever the order in which the loads of either complete. The results of both are
the same. -/
theorem outcome_agrees_initialTraverse (options : Transform.Options)
    (hskip : ∀ path, i.skips path = false)
    (hrooted : ∀ entry ∈ i.entries, i.resolve none (.ofName entry) i.options.platform = .ok entry)
    (hloads : i.Loads loader) (hloads' : i.Loads loader') (host : σ) (host' : τ) :
    (∀ schedule schedule', (∃ budget result,
        i.outcome loader ⟨schedule, budget⟩ host = .ok result) ↔
      ∃ budget d t, i.traversal options loader' ⟨schedule', budget⟩ host' = (.ok d, t) ∧
        ∀ path m, t.edit.graph.modules.get? path = some m →
          (m.result.dependencies.map (·.key)).Nodup) ∧
    ∀ pace pace' result d t, i.outcome loader pace host = .ok result →
      i.traversal options loader' pace' host' = (.ok d, t) →
        result.Same t.edit.graph.buildResult := by
  have hrooted : i.Rooted := hrooted
  refine ⟨fun schedule schedule' => ?_, fun pace pace' result d t h h' => ?_⟩
  · rw [exists_outcome_ok hloads, hrooted.buildable_iff]
    constructor
    · rintro ⟨⟨htraversable, hkeys⟩, hfinite⟩
      obtain ⟨moves, hmoves⟩ := Input.traverses hskip hrooted htraversable hfinite
      obtain ⟨d, t, h⟩ := hmoves loader' ⟨schedule', moves + 1⟩ host' hloads' (Nat.lt_succ_self _)
      have hgrown := Input.grown hloads' hskip hrooted h
      refine ⟨moves + 1, d, t, h, fun path m hm => ?_⟩
      have hpath := (hgrown.contains path).mp ((OrderedMap.contains_iff _ _).mpr ⟨m, hm⟩)
      have hnodup := hkeys path hpath
      rwa [Input.dependencies, (hgrown.describes path m hm).2.1] at hnodup
    · rintro ⟨budget, d, t, h, hkeys⟩
      have hgrown := Input.grown hloads' hskip hrooted h
      refine ⟨⟨hgrown.traversable, fun path hpath => ?_⟩, hgrown.finite⟩
      obtain ⟨m, hm⟩ := (OrderedMap.contains_iff _ _).mp ((hgrown.contains path).mpr hpath)
      rw [Input.dependencies, (hgrown.describes path m hm).2.1]
      exact hkeys path m hm
  · obtain ⟨s, hcomplete, rfl⟩ := outcome_ok hloads h
    exact hcomplete.closure.same ((Input.grown hloads' hskip hrooted h').isClosure hskip hrooted)

/-- An entry that imports itself and, under two keys, another entry; what else it
imports is optional and missing. -/
def selfImports : Input where
  resolve origin d _ :=
    if d.name = "/m" then .error { origin, reference := d.name } else .ok d.name
  files path :=
    if path = "/e" then
      .ok ⟨⟨[⟨"/m", "m", .sync, true, []⟩, .ofName "/e", .ofName "/a",
        ⟨"/a", "lazy:/a", .deferred, false, []⟩], []⟩, "1"⟩
    else if path = "/a" then .ok ⟨⟨[.ofName "/e"], []⟩, "2"⟩
    else .error (.io ⟨path, true⟩)
  entries := ["/e", "/a", "/e"]

/-- An entry that declares a key twice, first for a dependency that is optional and
missing. -/
def repeatedKey : Input :=
  { selfImports with
    files := fun path =>
      if path = "/e" then
        .ok ⟨⟨[⟨"/m", "k", .sync, true, []⟩, ⟨"/a", "k", .sync, false, []⟩], []⟩, "1"⟩
      else .ok ⟨⟨[], []⟩, "2"⟩
    entries := ["/e"] }

/-- The two agree on `selfImports`, and differ on `repeatedKey`. -/
theorem outcome_agrees_initialTraverse_selfImports :
    (∃ result d t, selfImports.outcome selfImports.loader { budget := 20 } () = .ok result ∧
      selfImports.traversal {} selfImports.loader { budget := 20 } () = (.ok d, t) ∧
        result.Same t.edit.graph.buildResult ∧ result.modules.map (·.path) = ["/e", "/a"]) ∧
    (∀ schedule budget result,
      repeatedKey.outcome repeatedKey.loader ⟨schedule, budget⟩ () ≠ .ok result) ∧
    (repeatedKey.traversal {} repeatedKey.loader { budget := 20 } ()).1.isOk := by
  refine ⟨?_, fun schedule budget result h => ?_, by decide +kernel⟩
  · have hagree := outcome_agrees_initialTraverse (i := selfImports) {} (fun _ => rfl)
      (by simp [selfImports, Dependency.ofName]) (loads_loader _) (loads_loader _) () ()
    have hpaths : ((selfImports.outcome selfImports.loader { budget := 20 } ()).toOption.map
        fun r => r.modules.map (·.path)) = some ["/e", "/a"] := by decide +kernel
    have hok : (selfImports.traversal {} selfImports.loader { budget := 20 } ()).1.isOk := by
      decide +kernel
    obtain ⟨d, htraversal⟩ := Graph.exists_of_isOk hok
    cases hrun : selfImports.outcome selfImports.loader { budget := 20 } () with
    | error e =>
      rw [hrun] at hpaths
      cases hpaths
    | ok result =>
      rw [hrun] at hpaths
      exact ⟨result, d, _, rfl, htraversal, hagree.2 _ _ result d _ hrun htraversal,
        Option.some.inj hpaths⟩
  · have hagree := outcome_agrees_initialTraverse (i := repeatedKey) {} (fun _ => rfl)
      (by simp [repeatedKey, selfImports, Dependency.ofName]) (loads_loader _) (loads_loader _)
      () ()
    obtain ⟨budget', d, t, htraversal, hkeys⟩ :=
      (hagree.1 schedule schedule).mp ⟨budget, result, h⟩
    have hgrown := Input.grown (loads_loader repeatedKey) (fun _ => rfl)
      (by simp [Input.Rooted, repeatedKey, selfImports, Dependency.ofName]) htraversal
    have hentry : repeatedKey.Included "/e" := ⟨.entry (.head _), rfl⟩
    obtain ⟨m, hm⟩ := (OrderedMap.contains_iff _ _).mp ((hgrown.contains "/e").mpr hentry)
    have hfile := (hgrown.describes "/e" m hm).2.1
    have hnodup := hkeys "/e" m hm
    simp only [repeatedKey, if_pos, Except.ok.injEq, LoadedFile.mk.injEq] at hfile
    rw [← hfile.1] at hnodup
    simp at hnodup

end Build

end BundleGraph
