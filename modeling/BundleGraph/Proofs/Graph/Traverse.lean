import BundleGraph.Proofs.Graph.Exact

/-!
# What an incremental traversal leaves

A traversal of a tidy graph leaves a tidy one. It leaves an exact one when the
graph was exact and no dependency is resolved to a deleted path: then every edge
to a deleted module is gone before the collection.
-/

namespace BundleGraph

namespace Edit

variable {a : Aim} {e : Edit}

theorem Underway.loading_none (h : e.Underway a []) (q : String) : e.loading[q]? = none := by
  rw [← loading_contains_eq_false, ← Bool.not_eq_true]
  exact fun hq => List.not_mem_nil (h.loading q hq)

theorem Underway.count_eq (h : e.Underway a []) (t p : String) :
    e.graph.count t p = e.count t p := (count_of_not_loading (h.loading_none t) p).symm

theorem Underway.counted (h : e.Underway a []) : e.graph.Counted where
  count_le := fun p t => by rw [h.count_eq]; exact h.steady.sound.count_le p t
  painted := h.steady.sound.painted
  referenced := fun t ht => by
    simp only [h.count_eq]
    exact (h.steady.referenced t ht).imp_right fun hp => hp.resolve_left not_false

theorem Underway.contains_entry (h : e.Underway a []) {q : String} (hq : e.graph.isEntry q) :
    e.graph.contains q :=
  (h.entries q hq).resolve_right fun hl => List.not_mem_nil (h.loading q hl)

theorem Underway.le_count (h : e.Underway a []) (p t : String) :
    e.graph.edgeCount p t ≤ e.graph.count t p + a.slack p t := by
  rw [h.count_eq]
  exact h.steady.sound.le_count p t

theorem Underway.tidy (h : e.Underway a []) {g : Graph} (hcol : e.graph.Collected g) :
    g.Tidy := by
  exact
    { count_le := hcol.count_le h.counted
      entries := fun t ht => by
        rw [hcol.isEntry] at ht
        exact hcol.entry ht (h.contains_entry ht)
      referenced := fun t ht => hcol.referenced h.counted ht
      no_root := hcol.roots
      black := hcol.color
      wellFormed := h.steady.sound.wellFormed.of_content fun q m hm => by
        rw [hcol.content_of_contains (Graph.contains_of_content? hm)] at hm
        exact .inl hm }

end Edit

/-- No dependency of a file that can be loaded is resolved to one of these paths. -/
def Traversal.Context.Avoids {σ : Type} (ctx : Traversal.Context σ) (platform : Option String)
    (paths : List String) : Prop :=
  ∀ path ∈ paths, ∀ origin host file, (ctx.loader.load origin host).1.outcome = .ok file →
    ∀ d ∈ file.result.dependencies, ctx.resolve (some origin) d platform ≠ .ok path

theorem Traversal.Context.Avoids.makes {σ : Type} {ctx : Traversal.Context σ}
    {platform : Option String} {paths : List String} (havoids : ctx.Avoids platform paths) :
    ctx.Makes platform fun m => ∀ edge ∈ m.edges, edge.target ∉ paths := by
  intro path file current hload hedges edge hedge htarget
  obtain ⟨host, hfile⟩ := hload
  obtain ⟨hmem, hresolve⟩ := Resolver.of_mem_edges hedges hedge
  have houtcome := LoadMemo.sharedOutcome_eq_ok.mp hfile.symm
  exact havoids _ htarget path host file houtcome _ hmem hresolve

/-- Every path is a file that imports these names, and a name is its path. -/
def Traversal.Context.ofImports (imports : String → List String) : Traversal.Context Unit where
  resolve := fun _ d _ => .ok d.name
  loader := ⟨fun path _ => (⟨.ok ⟨⟨(imports path).map .ofName, []⟩, ""⟩, 0⟩, ())⟩
  pace := { budget := 100 }

theorem Traversal.Context.avoids_ofImports {imports : String → List String}
    {platform : Option String} {paths : List String}
    (h : ∀ path ∈ paths, ∀ origin, path ∉ imports origin) :
    (ofImports imports).Avoids platform paths := by
  intro path hpath origin host file hfile d hd hresolve
  cases hfile
  obtain ⟨name, hname, rfl⟩ := List.mem_map.mp hd
  cases hresolve
  exact h _ hpath origin hname

namespace Graph

variable {σ : Type} {g : Graph} {ctx : Traversal.Context σ} {modified deleted : List String}
  {host : σ} {d : GraphDelta} {t : Traversal σ}

/-- An incremental traversal whose tasks are done, before the collection. -/
def worked (g : Graph) (ctx : Traversal.Context σ) (modified deleted : List String) (host : σ) :
    Except BuildError Unit × Traversal σ :=
  let (seeds, edit) := g.incrementalSeeds modified deleted
  (Traversal.ofEdit edit host seeds.length).drain ctx seeds

theorem traverse_eq (g : Graph) (ctx : Traversal.Context σ) (modified deleted : List String)
    (host : σ) : g.traverse ctx modified deleted host =
      match g.worked ctx modified deleted host with
      | (.error e, t) => (.error e, t)
      | (.ok (), t) =>
        (.ok (deltaOf t.edit.collectCycles), { t with edit := t.edit.collectCycles }) := by
  cases hworked : g.worked ctx modified deleted host with
  | mk result start =>
    unfold worked at hworked
    unfold traverse
    dsimp only at hworked ⊢
    cases result <;> simp only [hworked]

theorem traverse_ok (h : g.traverse ctx modified deleted host = (.ok d, t)) :
    ∃ start, g.worked ctx modified deleted host = (.ok (), start) ∧
      t.edit = start.edit.collectCycles ∧ d = deltaOf t.edit ∧ t.memo = start.memo := by
  rw [traverse_eq] at h
  cases hworked : g.worked ctx modified deleted host with
  | mk result start =>
    rw [hworked] at h
    cases result with
    | error error => cases congrArg Prod.fst h
    | ok _ =>
      simp only [Prod.mk.injEq, Except.ok.injEq] at h
      obtain ⟨rfl, rfl⟩ := h
      refine ⟨start, rfl, ?_, ?_, ?_⟩
      · dsimp only
      · dsimp only
      · dsimp only

/-- The aim of any incremental traversal. -/
def aim (g : Graph) (deleted : List String) : Aim where
  settings := g.settings
  slack := g.slack deleted
  old := fun t => g.contains t
  reached := g.AllReached
  ok := fun _ => True

/-- All tasks of an incremental traversal: what it leaves is steady, and every
module is as it is to be when what was not before is modified, deleted, or has a
counted edge to a deleted module. -/
theorem worked_spec (ok : Module → Prop) (hg : g.Tidy) (hshallow : ctx.shallow = false)
    (hmakes : ctx.Makes g.options.platform ok)
    (hbefore : ∀ q m, g.content? q = some m → ok m ∨ q ∈ modified ∨ q ∈ deleted ∨
      ∃ u ∈ deleted, g.gap q u < g.edgeCount q u)
    (h : g.worked ctx modified deleted host = (.ok (), t)) :
    t.edit.Underway { g.aim deleted with ok } [] := by
  refine Traversal.drained hshallow hmakes ?_ h
  exact Edit.underway_incrementalSeeds hg _ rfl (fun _ _ => Nat.le_refl _) (fun _ hu => hu)
    (fun hr => hr) hbefore

theorem underway_worked (hg : g.Tidy) (hshallow : ctx.shallow = false)
    (h : g.worked ctx modified deleted host = (.ok (), t)) :
    t.edit.Underway (g.aim deleted) [] :=
  worked_spec (fun _ => True) hg hshallow (fun _ _ _ _ _ => trivial)
    (fun _ _ _ => .inl trivial) h

theorem settings_traverse (hg : g.Tidy) (hshallow : ctx.shallow = false)
    (h : g.traverse ctx modified deleted host = (.ok d, t)) :
    t.edit.graph.settings = g.settings := by
  obtain ⟨start, hworked, hedit, _⟩ := traverse_ok h
  have hu := underway_worked hg hshallow hworked
  rw [hedit]
  exact (Edit.collected hu.counted).settings.trans hu.settings

theorem tidy_traverse (hg : g.Tidy) (hshallow : ctx.shallow = false)
    (h : g.traverse ctx modified deleted host = (.ok d, t)) : t.edit.graph.Tidy := by
  obtain ⟨start, hworked, hedit, _⟩ := traverse_ok h
  have hu := underway_worked hg hshallow hworked
  rw [hedit]
  exact hu.tidy (Edit.collected hu.counted)

/-- When no dependency is resolved to a deleted path, every edge is counted before
the collection: what had an edge to a deleted module was processed again. -/
theorem counted_worked (hg : g.Exact) (hshallow : ctx.shallow = false)
    (havoids : ctx.Avoids g.options.platform deleted)
    (h : g.worked ctx modified deleted host = (.ok (), t)) :
    ∀ p u, t.edit.graph.edgeCount p u ≤ t.edit.graph.count u p := by
  have hbefore : ∀ q m, g.content? q = some m → (∀ edge ∈ m.edges, edge.target ∉ deleted) ∨
      q ∈ modified ∨ q ∈ deleted ∨ ∃ u ∈ deleted, g.gap q u < g.edgeCount q u := by
    intro q m hm
    by_cases hedge : ∃ edge ∈ m.edges, edge.target ∈ deleted
    · obtain ⟨edge, hmem, htarget⟩ := hedge
      have hu : edge.target ∈ g.targets q := mem_targets_iff.mpr ⟨m, hm, edge, hmem, rfl⟩
      exact .inr (.inr (.inr ⟨edge.target, htarget, hg.gap_lt_iff.mpr hu⟩))
    · exact .inl fun edge hmem htarget => hedge ⟨edge, hmem, htarget⟩
  have hu := worked_spec _ hg.toTidy hshallow havoids.makes hbefore h
  intro p u
  by_cases hdeleted : u ∈ deleted
  swap
  · have hle : _ ≤ _ + g.slack deleted p u := hu.le_count p u
    rwa [hg.slack_eq, if_neg hdeleted] at hle
  refine Nat.le_of_not_lt fun hlt => ?_
  obtain ⟨m, hm, edge, hedge, rfl⟩ :=
    mem_targets_iff.mp (edgeCount_pos_iff.mp (Nat.zero_lt_of_lt hlt))
  exact (hu.ok p m hm).elim (fun hok => hok edge hedge hdeleted) List.not_mem_nil

theorem exact_traverse (hg : g.Exact) (hshallow : ctx.shallow = false)
    (havoids : ctx.Avoids g.options.platform deleted)
    (h : g.traverse ctx modified deleted host = (.ok d, t)) : t.edit.graph.Exact := by
  have htidy := tidy_traverse hg.toTidy hshallow h
  obtain ⟨start, hworked, hedit, _⟩ := traverse_ok h
  have hcounted := counted_worked hg hshallow havoids hworked
  have hu := underway_worked hg.toTidy hshallow hworked
  refine ⟨htidy, htidy.le_count_iff.mpr ?_⟩
  rw [hedit]
  refine ((Edit.collected hu.counted).exact_iff hu.counted).mpr fun p u hlt => ?_
  have := hcounted p u
  omega

end Graph

end BundleGraph
