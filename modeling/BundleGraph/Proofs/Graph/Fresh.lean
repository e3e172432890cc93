import BundleGraph.Proofs.Graph.Initial
import BundleGraph.Proofs.Graph.Order

/-!
# Fresh modules

A module is fresh for a resolver and a loader when it has the content that they
give its path. A traversal leaves fresh modules only: it processes what it
loads, and what it does not load was fresh before and is still. A fresh graph
yields what a graph built from nothing would.
-/

namespace BundleGraph

variable {σ τ : Type} {before now : Traversal.Context σ} {platform : Option String} {m : Module}

/-- The module has the content that can be loaded for it, and the edges that its
dependencies resolve to. -/
structure Module.Fresh (ctx : Traversal.Context σ) (platform : Option String) (m : Module) :
    Prop where
  loaded : ∃ host, (ctx.loader.load m.path host).1.outcome = .ok ⟨m.result, m.digest⟩
  resolved : ctx.resolve.edges m.path platform m.result.dependencies [] = .ok m.edges

theorem Module.Fresh.of_unchanged (h : m.Fresh before platform)
    (hload : ∀ host, (before.loader.load m.path host).1.outcome =
      (now.loader.load m.path host).1.outcome)
    (hresolve : ∀ d ∈ m.result.dependencies, before.resolve (some m.path) d platform =
      now.resolve (some m.path) d platform) : m.Fresh now platform where
  loaded := h.loaded.imp fun host hhost => (hload host).symm.trans hhost
  resolved := (Resolver.edges_congr hresolve []).symm.trans h.resolved

/-- Both resolve alike, and load the same for every path, whatever their state. -/
structure Traversal.Context.SameWorld (ctx : Traversal.Context σ) (other : Traversal.Context τ) :
    Prop where
  resolve : ctx.resolve = other.resolve
  load : ∀ path host host', (ctx.loader.load path host).1.outcome =
    (other.loader.load path host').1.outcome

theorem Module.Fresh.unique {ctx : Traversal.Context σ} {other : Traversal.Context τ}
    {m' : Module} (h : m.Fresh ctx platform) (h' : m'.Fresh other platform)
    (hsame : ctx.SameWorld other) (hpath : m.path = m'.path) (hinverse : m.inverse = m'.inverse) :
    m = m' := by
  obtain ⟨path, edges, inverse, result, digest⟩ := m
  obtain ⟨path', edges', inverse', result', digest'⟩ := m'
  dsimp only at hpath hinverse
  subst hpath hinverse
  obtain ⟨⟨host, hload⟩, hedges⟩ := h
  obtain ⟨⟨host', hload'⟩, hedges'⟩ := h'
  dsimp only at hload hload' hedges hedges'
  rw [hsame.load path host host', hload', Except.ok.injEq, LoadedFile.mk.injEq] at hload
  obtain ⟨rfl, rfl⟩ := hload
  rw [hsame.resolve, hedges', Except.ok.injEq] at hedges
  rw [hedges]

namespace Graph

variable {g h : Graph} {ctx : Traversal.Context σ} {modified deleted : List String} {host : σ}
  {d : GraphDelta} {t : Traversal σ}

def Fresh (ctx : Traversal.Context σ) (g : Graph) : Prop :=
  ∀ p m, g.content? p = some m → m.Fresh ctx g.options.platform

theorem Fresh.module (h : g.Fresh ctx) (hg : g.Exact) {p : String} {m : Module}
    (hm : g.modules.get? p = some m) : m.path = p ∧ m.Fresh ctx g.options.platform := by
  have hcontent : g.content? p = some m.content := by
    rw [content?, hm]
    rfl
  have hfresh := h p m.content hcontent
  exact ⟨hg.wellFormed.path_eq (m := m.content) hcontent, hfresh.loaded, hfresh.resolved⟩

theorem makes_fresh (ctx : Traversal.Context σ) (platform : Option String) :
    ctx.Makes platform (Module.Fresh ctx platform) := fun _ _ _ hload hedges =>
  { loaded := hload.imp fun _ h => LoadMemo.sharedOutcome_eq_ok.mp h.symm
    resolved := hedges }

theorem fresh_initialTraverse (hshallow : ctx.shallow = false)
    (h : g.initialTraverse ctx host = (.ok d, t)) : t.edit.graph.Fresh ctx := by
  obtain ⟨_, _, hsettings, hok⟩ := initialTraverse_spec _ hshallow (makes_fresh ctx _) h
  intro p m hm
  rw [options_congr hsettings]
  exact hok p m hm

theorem modules_traverse (ok : Module → Prop) (hg : g.Exact) (hshallow : ctx.shallow = false)
    (hmakes : ctx.Makes g.options.platform ok)
    (hbefore : ∀ p m, g.content? p = some m → ok m ∨ p ∈ modified ∨ p ∈ deleted ∨
      ∃ u ∈ deleted, u ∈ g.targets p)
    (h : g.traverse ctx modified deleted host = (.ok d, t)) {p : String} {m : Module}
    (hm : t.edit.graph.content? p = some m) : ok m := by
  obtain ⟨start, hworked, hedit, _⟩ := traverse_ok h
  have hu := worked_spec ok hg.toTidy hshallow hmakes
    (by simpa only [hg.gap_lt_iff] using hbefore) hworked
  have hcol := Edit.collected hu.counted
  rw [hedit] at hm
  rw [hcol.content_of_contains (contains_of_content? hm)] at hm
  exact (hu.ok p m hm).resolve_right List.not_mem_nil

/-- An incremental traversal makes a graph fresh when what was not fresh is
modified, deleted, or has an edge to a deleted module. -/
theorem fresh_traverse (hg : g.Exact) (hshallow : ctx.shallow = false)
    (hchanged : ∀ p m, g.content? p = some m → m.Fresh ctx g.options.platform ∨ p ∈ modified ∨
      p ∈ deleted ∨ ∃ u ∈ deleted, u ∈ g.targets p)
    (h : g.traverse ctx modified deleted host = (.ok d, t)) : t.edit.graph.Fresh ctx := by
  intro p m hm
  rw [options_congr (settings_traverse hg.toTidy hshallow h)]
  exact modules_traverse _ hg hshallow (makes_fresh ctx _) hchanged h hm

/-- Exact graphs for the same entry points and options, fresh in the same world,
yield the same. -/
theorem Fresh.buildResult_eq {ctx : Traversal.Context σ} {other : Traversal.Context τ}
    (hg : g.Exact) (hh : h.Exact) (hfresh : g.Fresh ctx) (hfresh' : h.Fresh other)
    (hsame : ctx.SameWorld other) (hentries : h.entryPoints.toList = g.entryPoints.toList)
    (hoptions : h.options = g.options) : h.buildResult.content = g.buildResult.content := by
  refine buildResult_congr hentries (fun p hp => ?_) (fun p hp => ?_)
    (fun _ _ => hg.contains_target) fun _ _ => hh.contains_target
  · exact ⟨hg.entries p ((OrderedSet.mem_toList _ p).mp hp),
      hh.entries p ((OrderedSet.mem_toList _ p).mp (hentries ▸ hp))⟩
  · obtain ⟨m, hm⟩ := exists_content? hp.1
    obtain ⟨m', hm'⟩ := exists_content? hp.2
    have hpath := (hg.wellFormed.path_eq hm).trans (hh.wellFormed.path_eq hm').symm
    have hinverse : ∀ {g : Graph} {m : Module}, g.content? p = some m → m.inverse = ∅ := by
      intro g m hm
      obtain ⟨_, _, rfl⟩ := Option.map_eq_some_iff.mp hm
      rfl
    have hm'fresh := hfresh' p m' hm'
    rw [hoptions] at hm'fresh
    rw [hm, hm', (hfresh p m hm).unique hm'fresh hsame hpath ((hinverse hm).trans (hinverse hm').symm)]

end Graph

end BundleGraph
