import BundleGraph.Proofs.Graph.Initial

/-!
# Deleted modules that come back

A deleted path that is still resolved to comes back as a new module. Those that
referred to it are processed again, but an edge that one of them keeps is
counted only where it finds the module missing.
-/

namespace BundleGraph.Graph

variable {σ : Type} {g : Graph} {ctx : Traversal.Context σ} {modified deleted : List String}
  {host : σ} {d : GraphDelta} {t : Traversal σ}

/-- Whatever the resolver does, what a traversal of an exact graph leaves uncounted
are edges to deleted modules that came back, and not more than led there before.
It ends exact unless such an edge starts at a module that stays and whose edges
the collection does not count anew. -/
theorem exact_traverse_iff (hg : g.Exact) (hshallow : ctx.shallow = false)
    (h : g.traverse ctx modified deleted host = (.ok d, t)) :
    ∃ start, g.worked ctx modified deleted host = (.ok (), start) ∧
      (∀ p u, start.edit.graph.edgeCount p u ≤
        start.edit.graph.count u p + if u ∈ deleted then g.edgeCount p u else 0) ∧
      (t.edit.graph.Consistent ↔
        ∀ p u, start.edit.graph.count u p < start.edit.graph.edgeCount p u →
          start.edit.graph.Garbage p ∨
            start.edit.graph.Anchored p ∧ start.edit.graph.contains u) := by
  obtain ⟨start, hworked, hedit, _⟩ := traverse_ok h
  have hu := underway_worked hg.toTidy hshallow hworked
  refine ⟨start, hworked, fun p u => ?_, ?_⟩
  · have hle : _ ≤ _ + g.slack deleted p u := hu.le_count p u
    rwa [hg.slack_eq] at hle
  · rw [consistent_iff, hedit]
    exact (Edit.collected hu.counted).exact_iff hu.counted

/-- Two modules import `d`, which is deleted and comes back. Only the first of the
two edges is counted. -/
theorem exact_traverse_iff_two_referrers :
    ∃ (g : Graph) (ctx : Traversal.Context Unit) (d : GraphDelta) (t : Traversal Unit),
      g.Exact ∧ g.traverse ctx [] ["d"] () = (.ok d, t) ∧
        (∃ start, g.worked ctx [] ["d"] () = (.ok (), start) ∧
          (t.edit.graph.Consistent ↔
            ∀ p u, start.edit.graph.count u p < start.edit.graph.edgeCount p u →
              start.edit.graph.Garbage p ∨
                start.edit.graph.Anchored p ∧ start.edit.graph.contains u)) ∧
        t.edit.graph.targets "r" = ["d"] ∧ t.edit.graph.targets "s" = ["d"] ∧
        t.edit.graph.count "d" "r" = 1 ∧ t.edit.graph.count "d" "s" = 0 ∧
        ¬ t.edit.graph.Consistent := by
  let ctx := Traversal.Context.ofImports fun path =>
    if path = "e" then ["r", "s"] else if path = "r" then ["d"] else if path = "s" then ["d"] else []
  let built := (Graph.ofEntries ["e"] {}).initialTraverse ctx ()
  let g := built.2.edit.graph
  have hexact : g.Exact := by
    have hok : built.1.isOk := by decide +kernel
    cases hbuilt : built with
    | mk result start =>
      rw [hbuilt] at hok
      cases result with
      | error e => cases hok
      | ok d =>
        have hg : g = start.edit.graph := congrArg (fun r => r.2.edit.graph) hbuilt
        rw [hg]
        exact exact_initialTraverse rfl hbuilt
  have hafter : (g.traverse ctx [] ["d"] ()).1.isOk ∧
      (fun h : Graph => (h.targets "r", h.targets "s", h.count "d" "r", h.count "d" "s",
        h.contains "d")) (g.traverse ctx [] ["d"] ()).2.edit.graph =
          (["d"], ["d"], 1, 0, true) := by
    decide +kernel
  clear_value g
  cases htraverse : g.traverse ctx [] ["d"] () with
  | mk result t =>
    rw [htraverse] at hafter
    cases result with
    | error e => cases hafter.1
    | ok d =>
      have hviews := hafter.2
      simp only [Prod.mk.injEq] at hviews
      obtain ⟨hr, hs, hcr, hcs, hd⟩ := hviews
      obtain ⟨start, hworked, _, hiff⟩ := exact_traverse_iff hexact rfl htraverse
      refine ⟨g, ctx, d, t, hexact, htraverse, ⟨start, hworked, hiff⟩, hr, hs, hcr, hcs, ?_⟩
      intro hconsistent
      have hcount := ((consistent_iff _).mp hconsistent).2 "s" "d" hd
      rw [hcs, edgeCount, hs] at hcount
      exact absurd hcount (by decide)

end BundleGraph.Graph
