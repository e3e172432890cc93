import BundleGraph.Proofs.Graph.Reached
import BundleGraph.Proofs.Session

/-!
# What the deltas of a run leave unreached

A full build leaves nothing unreached. An update does when a file that is cut
off was marked as a possible root and painted black again by another file of
the same batch.
-/

namespace BundleGraph.DeltaSession

variable {σ : Type} {s : DeltaSession} {entries : List String} {options : Transform.Options}
  {ctx : Traversal.Context σ} {reset : Bool} {channel : ChangeChannel} {host : σ}

theorem Run.allReached_of_rebuilds {calls : List (Call σ)} (h : Run entries options calls s)
    (hcalls : ∀ call ∈ calls, call.ctx.shallow = false ∧ call.plan = .rebuild)
    (hbuilt : s.built = true) : s.graph.AllReached := by
  refine ((h.built_induction (P := fun calls g =>
    (∀ call ∈ calls, call.plan = .rebuild) → g.AllReached) ?_ ?_ ?_ ?_
    fun call hc => (hcalls call hc).1).2 hbuilt).2 fun call hc => (hcalls call hc).2
  · exact fun _ _ ih _ hplans => ih fun c hc => hplans c (.tail _ hc)
  · intro calls d t call host delta g _ _ hshallow _ _ htraverse _
    exact Graph.allReached_initialTraverse hshallow htraverse
  · intro calls g d t modified deleted call host delta _ _ _ _ hplan _ _ _ _ hplans
    have := hplans call (.head _)
    rw [hplan] at this
    cases this
  · intro calls g call delta _ hplan _ _ _ hplans
    have := hplans call (.head _)
    rw [hplan] at this
    cases this

/-- After a full build everything is reached. After an update of a graph that was
reached in whole, everything is reached exactly when each possible root that was
painted black again is reached or reached from a purple one; in general, when
everything outside the reach of the purple roots is. What is gone is reported. -/
theorem Run.allReached_iff {calls : List (Call σ)} (h : Run entries options calls s)
    (hcalls : ∀ call ∈ calls, call.ctx.shallow = false) (hshallow : ctx.shallow = false)
    {delta : Delta} {g : Graph}
    (hdelta : (s.delta ctx reset channel host).1.outcome = .ok (delta, g)) :
    match s.plan reset (s.take channel).1 with
    | .rebuild => g.AllReached
    | .nothing => g = s.graph
    | .update modified deleted =>
      ∃ start, s.graph.worked ctx modified deleted host = (.ok (), start) ∧
        (s.graph.AllReached → (g.AllReached ↔ ∀ r, start.edit.graph.Repainted r →
          start.edit.graph.Reached r ∨ start.edit.graph.Suspect r)) ∧
        (g.AllReached ↔ ∀ p, start.edit.graph.contains p →
          ¬ start.edit.graph.Suspect p → start.edit.graph.Reached p) ∧
        ∀ p, s.graph.contains p → g.contains p = false → p ∈ delta.deleted := by
  rw [outcome_delta (ended_of_delta hdelta)] at hdelta
  cases hplan : s.plan reset (s.take channel).1 with
  | rebuild =>
    rw [hplan] at hdelta
    obtain ⟨d, t, htraverse, _, rfl⟩ := Plan.attempt_rebuild hdelta
    exact Graph.allReached_initialTraverse hshallow htraverse
  | nothing =>
    rw [hplan] at hdelta
    exact Plan.attempt_nothing hdelta
  | update modified deleted =>
    rw [hplan] at hdelta
    obtain ⟨d, t, htraverse, rfl, rfl⟩ := Plan.attempt_update hdelta
    have htidy := (h.made_tidy hcalls).2 (plan_eq_update hplan).1
    obtain ⟨start, hworked, hall, hrepainted⟩ :=
      Graph.allReached_traverse_iff htidy hshallow htraverse
    exact ⟨start, hworked, hrepainted, hall, fun p hp hgone =>
      Graph.deleted_traverse htidy hshallow htraverse hp hgone⟩

/-- The entry point lets go of a cycle while a module of the cycle gains an edge:
the cycle stays. -/
theorem Run.allReached_iff_kept_cycle :
    ∃ (s : DeltaSession) (ctx : Traversal.Context Unit) (channel : ChangeChannel)
      (calls : List (Call Unit)) (delta : Delta) (g : Graph) (start : Traversal Unit),
      Run ["e"] {} calls s ∧ s.graph.AllReached ∧
        (s.delta ctx false channel ()).1.outcome = .ok (delta, g) ∧
        s.graph.worked ctx ["e", "b"] [] () = (.ok (), start) ∧
        start.edit.graph.Repainted "a" ∧
        (g.AllReached ↔ ∀ r, start.edit.graph.Repainted r →
          start.edit.graph.Reached r ∨ start.edit.graph.Suspect r) ∧
        g.contains "a" ∧ ¬ g.Reached "a" := by
  let channel : ChangeChannel := { capacity := 4 }
  let cycle : String → List String := fun path =>
    if path = "a" then ["b"] else if path = "b" then ["c"] else if path = "c" then ["a"] else []
  let before := Traversal.Context.ofImports fun path => if path = "e" then ["a"] else cycle path
  let after := Traversal.Context.ofImports fun path => if path = "b" then ["c", "a"] else cycle path
  let edited := (channel.subscribe.2.send [.modified "e", .modified "b"]).2
  have h₀ : Run ["e"] {} ([] : List (Call Unit)) (DeltaSession.start ["e"] {} channel).1 := .start channel
  let s := (DeltaSession.delta before false (DeltaSession.start ["e"] {} channel).1 channel ()).2.1
  have h₁ : Run ["e"] {} [⟨_, .rebuild, before, _⟩] s := h₀.of_delta rfl rfl
  have hall := h₁.allReached_of_rebuilds
    (List.forall_mem_cons.mpr ⟨⟨rfl, rfl⟩, List.forall_mem_nil _⟩) (by decide +kernel)
  have hplan : s.plan false (s.take edited).1 = .update ["e", "b"] [] := by decide +kernel
  have hnew : ((s.delta after false edited ()).1.outcome.toOption.map fun r =>
      (r.2.contains "a", r.2.entryPoints.toList, r.2.targets "e")) = some (true, ["e"], []) := by
    decide +kernel
  have hroot : (s.graph.worked after ["e", "b"] [] ()).2.edit.graph.Repainted "a" := by
    refine ⟨?_, ?_, ?_⟩ <;> decide +kernel
  clear_value s
  cases hdelta : (s.delta after false edited ()).1.outcome with
  | error e =>
    rw [hdelta] at hnew
    cases hnew
  | ok result =>
    obtain ⟨delta, g⟩ := result
    have hreached := h₁.allReached_iff
      (List.forall_mem_cons.mpr ⟨rfl, List.forall_mem_nil _⟩) rfl hdelta
    simp only [hplan] at hreached
    obtain ⟨start, hworked, hiff, _⟩ := hreached
    rw [hworked] at hroot
    rw [hdelta] at hnew
    simp only [Except.toOption, Option.map_some, Option.some.injEq, Prod.mk.injEq] at hnew
    refine ⟨s, after, edited, _, delta, g, start, h₁, hall, hdelta, hworked, hroot, hiff hall,
      hnew.1, ?_⟩
    rintro ⟨r, hentry, hreach⟩
    have hr := (OrderedSet.mem_toList _ r).mpr hentry
    rw [hnew.2.1, List.mem_singleton] at hr
    subst hr
    rcases Relation.ReflTransGen.cases_head hreach with heq | ⟨b, hstep, _⟩
    · exact absurd heq (by decide)
    · exact List.not_mem_nil (hnew.2.2 ▸ hstep.1)

end BundleGraph.DeltaSession
