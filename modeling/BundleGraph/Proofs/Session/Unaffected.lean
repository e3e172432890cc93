import BundleGraph.Proofs.Graph.Unaffected
import BundleGraph.Proofs.Session

/-!
# What a delta leaves alone

A module that no change concerns is neither loaded nor reported by an
incremental delta, unless it may have lost all its referrers on the way. The
exception is needed: `moved_import_reloads` moves an import from one file to
another, and the imported module is loaded again.
-/

namespace BundleGraph.DeltaSession

variable {σ : Type} {s : DeltaSession} {ctx : Traversal.Context σ} {reset : Bool}
  {channel : ChangeChannel} {host : σ} {delta : Delta} {g : Graph} {path : String}

/-- What a delta passes to the loader, in order, and what comes of it. -/
def loads (ctx : Traversal.Context σ) (reset : Bool) (s : DeltaSession) (channel : ChangeChannel)
    (host : σ) : LoadLog :=
  (s.delta ctx.recording reset channel (host, [])).1.host.2

theorem outcome_recording (ctx : Traversal.Context σ) (reset : Bool) (s : DeltaSession)
    (channel : ChangeChannel) (host : σ) :
    (s.delta ctx.recording reset channel (host, [])).1.outcome =
      (s.delta ctx reset channel host).1.outcome := by
  cases hended : s.ended with
  | true =>
    unfold DeltaSession.delta
    rw [hended]
    rfl
  | false =>
    rw [outcome_delta hended, outcome_delta hended]
    cases s.plan reset (s.take channel).1 with
    | rebuild =>
      simp only [Plan.attempt]
      rw [Graph.initialTraverse_recording _ ctx host []]
      rfl
    | update modified deleted =>
      simp only [Plan.attempt]
      rw [Graph.traverse_recording _ ctx _ _ host []]
      rfl
    | nothing => rfl

/-- A module that no pending change names, and that has no edge to a deleted path. -/
structure Unaffected (s : DeltaSession) (taken : ChangeSets) (path : String) : Prop where
  contains : s.graph.contains path
  not_added : taken.added.contains path = false
  not_modified : taken.modified.contains path = false
  not_deleted : taken.deleted.contains path = false
  keeps_targets : ∀ D, taken.deleted.contains D → D ∉ s.graph.targets path

theorem Unaffected.not_touched {taken : ChangeSets} (h : s.Unaffected taken path)
    {modified deleted : List String} (hplan : s.plan reset taken = .update modified deleted) :
    ¬ s.graph.Touched modified deleted path := by
  obtain ⟨-, rfl, rfl⟩ := plan_eq_update hplan
  rintro (hmem | ⟨D, hD, htarget⟩)
  · rw [List.mem_filter, List.mem_append, OrderedSet.mem_toList, OrderedSet.mem_toList,
      h.not_modified, h.not_added] at hmem
    exact hmem.1.elim Bool.false_ne_true Bool.false_ne_true
  · rw [List.mem_filter, OrderedSet.mem_toList] at hD
    exact h.keeps_targets D hD.1 htarget

/-- The modules that may have lost all their referrers during a delta. -/
def Lost (ctx : Traversal.Context σ) (reset : Bool) (s : DeltaSession) (channel : ChangeChannel)
    (host : σ) : String → Prop :=
  s.graph.Lost (s.take channel).1.deleted.toList (ctx.resolve.Drops s.graph.options.platform
    fun path file => (path, .ok file) ∈ s.loads ctx reset channel host)

/-- An incremental delta that succeeds, in whatever order its loads are completed,
neither loads nor reports an unaffected module that is not lost. -/
theorem unaffected_not_reloaded (hg : s.graph.Settled) (hshallow : ctx.shallow = false)
    (hplan : s.plan reset (s.take channel).1 ≠ .rebuild)
    (hok : (s.delta ctx reset channel host).1.outcome = .ok (delta, g))
    (hpath : s.Unaffected (s.take channel).1 path)
    (hlost : ¬ s.Lost ctx reset channel host path) :
    path ∉ (s.loads ctx reset channel host).map Prod.fst ∧
      path ∉ delta.modified.map Prod.fst := by
  have hended := ended_of_delta hok
  rw [← outcome_recording, outcome_delta hended] at hok
  unfold Lost loads at hlost
  unfold loads
  rw [attempt_delta hended] at hlost ⊢
  cases hp : s.plan reset (s.take channel).1 with
  | rebuild => exact absurd hp hplan
  | nothing =>
    rw [hp] at hok
    simp only [Plan.attempt, Except.ok.injEq, Prod.mk.injEq] at hok
    obtain ⟨rfl, -⟩ := hok
    exact ⟨List.not_mem_nil, List.not_mem_nil⟩
  | update modified deleted =>
    rw [hp] at hok hlost
    obtain ⟨d, t, htraverse, rfl, -⟩ := Plan.attempt_update hok
    have hnoted := Graph.noted_traverse htraverse
    have hhost : ((Plan.update modified deleted).attempt ctx.recording s.graph (host, [])).host =
        t.memo.host := by
      rw [Plan.attempt, htraverse]
      rfl
    rw [hhost] at hlost ⊢
    obtain ⟨-, -, hdeleted⟩ := plan_eq_update hp
    have hfull : ctx.recording.shallow = false := hshallow
    have huntouched := Graph.untouched_traverse hg hfull htraverse hpath.contains
      (fun h => hlost (h.mono (fun q hq => ?_) fun origin edge hdrops => ?_))
      (hpath.not_touched hp)
    · refine ⟨fun hmem => ?_, huntouched.2⟩
      obtain ⟨⟨q, outcome⟩, hentry, rfl⟩ := List.mem_map.mp hmem
      exact huntouched.1 _ ((hnoted _ _).mpr ⟨outcome, hentry, rfl⟩)
    · rw [hdeleted] at hq
      exact (List.mem_filter.mp hq).1
    · obtain ⟨file, current, hloaded, hrest⟩ := hdrops
      obtain ⟨outcome, hmem, hshared⟩ := (hnoted _ _).mp hloaded
      obtain rfl := LoadMemo.sharedOutcome_eq_ok.mp hshared
      exact ⟨file, current, hmem, hrest⟩

theorem settled_first_delta {entries : List String} {imports : String → List String}
    {channel : ChangeChannel}
    (h : ((DeltaSession.start entries {} channel).1.delta (.ofImports imports) false channel ()).2.1.built) :
    ((DeltaSession.start entries {} channel).1.delta (.ofImports imports) false channel
      ()).2.1.graph.Settled := by
  have hrun : Run entries {} [⟨_, .rebuild, .ofImports imports, _⟩]
      ((DeltaSession.start entries {} channel).1.delta (.ofImports imports) false channel ()).2.1 :=
    (Run.start channel).of_delta rfl rfl
  exact (hrun.exact (List.forall_mem_cons.mpr
    ⟨⟨rfl, Traversal.Context.avoids_ofImports nofun⟩, List.forall_mem_nil _⟩) h).settled

theorem unaffected_of_not_deleted {taken : ChangeSets} (hpath : s.graph.contains path ∧
      taken.added.contains path = false ∧ taken.modified.contains path = false)
    (hdeleted : taken.deleted.toList = []) : s.Unaffected taken path := by
  have hnone : ∀ D, taken.deleted.contains D = false := fun D => by
    rw [← Bool.not_eq_true, ← OrderedSet.mem_toList, hdeleted]
    exact List.not_mem_nil
  exact ⟨hpath.1, hpath.2.1, hpath.2.2, hnone path, fun D hD => by simp [hnone D] at hD⟩

/-- `a` and the entry point `e` import `x`, and `a` comes to import nothing. -/
theorem unaffected_not_reloaded_dropped_import :
    ∃ (s : DeltaSession) (ctx : Traversal.Context Unit) (channel : ChangeChannel) (delta : Delta)
      (g : Graph), s.graph.Settled ∧ (s.delta ctx false channel ()).1.outcome = .ok (delta, g) ∧
        (s.loads ctx false channel ()).map Prod.fst = ["a"] ∧
        delta.modified.map Prod.fst = ["a"] ∧ s.Unaffected (s.take channel).1 "x" ∧
        ¬ s.Lost ctx false channel () "x" ∧
        "x" ∉ (s.loads ctx false channel ()).map Prod.fst ∧
        "x" ∉ delta.modified.map Prod.fst := by
  let channel : ChangeChannel := { capacity := 4 }
  let edited := (channel.subscribe.2.send [.modified "a"]).2
  let before := Traversal.Context.ofImports fun path =>
    if path = "e" then ["a", "x"] else if path = "a" then ["x"] else []
  let after := Traversal.Context.ofImports fun path => if path = "e" then ["a", "x"] else []
  let s := ((DeltaSession.start ["e"] {} channel).1.delta before false channel ()).2.1
  have hg : s.graph.Settled := settled_first_delta (by decide +kernel)
  have hloads : (s.loads after false edited ()).map Prod.fst = ["a"] := by decide +kernel
  have hpath : s.Unaffected (s.take edited).1 "x" :=
    unaffected_of_not_deleted (by decide +kernel) (by decide +kernel)
  have hplan : s.plan false (s.take edited).1 ≠ .rebuild := by decide +kernel
  have hedge : ∃ edge ∈ s.graph.edges "e", edge.target = "x" := by decide +kernel
  have hentry : s.graph.isEntry "e" ∧ (s.take edited).1.deleted.toList = [] := by decide +kernel
  have hok : (s.delta after false edited ()).1.outcome.toOption.map
      (fun r => r.1.modified.map Prod.fst) = some ["a"] := by decide +kernel
  -- `e` is an entry point and not loaded, so it keeps its edge
  have hlost : ¬ s.Lost after false edited () "x" := by
    have hkept : ¬ s.Lost after false edited () "e" := by
      rintro (hdeleted | ⟨hno, -⟩)
      · rw [hentry.2] at hdeleted
        cases hdeleted
      · rw [hentry.1] at hno
        cases hno
    rintro (hdeleted | ⟨-, hedges⟩)
    · rw [hentry.2] at hdeleted
      cases hdeleted
    · obtain ⟨edge, hmem, htarget⟩ := hedge
      refine hkept (hedges "e" edge hmem htarget ?_)
      rintro ⟨file, current, hloaded, -⟩
      have hlog := List.mem_map_of_mem (f := Prod.fst) hloaded
      rw [hloads] at hlog
      have heq : "e" = "a" := List.mem_singleton.mp hlog
      exact absurd heq (by decide)
  cases hout : (s.delta after false edited ()).1.outcome with
  | error e =>
    rw [hout] at hok
    cases hok
  | ok r =>
    obtain ⟨delta, g⟩ := r
    rw [hout] at hok
    exact ⟨s, after, edited, delta, g, hg, hout, hloads, Option.some.inj hok, hpath, hlost,
      unaffected_not_reloaded hg rfl hplan hout hpath hlost⟩

/-- `e` imports `a` and `b`, and `a` imports `x`; then `b` imports `x` instead of
`a`. Nothing names `x`, but it is freed and comes back. -/
theorem moved_import_reloads :
    ∃ (s : DeltaSession) (ctx : Traversal.Context Unit) (channel : ChangeChannel) (delta : Delta)
      (g : Graph), s.graph.Settled ∧ ctx.shallow = false ∧
        s.plan false (s.take channel).1 ≠ .rebuild ∧
        (s.delta ctx false channel ()).1.outcome = .ok (delta, g) ∧
        s.Unaffected (s.take channel).1 "x" ∧ g.contains "x" ∧
        "x" ∈ (s.loads ctx false channel ()).map Prod.fst ∧
        "x" ∈ delta.modified.map Prod.fst := by
  let channel : ChangeChannel := { capacity := 4 }
  let edited := (channel.subscribe.2.send [.modified "a", .modified "b"]).2
  let others : String → List String := fun path => if path = "e" then ["a", "b"] else []
  let before := Traversal.Context.ofImports fun path => if path = "a" then ["x"] else others path
  let after := Traversal.Context.ofImports fun path => if path = "b" then ["x"] else others path
  let s := ((DeltaSession.start ["e"] {} channel).1.delta before false channel ()).2.1
  have hg : s.graph.Settled := settled_first_delta (by decide +kernel)
  have hpath : s.Unaffected (s.take edited).1 "x" :=
    unaffected_of_not_deleted (by decide +kernel) (by decide +kernel)
  have hplan : s.plan false (s.take edited).1 ≠ .rebuild := by decide +kernel
  have hloads : "x" ∈ (s.loads after false edited ()).map Prod.fst := by decide +kernel
  have hok : (s.delta after false edited ()).1.outcome.toOption.map
      (fun r => (r.2.contains "x", r.1.modified.map Prod.fst)) =
        some (true, ["a", "b", "x"]) := by decide +kernel
  cases hout : (s.delta after false edited ()).1.outcome with
  | error e =>
    rw [hout] at hok
    cases hok
  | ok r =>
    obtain ⟨delta, g⟩ := r
    rw [hout] at hok
    obtain ⟨hcontains, hmodified⟩ := Prod.mk.inj (Option.some.inj hok)
    refine ⟨s, after, edited, delta, g, hg, rfl, hplan, hout, hpath, hcontains, hloads, ?_⟩
    dsimp only at hmodified
    rw [hmodified]
    decide

end BundleGraph.DeltaSession
