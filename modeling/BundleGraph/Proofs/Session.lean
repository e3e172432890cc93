import BundleGraph.DeltaSession
import BundleGraph.Proofs.Graph.Initial
import BundleGraph.Proofs.InsertionOrder

/-!
# Runs of a session

A run is what happens to a session: it listens at any time, also during a
delta, and its deltas come one after another, each with a resolver, a loader
and a schedule of its own. `Run.made_tidy` and `Run.exact` say what the graph is
between the deltas of a run.
-/

namespace BundleGraph

namespace Graph

variable {entries : List String} {options : Transform.Options} {g h : Graph}

/-- A graph for these entry points and options. -/
def MadeFor (entries : List String) (options : Transform.Options) (g : Graph) : Prop :=
  g.entryPoints.toList = (OrderedSet.ofList entries).toList ∧ g.options = options

theorem MadeFor.congr (hg : g.MadeFor entries options) (hs : h.settings = g.settings) :
    h.MadeFor entries options := by
  refine ⟨?_, (options_congr hs).trans hg.2⟩
  rw [entryPoints_congr hs]
  exact hg.1

theorem MadeFor.ofEntries (hg : g.MadeFor entries options) :
    (Graph.ofEntries g.entryPoints.toList g.options).MadeFor entries options :=
  ⟨(OrderedSet.toList_ofList _ g.entryPoints.nodup_toList).trans hg.1, hg.2⟩

theorem MadeFor.isEntry_iff (hg : g.MadeFor entries options) (path : String) :
    g.isEntry path ↔ path ∈ entries := by
  rw [isEntry, ← OrderedSet.mem_toList, hg.1, OrderedSet.mem_toList, OrderedSet.contains_ofList,
    List.contains_iff_mem]

end Graph

namespace DeltaSession

/-- The deleted paths a plan works off. -/
def Plan.deleted : Plan → List String
  | update _ deleted => deleted
  | rebuild | nothing => []

/-- A delta of a run: the changes it took, what it had to do, what it worked
with, and what it came to. -/
structure Call (σ : Type) where
  taken : ChangeSets
  plan : Plan
  ctx : Traversal.Context σ
  outcome : Except BuildError (Delta × Graph)

/-- A session listens to changes until it is ended. -/
inductive Listens : DeltaSession → DeltaSession → Prop
  | refl (s : DeltaSession) : Listens s s
  | drain {s s'} (h : Listens s s') (channel : ChangeChannel) : Listens s (s'.drain channel).1
  | finish {s s'} (h : Listens s s') (channel : ChangeChannel) : Listens s (s'.finish channel).1

/-- The deltas of a session, the latest first. A delta begins when it takes the
changes; one that found the session open may begin after its end. -/
inductive Run {σ : Type} (entries : List String) (options : Transform.Options) :
    List (Call σ) → DeltaSession → Prop
  | start (channel : ChangeChannel) : Run entries options [] (start entries options channel).1
  | listen {calls s s'} (h : Run entries options calls s) (hlisten : Listens s s') :
      Run entries options calls s'
  | delta {calls s taken begun channel' during plan outcome} (h : Run entries options calls s)
      (ctx : Traversal.Context σ) (reset : Bool) (channel : ChangeChannel) (host : σ)
      (htake : s.take channel = (taken, begun, channel'))
      (hplan : begun.plan reset taken = plan)
      (houtcome : (plan.attempt ctx begun.graph host).outcome = outcome)
      (hlisten : Listens begun during) :
      Run entries options (⟨taken, plan, ctx, outcome⟩ :: calls) (during.settle taken outcome).2

variable {σ : Type} {s s' : DeltaSession} {entries : List String} {options : Transform.Options}

-- ---------------------------------------------------------------------------
-- What listening leaves alone
-- ---------------------------------------------------------------------------

theorem drain_graph (s : DeltaSession) (channel : ChangeChannel) :
    (s.drain channel).1.graph = s.graph ∧ (s.drain channel).1.built = s.built := by
  unfold drain
  split
  · exact ⟨rfl, rfl⟩
  · split <;> exact ⟨rfl, rfl⟩

theorem finish_graph (s : DeltaSession) (channel : ChangeChannel) :
    (s.finish channel).1.graph = s.graph ∧ (s.finish channel).1.built = s.built := by
  unfold finish
  split <;> exact ⟨rfl, rfl⟩

theorem Listens.graph (h : Listens s s') : s'.graph = s.graph ∧ s'.built = s.built := by
  induction h with
  | refl => exact ⟨rfl, rfl⟩
  | drain _ channel ih =>
    obtain ⟨hgraph, hbuilt⟩ := drain_graph _ channel
    exact ⟨hgraph.trans ih.1, hbuilt.trans ih.2⟩
  | finish _ channel ih =>
    obtain ⟨hgraph, hbuilt⟩ := finish_graph _ channel
    exact ⟨hgraph.trans ih.1, hbuilt.trans ih.2⟩

theorem take_graph {taken : ChangeSets} {channel channel' : ChangeChannel}
    (h : s.take channel = (taken, s', channel')) : s'.graph = s.graph ∧ s'.built = s.built := by
  obtain ⟨hgraph, hbuilt⟩ := drain_graph s channel
  unfold take at h
  simp only [Prod.mk.injEq] at h
  obtain ⟨_, rfl, _⟩ := h
  exact ⟨hgraph, hbuilt⟩

theorem plan_congr (hgraph : s'.graph = s.graph) (hbuilt : s'.built = s.built) (reset : Bool)
    (taken : ChangeSets) : s'.plan reset taken = s.plan reset taken := by
  unfold plan
  rw [hgraph, hbuilt]

section Undisturbed

variable {ctx : Traversal.Context σ} {reset : Bool} {channel : ChangeChannel} {host : σ}

theorem attempt_delta (hended : s.ended = false) :
    (s.delta ctx reset channel host).1 =
      (s.plan reset (s.take channel).1).attempt ctx s.graph host := by
  unfold delta
  rw [hended]
  cases htake : s.take channel with
  | mk taken rest =>
    obtain ⟨hgraph, hbuilt⟩ := take_graph htake
    simp only [Bool.false_eq_true, if_false]
    rw [plan_congr hgraph hbuilt, hgraph]

theorem outcome_delta (hended : s.ended = false) :
    (s.delta ctx reset channel host).1.outcome =
      ((s.plan reset (s.take channel).1).attempt ctx s.graph host).outcome := by
  rw [attempt_delta hended]

theorem ended_of_delta {delta : Delta} {g : Graph}
    (h : (s.delta ctx reset channel host).1.outcome = .ok (delta, g)) : s.ended = false := by
  cases hended : s.ended with
  | false => rfl
  | true =>
    unfold DeltaSession.delta at h
    rw [hended] at h
    cases h

theorem Run.of_delta {calls : List (Call σ)} (h : Run entries options calls s)
    (hended : s.ended = false) {plan : Plan} (hplan : s.plan reset (s.take channel).1 = plan) :
    Run entries options
      (⟨(s.take channel).1, plan, ctx, (s.delta ctx reset channel host).1.outcome⟩ :: calls)
      (s.delta ctx reset channel host).2.1 := by
  unfold DeltaSession.delta
  rw [hended]
  cases htake : s.take channel with
  | mk taken rest =>
    obtain ⟨hgraph, hbuilt⟩ := take_graph htake
    rw [htake] at hplan
    rw [← plan_congr hgraph hbuilt] at hplan
    simp only [Bool.false_eq_true, if_false]
    exact h.delta ctx reset channel host htake hplan (by rw [hplan]) (.refl _)

end Undisturbed

-- ---------------------------------------------------------------------------
-- What a plan does
-- ---------------------------------------------------------------------------

theorem plan_eq_update {taken : ChangeSets} {reset : Bool} {modified deleted : List String}
    (h : s.plan reset taken = .update modified deleted) :
    s.built = true ∧
      modified = (taken.modified.toList ++ taken.added.toList).filter s.graph.contains ∧
      deleted = taken.deleted.toList.filter s.graph.contains := by
  unfold plan at h
  split at h
  · cases h
  · rename_i hbuilt
    dsimp only at h
    split at h
    · cases h
    · cases h
      exact ⟨by simp_all, rfl, rfl⟩

theorem plan_eq_nothing {taken : ChangeSets} {reset : Bool} (h : s.plan reset taken = .nothing) :
    s.built = true ∧
      (taken.modified.toList ++ taken.added.toList).filter s.graph.contains = [] ∧
      taken.deleted.toList.filter s.graph.contains = [] := by
  unfold plan at h
  split at h
  · cases h
  · rename_i hbuilt
    dsimp only at h
    split at h
    · rename_i hempty
      rw [Bool.and_eq_true, List.isEmpty_iff, List.isEmpty_iff] at hempty
      exact ⟨by simp_all, hempty⟩
    · cases h

theorem Attempt.ofTraversal_ok {describe : GraphDelta → Delta} {g : Graph} {delta : Delta}
    {r : Except BuildError GraphDelta × Traversal σ}
    (h : (Attempt.ofTraversal describe r).outcome = .ok (delta, g)) :
    ∃ d t, r = (.ok d, t) ∧ delta = describe d ∧ g = t.edit.graph := by
  obtain ⟨result, t⟩ := r
  cases result with
  | error e => simp [Attempt.ofTraversal, Except.map] at h
  | ok d =>
    simp only [Attempt.ofTraversal, Except.map, Except.ok.injEq, Prod.mk.injEq] at h
    exact ⟨d, t, rfl, h.1.symm, h.2.symm⟩

theorem Plan.attempt_rebuild {ctx : Traversal.Context σ} {g g' : Graph} {host : σ} {delta : Delta}
    (h : (Plan.rebuild.attempt ctx g host).outcome = .ok (delta, g')) :
    ∃ d t, (Graph.ofEntries g.entryPoints.toList g.options).initialTraverse ctx host = (.ok d, t) ∧
      delta = { added := d.added, reset := true } ∧ g' = t.edit.graph :=
  Attempt.ofTraversal_ok h

theorem Plan.attempt_update {ctx : Traversal.Context σ} {g g' : Graph} {host : σ} {delta : Delta}
    {modified deleted : List String}
    (h : ((Plan.update modified deleted).attempt ctx g host).outcome = .ok (delta, g')) :
    ∃ d t, g.traverse ctx modified deleted host = (.ok d, t) ∧
      delta = { added := d.added, modified := d.modified, deleted := d.deleted } ∧
      g' = t.edit.graph :=
  Attempt.ofTraversal_ok h

theorem Plan.attempt_nothing {ctx : Traversal.Context σ} {g g' : Graph} {host : σ} {delta : Delta}
    (h : (Plan.nothing.attempt ctx g host).outcome = .ok (delta, g')) : g' = g := by
  simp only [attempt, Except.ok.injEq, Prod.mk.injEq] at h
  exact h.2.symm

-- ---------------------------------------------------------------------------
-- Induction over a run
-- ---------------------------------------------------------------------------

/-- What the deltas of a run do to the graph, one after another: listening does
nothing to it, and a delta that fails leaves it as it was. -/
theorem Run.graph_induction {P : List (Call σ) → Bool → Graph → Prop} {calls : List (Call σ)}
    (start : P [] false (.ofEntries entries options))
    (failed : ∀ {calls built g} (call : Call σ) (e : BuildError),
      P calls built g → call.outcome = .error e → P (call :: calls) built g)
    (rebuilt : ∀ {calls built g d t} (call : Call σ) (host : σ) (delta : Delta),
      P calls built g → call.plan = .rebuild → call.outcome = .ok (delta, t.edit.graph) →
      (Graph.ofEntries g.entryPoints.toList g.options).initialTraverse call.ctx host = (.ok d, t) →
      P (call :: calls) true t.edit.graph)
    (updated : ∀ {calls g d t modified deleted} (call : Call σ) (host : σ) (delta : Delta),
      P calls true g → call.plan = .update modified deleted →
      modified = (call.taken.modified.toList ++ call.taken.added.toList).filter g.contains →
      deleted = call.taken.deleted.toList.filter g.contains →
      call.outcome = .ok (delta, t.edit.graph) →
      g.traverse call.ctx modified deleted host = (.ok d, t) →
      P (call :: calls) true t.edit.graph)
    (unchanged : ∀ {calls g} (call : Call σ) (delta : Delta),
      P calls true g → call.plan = .nothing →
      (call.taken.modified.toList ++ call.taken.added.toList).filter g.contains = [] →
      call.taken.deleted.toList.filter g.contains = [] →
      call.outcome = .ok (delta, g) → P (call :: calls) true g)
    (h : Run entries options calls s) : P calls s.built s.graph := by
  induction h with
  | start channel => exact start
  | listen _ hlisten ih =>
    rw [hlisten.graph.1, hlisten.graph.2]
    exact ih
  | delta _ ctx reset channel host htake hplan houtcome hlisten ih =>
    rename_i calls s₀ taken begun _ during plan outcome h₀
    obtain ⟨hgraph, hbuilt⟩ := take_graph htake
    rw [← hgraph, ← hbuilt] at ih
    cases outcome with
    | error e =>
      simp only [settle, hlisten.graph]
      exact failed _ e ih rfl
    | ok result =>
      obtain ⟨delta, g⟩ := result
      simp only [settle]
      cases plan with
      | rebuild =>
        obtain ⟨d, t, htraverse, _, rfl⟩ := Plan.attempt_rebuild houtcome
        exact rebuilt _ host delta ih rfl rfl htraverse
      | update modified deleted =>
        obtain ⟨d, t, htraverse, _, rfl⟩ := Plan.attempt_update houtcome
        obtain ⟨htrue, hmodified, hdeleted⟩ := plan_eq_update hplan
        rw [htrue] at ih
        exact updated _ host delta ih rfl hmodified hdeleted rfl htraverse
      | nothing =>
        obtain rfl := Plan.attempt_nothing houtcome
        obtain ⟨htrue, hmodified, hdeleted⟩ := plan_eq_nothing hplan
        rw [htrue] at ih
        exact unchanged _ delta ih rfl hmodified hdeleted rfl

/-- Induction over the graphs of a run without shallow deltas. All of them are
tidy, and made for the entry points and options of the session. -/
theorem Run.built_induction {P : List (Call σ) → Graph → Prop} {calls : List (Call σ)}
    (failed : ∀ {calls g} (call : Call σ) (e : BuildError),
      P calls g → call.outcome = .error e → P (call :: calls) g)
    (rebuilt : ∀ {calls d t} (call : Call σ) (host : σ) (delta : Delta) (g : Graph),
      g.MadeFor entries options → g.modules = ∅ → call.ctx.shallow = false →
      call.plan = .rebuild → call.outcome = .ok (delta, t.edit.graph) →
      g.initialTraverse call.ctx host = (.ok d, t) → P (call :: calls) t.edit.graph)
    (updated : ∀ {calls g d t modified deleted} (call : Call σ) (host : σ) (delta : Delta),
      P calls g → g.MadeFor entries options → g.Tidy → call.ctx.shallow = false →
      call.plan = .update modified deleted →
      modified = (call.taken.modified.toList ++ call.taken.added.toList).filter g.contains →
      deleted = call.taken.deleted.toList.filter g.contains →
      call.outcome = .ok (delta, t.edit.graph) →
      g.traverse call.ctx modified deleted host = (.ok d, t) → P (call :: calls) t.edit.graph)
    (unchanged : ∀ {calls g} (call : Call σ) (delta : Delta),
      P calls g → call.plan = .nothing →
      (call.taken.modified.toList ++ call.taken.added.toList).filter g.contains = [] →
      call.taken.deleted.toList.filter g.contains = [] →
      call.outcome = .ok (delta, g) → P (call :: calls) g)
    (h : Run entries options calls s) (hcalls : ∀ call ∈ calls, call.ctx.shallow = false) :
    s.graph.MadeFor entries options ∧ (s.built = true → s.graph.Tidy ∧ P calls s.graph) := by
  refine h.graph_induction (P := fun calls built g => (∀ call ∈ calls, call.ctx.shallow = false) →
    g.MadeFor entries options ∧ (built = true → g.Tidy ∧ P calls g)) ?_ ?_ ?_ ?_ ?_ hcalls
  · exact fun _ => ⟨⟨rfl, rfl⟩, nofun⟩
  · intro calls built g call e ih hfail hcalls
    obtain ⟨hmade, hg⟩ := ih fun c hc => hcalls c (.tail _ hc)
    exact ⟨hmade, fun hbuilt => ⟨(hg hbuilt).1, failed call e (hg hbuilt).2 hfail⟩⟩
  · intro calls built g d t call host delta ih hplan hok htraverse hcalls
    obtain ⟨hmade, _⟩ := ih fun c hc => hcalls c (.tail _ hc)
    have hshallow := hcalls call (.head _)
    have hstart := hmade.ofEntries
    have hexact := Graph.exact_initialTraverse hshallow htraverse
    have hsettings := Graph.settings_initialTraverse hshallow htraverse
    exact ⟨hstart.congr hsettings, fun _ => ⟨hexact.toTidy,
      rebuilt call host delta _ hstart rfl hshallow hplan hok htraverse⟩⟩
  · intro calls g d t modified deleted call host delta ih hplan hmod hdel hok htraverse hcalls
    obtain ⟨hmade, hg⟩ := ih fun c hc => hcalls c (.tail _ hc)
    obtain ⟨htidy, hp⟩ := hg rfl
    have hshallow := hcalls call (.head _)
    exact ⟨hmade.congr (Graph.settings_traverse htidy hshallow htraverse), fun _ =>
      ⟨Graph.tidy_traverse htidy hshallow htraverse,
        updated call host delta hp hmade htidy hshallow hplan hmod hdel hok htraverse⟩⟩
  · intro calls g call delta ih hplan hmod hdel hok hcalls
    obtain ⟨hmade, hg⟩ := ih fun c hc => hcalls c (.tail _ hc)
    exact ⟨hmade, fun _ => ⟨(hg rfl).1, unchanged call delta (hg rfl).2 hplan hmod hdel hok⟩⟩

theorem Run.made_tidy {calls : List (Call σ)} (h : Run entries options calls s)
    (hcalls : ∀ call ∈ calls, call.ctx.shallow = false) :
    s.graph.MadeFor entries options ∧ (s.built = true → s.graph.Tidy) := by
  refine (h.built_induction (P := fun _ _ => True) ?_ ?_ ?_ ?_ hcalls).imp_right
    fun hg hbuilt => (hg hbuilt).1
  all_goals intros; trivial

theorem Run.exact {calls : List (Call σ)} (h : Run entries options calls s)
    (hcalls : ∀ call ∈ calls, call.ctx.shallow = false ∧
      call.ctx.Avoids options.platform call.plan.deleted)
    (hbuilt : s.built = true) : s.graph.Exact := by
  refine ((h.built_induction (P := fun calls g =>
    (∀ call ∈ calls, call.ctx.Avoids options.platform call.plan.deleted) → g.Exact)
    ?_ ?_ ?_ ?_ fun call hc => (hcalls call hc).1).2 hbuilt).2 fun call hc => (hcalls call hc).2
  · exact fun _ _ ih _ havoids => ih fun c hc => havoids c (.tail _ hc)
  · intro calls d t call host delta g hmade _ hshallow _ _ htraverse _
    exact Graph.exact_initialTraverse hshallow htraverse
  · intro calls g d t modified deleted call host delta ih hmade _ hshallow hplan _ _ _ htraverse
      havoids
    have hpaths := havoids call (.head _)
    rw [hplan, ← hmade.2] at hpaths
    exact Graph.exact_traverse (ih fun c hc => havoids c (.tail _ hc)) hshallow hpaths htraverse
  · exact fun _ _ ih _ _ _ _ havoids => ih fun c hc => havoids c (.tail _ hc)

/-- Between the deltas of a run no edge leads out of the graph, every module
counts each edge to it once, the entry points are there, and nothing is left
over from a collection of cycles. -/
theorem Run.references_exact {calls : List (Call σ)} (h : Run entries options calls s)
    (hcalls : ∀ call ∈ calls, call.ctx.shallow = false ∧
      call.ctx.Avoids options.platform call.plan.deleted)
    (hbuilt : s.built = true) :
    (∀ p m, s.graph.modules.get? p = some m → ∀ edge ∈ m.edges, s.graph.contains edge.target) ∧
      (∀ p m, s.graph.modules.get? p = some m →
        ∀ q, m.inverse.count q = (s.graph.targets q).count p) ∧
      (∀ entry ∈ entries, s.graph.contains entry) ∧
      s.graph.possibleRoots.toList = [] ∧
      ∀ p, s.graph.contains p → s.graph.color p = .black := by
  have hexact := h.exact hcalls hbuilt
  have hmade := (h.made_tidy fun call hc => (hcalls call hc).1).1
  refine ⟨fun p m hm => (hexact.consistent p m hm).1, fun p m hm => (hexact.consistent p m hm).2,
    fun entry he => ?_, ?_, hexact.black⟩
  · exact hexact.entries entry ((hmade.isEntry_iff entry).mpr he)
  · refine List.eq_nil_iff_forall_not_mem.mpr fun t ht => ?_
    rw [OrderedSet.mem_toList, hexact.no_root t] at ht
    cases ht

/-- An entry point imports `b`; then `b` is deleted, and the import with it. -/
theorem Run.references_exact_deletion :
    ∃ (calls : List (Call Unit)) (s : DeltaSession),
      Run ["a"] {} calls s ∧ calls.length = 2 ∧ s.built = true ∧ s.graph.contains "b" = false ∧
        (∀ p m, s.graph.modules.get? p = some m →
          ∀ edge ∈ m.edges, s.graph.contains edge.target) ∧
        (∀ p m, s.graph.modules.get? p = some m →
          ∀ q, m.inverse.count q = (s.graph.targets q).count p) ∧
        (∀ entry ∈ ["a"], s.graph.contains entry) ∧
        s.graph.possibleRoots.toList = [] ∧
        ∀ p, s.graph.contains p → s.graph.color p = .black := by
  let channel : ChangeChannel := { capacity := 4 }
  let edited := (channel.subscribe.2.send [.deleted "b", .modified "a"]).2
  let before := Traversal.Context.ofImports fun path => if path = "a" then ["b"] else []
  let after := Traversal.Context.ofImports fun _ => []
  have h₀ : Run ["a"] {} ([] : List (Call Unit)) (DeltaSession.start ["a"] {} channel).1 := .start channel
  have h₁ : Run ["a"] {} [⟨_, .rebuild, before, _⟩]
      (DeltaSession.delta before false _ channel ()).2.1 := h₀.of_delta rfl rfl
  have h₂ : Run ["a"] {} [⟨_, .update ["a"] ["b"], after, _⟩, ⟨_, .rebuild, before, _⟩]
      (DeltaSession.delta after false _ edited ()).2.1 :=
    h₁.of_delta (by decide +kernel) (by decide +kernel)
  have hafter : after.Avoids none ["b"] :=
    Traversal.Context.avoids_ofImports fun _ _ _ => List.not_mem_nil
  have hbefore : before.Avoids none [] := Traversal.Context.avoids_ofImports nofun
  exact ⟨_, _, h₂, rfl, by decide +kernel, by decide +kernel, h₂.references_exact
    (List.forall_mem_cons.mpr ⟨⟨rfl, hafter⟩,
      List.forall_mem_cons.mpr ⟨⟨rfl, hbefore⟩, List.forall_mem_nil _⟩⟩) (by decide +kernel)⟩

end DeltaSession

end BundleGraph
