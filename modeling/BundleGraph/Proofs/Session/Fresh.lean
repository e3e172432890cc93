import BundleGraph.Proofs.Graph.Fresh
import BundleGraph.Proofs.Session

/-!
# Deltas and full builds

When a session is told of what changes, its deltas come to what a full build
would: after each of them the graph is fresh, however many deltas there were and
whichever of them failed.
-/

namespace BundleGraph.DeltaSession

variable {σ τ : Type} {s : DeltaSession} {entries : List String} {options : Transform.Options}
  {platform : Option String} {calls : List (Call σ)} {call : Call σ}

def Call.succeeded (call : Call σ) : Bool := call.outcome.isOk

/-- What the latest delta that succeeded worked with. -/
def lastContext (calls : List (Call σ)) : Option (Traversal.Context σ) :=
  (calls.find? Call.succeeded).map (·.ctx)

/-- What has changed since `before` is among the changes that a delta takes: it
loads otherwise only what was changed, resolves otherwise only what led to a
deleted path, and resolves nothing to the deleted paths it works off. -/
structure Call.Announced (platform : Option String) (before : Traversal.Context σ)
    (call : Call σ) : Prop where
  loads : ∀ path host, (before.loader.load path host).1.outcome ≠
      (call.ctx.loader.load path host).1.outcome →
    call.taken.added.contains path ∨ call.taken.modified.contains path ∨
      call.taken.deleted.contains path
  answers : ∀ origin d platform, before.resolve origin d platform ≠
      call.ctx.resolve origin d platform →
    ∃ path, call.taken.deleted.contains path ∧ before.resolve origin d platform = .ok path
  gone : call.ctx.Avoids platform call.plan.deleted

/-- Every delta that succeeded without a full build was told of what had changed
since the one that succeeded before it. -/
def Tracked (platform : Option String) : List (Call σ) → Prop
  | [] => True
  | call :: calls =>
    Tracked platform calls ∧ (call.succeeded → call.plan ≠ .rebuild →
      ∀ before, lastContext calls = some before → call.Announced platform before)

theorem lastContext_of_ok {result : Delta × Graph} (h : call.outcome = .ok result) :
    lastContext (call :: calls) = some call.ctx := by
  rw [lastContext, List.find?_cons_of_pos]
  · rfl
  · rw [Call.succeeded, h]
    rfl

theorem lastContext_of_error {e : BuildError} (h : call.outcome = .error e) :
    lastContext (call :: calls) = lastContext calls := by
  rw [lastContext, List.find?_cons_of_neg]
  · rfl
  · rw [Call.succeeded, h]
    exact Bool.false_ne_true

theorem Tracked.announced (h : Tracked platform (call :: calls)) {result : Delta × Graph}
    (hok : call.outcome = .ok result) (hplan : call.plan ≠ .rebuild)
    {before : Traversal.Context σ} (hlast : lastContext calls = some before) :
    call.Announced platform before :=
  h.2 (by rw [Call.succeeded, hok]; rfl) hplan before hlast

theorem Run.built_of_last (h : Run entries options calls s) {last : Traversal.Context σ}
    (hlast : lastContext calls = some last) : s.built = true := by
  refine h.graph_induction (P := fun calls built _ => ∀ last, lastContext calls = some last →
    built = true) nofun ?_ ?_ ?_ ?_ last hlast
  · intro calls built g call e ih herror last hlast
    exact ih last ((lastContext_of_error herror).symm.trans hlast)
  all_goals intros; rfl

theorem Call.Announced.fresh {before : Traversal.Context σ} {g : Graph}
    (h : call.Announced platform before) (hg : g.Exact) (hfresh : g.Fresh before) {p : String}
    {m : Module} (hm : g.content? p = some m)
    (hp : ¬ (call.taken.added.contains p ∨ call.taken.modified.contains p ∨
      call.taken.deleted.contains p))
    (hedges : ∀ u ∈ g.targets p, call.taken.deleted.contains u = false) :
    m.Fresh call.ctx g.options.platform := by
  have hpath : m.path = p := hg.wellFormed.path_eq hm
  refine (hfresh p m hm).of_unchanged (fun host => ?_) fun d hd => ?_
  · by_contra hload
    rw [hpath] at hload
    exact hp (h.loads p host hload)
  · by_contra hresolve
    obtain ⟨u, hdeleted, hanswer⟩ := h.answers _ _ _ hresolve
    have htarget := Resolver.mem_targets_edges (hfresh p m hm).resolved hd hanswer
    have hedge := Graph.mem_targets_iff.mpr ⟨m, hm, List.mem_map.mp htarget⟩
    rw [hedges u hedge] at hdeleted
    cases hdeleted

theorem Call.Announced.fresh_or_changed {before : Traversal.Context σ} {g : Graph}
    (h : call.Announced platform before) (hg : g.Exact) (hfresh : g.Fresh before)
    {modified deleted : List String}
    (hmod : modified =
      (call.taken.modified.toList ++ call.taken.added.toList).filter g.contains)
    (hdel : deleted = call.taken.deleted.toList.filter g.contains) {p : String} {m : Module}
    (hm : g.content? p = some m) : m.Fresh call.ctx g.options.platform ∨ p ∈ modified ∨
      p ∈ deleted ∨ ∃ u ∈ deleted, u ∈ g.targets p := by
  have hc := Graph.contains_of_content? hm
  have hdeleted : ∀ u, g.contains u → call.taken.deleted.contains u → u ∈ deleted := by
    intro u hu htaken
    rw [hdel, List.mem_filter, OrderedSet.mem_toList]
    exact ⟨htaken, hu⟩
  by_cases hp : call.taken.added.contains p ∨ call.taken.modified.contains p
  · refine .inr (.inl ?_)
    rw [hmod, List.mem_filter, List.mem_append, OrderedSet.mem_toList, OrderedSet.mem_toList]
    exact ⟨hp.symm, hc⟩
  by_cases hpd : call.taken.deleted.contains p
  · exact .inr (.inr (.inl (hdeleted p hc hpd)))
  by_cases hedge : ∃ u ∈ g.targets p, call.taken.deleted.contains u
  · obtain ⟨u, htarget, hu⟩ := hedge
    exact .inr (.inr (.inr ⟨u, hdeleted u (hg.contains_target htarget) hu, htarget⟩))
  · refine .inl (h.fresh hg hfresh hm ?_ fun u hu => ?_)
    · exact fun hany => (or_assoc.mpr hany).elim hp hpd
    · exact Bool.not_eq_true _ ▸ fun hud => hedge ⟨u, hu, hud⟩

theorem Run.fresh (h : Run entries options calls s)
    (hcalls : ∀ call ∈ calls, call.ctx.shallow = false) (htracked : Tracked options.platform calls)
    (hbuilt : s.built = true) :
    s.graph.Exact ∧ ∃ last, lastContext calls = some last ∧ s.graph.Fresh last := by
  refine ((h.built_induction (P := fun calls g => Tracked options.platform calls →
    g.Exact ∧ ∃ last, lastContext calls = some last ∧ g.Fresh last) ?_ ?_ ?_ ?_ hcalls).2
      hbuilt).2 htracked
  · intro calls g call e ih herror htracked
    rw [lastContext_of_error herror]
    exact ih htracked.1
  · intro calls d t call host delta g hmade _ hshallow _ hok htraverse _
    exact ⟨Graph.exact_initialTraverse hshallow htraverse, call.ctx, lastContext_of_ok hok,
      Graph.fresh_initialTraverse hshallow htraverse⟩
  · intro calls g d t modified deleted call host delta ih hmade _ hshallow hplan hmod hdel hok
      htraverse htracked
    obtain ⟨hexact, last, hlast, hfresh⟩ := ih htracked.1
    have hannounced := htracked.announced hok (by rw [hplan]; exact Plan.noConfusion) hlast
    have hgone := hannounced.gone
    rw [hplan, ← hmade.2] at hgone
    exact ⟨Graph.exact_traverse hexact hshallow hgone htraverse, call.ctx, lastContext_of_ok hok,
      Graph.fresh_traverse hexact hshallow
        (fun p m => hannounced.fresh_or_changed hexact hfresh hmod hdel) htraverse⟩
  · intro calls g call delta ih hplan hmod hdel hok htracked
    obtain ⟨hexact, last, hlast, hfresh⟩ := ih htracked.1
    have hannounced := htracked.announced hok (by rw [hplan]; exact Plan.noConfusion) hlast
    refine ⟨hexact, call.ctx, lastContext_of_ok hok, fun p m hm => ?_⟩
    rcases hannounced.fresh_or_changed hexact hfresh hmod.symm hdel.symm hm with
      hnow | hp | hp | ⟨u, hu, _⟩
    · exact hnow
    · cases hp
    · cases hp
    · cases hu

/-- A graph kept up to date by deltas yields what a full build of the same world
yields: the same modules in the same order, and the same entry modules. -/
theorem Run.buildResult_eq_rebuild (h : Run entries options calls s)
    (hcalls : ∀ call ∈ calls, call.ctx.shallow = false) (htracked : Tracked options.platform calls)
    {last : Traversal.Context σ} (hlast : lastContext calls = some last)
    {ctx : Traversal.Context τ} (hshallow : ctx.shallow = false) (hsame : last.SameWorld ctx)
    {host : τ} {d : GraphDelta} {t : Traversal τ}
    (hrebuild : (Graph.ofEntries entries options).initialTraverse ctx host = (.ok d, t)) :
    s.graph.buildResult.content = t.edit.graph.buildResult.content := by
  obtain ⟨hexact, last', hlast', hfresh⟩ := h.fresh hcalls htracked (h.built_of_last hlast)
  obtain rfl := Option.some.inj (hlast.symm.trans hlast')
  obtain ⟨hentries, hoptions⟩ := (h.made_tidy hcalls).1
  have hexact' := Graph.exact_initialTraverse hshallow hrebuild
  have hsettings := Graph.settings_initialTraverse hshallow hrebuild
  refine (hfresh.buildResult_eq hexact hexact' (Graph.fresh_initialTraverse hshallow hrebuild)
    hsame ?_ ?_).symm
  · rw [Graph.entryPoints_congr hsettings]
    exact hentries.symm
  · rw [Graph.options_congr hsettings]
    exact hoptions.symm

/-- An entry point that imports `b` comes to import `c`, and `b` is deleted. -/
theorem Run.buildResult_eq_rebuild_edit :
    ∃ (calls : List (Call Unit)) (s : DeltaSession) (ctx : Traversal.Context Unit)
      (d : GraphDelta) (t : Traversal Unit),
      Run ["a"] {} calls s ∧ calls.length = 2 ∧ s.graph.contains "c" ∧
        s.graph.contains "b" = false ∧
        (Graph.ofEntries ["a"] {}).initialTraverse ctx () = (.ok d, t) ∧
        s.graph.buildResult.content = t.edit.graph.buildResult.content := by
  let channel : ChangeChannel := { capacity := 4 }
  let edited := (channel.subscribe.2.send [.deleted "b", .modified "a"]).2
  let before := Traversal.Context.ofImports fun path => if path = "a" then ["b"] else []
  let after := Traversal.Context.ofImports fun path => if path = "a" then ["c"] else []
  let s₀ := (DeltaSession.start ["a"] {} channel).1
  let s₁ := (s₀.delta before false channel ()).2.1
  let s₂ := (s₁.delta after false edited ()).2.1
  let first : Call Unit :=
    ⟨(s₀.take channel).1, .rebuild, before, (s₀.delta before false channel ()).1.outcome⟩
  let second : Call Unit :=
    ⟨(s₁.take edited).1, .update ["a"] ["b"], after, (s₁.delta after false edited ()).1.outcome⟩
  have h₀ : Run ["a"] {} ([] : List (Call Unit)) s₀ := .start channel
  have h₁ : Run ["a"] {} [first] s₁ := h₀.of_delta rfl rfl
  have h₂ : Run ["a"] {} [second, first] s₂ :=
    h₁.of_delta (by decide +kernel) (by decide +kernel)
  have hfirst : lastContext [first] = some before := by
    have hok : first.succeeded := by decide +kernel
    rw [lastContext, List.find?_cons_of_pos hok]
    rfl
  have hsecond : lastContext [second, first] = some after := by
    have hok : second.succeeded := by decide +kernel
    rw [lastContext, List.find?_cons_of_pos hok]
    rfl
  have hmodified : second.taken.modified.contains "a" := by decide +kernel
  have hannounced : second.Announced none before := by
    refine
      { loads := fun path host hload => .inr (.inl ?_)
        answers := fun _ _ _ hanswer => absurd rfl hanswer
        gone := Traversal.Context.avoids_ofImports fun path hpath origin => ?_ }
    · by_cases hpath : path = "a"
      · rw [hpath]
        exact hmodified
      · refine absurd ?_ hload
        simp only [before, after, second, Traversal.Context.ofImports, if_neg hpath]
    · rw [List.mem_singleton.mp hpath]
      split <;> decide
  have htracked : Tracked none [second, first] := by
    refine ⟨⟨trivial, fun _ hplan => absurd rfl hplan⟩, fun _ _ last hlast => ?_⟩
    obtain rfl := Option.some.inj (hfirst.symm.trans hlast)
    exact hannounced
  have hviews : s₂.graph.contains "c" ∧ s₂.graph.contains "b" = false := by decide +kernel
  have hok : ((Graph.ofEntries ["a"] {}).initialTraverse after ()).1.isOk := by decide +kernel
  clear_value s₂
  cases hrebuild : (Graph.ofEntries ["a"] {}).initialTraverse after () with
  | mk result t =>
    rw [hrebuild] at hok
    cases result with
    | error e => cases hok
    | ok d =>
      exact ⟨_, s₂, after, d, t, h₂, rfl, hviews.1, hviews.2, hrebuild,
        h₂.buildResult_eq_rebuild (List.forall_mem_cons.mpr ⟨rfl, List.forall_mem_cons.mpr
          ⟨rfl, List.forall_mem_nil _⟩⟩) htracked hsecond rfl ⟨rfl, fun _ _ _ => rfl⟩ hrebuild⟩

end BundleGraph.DeltaSession
