import BundleGraph.Proofs.Graph.Process
import BundleGraph.Proofs.LoadMemo
import BundleGraph.Proofs.Queue

/-!
# What a traversal keeps true

While a traversal works off its tasks, the edit is steady, what is being loaded
is among the tasks, and every module is as it should be or still among them.
`drained` says what that comes to when no task is left, whatever the order in
which the loads were completed.
-/

namespace BundleGraph

open Queue

/-- What a traversal is to keep: the settings of its graph, the slack of its
counts, the modules to be reported when they are gone, whether everything is
reached from the entry points and the possible roots, and what modules are to
be. -/
structure Aim where
  settings : OrderedSet String × Transform.Options
  slack : String → String → Nat
  old : String → Prop
  reached : Prop
  ok : Module → Prop

namespace Edit

/-- An edit with tasks to be worked off. -/
structure Underway (a : Aim) (tasks : List String) (e : Edit) : Prop where
  steady : Steady a.slack e
  settings : e.graph.settings = a.settings
  loading : ∀ q, e.loading.contains q → q ∈ tasks
  entries : ∀ q, e.graph.isEntry q → e.graph.contains q ∨ e.loading.contains q
  ok : ∀ q m, e.graph.content? q = some m → a.ok m ∨ q ∈ tasks
  marked : a.reached → Marked (fun _ => False) e
  reported : Reported a.old e

variable {a : Aim} {e e' : Edit} {path : String} {file : LoadedFile} {tasks next : List String}
  {resolve : Resolver}

theorem Underway.perm {tasks' : List String} (h : Underway a tasks e) (hp : tasks.Perm tasks') :
    Underway a tasks' e :=
  { h with
    loading := fun q hq => hp.mem_iff.mp (h.loading q hq)
    ok := fun q m hm => (h.ok q m hm).imp_right hp.mem_iff.mp }

theorem Underway.process (h : Underway a (path :: tasks) e)
    (hok : ∀ current, resolve.edges path a.settings.2.platform file.result.dependencies [] =
      .ok current → a.ok ⟨path, current, ∅, file.result, file.digest⟩)
    (hprocess : e.process resolve false path file = (.ok next, e')) :
    Underway a (tasks ++ next) e' := by
  obtain ⟨hp, hsteady, hmarked, hreported⟩ := processed a.old h.steady hprocess
  have hoptions : e.graph.options = a.settings.2 := congrArg Prod.snd h.settings
  refine
    { steady := hsteady
      settings := hp.settings.trans h.settings
      loading := fun q hq => ?_
      entries := fun q hq => ?_
      ok := fun q m hm => ?_
      marked := fun hr => hmarked (h.marked hr)
      reported := hreported h.reported }
  · rcases hp.loading q hq with hq | ⟨hne, hq⟩
    · exact List.mem_append_right _ hq
    · exact List.mem_append_left _
        ((List.mem_cons.mp (h.loading q hq)).resolve_left (Ne.symm hne))
  · rw [Graph.isEntry_congr hp.settings] at hq
    exact hp.entries q hq (h.entries q hq)
  · have hc := Graph.contains_of_content? hm
    by_cases hq : path = q
    · subst hq
      obtain ⟨current, hedges, hcontent⟩ := hp.self hc
      rw [hcontent, Option.some.injEq] at hm
      rw [hoptions] at hedges
      exact .inl (hm ▸ hok current hedges)
    · rw [hp.other q hq hc] at hm
      refine (h.ok q m hm).imp_right fun hmem => List.mem_append_left _ ?_
      exact (List.mem_cons.mp hmem).resolve_left (Ne.symm hq)

end Edit

namespace Traversal

variable {σ : Type} {a : Aim} {ctx : Context σ}

/-- What a load of the loader delivers. -/
def Context.Loads (ctx : Context σ) (path : String) (result : Except BuildError LoadedFile) :
    Prop :=
  ∃ host, result = LoadMemo.sharedOutcome (ctx.loader.load path host).1.outcome

/-- Every module that is made of a file the loader delivers is as it is to be. -/
def Context.Makes (ctx : Context σ) (platform : Option String) (ok : Module → Prop) : Prop :=
  ∀ path file current, ctx.Loads path (.ok file) →
    ctx.resolve.edges path platform file.result.dependencies [] = .ok current →
      ok ⟨path, current, ∅, file.result, file.digest⟩

theorem accumulate_ok {path : String} {file : LoadedFile} {t t' : Traversal σ}
    {next : List String} (h : accumulate ctx path file t = (.ok next, t')) :
    t.edit.process ctx.resolve ctx.shallow path file = (.ok next, t'.edit) ∧
      t'.memo = t.memo.settle path file := by
  unfold accumulate at h
  dsimp only at h
  cases hprocess : t.edit.process ctx.resolve ctx.shallow path file with
  | mk outcome edit =>
    cases outcome with
    | error e => simp [hprocess] at h
    | ok next' =>
      simp only [hprocess, Prod.mk.injEq, Except.ok.injEq] at h
      obtain ⟨rfl, rfl⟩ := h
      exact ⟨rfl, rfl⟩

theorem underway (hshallow : ctx.shallow = false)
    (hmakes : ctx.Makes a.settings.2.platform a.ok) :
    Invariant (accumulator ctx) (fun _ => ctx.Loads)
      fun tasks t => t.edit.Underway a tasks ∧ t.memo.Delivers ctx.Loads where
  perm := fun hp h => ⟨h.1.perm hp, h.2⟩
  start := fun {task ts t} h => by
    obtain ⟨hmemo, hgood⟩ := h.2.load task fun path host => ⟨host, rfl⟩
    exact ⟨⟨h.1, hmemo⟩, hgood⟩
  accumulate := fun {task ts file t next t'} h hgood hacc => by
    obtain ⟨hprocess, hmemo⟩ := accumulate_ok hacc
    rw [hshallow] at hprocess
    refine ⟨h.1.process (fun current => hmakes task file current hgood) hprocess, ?_⟩
    rw [hmemo]
    exact h.2.settle hgood
  started := id
  accumulated := fun _ _ => id

theorem delivers_ofEdit (e : Edit) (host : σ) (total : Nat) :
    (ofEdit e host total).memo.Delivers ctx.Loads := by
  intro path st hst
  simp [ofEdit] at hst

theorem drain_invariant {Good : Traversal σ → String → Except BuildError LoadedFile → Prop}
    {Inv : List String → Traversal σ → Prop} {t t' : Traversal σ}
    {seeds : List String} (hinv : Invariant (accumulator ctx) Good Inv) (h : Inv seeds t)
    (hdrain : t.drain ctx seeds = (.ok (), t')) : Inv [] t' := by
  unfold drain at hdrain
  split at hdrain
  · rename_i hsome
    simp only [Prod.mk.injEq] at hdrain
    obtain ⟨rfl, rfl⟩ := hdrain
    exact Queue.drain_invariant hinv ctx.pace seeds _ h hsome
  · simp at hdrain

theorem drained (hshallow : ctx.shallow = false)
    (hmakes : ctx.Makes a.settings.2.platform a.ok)
    {e : Edit} {host : σ} {total : Nat} {seeds : List String} {t : Traversal σ}
    (h : e.Underway a seeds) (hdrain : (ofEdit e host total).drain ctx seeds = (.ok (), t)) :
    t.edit.Underway a [] :=
  (drain_invariant (underway hshallow hmakes) ⟨h, delivers_ofEdit e host total⟩ hdrain).1

end Traversal

end BundleGraph
