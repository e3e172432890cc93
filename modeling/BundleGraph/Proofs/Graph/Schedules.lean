import BundleGraph.Proofs.Graph.Fresh
import BundleGraph.Proofs.Graph.Unaffected

/-!
# What does not depend on the schedule

Loads of one traversal can be completed in many orders. A module that keeps a
referrer and that nobody asked for stays what it was in each of them, and every
other module of the result is fresh. So what is reached from the entry points
is the same in all orders: `Becomes.agree` compares two traversals by what they
come to, not step by step.

What may lose its referrers on the way is loaded again in one order and not in
another one (`schedules_differ`): it may be reported as modified by one of two
traversals only, and if it was stale, only one of them finds out.
-/

namespace BundleGraph

/-- In the graph, but not reached from the entry points. -/
def Graph.Leftover (g : Graph) (path : String) : Prop := g.contains path ∧ ¬ g.Reached path

variable {σ τ : Type} {ctx : Traversal.Context σ} {other : Traversal.Context τ}
  {platform : Option String}

/-- No file that can be loaded for a module has this edge. -/
def Traversal.Context.Drops (ctx : Traversal.Context σ) (platform : Option String) :
    String → Edge → Prop :=
  ctx.resolve.Drops platform fun path file => ctx.Loads path (.ok file)

section SameWorld

variable (hsame : ctx.SameWorld other)

include hsame

theorem Traversal.Context.SameWorld.symm : other.SameWorld ctx where
  resolve := hsame.resolve.symm
  load := fun path host host' => (hsame.load path host' host).symm

theorem Traversal.Context.SameWorld.loads (host : σ) {path : String}
    {result : Except BuildError LoadedFile} (h : other.Loads path result) :
    ctx.Loads path result := by
  obtain ⟨host', rfl⟩ := h
  exact ⟨host, by rw [hsame.load path host host']⟩

theorem Traversal.Context.SameWorld.drops (host : σ) {origin : String} {edge : Edge}
    (h : other.Drops platform origin edge) : ctx.Drops platform origin edge := by
  obtain ⟨file, current, hload, hedges, hkeeps⟩ := h
  refine ⟨file, current, hsame.loads host hload, ?_, hkeeps⟩
  rwa [hsame.resolve]

theorem Module.Fresh.of_sameWorld (host' : τ) {m : Module} (h : m.Fresh ctx platform) :
    m.Fresh other platform where
  loaded := by
    obtain ⟨host, hload⟩ := h.loaded
    exact ⟨host', by rw [← hsame.load m.path host host', hload]⟩
  resolved := by rw [← hsame.resolve, h.resolved]

end SameWorld

namespace Graph

variable {g h h' : Graph} {modified : List String} {kept : String → Prop} {d d' : GraphDelta}

theorem content?_eq_none {q : String} (hq : h.contains q = false) : h.content? q = none := by
  rw [content?, contains_eq_false_iff.mp hq]
  rfl

end Graph

namespace GraphDelta.IsPatch

variable {g h : Graph} {d : GraphDelta} {requested : List String} {q : String}

theorem mem_added_iff (hd : d.IsPatch requested g h) :
    q ∈ d.added.map Prod.fst ↔ h.contains q ∧ g.contains q = false := by
  constructor
  · exact fun hq => ⟨(hd.contains_iff q).mpr (.inr hq), hd.added_new q hq⟩
  · rintro ⟨hc, hnew⟩
    refine ((hd.contains_iff q).mp hc).resolve_left fun hold => ?_
    rw [hold.1] at hnew
    cases hnew

theorem mem_deleted_iff (hd : d.IsPatch requested g h) :
    q ∈ d.deleted ↔ g.contains q ∧ ¬ h.contains q := by
  constructor
  · refine fun hq => ⟨hd.deleted_old q hq, fun hc => ?_⟩
    rcases (hd.contains_iff q).mp hc with hold | hadded
    · exact hold.2 hq
    · exact hd.added_deleted hadded hq
  · rintro ⟨hold, hgone⟩
    by_contra hq
    exact hgone ((hd.contains_iff q).mpr (.inl ⟨hold, hq⟩))

theorem mem_modified_iff (hd : d.IsPatch requested g h) (hq : q ∈ requested) :
    q ∈ d.modified.map Prod.fst ↔ g.contains q ∧ h.contains q := by
  constructor
  · intro hmem
    have hold := hd.modified_old q hmem
    exact ⟨hold, (hd.contains_iff q).mpr (.inl ⟨hold, hd.modified_deleted hmem⟩)⟩
  · rintro ⟨hold, hc⟩
    exact (hd.answered q hq hold).resolve_right fun hdel => (hd.mem_deleted_iff.mp hdel).2 hc

end GraphDelta.IsPatch

namespace Graph

variable {g h h' : Graph} {modified : List String} {kept : String → Prop} {d d' : GraphDelta}

/-- What a graph becomes with a delta, when the modules are known that are kept
and every other module is made anew. -/
structure Becomes (ctx : Traversal.Context σ) (modified : List String) (kept : String → Prop)
    (g h : Graph) (d : GraphDelta) : Prop where
  exact : h.Exact
  settings : h.settings = g.settings
  patch : d.IsPatch modified g h
  unreported : ∀ q, kept q → q ∉ d.modified.map Prod.fst
  made : ∀ q m, h.content? q = some m →
    m.Fresh ctx g.options.platform ∨ kept q ∧ g.content? q = some m

theorem Becomes.content_kept (hb : g.Becomes ctx modified kept h d) {q : String} {m : Module}
    (hq : kept q) (hc : h.contains q) (hm : g.content? q = some m) : h.content? q = some m := by
  rw [hb.patch.unchanged q hc (fun hadded => ?_) (hb.unreported q hq), hm]
  have hnew := hb.patch.added_new q hadded
  rw [contains_of_content? hm] at hnew
  cases hnew

section Agreement

variable (hsame : ctx.SameWorld other) (hb : g.Becomes ctx modified kept h d)
  (hb' : g.Becomes other modified kept h' d')

include hsame hb hb'

theorem Becomes.content_eq {q : String} (hc : h.contains q) (hc' : h'.contains q) :
    h.content? q = h'.content? q := by
  obtain ⟨m, hm⟩ := exists_content? hc
  obtain ⟨m', hm'⟩ := exists_content? hc'
  rw [hm, hm']
  rcases hb.made q m hm with hfresh | ⟨hkept, hold⟩
  · rcases hb'.made q m' hm' with hfresh' | ⟨hkept, hold⟩
    · have hpath := (hb.exact.wellFormed.path_eq hm).trans (hb'.exact.wellFormed.path_eq hm').symm
      have hinverse : ∀ {g : Graph} {m : Module}, g.content? q = some m → m.inverse = ∅ := by
        intro g m hm
        obtain ⟨_, _, rfl⟩ := Option.map_eq_some_iff.mp hm
        rfl
      rw [hfresh.unique hfresh' hsame hpath ((hinverse hm).trans (hinverse hm').symm)]
    · rw [← hb.content_kept hkept hc hold, hm]
  · rw [← hb'.content_kept hkept hc' hold, hm']

theorem Becomes.reached (q : String) (hq : h.Reached q) : h'.contains q ∧ h'.Reached q := by
  obtain ⟨r, hentry, hreach⟩ := hq
  have hentry' : h'.isEntry r := by
    rwa [isEntry_congr (hb'.settings.trans hb.settings.symm)]
  induction hreach with
  | refl => exact ⟨hb'.exact.entries r hentry', r, hentry', .refl⟩
  | @tail p q hpath hstep ih =>
    obtain ⟨hc', r', hroot, hreach'⟩ := ih
    have hc := contains_of_mem_targets hstep.1
    have htarget : q ∈ h'.targets p := by
      rw [← targets_congr (Becomes.content_eq hsame hb hb' hc hc')]
      exact hstep.1
    have hcq := hb'.exact.contains_target htarget
    exact ⟨hcq, r', hroot, hreach'.tail ⟨htarget, hcq⟩⟩

end Agreement

/-- Two results are the same as far as neither has something left over: the same
modules, with the same content, counts and reports. -/
theorem Becomes.agree (hsame : ctx.SameWorld other) (hb : g.Becomes ctx modified kept h d)
    (hb' : g.Becomes other modified kept h' d') {q : String} (hq : ¬ h.Leftover q)
    (hq' : ¬ h'.Leftover q) :
    h.contains q = h'.contains q ∧ h.content? q = h'.content? q ∧
      (∀ r, ¬ h.Leftover r → ¬ h'.Leftover r → h.count q r = h'.count q r) ∧
      (q ∈ d.added.map Prod.fst ↔ q ∈ d'.added.map Prod.fst) ∧
      (q ∈ d.deleted ↔ q ∈ d'.deleted) ∧
      (q ∈ modified ∨ kept q → (q ∈ d.modified.map Prod.fst ↔ q ∈ d'.modified.map Prod.fst)) := by
  have hcontains : ∀ p, ¬ h.Leftover p → ¬ h'.Leftover p → (h.contains p ↔ h'.contains p) := by
    intro p hp hp'
    constructor
    · intro hc
      refine (Becomes.reached hsame hb hb' p ?_).1
      by_contra hreached
      exact hp ⟨hc, hreached⟩
    · intro hc
      refine (Becomes.reached hsame.symm hb' hb p ?_).1
      by_contra hreached
      exact hp' ⟨hc, hreached⟩
  have hcontent : ∀ p, ¬ h.Leftover p → ¬ h'.Leftover p → h.content? p = h'.content? p := by
    intro p hp hp'
    have hiff := hcontains p hp hp'
    cases hc : h.contains p with
    | true => exact Becomes.content_eq hsame hb hb' hc (hiff.mp hc)
    | false =>
      rw [hc, Bool.false_eq_true, false_iff, Bool.not_eq_true] at hiff
      rw [content?_eq_none hc, content?_eq_none hiff]
  have hiff := hcontains q hq hq'
  refine ⟨Bool.eq_iff_iff.mpr hiff, hcontent q hq hq', fun r hr hr' => ?_, ?_, ?_, fun hknown => ?_⟩
  · cases hc : h.contains q with
    | true =>
      rw [((consistent_iff h).mp hb.exact.consistent).2 r q hc,
        ((consistent_iff h').mp hb'.exact.consistent).2 r q (hiff.mp hc),
        edgeCount_congr (hcontent r hr hr')]
    | false =>
      rw [hc, Bool.false_eq_true, false_iff, Bool.not_eq_true] at hiff
      rw [count_eq_zero hc, count_eq_zero hiff]
  · rw [hb.patch.mem_added_iff, hb'.patch.mem_added_iff, hiff]
  · rw [hb.patch.mem_deleted_iff, hb'.patch.mem_deleted_iff, hiff]
  · rcases hknown with hrequested | hkept
    · rw [hb.patch.mem_modified_iff hrequested, hb'.patch.mem_modified_iff hrequested, hiff]
    · exact iff_of_false (hb.unreported q hkept) (hb'.unreported q hkept)

-- ---------------------------------------------------------------------------
-- Traversals
-- ---------------------------------------------------------------------------

variable {host : σ} {host' : τ} {t : Traversal σ} {t' : Traversal τ}

theorem loads_worked {deleted : List String}
    (hworked : g.worked ctx modified deleted host = (.ok (), t)) : t.memo.Delivers ctx.Loads := by
  have hinv : Queue.Invariant (Traversal.accumulator ctx) (fun _ => ctx.Loads)
      fun _ (t : Traversal σ) => t.memo.Delivers ctx.Loads :=
    { perm := fun _ h => h
      start := fun h => h.load _ fun _ host => ⟨host, rfl⟩
      accumulate := fun h hgood hacc => by
        rw [(Traversal.accumulate_ok hacc).2]
        exact h.settle hgood
      started := id
      accumulated := fun _ _ => id }
  exact Traversal.drain_invariant hinv (Traversal.delivers_ofEdit _ host _) hworked

/-- A traversal without deletions keeps what was not requested and keeps a
referrer, and makes everything else anew. -/
theorem becomes_traverse (hg : g.Exact) (hshallow : ctx.shallow = false)
    (hkept : ∀ q, kept q → q ∉ modified ∧ ¬ g.Lost [] (ctx.Drops g.options.platform) q)
    (hfresh : ∀ q m, g.content? q = some m →
      q ∈ modified ∨ kept q ∨ m.Fresh ctx g.options.platform)
    (h : g.traverse ctx modified [] host = (.ok d, t)) :
    g.Becomes ctx modified kept t.edit.graph d := by
  have hexact := exact_traverse hg hshallow (fun _ hpath => absurd hpath List.not_mem_nil) h
  obtain ⟨hledger, hloading, hd⟩ := ledger_traverse hg.settled h
  have hpatch : d.IsPatch modified g t.edit.graph := by
    rw [hd, ← List.append_nil modified]
    exact isPatch_deltaOf hledger hloading
  refine
    { exact := hexact
      settings := settings_traverse hg.toTidy hshallow h
      patch := hpatch
      unreported := fun q hq hmem => ?_
      made := fun q m hm => ?_ }
  · obtain ⟨start, hworked, _, _, hmemo⟩ := traverse_ok h
    have hdelivers := loads_worked hworked
    refine (untouched_traverse hg.settled hshallow h (hpatch.modified_old q hmem)
      (fun hlost => (hkept q hq).2 (hlost.mono (fun _ => id) ?_)) ?_).2 hmem
    · rintro origin edge ⟨file, current, ⟨st, hst, hfile⟩, hedges, hkeeps⟩
      rw [hmemo] at hst
      have hload := hdelivers origin st hst
      rw [hfile] at hload
      exact ⟨file, current, hload, hedges, hkeeps⟩
    · rintro (hrequested | ⟨D, hD, -⟩)
      · exact (hkept q hq).1 hrequested
      · cases hD
  · have hok := modules_traverse
      (fun m => m.Fresh ctx g.options.platform ∨ kept m.path ∧ g.content? m.path = some m)
      hg hshallow (fun path file current hload hedges =>
        .inl (makes_fresh ctx _ path file current hload hedges))
      (fun p m hm => ?_) h hm
    · rwa [hexact.wellFormed.path_eq hm] at hok
    · rcases hfresh p m hm with hp | hp | hp
      · exact .inr (.inl hp)
      · refine .inl (.inr ?_)
        rw [hg.wellFormed.path_eq hm]
        exact ⟨hp, hm⟩
      · exact .inl (.inl hp)

/-- Two traversals of one graph for the same requests, in the same world, come to
the same in whatever orders their loads are completed: the same modules with the
same content and counts, as far as neither leaves something over, the same
additions and deletions, and the same modifications among what was requested or
kept a referrer. What may have lost its referrers without having been requested
must not be stale. -/
theorem traverse_agree (hg : g.Exact) (hshallow : ctx.shallow = false)
    (hshallow' : other.shallow = false) (hsame : ctx.SameWorld other)
    (hstale : ∀ q m, g.content? q = some m → g.Lost [] (ctx.Drops g.options.platform) q →
      q ∈ modified ∨ m.Fresh ctx g.options.platform)
    (h : g.traverse ctx modified [] host = (.ok d, t))
    (h' : g.traverse other modified [] host' = (.ok d', t')) {q : String}
    (hq : ¬ t.edit.graph.Leftover q) (hq' : ¬ t'.edit.graph.Leftover q) :
    t.edit.graph.contains q = t'.edit.graph.contains q ∧
      t.edit.graph.content? q = t'.edit.graph.content? q ∧
      (∀ r, ¬ t.edit.graph.Leftover r → ¬ t'.edit.graph.Leftover r →
        t.edit.graph.count q r = t'.edit.graph.count q r) ∧
      (q ∈ d.added.map Prod.fst ↔ q ∈ d'.added.map Prod.fst) ∧
      (q ∈ d.deleted ↔ q ∈ d'.deleted) ∧
      (q ∈ modified ∨ ¬ g.Lost [] (ctx.Drops g.options.platform) q →
        (q ∈ d.modified.map Prod.fst ↔ q ∈ d'.modified.map Prod.fst)) := by
  have hknown : ∀ q m, g.content? q = some m → q ∈ modified ∨
      (q ∉ modified ∧ ¬ g.Lost [] (ctx.Drops g.options.platform) q) ∨
        m.Fresh ctx g.options.platform := by
    intro q m hm
    by_cases hrequested : q ∈ modified
    · exact .inl hrequested
    · by_cases hlost : g.Lost [] (ctx.Drops g.options.platform) q
      · exact .inr (.inr ((hstale q m hm hlost).resolve_left hrequested))
      · exact .inr (.inl ⟨hrequested, hlost⟩)
  have hb := becomes_traverse hg hshallow (fun _ hkept => hkept) hknown h
  have hb' := becomes_traverse hg hshallow'
    (fun q hkept => ⟨hkept.1, fun hlost =>
      hkept.2 (hlost.mono (fun _ => id) fun _ _ => hsame.drops host)⟩)
    (fun q m hm => (hknown q m hm).imp_right (Or.imp_right (·.of_sameWorld hsame host'))) h'
  obtain ⟨hcontains, hcontent, hcount, hadded, hdeleted, hmodified⟩ := hb.agree hsame hb' hq hq'
  refine ⟨hcontains, hcontent, hcount, hadded, hdeleted, fun hor => ?_⟩
  by_cases hrequested : q ∈ modified
  · exact hmodified (.inl hrequested)
  · exact hmodified (.inr ⟨hrequested, hor.resolve_left hrequested⟩)

end Graph

/-- Completes the load that was started last. -/
def Traversal.Context.lastFirst (ctx : Traversal.Context Unit) : Traversal.Context Unit :=
  { ctx with pace.schedule := fun _ clocks waiting => (waiting.length - 1, clocks) }

namespace Graph

/-- `e` imports `a` and `b`, and `a` imports `x`; then `b` imports `x` instead of
`a`. In one order `x` is freed and loaded again, in the other one it stays. -/
theorem traverse_agree_moved_import :
    ∃ (g : Graph) (ctx : Traversal.Context Unit) (d d' : GraphDelta) (t t' : Traversal Unit),
      g.Exact ∧ g.traverse ctx ["a", "b"] [] () = (.ok d, t) ∧
        g.traverse ctx.lastFirst ["a", "b"] [] () = (.ok d', t') ∧
        d.modified.map Prod.fst = ["a", "b", "x"] ∧ d'.modified.map Prod.fst = ["a", "b"] ∧
        t.edit.graph.contains "x" = t'.edit.graph.contains "x" ∧
        t.edit.graph.content? "x" = t'.edit.graph.content? "x" ∧
        (∀ r, ¬ t.edit.graph.Leftover r → ¬ t'.edit.graph.Leftover r →
          t.edit.graph.count "x" r = t'.edit.graph.count "x" r) ∧
        ("x" ∈ d.added.map Prod.fst ↔ "x" ∈ d'.added.map Prod.fst) ∧
        ("x" ∈ d.deleted ↔ "x" ∈ d'.deleted) := by
  let others : String → List String := fun path => if path = "e" then ["a", "b"] else []
  let before := Traversal.Context.ofImports fun path => if path = "a" then ["x"] else others path
  let ctx := Traversal.Context.ofImports fun path => if path = "b" then ["x"] else others path
  let g := ((Graph.ofEntries ["e"] {}).initialTraverse before ()).2.edit.graph
  have hg : g.Exact := exact_of_isOk rfl (by decide +kernel)
  have hold : g.Fresh before :=
    have ⟨_, hbuilt⟩ := exists_of_isOk (r := (Graph.ofEntries ["e"] {}).initialTraverse before ())
      (by decide +kernel)
    fresh_initialTraverse rfl hbuilt
  -- only the files of `a` and `b` have changed
  have hfresh : ∀ q m, g.content? q = some m →
      q ∈ ["a", "b"] ∨ m.Fresh ctx g.options.platform := by
    intro q m hm
    by_cases hq : q ∈ ["a", "b"]
    · exact .inl hq
    · refine .inr ((hold q m hm).of_unchanged (fun host => ?_) fun _ _ => rfl)
      rw [List.mem_cons, List.mem_singleton, not_or] at hq
      rw [hg.wellFormed.path_eq hm]
      simp only [before, ctx, Traversal.Context.ofImports, if_neg hq.1, if_neg hq.2]
  let view : Except BuildError GraphDelta × Traversal Unit → _ := fun r =>
    r.1.toOption.map fun d => (d.modified.map Prod.fst, r.2.edit.graph.targets "e",
      r.2.edit.graph.targets "b", r.2.edit.graph.isEntry "e" && r.2.edit.graph.contains "b" &&
        r.2.edit.graph.contains "x")
  have hview : view (g.traverse ctx ["a", "b"] [] ()) =
        some (["a", "b", "x"], ["a", "b"], ["x"], true) ∧
      view (g.traverse ctx.lastFirst ["a", "b"] [] ()) =
        some (["a", "b"], ["a", "b"], ["x"], true) := by
    decide +kernel
  have hreached : ∀ h : Graph, h.targets "e" = ["a", "b"] → h.targets "b" = ["x"] →
      (h.isEntry "e" && h.contains "b" && h.contains "x") = true → ¬ h.Leftover "x" := by
    intro h hte htb hheld hleft
    rw [Bool.and_eq_true, Bool.and_eq_true] at hheld
    refine hleft.2 ⟨"e", hheld.1.1, .head ⟨?_, hheld.1.2⟩ (.single ⟨?_, hheld.2⟩)⟩
    · rw [hte]
      exact .tail _ (.head _)
    · rw [htb]
      exact .head _
  clear_value g
  cases hrun : g.traverse ctx ["a", "b"] [] () with
  | mk result t =>
    cases hrun' : g.traverse ctx.lastFirst ["a", "b"] [] () with
    | mk result' t' =>
      rw [hrun, hrun'] at hview
      cases result with
      | error e => cases hview.1
      | ok d =>
        cases result' with
        | error e => cases hview.2
        | ok d' =>
          obtain ⟨hview, hview'⟩ := hview
          simp only [view, Except.toOption, Option.map_some, Option.some.injEq,
            Prod.mk.injEq] at hview hview'
          obtain ⟨hmodified, hte, htb, hheld⟩ := hview
          obtain ⟨hmodified', hte', htb', hheld'⟩ := hview'
          have hsame : ctx.SameWorld ctx.lastFirst := ⟨rfl, fun _ _ _ => rfl⟩
          obtain ⟨hcontains, hcontent, hcount, hadded, hdeleted, -⟩ :=
            traverse_agree hg rfl rfl hsame (fun q m hm _ => hfresh q m hm) hrun hrun'
              (hreached _ hte htb hheld) (hreached _ hte' htb' hheld')
          exact ⟨g, ctx, d, d', t, t', hg, hrun, hrun', hmodified, hmodified', hcontains, hcontent,
            hcount, hadded, hdeleted⟩

/-- The same move, and `x` has come to import `y` without a notice. What is
reported, added and left depends on the order of the loads. -/
theorem schedules_differ :
    ∃ (g : Graph) (ctx : Traversal.Context Unit) (d d' : GraphDelta) (t t' : Traversal Unit),
      g.Exact ∧ ctx.shallow = false ∧ ctx.SameWorld ctx.lastFirst ∧
        g.traverse ctx ["a", "b"] [] () = (.ok d, t) ∧
        g.traverse ctx.lastFirst ["a", "b"] [] () = (.ok d', t') ∧
        "x" ∈ d.modified.map Prod.fst ∧ "x" ∉ d'.modified.map Prod.fst ∧
        "y" ∈ d.added.map Prod.fst ∧ "y" ∉ d'.added.map Prod.fst ∧
        t.edit.graph.contains "y" ∧ t'.edit.graph.contains "y" = false ∧
        t.edit.graph.targets "x" = ["y"] ∧ t'.edit.graph.targets "x" = [] := by
  let others : String → List String := fun path => if path = "e" then ["a", "b"] else []
  let before := Traversal.Context.ofImports fun path => if path = "a" then ["x"] else others path
  let ctx := Traversal.Context.ofImports fun path =>
    if path = "b" then ["x"] else if path = "x" then ["y"] else others path
  let g := ((Graph.ofEntries ["e"] {}).initialTraverse before ()).2.edit.graph
  have hg : g.Exact := exact_of_isOk rfl (by decide +kernel)
  let view : Except BuildError GraphDelta × Traversal Unit → _ := fun r =>
    r.1.toOption.map fun d => (d.added.map Prod.fst, d.modified.map Prod.fst,
      r.2.edit.graph.contains "y", r.2.edit.graph.targets "x")
  have hview : view (g.traverse ctx ["a", "b"] [] ()) =
        some (["y"], ["a", "b", "x"], true, ["y"]) ∧
      view (g.traverse ctx.lastFirst ["a", "b"] [] ()) = some ([], ["a", "b"], false, []) := by
    decide +kernel
  clear_value g
  cases hrun : g.traverse ctx ["a", "b"] [] () with
  | mk result t =>
    cases hrun' : g.traverse ctx.lastFirst ["a", "b"] [] () with
    | mk result' t' =>
      rw [hrun, hrun'] at hview
      cases result with
      | error e => cases hview.1
      | ok d =>
        cases result' with
        | error e => cases hview.2
        | ok d' =>
          obtain ⟨hview, hview'⟩ := hview
          simp only [view, Except.toOption, Option.map_some, Option.some.injEq,
            Prod.mk.injEq] at hview hview'
          obtain ⟨hadded, hmodified, hcontains, htargets⟩ := hview
          obtain ⟨hadded', hmodified', hcontains', htargets'⟩ := hview'
          refine ⟨g, ctx, d, d', t, t', hg, rfl, ⟨rfl, fun _ _ _ => rfl⟩, hrun, hrun', ?_⟩
          rw [hadded, hmodified, hadded', hmodified']
          exact ⟨by decide, by decide, by decide, by decide, hcontains, hcontains', htargets,
            htargets'⟩

end Graph

end BundleGraph
