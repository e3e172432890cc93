import BundleGraph.Proofs.Graph.Ledger
import BundleGraph.Proofs.Graph.Initial

/-!
# A delta is a patch

`ledger_worked` keeps the accounts of an edit through a whole traversal, whatever
the order in which the loads are completed; the delta read off at the end tells
exactly what changed.

The one step that could go wrong is a release. It may free a module twice, once
it left the graph with another occurrence further down the stack, and a module
discovered in the same edit would then be reported as deleted. `Sparing` rules
that out: such a module is counted in full, so nothing leads to it any more when
it is put on the stack. A shallow traversal discovers nothing.
-/

namespace BundleGraph

namespace Edit

variable {g : Graph} {slack : String → String → Nat} {requested tasks next : List String}
  {e e' : Edit} {path : String} {edge : Edge} {edges : List Edge} {stack : Stack}
  {resolve : Resolver} {file : LoadedFile}

-- ---------------------------------------------------------------------------
-- Releasing
-- ---------------------------------------------------------------------------

/-- A module on the stack that was discovered in the same edit is still in the
graph, and nothing leads to it: no edge of the graph, and none that a module
further up has to drop. -/
structure Sparing (g : Graph) (slack : String → String → Nat) (stack : Stack) (e : Edit) :
    Prop where
  counted : Unwinding slack stack e ∨ ∀ q, e.graph.contains q → g.contains q
  ahead : stack.Pairwise fun f f' => g.contains f'.1 = false →
    f.1 ≠ f'.1 ∧ ∀ edge ∈ f.2, edge.target ≠ f'.1
  held : ∀ q, Stacked stack q → g.contains q = false →
    e.graph.contains q ∧ ∀ r, e.graph.edgeCount r q = 0

theorem Sparing.free (h : Sparing g slack ((path, []) :: stack) e)
    (hheld : e.graph.contains path → e.graph.edges path = []) :
    Sparing g slack stack (e.free path) where
  counted := h.counted.imp (·.free hheld) fun hold q hq => hold q ((contains_free path q).mp hq).2
  ahead := (List.pairwise_cons.mp h.ahead).2
  held := by
    intro q hq hnew
    obtain ⟨f, hf, rfl⟩ := hq
    obtain ⟨hc, hzero⟩ := h.held f.1 ⟨f, .tail _ hf, rfl⟩ hnew
    have hne := ((List.pairwise_cons.mp h.ahead).1 f hf hnew).1
    refine ⟨(contains_free path f.1).mpr ⟨hne, hc⟩, fun r => ?_⟩
    exact Nat.le_zero.mp (hzero r ▸ edgeCount_free_le path r f.1)

theorem Sparing.keep (h : Sparing g slack ((path, edge :: edges) :: stack) e)
    (hheld : e.graph.contains path → e.graph.edges path = edge :: edges) :
    Sparing g slack ((path, edges) :: stack) (e.detach path edge).2 where
  counted := h.counted.imp (·.keep hheld) fun hold q hq => hold q (by rwa [contains_detach] at hq)
  ahead := by
    obtain ⟨hhead, hrest⟩ := List.pairwise_cons.mp h.ahead
    refine List.pairwise_cons.mpr ⟨fun f hf hnew => ?_, hrest⟩
    exact (hhead f hf hnew).imp_right fun hedges other ho => hedges other (.tail _ ho)
  held := by
    intro q hq hnew
    obtain ⟨hc, hzero⟩ := h.held q (by simpa using hq) hnew
    refine ⟨by rwa [contains_detach], fun r => ?_⟩
    exact Nat.le_zero.mp (hzero r ▸ edgeCount_detach_le path edge r q)

/-- What goes on the stack is not on it yet, unless it was there before the edit:
the edge that led to it did not lead to a discovered module of the stack. -/
theorem Sparing.push (hslack : ∀ q, g.contains q = false → ∀ r, slack r q = 0)
    (h : Sparing g slack ((path, edge :: edges) :: stack) e)
    (hheld : e.graph.contains path → e.graph.edges path = edge :: edges)
    (hd : (e.detach path edge).1 = true) :
    Sparing g slack ((edge.target, (e.detach path edge).2.graph.edges edge.target) ::
      (path, edges) :: stack) (e.detach path edge).2 where
  counted := h.counted.imp (·.push hheld hd _)
    fun hold q hq => hold q (by rwa [contains_detach] at hq)
  ahead := by
    have hkept := h.keep hheld
    refine List.pairwise_cons.mpr ⟨fun f hf hnew => ?_, hkept.ahead⟩
    obtain ⟨_, hzero⟩ := hkept.held f.1 ⟨f, hf, rfl⟩ hnew
    refine ⟨fun htarget => ?_, fun other ho htarget => ?_⟩
    · rcases List.mem_cons.mp hf with rfl | hf
      · -- an edge of a discovered module to itself is still in the graph
        obtain ⟨hc, hzero⟩ := h.held path (by simp) hnew
        have hmem : edge.target ∈ e.graph.targets path := by
          rw [Graph.targets, hheld hc]
          exact List.mem_cons_self
        have hpos := Graph.edgeCount_pos_iff.mpr hmem
        rw [show edge.target = path from htarget, hzero path] at hpos
        exact Nat.lt_irrefl 0 hpos
      · exact ((List.pairwise_cons.mp h.ahead).1 f hf hnew).2 edge (.head _) htarget
    · have hmem : f.1 ∈ (e.detach path edge).2.graph.targets edge.target :=
        List.mem_map.mpr ⟨other, ho, htarget⟩
      have := Graph.edgeCount_pos_iff.mpr hmem
      rw [hzero] at this
      exact Nat.lt_irrefl 0 this
  held := by
    intro q hq hnew
    rcases stacked_cons.mp hq with rfl | hq
    · have htarget := (fst_detach_iff path edge).mp hd
      refine ⟨by rw [contains_detach]; exact htarget.2.1, fun r => ?_⟩
      rcases h.counted with hcounted | hold
      · have := (hcounted.sound.detach (mem_of_held hheld)).le_slack htarget.2.2.2 r
        rwa [hslack _ hnew r, Nat.le_zero] at this
      · rw [hold _ htarget.2.1] at hnew
        cases hnew
    · exact (h.keep hheld).held q hq hnew

theorem Releases.ledger (hslack : ∀ q, g.contains q = false → ∀ r, slack r q = 0)
    (h : Releases stack e e') (hs : Sparing g slack stack e)
    (hl : Ledger g requested tasks (Stacked stack) e) :
    Ledger g requested tasks (fun _ => False) e' := by
  refine (h.invariant (P := fun stack e => Sparing g slack stack e ∧
    Ledger g requested tasks (Stacked stack) e) ?_ ?_ ?_ ⟨hs, hl⟩).2.mono fun _ => stacked_nil
  · rintro path stack e hheld ⟨hs, hl⟩
    refine ⟨hs.free hheld, hl.free ?_ fun q hne hq => (stacked_cons.mp hq).resolve_left hne⟩
    cases hg : g.contains path with
    | true => exact .inl rfl
    | false => exact .inr (.inl (hs.held path (by simp) hg).1)
  · rintro path edge edges stack e hheld hd ⟨hs, hl⟩
    refine ⟨hs.keep hheld, (hl.detach (.inl (by simp)) edge).mono fun q hq => ?_⟩
    simpa using hq
  · rintro path edge edges stack e hheld hd ⟨hs, hl⟩
    refine ⟨hs.push hslack hheld hd, (hl.detach (.inl (by simp)) edge).mono fun q hq => ?_⟩
    exact stacked_cons.mpr (.inr (by simpa using hq))

/-- Removing an edge of a task, when the edit is counted or has discovered nothing. -/
theorem Ledger.removeEdge (hslack : ∀ q, g.contains q = false → ∀ r, slack r q = 0)
    (h : Ledger g requested tasks (fun _ => False) e) (hpath : path ∈ tasks)
    (hcounted : Sound slack e ∧ (e.graph.contains path → edge ∈ e.graph.edges path) ∨
      ∀ q, e.graph.contains q → g.contains q) :
    Ledger g requested tasks (fun _ => False) (e.removeEdge path edge) := by
  have hdetach := h.detach (.inr hpath) edge
  rcases e.removeEdge_cases path edge with ⟨_, heq⟩ | ⟨hd, hreleases⟩
  · rw [heq]
    exact hdetach
  · refine hreleases.ledger hslack ?_ (hdetach.mono fun _ => False.elim)
    have htarget := (fst_detach_iff path edge).mp hd
    refine
      { counted := hcounted.imp (fun ⟨hs, hmem⟩ => .ofDetach hs hmem hd _)
          fun hold q hq => hold q (by rwa [contains_detach] at hq)
        ahead := List.pairwise_singleton _ _
        held := fun q hq hnew => ?_ }
    obtain rfl := (stacked_cons.mp hq).resolve_right stacked_nil
    refine ⟨by rw [contains_detach]; exact htarget.2.1, fun r => ?_⟩
    rcases hcounted with ⟨hs, hmem⟩ | hold
    · have := (hs.detach hmem).le_slack htarget.2.2.2 r
      rwa [hslack _ hnew r, Nat.le_zero] at this
    · rw [hold _ htarget.2.1] at hnew
      cases hnew

-- ---------------------------------------------------------------------------
-- Processing a module
-- ---------------------------------------------------------------------------

theorem live_of_count_pos {q r : String} (h : 0 < e.count q r) : e.Live q := by
  cases hl : e.loading[q]? with
  | some inverse => exact .inr ((loading_contains_iff q).mpr ⟨inverse, hl⟩)
  | none =>
    rw [count_of_not_loading hl] at h
    refine .inl ?_
    by_contra hc
    rw [Graph.count_eq_zero (by simpa using hc)] at h
    exact Nat.lt_irrefl 0 h

theorem Arrived.live (h : Arrived path file e e') (hentry : e.graph.isEntry path → e.Live path) :
    e.Live path := by
  rcases h.held with hc | he | ⟨r, hr⟩
  · exact .inl hc
  · exact hentry he
  · exact live_of_count_pos hr

theorem Ledger.process (hslack : ∀ q, g.contains q = false → ∀ r, slack r q = 0)
    (h : Ledger g requested (path :: tasks) (fun _ => False) e) (hs : Sound slack e)
    (hentry : e.graph.isEntry path → e.Live path)
    (hprocess : e.process resolve false path file = (.ok next, e')) :
    Processed resolve path file e next e' ∧ Sound slack e' ∧
      Ledger g requested (path :: tasks) (fun _ => False) e' :=
  process_spec hs hprocess (fun _ => h) (fun hc hl _ => h.forget hc hl)
    (fun ha => h.arrive ha (.head _) (ha.live hentry))
    (fun _ hs hmem _ hl => hl.removeEdge hslack (.head _) (.inl ⟨hs, hmem⟩))
    fun _ _ _ _ hl => (addEdges_preserves (fun edge h => h.addEdge path edge) hl).setEdges (.head _) _

theorem addEdges_shallow (path : String) (previous current : List Edge) :
    e.addEdges true path previous current = (e, []) := by
  unfold Edit.addEdges
  induction current with
  | nil => rfl
  | cons edge current ih => rw [List.foldl_cons]; exact ih

/-- A shallow traversal discovers nothing: it keeps what forgetting a module,
its arrival, removing edges and giving it edges keep. -/
theorem process_shallow {Q : Edit → Prop}
    (hapart : ∀ p, e.graph.contains p → e.loading[p]? = none)
    (h : e.process resolve true path file = (.ok next, e'))
    (hunknown : e.loading.contains path = false → Q e)
    (hforget : e.graph.contains path = false → e.loading.contains path →
      e.graph.isEntry path = false →
      Q { e.forget path with loading := (e.loading.erase path).erase path })
    (harrive : ∀ {arrived}, Arrived path file e arrived → Q arrived)
    (hremove : ∀ {e₁} (edge : Edge), Q e₁ → Q (e₁.removeEdge path edge))
    (hset : ∀ {e₁} (edges : List Edge), Q e₁ → Q (e₁.setEdges path edges)) : next = [] ∧ Q e' := by
  rcases process_cases hapart h with
    ⟨_, hl, _, rfl, rfl⟩ | ⟨hc, hl, hentry, _, rfl, rfl⟩ | ⟨current, arrived, _, ha, hrest⟩
  · exact ⟨rfl, hunknown hl⟩
  · exact ⟨rfl, hforget hc hl hentry⟩
  · have hdrop : ∀ (todo : List Edge) (e₁ : Edit), Q e₁ → Q (e₁.dropEdges path todo current) := by
      intro todo
      induction todo with
      | nil => exact fun _ hq => hq
      | cons edge todo ih =>
        intro e₁ hq
        unfold dropEdges
        rw [List.foldl_cons]
        split
        · exact ih e₁ hq
        · exact ih _ (hremove edge hq)
    have hdropped := hdrop (arrived.graph.edges path) arrived (harrive ha)
    rcases hrest with ⟨_, rfl, rfl⟩ | ⟨_, rfl, rfl⟩
    · exact ⟨rfl, hdropped⟩
    · rw [addEdges_shallow]
      exact ⟨rfl, hset current hdropped⟩

/-- What processing a module of a shallow traversal comes to. -/
structure Narrowed (g : Graph) (requested tasks : List String) (path : String) (e e' : Edit) :
    Prop where
  ledger : Ledger g requested tasks (fun _ => False) e'
  settings : e'.graph.settings = e.graph.settings
  loading : ∀ q, e'.loading.contains q → path ≠ q ∧ e.loading.contains q
  entries : ∀ q, e.graph.isEntry q → e.Live q → e'.Live q
  old : ∀ q, e'.graph.contains q → g.contains q

theorem Narrowed.removeEdge (hslack : ∀ q, g.contains q = false → ∀ r, slack r q = 0)
    (h : Narrowed g requested tasks path e e') (hpath : path ∈ tasks) (edge : Edge) :
    Narrowed g requested tasks path e (e'.removeEdge path edge) where
  ledger := h.ledger.removeEdge hslack hpath (.inr h.old)
  settings := (settings_removeEdge path edge).trans h.settings
  loading := fun q hq => h.loading q ((loading_removeEdge path edge q).mp hq)
  entries := fun q he hl => by
    have he' : e'.graph.isEntry q := by rwa [Graph.isEntry_congr h.settings]
    exact (h.entries q he hl).imp (entry_removeEdge he') (loading_removeEdge path edge q).mpr
  old := fun q hq => h.old q (contains_of_removeEdge hq)

/-- The accounts of an edit with tasks to be worked off. -/
structure Accounted (g : Graph) (slack : String → String → Nat) (shallow : Bool)
    (requested tasks : List String) (e : Edit) : Prop where
  ledger : Ledger g requested tasks (fun _ => False) e
  entries : ∀ q ∈ tasks, e.graph.isEntry q → e.Live q
  loading : ∀ q, e.loading.contains q → q ∈ tasks
  counted : shallow = false → Sound slack e
  old : shallow = true → ∀ q, e.Live q → g.contains q

theorem Accounted.perm {shallow : Bool} {tasks' : List String}
    (h : Accounted g slack shallow requested tasks e) (hp : tasks.Perm tasks') :
    Accounted g slack shallow requested tasks' e :=
  { h with
    ledger := h.ledger.retask fun _ hq => .inl (hp.mem_iff.mpr hq)
    entries := fun _ hq => h.entries _ (hp.mem_iff.mpr hq)
    loading := fun q hq => hp.mem_iff.mp (h.loading q hq) }

theorem Accounted.narrowed (hslack : ∀ q, g.contains q = false → ∀ r, slack r q = 0)
    (h : Accounted g slack true requested (path :: tasks) e)
    (hprocess : e.process resolve true path file = (.ok next, e')) :
    next = [] ∧ Narrowed g requested (path :: tasks) path e e' := by
  have hold := h.old rfl
  refine process_shallow (fun p hp => loading_contains_eq_false.mp (h.ledger.apart p hp)) hprocess
    (fun hl => ?_) (fun hc hl he => ?_) (fun {arrived} ha => ?_)
    (fun edge hn => hn.removeEdge hslack (.head _) edge) fun {e₁} edges hn => ?_
  · refine ⟨h.ledger, rfl, fun q hq => ⟨?_, hq⟩, fun _ _ hq => hq, fun q hq => hold q (.inl hq)⟩
    rintro rfl
    rw [hl] at hq
    cases hq
  · refine ⟨h.ledger.forget hc hl, by rw [graph_forget], fun q hq => ?_, fun q hq hlive => ?_,
      fun q hq => hold q (.inl (by rwa [graph_forget] at hq))⟩
    · simpa [Std.TreeMap.contains_erase] using hq
    · have hne : path ≠ q := by
        rintro rfl
        rw [hq] at he
        cases he
      exact hlive.imp (by rw [graph_forget]; exact id)
        fun hl => by simp [Std.TreeMap.contains_erase, hne, hl]
  · have hlive := ha.live (h.entries path (.head _))
    refine ⟨h.ledger.arrive ha (.head _) hlive, ha.settings, fun q hq => (ha.loading q).mp hq,
      fun q _ hq => ?_, fun q hq => ?_⟩
    · rw [Live, ha.contains, ha.loading]
      by_cases hne : path = q
      · exact .inl (.inl hne)
      · exact hq.imp .inr fun hl => ⟨hne, hl⟩
    · rcases (ha.contains q).mp hq with rfl | hq
      · exact hold path hlive
      · exact hold q (.inl hq)
  · exact ⟨hn.ledger.setEdges (.head _) edges, (settings_setEdges path edges).trans hn.settings,
      hn.loading, fun q he hq => (hn.entries q he hq).imp_left fun hc => by rwa [contains_setEdges],
      fun q hq => hn.old q (by rwa [contains_setEdges] at hq)⟩

theorem Accounted.process {shallow : Bool}
    (hslack : ∀ q, g.contains q = false → ∀ r, slack r q = 0)
    (h : Accounted g slack shallow requested (path :: tasks) e)
    (hprocess : e.process resolve shallow path file = (.ok next, e')) :
    Accounted g slack shallow requested (tasks ++ next) e' := by
  have hother : ∀ q, path ≠ q → e.loading.contains q → q ∈ tasks := fun q hne hq =>
    (List.mem_cons.mp (h.loading q hq)).resolve_left (Ne.symm hne)
  cases shallow with
  | false =>
    obtain ⟨hp, hsound, hledger⟩ :=
      h.ledger.process hslack (h.counted rfl) (h.entries path (.head _)) hprocess
    refine
      { ledger := hledger.retask fun q hq => ?_
        entries := fun q hq he => ?_
        loading := fun q hq => ?_
        counted := fun _ => hsound
        old := nofun }
    · exact (List.mem_append.mp hq).imp (.tail _) (hp.awaited q)
    · rcases List.mem_append.mp hq with hq | hq
      · rw [Graph.isEntry_congr hp.settings] at he
        exact hp.entries q he (h.entries q (.tail _ hq) he)
      · exact .inr (hp.awaited q hq)
    · rcases hp.loading q hq with hq | ⟨hne, hq⟩
      · exact List.mem_append_right _ hq
      · exact List.mem_append_left _ (hother q hne hq)
  | true =>
    obtain ⟨rfl, hn⟩ := h.narrowed hslack hprocess
    rw [List.append_nil]
    exact
      { ledger := hn.ledger.retask fun _ hq => .inl (.tail _ hq)
        entries := fun q hq he => by
          rw [Graph.isEntry_congr hn.settings] at he
          exact hn.entries q he (h.entries q (.tail _ hq) he)
        loading := fun q hq => hother q (hn.loading q hq).1 (hn.loading q hq).2
        counted := nofun
        old := fun _ q hq =>
          hq.elim (hn.old q) fun hl => h.old rfl q (.inr (hn.loading q hl).2) }

-- ---------------------------------------------------------------------------
-- The start
-- ---------------------------------------------------------------------------

/-- While the deleted modules are dropped, nothing is discovered. -/
structure Emptying (g : Graph) (done : List String) (e : Edit) : Prop where
  ledger : Ledger g done [] (fun _ => False) e
  old : ∀ q, e.Live q → g.contains q

theorem Emptying.dropDeleted (h : Emptying g requested e) (seeds : OrderedSet String)
    (path : String) : Emptying g (path :: requested) (Graph.dropDeleted (seeds, e) path).2 := by
  rcases dropDeleted_cases seeds e path with ⟨hc, heq⟩ | ⟨hc, -, heq⟩ | ⟨hc, -, heq⟩
  · rw [heq]
    exact ⟨h.ledger.answer hc, h.old⟩
  all_goals
    have hpath := h.old path (.inl hc)
    have hreleases := release_releases hc
    obtain ⟨hgone, hl⟩ :=
      gone_release hc (loading_contains_eq_false.mp (h.ledger.apart path hc))
    have hledger : Ledger g requested [] (fun _ => False) (e.release path) := by
      have hsparing : Sparing g (fun _ _ => 0) [(path, e.graph.edges path)] e := by
        refine ⟨.inr fun q hq => h.old q (.inl hq), List.pairwise_singleton _ _,
          fun q hq hnew => ?_⟩
        obtain rfl := (stacked_cons.mp hq).resolve_right stacked_nil
        rw [hpath] at hnew
        cases hnew
      exact hreleases.ledger (fun _ _ _ => rfl) hsparing (h.ledger.mono fun _ => False.elim)
    have hold : ∀ q, (e.release path).Live q → g.contains q := fun q hq =>
      h.old q (hq.imp hreleases.contains hreleases.loading)
    rw [heq]
  · exact ⟨hledger.answer hgone, hold⟩
  · have hdead : ¬ (e.release path).Live path := by
      rw [Live, hgone, loading_contains_eq_false.mpr hl]
      simp
    refine ⟨(hledger.enqueue hdead none).answer (by rwa [graph_enqueue]), fun q hq => ?_⟩
    rw [Live, graph_enqueue, loading_contains_enqueue] at hq
    rcases hq with hq | rfl | hq
    · exact hold q (.inl hq)
    · exact hpath
    · exact hold q (.inr hq)

theorem emptying_nil (g : Graph) : Emptying g [] { graph := g } where
  ledger :=
    { live := fun q => by simp [Live]
      added_new := nofun
      deleted_old := nofun
      modified_old := nofun
      apart := fun q _ => by simp
      renewed := fun q hq => by simp at hq
      kept := fun q _ => .inr (.inr rfl)
      answered := nofun }
  old := fun q hq => hq.elim id fun hl => by simp at hl

theorem Emptying.accounted {modified deleted done seeds : List String} (shallow : Bool)
    (h : Emptying g done e) (hs : Sound slack e)
    (hdone : ∀ D ∈ deleted, D ∈ done)
    (hmodified : ∀ q ∈ modified, e.graph.contains q → q ∈ seeds)
    (hloading : ∀ q, e.loading.contains q → q ∈ seeds)
    (hseeds : ∀ q ∈ seeds, e.Live q) :
    Accounted g slack shallow (modified ++ deleted) seeds
      { e with modified := e.modified.insertMany (seeds.filter e.graph.contains) } := by
  have hreport : ∀ q, (e.modified.insertMany (seeds.filter e.graph.contains)).contains q ↔
      e.modified.contains q ∨ q ∈ seeds ∧ e.graph.contains q := fun q => by
    rw [OrderedSet.contains_insertMany, Bool.or_eq_true, List.contains_iff_mem, List.mem_filter]
  have hl := h.ledger
  refine
    { ledger :=
        { live := hl.live
          added_new := hl.added_new
          deleted_old := hl.deleted_old
          modified_old := fun q hq => ((hreport q).mp hq).elim (hl.modified_old q)
            fun hq => h.old q (.inl hq.2)
          apart := hl.apart
          renewed := fun q hq hlive => ?_
          kept := fun q hq => (hl.kept q hq).imp_right
            (Or.imp_left (Or.imp_right fun hm => (hreport q).mpr (.inl hm)))
          answered := fun q hq hold => ?_ }
      entries := fun q hq _ => hseeds q hq
      loading := hloading
      counted := fun _ => hs.of_same rfl (fun _ _ => rfl) fun _ hq => hq
      old := fun _ => h.old }
  · rcases hlive with hc | hlq
    · rcases hq with hq | hq
      · exact .inr ((hreport q).mpr (.inr ⟨hq, hc⟩))
      · exact absurd hq (by simp [hl.apart q hc])
    · exact (hl.renewed q (.inr hlq) (.inr hlq)).imp_right fun hm => (hreport q).mpr (.inl hm)
  · rcases List.mem_append.mp hq with hq | hq
    · cases hc : e.graph.contains q with
      | true => exact .inl ((hreport q).mpr (.inr ⟨hmodified q hq hc, hc⟩))
      | false =>
        exact ((hl.answer hc).answered q (.head _) hold).imp_left
          fun hm => (hreport q).mpr (.inl hm)
    · exact (hl.answered q (hdone q hq) hold).imp_left fun hm => (hreport q).mpr (.inl hm)

end Edit

-- ---------------------------------------------------------------------------
-- The whole of it
-- ---------------------------------------------------------------------------

/-- Counts are exact, no edge leads out of the graph, and nothing is left over
from a collection of cycles. -/
structure Graph.Settled (g : Graph) : Prop where
  consistent : g.Consistent
  no_root : ∀ t, g.possibleRoots.contains t = false
  black : ∀ t, g.contains t → g.color t = .black
  wellFormed : g.WellFormed

theorem Graph.Exact.settled {g : Graph} (hg : g.Exact) : g.Settled where
  consistent := hg.consistent
  no_root := hg.no_root
  black := hg.black
  wellFormed := hg.wellFormed

theorem Graph.Settled.sound {g : Graph} (hg : g.Settled) : Edit.Sound g.gap { graph := g } := by
  refine .ofGraph (fun p t => ?_) hg.black hg.wellFormed
  cases ht : g.contains t with
  | true => exact Nat.le_of_eq (((consistent_iff g).mp hg.consistent).2 p t ht)
  | false =>
    rw [count_eq_zero ht]
    exact Nat.zero_le _

theorem Graph.Settled.edgeCount_eq_zero {g : Graph} (hg : g.Settled) {t : String}
    (ht : g.contains t = false) (p : String) : g.edgeCount p t = 0 := by
  refine Nat.eq_zero_of_not_pos fun hpos => ?_
  have := ((consistent_iff g).mp hg.consistent).1 p t (edgeCount_pos_iff.mp hpos)
  rw [ht] at this
  cases this

theorem Graph.Settled.slack_eq {g : Graph} (hg : g.Settled) (dropped : List String)
    (p t : String) : g.slack dropped p t = if t ∈ dropped then g.edgeCount p t else 0 := by
  have hgap : g.gap p t = 0 := by
    rw [gap]
    cases ht : g.contains t with
    | true => rw [((consistent_iff g).mp hg.consistent).2 p t ht, Nat.sub_self]
    | false => rw [hg.edgeCount_eq_zero ht, Nat.zero_sub]
  rw [slack, hgap, Nat.zero_add]

theorem Graph.Settled.slack_new {g : Graph} (hg : g.Settled) (dropped : List String) {q : String}
    (hq : g.contains q = false) (r : String) : g.slack dropped r q = 0 := by
  rw [hg.slack_eq, hg.edgeCount_eq_zero hq, ite_self]

/-- A delta takes one graph to another: it tells what is new, what was renewed
and what is gone; nothing else has changed; and every request is answered. -/
structure GraphDelta.IsPatch (d : GraphDelta) (requested : List String) (g h : Graph) : Prop where
  added_modified : (d.added.map Prod.fst).Disjoint (d.modified.map Prod.fst)
  added_deleted : (d.added.map Prod.fst).Disjoint d.deleted
  modified_deleted : (d.modified.map Prod.fst).Disjoint d.deleted
  contains_iff : ∀ q, h.contains q ↔
    g.contains q ∧ q ∉ d.deleted ∨ q ∈ d.added.map Prod.fst
  added_new : ∀ q ∈ d.added.map Prod.fst, g.contains q = false
  modified_old : ∀ q ∈ d.modified.map Prod.fst, g.contains q
  deleted_old : ∀ q ∈ d.deleted, g.contains q
  carried : ∀ q m, (q, m) ∈ d.added ∨ (q, m) ∈ d.modified → h.modules.get? q = some m
  unchanged : ∀ q, h.contains q → q ∉ d.added.map Prod.fst → q ∉ d.modified.map Prod.fst →
    h.content? q = g.content? q
  answered : ∀ q ∈ requested, g.contains q → q ∈ d.modified.map Prod.fst ∨ q ∈ d.deleted

namespace Graph

variable {σ : Type} {g : Graph} {ctx : Traversal.Context σ}
  {requested modified deleted : List String} {host : σ} {d : GraphDelta} {t : Traversal σ}
  {e : Edit}

theorem mem_withModules {paths : List String} {q : String} {m : Module} :
    (q, m) ∈ g.withModules paths ↔ q ∈ paths ∧ g.modules.get? q = some m := by
  rw [withModules, List.mem_filterMap]
  constructor
  · rintro ⟨p, hp, heq⟩
    obtain ⟨m', hm', heq⟩ := Option.map_eq_some_iff.mp heq
    cases heq
    exact ⟨hp, hm'⟩
  · rintro ⟨hq, hm⟩
    exact ⟨q, hq, by rw [hm]; rfl⟩

theorem mem_map_withModules {paths : List String} {q : String} :
    q ∈ (g.withModules paths).map Prod.fst ↔ q ∈ paths ∧ g.contains q := by
  rw [List.mem_map, contains_iff]
  constructor
  · rintro ⟨⟨q, m⟩, hm, rfl⟩
    exact (mem_withModules.mp hm).imp_right fun hm => ⟨m, hm⟩
  · rintro ⟨hq, m, hm⟩
    exact ⟨(q, m), mem_withModules.mpr ⟨hq, hm⟩, rfl⟩

/-- Once nothing is being loaded, the reports of an edit are a patch. -/
theorem isPatch_deltaOf (h : e.Ledger g requested [] fun _ => False)
    (hloading : ∀ q, e.loading.contains q = false) : (deltaOf e).IsPatch requested g e.graph := by
  have hlive : ∀ q, e.graph.contains q ↔
      g.contains q ∧ e.deleted.contains q = false ∨ e.added.contains q := fun q => by
    rw [← h.live q, Edit.Live, hloading]
    simp
  have hdeleted : ∀ q, q ∈ (deltaOf e).deleted ↔ e.deleted.contains q :=
    fun q => OrderedSet.mem_toList _ q
  have hadded : ∀ q, q ∈ (deltaOf e).added.map Prod.fst ↔ e.added.contains q := fun q => by
    rw [deltaOf, mem_map_withModules, OrderedSet.mem_toList]
    exact and_iff_left_of_imp fun ha => (hlive q).mpr (.inr ha)
  have hmodified : ∀ q, q ∈ (deltaOf e).modified.map Prod.fst ↔
      e.modified.contains q ∧ e.deleted.contains q = false := fun q => by
    rw [deltaOf, mem_map_withModules, List.mem_filter, OrderedSet.mem_toList, Bool.and_eq_true,
      Bool.not_eq_true', Bool.not_eq_true']
    constructor
    · exact fun hq => ⟨hq.1.1, hq.1.2.2⟩
    · rintro ⟨hm, hd⟩
      have hold := h.modified_old q hm
      refine ⟨⟨hm, ?_, hd⟩, (hlive q).mpr (.inl ⟨hold, hd⟩)⟩
      rw [← Bool.not_eq_true]
      intro ha
      rw [h.added_new q ha] at hold
      cases hold
  refine
    { added_modified := fun q ha hm => ?_
      added_deleted := fun q ha hd => ?_
      modified_deleted := fun q hm hd => ?_
      contains_iff := fun q => by rw [hlive, hdeleted, hadded, Bool.not_eq_true]
      added_new := fun q hq => h.added_new q ((hadded q).mp hq)
      modified_old := fun q hq => h.modified_old q ((hmodified q).mp hq).1
      deleted_old := fun q hq => h.deleted_old q ((hdeleted q).mp hq)
      carried := fun q m hm => hm.elim (fun hm => (mem_withModules.mp hm).2)
        fun hm => (mem_withModules.mp hm).2
      unchanged := fun q hc ha hm => ?_
      answered := fun q hq hold => ?_ }
  · have := h.added_new q ((hadded q).mp ha)
    rw [h.modified_old q ((hmodified q).mp hm).1] at this
    cases this
  · have := h.added_new q ((hadded q).mp ha)
    rw [h.deleted_old q ((hdeleted q).mp hd)] at this
    cases this
  · have := ((hmodified q).mp hm).2
    rw [(hdeleted q).mp hd] at this
    cases this
  · rw [hadded] at ha
    have hkept := ((hlive q).mp hc).resolve_right ha
    rcases (h.kept q hc).resolve_left id with hr | hcontent
    · exact absurd ((hmodified q).mpr ⟨hr.resolve_left ha, hkept.2⟩) hm
    · exact hcontent
  · rw [hmodified, hdeleted]
    cases hd : e.deleted.contains q with
    | true => exact .inr rfl
    | false =>
      exact .inl ⟨(h.answered q hq hold).resolve_right (by simp [hd]), rfl⟩

theorem accounted_worked (hg : g.Settled)
    (h : g.worked ctx modified deleted host = (.ok (), t)) :
    t.edit.Accounted g (g.slack deleted) ctx.shallow (modified ++ deleted) [] := by
  have hinv : Queue.Invariant (Traversal.accumulator ctx) (fun _ _ _ => True)
      fun tasks (t : Traversal σ) =>
        t.edit.Accounted g (g.slack deleted) ctx.shallow (modified ++ deleted) tasks :=
    { perm := fun hp h => h.perm hp
      start := fun h => ⟨h, trivial⟩
      accumulate := fun h _ hacc =>
        h.process (fun _ hq r => hg.slack_new deleted hq r) (Traversal.accumulate_ok hacc).1
      started := id
      accumulated := fun _ _ => id }
  refine Traversal.drain_invariant hinv ?_ h
  obtain ⟨done, seeds, e, hdone, hp, hempty, hmem, hedit⟩ := Edit.incrementalSeeds_spec
    (Q := Edit.Emptying g) deleted hg.sound (fun path _ h => h.dropDeleted _ path)
    (Edit.emptying_nil g)
  show (g.incrementalSeeds modified deleted).2.Accounted g _ _ _ _
  rw [hedit]
  refine hempty.accounted ctx.shallow
    (hp.sound.mono fun p t => slack_mono (fun D => (hdone D).mp) p t)
    (fun D => (hdone D).mpr) (fun q hq hc => (hmem q).mpr ⟨hp.modified q hq hc, .inl hc⟩)
    (fun q hq => (hmem q).mpr ⟨(hp.loading q hq).1, .inr hq⟩) fun q hq => ((hmem q).mp hq).2

theorem ledger_traverse (hg : g.Settled)
    (h : g.traverse ctx modified deleted host = (.ok d, t)) :
    t.edit.Ledger g (modified ++ deleted) [] (fun _ => False) ∧
      (∀ q, t.edit.loading.contains q = false) ∧ d = deltaOf t.edit := by
  obtain ⟨start, hworked, hedit, hd, _⟩ := traverse_ok h
  have haccounted := accounted_worked hg hworked
  have hloading : ∀ q, start.edit.loading.contains q = false := fun q => by
    rw [← Bool.not_eq_true]
    exact fun hq => List.not_mem_nil (haccounted.loading q hq)
  refine ⟨?_, ?_, hd⟩ <;> rw [hedit]
  · exact Edit.collectCycles_preserves (fun hu h => h.untouched hu)
      (fun hc h => h.free (.inr (.inl hc)) fun _ _ => id) haccounted.ledger
  · exact Edit.loading_collectCycles hloading

/-- The delta of an incremental traversal, shallow or not and in whatever order
the loads are completed, takes the graph before to the graph after it. -/
theorem isPatch_traverse (hg : g.Settled)
    (h : g.traverse ctx modified deleted host = (.ok d, t)) :
    d.IsPatch (modified ++ deleted) g t.edit.graph := by
  obtain ⟨hledger, hloading, rfl⟩ := ledger_traverse hg h
  exact isPatch_deltaOf hledger hloading

/-- `a` drops its imports while `b` gains one of them and a new one: a module is
released and comes back, another one is gone. -/
theorem isPatch_traverse_moved_import :
    ∃ (g : Graph) (ctx : Traversal.Context Unit) (d : GraphDelta) (t : Traversal Unit),
      g.Settled ∧ g.traverse ctx ["a", "b"] [] () = (.ok d, t) ∧
        d.IsPatch ["a", "b"] g t.edit.graph ∧ d.added.map Prod.fst = ["z"] ∧
        d.modified.map Prod.fst = ["a", "b", "x"] ∧ d.deleted = ["y"] := by
  let others : String → List String := fun path => if path = "e" then ["a", "b"] else []
  let before := Traversal.Context.ofImports fun path => if path = "a" then ["x", "y"] else others path
  let after := Traversal.Context.ofImports fun path => if path = "b" then ["x", "z"] else others path
  let g := ((Graph.ofEntries ["e"] {}).initialTraverse before ()).2.edit.graph
  have hg : g.Exact := exact_of_isOk rfl (by decide +kernel)
  have hdelta : ((g.traverse after ["a", "b"] [] ()).1.toOption.map fun d =>
      (d.added.map Prod.fst, d.modified.map Prod.fst, d.deleted)) =
        some (["z"], ["a", "b", "x"], ["y"]) := by decide +kernel
  clear_value g
  cases htraverse : g.traverse after ["a", "b"] [] () with
  | mk result t =>
    rw [htraverse] at hdelta
    cases result with
    | error e => cases hdelta
    | ok d =>
      simp only [Except.toOption, Option.map_some, Option.some.injEq, Prod.mk.injEq] at hdelta
      exact ⟨g, after, d, t, hg.settled, htraverse, isPatch_traverse hg.settled htraverse, hdelta⟩

end Graph

end BundleGraph
