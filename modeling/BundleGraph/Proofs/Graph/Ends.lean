import BundleGraph.Proofs.Graph.Expected
import BundleGraph.Proofs.Graph.Passes
import BundleGraph.Proofs.Loads
import BundleGraph.Proofs.Queue.Journal

/-!
# Incremental traversals come to an end

A module can be released and discovered again, so neither the modules nor the
paths that were seen grow steadily. But a module drops edges only when they are
not those of its file, and then it gets these for good, for a file is loaded
once: every module is `Stale` at most once. Between two such tasks counts only
grow, and whatever is discovered was `Idle` before. `effort` puts the two
together, and pays for every task that follows.
-/

namespace BundleGraph

open Queue Traversal

namespace Edit

variable {e e' : Edit} {path : String} {current previous : List Edge} {next : List String}
  {paths : Finset String}

-- ---------------------------------------------------------------------------
-- Dropping and adding edges of any edit
-- ---------------------------------------------------------------------------

/-- Some modules may be gone, and one may have lost edges. -/
structure Thinned (path : String) (e e' : Edit) : Prop where
  settings : e'.graph.settings = e.graph.settings
  contains : ∀ q, e'.graph.contains q → e.graph.contains q
  content : ∀ q, path ≠ q → e'.graph.contains q → e'.graph.content? q = e.graph.content? q
  loading : ∀ q, e'.loading.contains q ↔ e.loading.contains q

theorem thinned_dropEdges (e : Edit) (path : String) (previous current : List Edge) :
    Thinned path e (e.dropEdges path previous current) := by
  unfold dropEdges
  induction previous generalizing e with
  | nil => exact ⟨rfl, fun _ hq => hq, fun _ _ _ => rfl, fun _ => .rfl⟩
  | cons edge previous ih =>
    rw [List.foldl_cons]
    cases Module.keeps current edge with
    | true => exact ih e
    | false =>
      have h := ih (e.removeEdge path edge)
      refine
        { settings := h.settings.trans (settings_removeEdge path edge)
          contains := fun q hq => contains_of_removeEdge (h.contains q hq)
          content := fun q hne hq => ?_
          loading := fun q => (h.loading q).trans (loading_removeEdge path edge q) }
      have hcontent := content?_removeEdge (h.contains q hq)
      rw [if_neg hne] at hcontent
      exact (h.content q hne hq).trans hcontent

theorem dropEdges_of_keeps (e : Edit) (path : String)
    (hkeeps : ∀ edge ∈ previous, Module.keeps current edge) :
    e.dropEdges path previous current = e := by
  unfold dropEdges
  induction previous with
  | nil => rfl
  | cons edge previous ih =>
    rw [List.foldl_cons, if_pos (hkeeps edge (.head _))]
    exact ih fun edge hedge => hkeeps edge (.tail _ hedge)

theorem counted_addEdges (shallow : Bool) (path : String) (previous current : List Edge)
    (hapart : ∀ p, e.graph.contains p → e.loading[p]? = none) :
    Counting path current e (e.addEdges shallow path previous current).1
        (e.addEdges shallow path previous current).2 ∧
      Discovers e (e.addEdges shallow path previous current).1
        (e.addEdges shallow path previous current).2 := by
  cases shallow with
  | false => exact ⟨counting_addEdges path previous current hapart, discovers_addEdges e path _ _⟩
  | true =>
    have hnone : e.addEdges true path previous current = (e, []) :=
      List.foldl_fixed' (fun _ => rfl) current
    rw [hnone]
    exact ⟨⟨rfl, hapart, fun _ _ => Nat.le_refl _, nofun⟩,
      { content := fun _ => rfl, roots := rfl, color := fun _ => .inl rfl, nodup := List.nodup_nil,
        fresh := nofun, loading := fun q hq => hq.resolve_right List.not_mem_nil }⟩

-- ---------------------------------------------------------------------------
-- Processing a module of any edit
-- ---------------------------------------------------------------------------

/-- What the processing of a module comes to, as far as it matters how often it can
happen: other modules keep their content or are gone, the module gets the edges of
its file or is gone, and what is to be loaded next has just been counted. -/
structure Advanced (resolve : Resolver) (path : String) (file : LoadedFile) (e : Edit)
    (next : List String) (e' : Edit) : Prop where
  settings : e'.graph.settings = e.graph.settings
  apart : ∀ q, e'.graph.contains q → e'.loading[q]? = none
  other : ∀ q, path ≠ q → e'.graph.contains q → e'.graph.content? q = e.graph.content? q
  self : e'.graph.contains path →
    resolve.edges path e.graph.options.platform file.result.dependencies [] =
      .ok (e'.graph.edges path)
  nodup : next.Nodup
  counted : ∀ q ∈ next, ∃ r, 0 < e'.count q r
  resolved : ∀ q ∈ next, ∃ origin d, resolve (some origin) d e.graph.options.platform = .ok q
  unknown : ∀ q ∈ next, e'.graph.contains q = false

/-- Nothing is dropped, and what is to be loaded next was not known. -/
structure Gained (e : Edit) (next : List String) (e' : Edit) : Prop where
  contains : ∀ q, e.graph.contains q → e'.graph.contains q
  count : ∀ q r, e.count q r ≤ e'.count q r
  fresh : ∀ q ∈ next, e.graph.contains q = false ∧ e.loading.contains q = false

variable {resolve : Resolver} {file : LoadedFile} {arrived : Edit}

theorem Thinned.apart (h : Thinned path e e')
    (hapart : ∀ p, e.graph.contains p → e.loading[p]? = none) :
    ∀ p, e'.graph.contains p → e'.loading[p]? = none := by
  intro p hp
  rw [← loading_contains_eq_false, ← Bool.not_eq_true, h.loading, Bool.not_eq_true,
    loading_contains_eq_false]
  exact hapart p (h.contains p hp)

theorem Thinned.advanced {dropped : Edit} {shallow : Bool} (ha : Arrived path file e arrived)
    (hd : Thinned path arrived dropped) (hapart : ∀ p, e.graph.contains p → e.loading[p]? = none)
    (hc : dropped.graph.contains path)
    (hedges : resolve.edges path e.graph.options.platform file.result.dependencies [] =
      .ok current) :
    Advanced resolve path file e (dropped.addEdges shallow path previous current).2
      ((dropped.addEdges shallow path previous current).1.setEdges path current) := by
  obtain ⟨hcounting, hdiscovers⟩ :=
    counted_addEdges shallow path previous current (hd.apart (ha.apart hapart))
  generalize dropped.addEdges shallow path previous current = added at hcounting hdiscovers ⊢
  have hcontains : ∀ q, added.1.graph.contains q = dropped.graph.contains q :=
    fun q => Graph.contains_congr (hdiscovers.content q)
  refine
    { settings := (settings_setEdges path current).trans
        (hcounting.settings.trans (hd.settings.trans ha.settings))
      apart := fun q hq => hcounting.apart q (by rwa [contains_setEdges] at hq)
      other := fun q hne hq => ?_
      self := fun _ => ?_
      nodup := hdiscovers.nodup
      counted := fun q hq => ⟨path, by rw [count_setEdges]; exact (hcounting.next q hq).1⟩
      resolved := fun q hq => ?_
      unknown := fun q hq => ?_ }
  · rw [contains_setEdges, hcontains] at hq
    rw [content?_setEdges, if_neg hne, hdiscovers.content, hd.content q hne hq, ha.content,
      if_neg hne]
  · rw [edges_setEdges, if_pos ⟨rfl, by rwa [hcontains]⟩, hedges]
  · obtain ⟨edge, hedge, rfl⟩ := List.mem_map.mp (hcounting.next q hq).2
    exact ⟨path, _, (Resolver.of_mem_edges hedges hedge).2⟩
  · rw [contains_setEdges, hcontains]
    exact (hdiscovers.fresh q hq).1

theorem advanced {shallow : Bool} (hapart : ∀ p, e.graph.contains p → e.loading[p]? = none)
    (h : e.process resolve shallow path file = (.ok next, e')) :
    Advanced resolve path file e next e' := by
  rcases process_cases hapart h with ⟨hc, _, _, rfl, rfl⟩ | ⟨hc, _, _, hzero, rfl, rfl⟩ |
    ⟨current, arrived, hedges, ha, ⟨hgone, rfl, rfl⟩ | ⟨hstays, rfl, rfl⟩⟩
  · exact ⟨rfl, hapart, fun _ _ _ => rfl, fun hc' => by simp [hc] at hc', .nil, nofun, nofun, nofun⟩
  · exact ⟨by rw [graph_forget], fun q hq => by
        rw [graph_forget] at hq
        rw [getElem?_loading_forgotten, hapart q hq, ite_self],
      fun _ _ _ => by rw [graph_forget], fun hc' => by simp [hc] at hc', .nil, nofun, nofun, nofun⟩
  · have hd := thinned_dropEdges arrived path (arrived.graph.edges path) current
    refine ⟨hd.settings.trans ha.settings, hd.apart (ha.apart hapart), fun q hne hq => ?_,
      fun hc' => by simp [hgone] at hc', .nil, nofun, nofun, nofun⟩
    rw [hd.content q hne hq, ha.content, if_neg hne]
  · exact (thinned_dropEdges arrived path (arrived.graph.edges path) current).advanced ha hapart
      hstays hedges

theorem gained {shallow : Bool} (hapart : ∀ p, e.graph.contains p → e.loading[p]? = none)
    (hcurrent : e.graph.contains path →
      resolve.edges path e.graph.options.platform file.result.dependencies [] =
        .ok (e.graph.edges path))
    (h : e.process resolve shallow path file = (.ok next, e')) : Gained e next e' := by
  rcases process_cases hapart h with ⟨_, _, _, rfl, rfl⟩ | ⟨hc, _, _, hzero, rfl, rfl⟩ |
    ⟨current, arrived, hedges, ha, hrest⟩
  · exact ⟨fun _ hq => hq, fun _ _ => Nat.le_refl _, nofun⟩
  · exact ⟨fun q hq => by rwa [graph_forget],
      fun q r => Nat.le_of_eq (count_forgotten hc hzero q r).symm, nofun⟩
  · have hdrop : arrived.dropEdges path (arrived.graph.edges path) current = arrived := by
      refine dropEdges_of_keeps arrived path fun edge hedge => ?_
      rw [ha.edges] at hedge
      cases hc : e.graph.contains path with
      | false =>
        rw [Graph.edges_eq_nil hc] at hedge
        cases hedge
      | true =>
        obtain rfl : e.graph.edges path = current :=
          Except.ok.inj ((hcurrent hc).symm.trans hedges)
        exact (Module.keeps_iff (Resolver.nodup_edges hedges).1 edge).mpr ⟨edge, hedge, rfl, rfl⟩
    have hpath := (ha.contains path).mpr (.inl rfl)
    rw [hdrop] at hrest
    rcases hrest with ⟨hgone, _⟩ | ⟨_, rfl, rfl⟩
    · rw [hpath] at hgone
      cases hgone
    obtain ⟨hcounting, hdiscovers⟩ := counted_addEdges shallow path (arrived.graph.edges path)
      current (ha.apart hapart)
    refine ⟨fun q hq => ?_, fun q r => ?_, fun q hq => ?_⟩
    · rw [contains_setEdges, Graph.contains_congr (hdiscovers.content q)]
      exact (ha.contains q).mpr (.inr hq)
    · rw [count_setEdges, ← ha.count]
      exact hcounting.count q r
    · obtain ⟨hc, hl⟩ := hdiscovers.fresh q hq
      rw [← Bool.not_eq_true, ha.contains, not_or, Bool.not_eq_true] at hc
      rw [← Bool.not_eq_true, ha.loading, not_and, Bool.not_eq_true] at hl
      exact ⟨hc.2, hl hc.1⟩

-- ---------------------------------------------------------------------------
-- What is still to be paid for
-- ---------------------------------------------------------------------------

open Classical in
/-- Paths that are not in the graph, and that nothing refers to. -/
noncomputable def idle (paths : Finset String) (e : Edit) : Finset String :=
  paths.filter fun q => e.graph.contains q = false ∧ ∀ r, e.count q r = 0

theorem mem_idle {q : String} : q ∈ idle paths e ↔
    q ∈ paths ∧ e.graph.contains q = false ∧ ∀ r, e.count q r = 0 := by
  classical
  unfold idle
  exact Finset.mem_filter

theorem card_idle_add_le {whole : Finset String} (hnodup : next.Nodup)
    (hcounted : ∀ q ∈ next, ∃ r, 0 < e'.count q r) (hnext : ∀ q ∈ next, q ∈ whole)
    (hidle : idle paths e' ⊆ whole) : (idle paths e').card + next.length ≤ whole.card := by
  have hlength : next.toFinset.card = next.length := List.toFinset_card_of_nodup hnodup
  have hdisjoint : Disjoint (idle paths e') next.toFinset := by
    refine Finset.disjoint_left.mpr fun q hq hmem => ?_
    obtain ⟨r, hr⟩ := hcounted q (List.mem_toFinset.mp hmem)
    have hzero := (mem_idle.mp hq).2.2 r
    omega
  rw [← hlength, ← Finset.card_union_of_disjoint hdisjoint]
  exact Finset.card_le_card
    (Finset.union_subset hidle fun q hq => hnext q (List.mem_toFinset.mp hq))

theorem Gained.card_idle (h : Gained e next e') (hnodup : next.Nodup)
    (hcounted : ∀ q ∈ next, ∃ r, 0 < e'.count q r) (hpaths : ∀ q ∈ next, q ∈ paths) :
    (idle paths e').card + next.length ≤ (idle paths e).card := by
  refine card_idle_add_le hnodup hcounted (fun q hq => ?_) fun q hq => ?_
  · obtain ⟨hc, hl⟩ := h.fresh q hq
    refine mem_idle.mpr ⟨hpaths q hq, hc, fun r => ?_⟩
    rw [count_of_not_loading (loading_contains_eq_false.mp hl), Graph.count_eq_zero hc]
  · obtain ⟨hmem, hc, hzero⟩ := mem_idle.mp hq
    refine mem_idle.mpr ⟨hmem, ?_, fun r => ?_⟩
    · rw [← Bool.not_eq_true] at hc ⊢
      exact fun hold => hc (h.contains q hold)
    · exact Nat.eq_zero_of_le_zero ((h.count q r).trans_eq (hzero r))

end Edit

namespace Traversal

variable {σ : Type} {ctx : Context σ} {resolve : Resolver} {t t' : Traversal σ} {path : String}
  {file : LoadedFile} {next tasks : List String} {paths : Finset String}

/-- The edges of a module are those of the file that was loaded for it. -/
def UpToDate (resolve : Resolver) (t : Traversal σ) (path : String) : Prop :=
  ∃ file, t.memo.Holds path (.ok file) ∧
    resolve.edges path t.edit.graph.options.platform file.result.dependencies [] =
      .ok (t.edit.graph.edges path)

open Classical in
/-- Modules that may still drop edges when they are processed. -/
noncomputable def stale (resolve : Resolver) (paths : Finset String) (t : Traversal σ) :
    Finset String :=
  paths.filter fun q => t.edit.graph.contains q ∧ ¬ UpToDate resolve t q

theorem mem_stale {q : String} : q ∈ t.stale resolve paths ↔
    q ∈ paths ∧ t.edit.graph.contains q ∧ ¬ UpToDate resolve t q := by
  classical
  unfold stale
  exact Finset.mem_filter

/-- A module that drops edges may set free as many paths as there are. -/
noncomputable def effort (resolve : Resolver) (paths : Finset String) (t : Traversal σ) : Nat :=
  (t.stale resolve paths).card * (paths.card + 1) + (t.edit.idle paths).card

theorem effort_le (resolve : Resolver) (paths : Finset String) (t : Traversal σ) :
    t.effort resolve paths ≤ paths.card * (paths.card + 2) := by
  have hstale : (t.stale resolve paths).card ≤ paths.card :=
    Finset.card_le_card fun _ hq => (mem_stale.mp hq).1
  have hidle : (t.edit.idle paths).card ≤ paths.card :=
    Finset.card_le_card fun _ hq => (Edit.mem_idle.mp hq).1
  calc t.effort resolve paths
      ≤ paths.card * (paths.card + 1) + paths.card :=
        Nat.add_le_add (Nat.mul_le_mul_right _ hstale) hidle
    _ = paths.card * (paths.card + 2) := (Nat.mul_succ _ _).symm

theorem stale_process (paths : Finset String)
    (hmemo : ∀ q result, t'.memo.Holds q result ↔ t.memo.Holds q result)
    (hheld : t.memo.Holds path (.ok file))
    (h : Edit.Advanced resolve path file t.edit next t'.edit) :
    t'.stale resolve paths ⊆ (t.stale resolve paths).erase path := by
  have hoptions := Graph.options_congr h.settings
  intro q hq
  obtain ⟨hmem, hc, hstale⟩ := mem_stale.mp hq
  by_cases hne : path = q
  · subst hne
    refine absurd ⟨file, (hmemo path _).mpr hheld, ?_⟩ hstale
    rw [hoptions]
    exact h.self hc
  · have hcontent := h.other q hne hc
    refine Finset.mem_erase.mpr ⟨Ne.symm hne, mem_stale.mpr ⟨hmem, ?_, ?_⟩⟩
    · rwa [← Graph.contains_congr hcontent]
    · rintro ⟨file', hheld', hedges⟩
      refine hstale ⟨file', (hmemo q _).mpr hheld', ?_⟩
      rw [hoptions, Graph.edges_congr hcontent]
      exact hedges

/-- Every task that follows is paid for. -/
theorem effort_process {shallow : Bool}
    (hapart : ∀ p, t.edit.graph.contains p → t.edit.loading[p]? = none)
    (hpath : path ∈ paths) (hmemo : ∀ q result, t'.memo.Holds q result ↔ t.memo.Holds q result)
    (hheld : t.memo.Holds path (.ok file)) (hnext : ∀ q ∈ next, q ∈ paths)
    (h : t.edit.process resolve shallow path file = (.ok next, t'.edit)) :
    t'.effort resolve paths + next.length ≤ t.effort resolve paths := by
  have hadvanced := Edit.advanced hapart h
  have hstale := stale_process paths hmemo hheld hadvanced
  unfold effort
  by_cases hmem : path ∈ t.stale resolve paths
  · -- it is stale no more, and that pays for everything it may set free
    have hcard := Finset.card_le_card hstale
    have hidle := Edit.card_idle_add_le hadvanced.nodup hadvanced.counted hnext
      fun q hq => (Edit.mem_idle.mp hq).1
    have hpos := Finset.card_pos.mpr ⟨path, hmem⟩
    rw [Finset.card_erase_of_mem hmem] at hcard
    have hmul := Nat.mul_le_mul_right (paths.card + 1)
      (show (t'.stale resolve paths).card + 1 ≤ (t.stale resolve paths).card by omega)
    rw [Nat.add_mul, Nat.one_mul] at hmul
    omega
  · -- nothing is dropped, and what is discovered was idle
    have hgained : Edit.Gained t.edit next t'.edit := by
      refine Edit.gained hapart (fun hc => ?_) h
      by_contra hnot
      refine hmem (mem_stale.mpr ⟨hpath, hc, ?_⟩)
      rintro ⟨file', hheld', hedges⟩
      obtain rfl : file = file' := Except.ok.inj (hheld.unique hheld')
      exact hnot hedges
    have hidle := hgained.card_idle hadvanced.nodup hadvanced.counted hnext
    have hmul := Nat.mul_le_mul_right (paths.card + 1)
      (Finset.card_le_card (hstale.trans (Finset.erase_subset _ _)))
    omega

-- ---------------------------------------------------------------------------
-- The drain
-- ---------------------------------------------------------------------------

/-- What the tasks of any incremental traversal keep true. -/
structure Bounded (platform : Option String) (paths : Finset String) (tasks : List String)
    (t : Traversal σ) : Prop where
  apart : ∀ p, t.edit.graph.contains p → t.edit.loading[p]? = none
  platform : t.edit.graph.options.platform = platform
  tasks : ∀ q ∈ tasks, q ∈ paths
  memo : t.memo.Delivers fun _ result => result ≠ .error .budgetSpent

/-- The resolver answers with some of these paths only. -/
def Context.Answers (ctx : Context σ) (platform : Option String) (paths : Finset String) : Prop :=
  ∀ origin d target, ctx.resolve (some origin) d platform = .ok target → target ∈ paths

variable {platform : Option String}

theorem Bounded.next_mem (h : Bounded platform paths (path :: tasks) t)
    (hanswers : ctx.Answers platform paths) {shallow : Bool} {e' : Edit}
    (hprocess : t.edit.process ctx.resolve shallow path file = (.ok next, e')) :
    ∀ q ∈ next, q ∈ paths := by
  intro q hq
  obtain ⟨origin, d, hresolve⟩ := (Edit.advanced h.apart hprocess).resolved q hq
  rw [h.platform] at hresolve
  exact hanswers origin d q hresolve

theorem load_ne_budgetSpent (loader : Loader σ) (path : String) (host : σ) :
    LoadMemo.sharedOutcome (loader.load path host).1.outcome ≠ .error .budgetSpent := by
  cases (loader.load path host).1.outcome <;> exact nofun

theorem bounded_invariant (hanswers : ctx.Answers platform paths) :
    Invariant (accumulator ctx) (fun t => t.memo.Holds) (Bounded platform paths) := by
  refine holding (fun hp h => { h with tasks := fun q hq => h.tasks q (hp.mem_iff.mpr hq) })
    (fun {path ts t} h => ⟨h.apart, h.platform, h.tasks, ?_⟩)
    fun {path ts t file next t'} h hheld hmemo hprocess => ?_
  · exact (h.memo.load path fun path host => load_ne_budgetSpent ctx.loader path host).1
  · have hadvanced := Edit.advanced h.apart hprocess
    refine ⟨hadvanced.apart, ?_, fun q hq => ?_, ?_⟩
    · rw [Graph.options_congr hadvanced.settings, h.platform]
    · rcases List.mem_append.mp hq with hq | hq
      · exact h.tasks q (.tail _ hq)
      · exact h.next_mem hanswers hprocess q hq
    · rw [hmemo]
      exact h.memo.settle nofun

theorem bounded_dwindles (hanswers : ctx.Answers platform paths) :
    Dwindles (accumulator ctx) (fun t => t.memo.Holds) (Bounded platform paths)
      fun t => 2 * t.effort ctx.resolve paths where
  start := fun path t => by
    -- what is loaded now may bring modules up to date
    refine Nat.mul_le_mul_left 2 (Nat.add_le_add_right (Nat.mul_le_mul_right _
      (Finset.card_le_card fun q hq => ?_)) _)
    obtain ⟨hmem, hc, hstale⟩ := mem_stale.mp hq
    refine mem_stale.mpr ⟨hmem, hc, fun ⟨file, hheld, hedges⟩ => hstale ⟨file, ?_, hedges⟩⟩
    exact hheld.load path
  accumulate := fun {path ts t file next t'} h hheld hacc => by
    obtain ⟨hprocess, hmemo⟩ := accumulate_ok hacc
    have heffort := effort_process h.apart (h.tasks path (.head _))
      (fun q result => by rw [hmemo]; exact LoadMemo.holds_settle hheld) hheld
      (h.next_mem hanswers hprocess) hprocess
    omega

theorem edges_ne_budgetSpent {resolve : Resolver} {origin : String} {ds : List Dependency}
    {keys : List String} : resolve.edges origin platform ds keys ≠ .error .budgetSpent := by
  intro h
  rcases Resolver.edges_error h with ⟨_, heq⟩ | ⟨_, heq⟩ <;> cases heq

theorem accumulate_error {error : BuildError}
    (h : accumulate ctx path file t = (.error error, t')) :
    ctx.resolve.edges path t.edit.graph.options.platform file.result.dependencies [] =
      .error error := by
  unfold accumulate at h
  dsimp only at h
  cases hprocess : t.edit.process ctx.resolve ctx.shallow path file with
  | mk outcome edit =>
    cases outcome with
    | ok next => simp [hprocess] at h
    | error error' =>
      simp only [hprocess, Prod.mk.injEq, Except.error.injEq] at h
      obtain ⟨rfl, -⟩ := h
      exact Edit.process_error hprocess

theorem bounded_fails : Fails (accumulator ctx) (fun t => t.memo.Holds) (Bounded platform paths)
    fun error => error ≠ .budgetSpent where
  result := fun {path ts t error} h hheld => by
    obtain ⟨st, hst, hresult⟩ := hheld
    rintro rfl
    exact h.memo path st hst hresult
  accumulate := fun _ _ hacc => by
    rintro rfl
    exact edges_ne_budgetSpent (accumulate_error hacc)

end Traversal

namespace Graph

variable {σ : Type}

theorem apart_dropDeleted {g : Graph} {state : OrderedSet String × Edit}
    (h : (∀ p, state.2.graph.contains p → state.2.loading[p]? = none) ∧
      state.2.graph.settings = g.settings) (path : String) :
    (∀ p, (dropDeleted state path).2.graph.contains p →
      (dropDeleted state path).2.loading[p]? = none) ∧
      (dropDeleted state path).2.graph.settings = g.settings := by
  obtain ⟨seeds, e⟩ := state
  obtain ⟨hapart, hsettings⟩ := h
  have hrelease : e.graph.contains path →
      (∀ p, (e.release path).graph.contains p → (e.release path).loading[p]? = none) ∧
        (e.release path).graph.settings = g.settings := by
    intro hc
    have hreleases := Edit.release_releases hc
    exact ⟨fun p hp => hreleases.loading_none (hapart p (hreleases.contains hp)),
      hreleases.settings_eq.trans hsettings⟩
  rcases Edit.dropDeleted_cases seeds e path with ⟨_, heq⟩ | ⟨hc, _, heq⟩ | ⟨hc, _, heq⟩
  · rw [heq]
    exact ⟨hapart, hsettings⟩
  · rw [heq]
    exact hrelease hc
  · obtain ⟨happart, hsettings⟩ := hrelease hc
    rw [heq, Edit.graph_enqueue]
    refine ⟨fun p hp => ?_, hsettings⟩
    rw [Edit.getElem?_loading_enqueue, happart p hp, if_neg]
    rintro rfl
    rw [(Edit.gone_release hc (hapart path hc)).1] at hp
    cases hp

theorem bounded_incrementalSeeds (g : Graph) (modified deleted : List String)
    (answers : Finset String) (host : σ) (total : Nat) :
    Bounded g.options.platform ((g.incrementalSeeds modified deleted).1.toFinset ∪ answers)
      (g.incrementalSeeds modified deleted).1
      (.ofEdit (g.incrementalSeeds modified deleted).2 host total) := by
  have hfold : ∀ (deleted : List String) (state : OrderedSet String × Edit),
      (∀ p, state.2.graph.contains p → state.2.loading[p]? = none) ∧
        state.2.graph.settings = g.settings →
      (∀ p, (deleted.foldl dropDeleted state).2.graph.contains p →
        (deleted.foldl dropDeleted state).2.loading[p]? = none) ∧
        (deleted.foldl dropDeleted state).2.graph.settings = g.settings := by
    intro deleted
    induction deleted with
    | nil => exact fun state h => h
    | cons path deleted ih => exact fun state h => ih _ (apart_dropDeleted h path)
  obtain ⟨hapart, hsettings⟩ := hfold deleted (.ofList (modified.filter g.contains), { graph := g })
    ⟨fun _ _ => Std.TreeMap.getElem?_emptyc, rfl⟩
  exact
    { apart := hapart
      platform := congrArg Transform.Options.platform (options_congr hsettings)
      tasks := fun q hq => Finset.mem_union_left _ (List.mem_toFinset.mpr hq)
      memo := fun path st hst => by simp [ofEdit] at hst }

/-- An incremental traversal comes to its end, whatever the graph, the modified and
deleted paths and the order of the loads, when the resolver has finitely many
answers: no more tasks are started than seeds and answers allow for, so that no
larger budget is ever spent; every release, and the collection that follows, come
to their ends too. -/
theorem traverse_ends (g : Graph) (ctx : Context σ) (answers : Finset String)
    (hanswers : ctx.Answers g.options.platform answers) (modified deleted : List String)
    (host : σ) :
    let seeds := (g.incrementalSeeds modified deleted).1
    let start := ofEdit (g.incrementalSeeds modified deleted).2 host seeds.length
    let paths := seeds.toFinset ∪ answers
    let bound := 2 * (seeds.length + paths.card * (paths.card + 2)) + 1
    (ran (Queue.drain (accumulator ctx).journaled ctx.pace (.ofList seeds) (start, [])).2.2).length ≤
        bound ∧
      (bound ≤ ctx.pace.budget → (g.traverse ctx modified deleted host).1 ≠ .error .budgetSpent) ∧
      (∀ (e : Edit) path, e.graph.contains path →
        Edit.Releases [(path, e.graph.edges path)] e (e.release path)) ∧
      Edit.CollectsCycles (g.worked ctx modified deleted host).2.edit
        (g.worked ctx modified deleted host).2.edit.collectCycles := by
  intro seeds start paths bound
  have hpaths : ctx.Answers g.options.platform paths := fun origin d target hresolve =>
    Finset.mem_union_right _ (hanswers origin d target hresolve)
  have hstart : Bounded g.options.platform paths seeds start :=
    g.bounded_incrementalSeeds modified deleted answers host seeds.length
  have hbound : 2 * seeds.length + 2 * start.effort ctx.resolve paths < bound := by
    have := start.effort_le ctx.resolve paths
    omega
  have hends : ∀ budget, bound ≤ budget → ∃ result t,
      drainWithin (accumulator ctx) ctx.pace.schedule budget (.ofList seeds) start =
        (some result, t) := fun budget hbudget =>
    Queue.drain_ends (bounded_invariant hpaths) (bounded_dwindles hpaths)
      ⟨ctx.pace.schedule, budget⟩ seeds start hstart (Nat.lt_of_lt_of_le hbound hbudget)
  refine ⟨length_ran_drain _ ctx.pace seeds start (hends bound (Nat.le_refl _)), fun hbudget => ?_,
    fun _ _ hc => Edit.release_releases hc, Edit.collectsCycles _⟩
  obtain ⟨result, t, hdrain⟩ := hends ctx.pace.budget hbudget
  have hworked : g.worked ctx modified deleted host = (result, t) := by
    unfold worked Traversal.drain Queue.drain
    dsimp only
    rw [hdrain]
  rw [traverse_eq, hworked]
  cases result with
  | ok _ => exact nofun
  | error error =>
    have hne : error ≠ .budgetSpent :=
      Queue.drain_error (bounded_invariant hpaths) bounded_fails ctx.pace seeds start hstart hdrain
    simpa using hne

/-- The module `b` drops `c`, to which nothing else leads, so that `c` is freed; `x`
discovers it again, and it is loaded once more. What it imports is on a cycle. -/
theorem traverse_ends_rediscovered :
    ∃ (g : Graph) (ctx : Context Unit),
      ctx.Answers g.options.platform {"b", "c", "d", "f", "x"} ∧
      (g.targets "b" = ["c"] ∧ g.targets "c" = ["d"] ∧ g.targets "d" = ["f"] ∧
        g.targets "f" = ["d"] ∧ g.targets "x" = []) ∧
      (∃ started, ran (Queue.drain (accumulator ctx).journaled ctx.pace (.ofList ["b", "x"])
          (ofEdit (g.incrementalSeeds ["b", "x"] []).2 () 2, [])).2.2 = started ∧
        started = ["b", "x", "c"] ∧ started.length ≤ 2 * (2 + 5 * (5 + 2)) + 1) ∧
      (g.traverse ctx ["b", "x"] [] ()).1 ≠ .error .budgetSpent ∧
      (g.traverse ctx ["b", "x"] [] ()).2.edit.graph.targets "x" = ["c"] := by
  let below : String → List String := fun path =>
    if path = "c" then ["d"] else if path = "d" then ["f"] else if path = "f" then ["d"] else []
  let before := Context.ofImports fun path =>
    if path = "a" then ["b", "x"] else if path = "b" then ["c"] else below path
  let after := Context.ofImports fun path =>
    if path = "a" then ["b", "x"] else if path = "x" then ["c"] else below path
  let ctx := { after with
    resolve := fun _ d _ => if d.name ∈ ["b", "c", "d", "f", "x"] then .ok d.name
      else .error ⟨none, d.name, none, none⟩ }
  let g := ((Graph.ofEntries ["a"] {}).initialTraverse before ()).2.edit.graph
  have hedges : g.targets "b" = ["c"] ∧ g.targets "c" = ["d"] ∧ g.targets "d" = ["f"] ∧
      g.targets "f" = ["d"] ∧ g.targets "x" = [] := by
    decide +kernel
  have hrun : (g.incrementalSeeds ["b", "x"] []).1 = ["b", "x"] ∧
      ran (Queue.drain (accumulator ctx).journaled ctx.pace (.ofList ["b", "x"])
        (ofEdit (g.incrementalSeeds ["b", "x"] []).2 () 2, [])).2.2 = ["b", "x", "c"] ∧
      (g.traverse ctx ["b", "x"] [] ()).2.edit.graph.targets "x" = ["c"] := by
    decide +kernel
  clear_value g
  obtain ⟨hseeds, hstarted, hafter⟩ := hrun
  have hanswers : ctx.Answers g.options.platform {"b", "c", "d", "f", "x"} := by
    intro origin d target hresolve
    simp only [ctx] at hresolve
    split at hresolve
    · rename_i hname
      cases hresolve
      simpa using hname
    · cases hresolve
  obtain ⟨hlength, hends, -, -⟩ := traverse_ends g ctx _ hanswers ["b", "x"] [] ()
  rw [hseeds] at hlength hends
  exact ⟨g, ctx, hanswers, hedges, ⟨_, rfl, hstarted, hlength⟩, hends (by decide), hafter⟩

end Graph

end BundleGraph
