import BundleGraph.Proofs.Graph.Patch
import BundleGraph.Proofs.Loads

/-!
# What an incremental traversal leaves alone

A module whose last referrer goes is freed at once, and one that is discovered
again later in the same traversal is loaded afresh. This can happen to a module
that nobody asked for: an import moves from one file to another, and is dropped
before it is added. `Graph.Lost` are the modules that may lose all their
referrers in this way. `Edit.Upholds` says that all others keep one to the end,
in whatever order the loads are completed, so that they are neither loaded nor
reported.
-/

namespace BundleGraph

/-- What was deleted, and what is no entry point and keeps no referrer: all edges
that lead to it are dropped, or come from modules that are lost. -/
inductive Graph.Lost (g : Graph) (deleted : List String) (dropped : String → Edge → Prop) :
    String → Prop
  | deleted {path : String} (h : path ∈ deleted) : g.Lost deleted dropped path
  | cut {path : String} (hentry : g.isEntry path = false)
      (hedges : ∀ origin, ∀ edge ∈ g.edges origin, edge.target = path → ¬ dropped origin edge →
        g.Lost deleted dropped origin) : g.Lost deleted dropped path

theorem Graph.Lost.mono {g : Graph} {deleted deleted' : List String}
    {dropped dropped' : String → Edge → Prop} {path : String} (h : g.Lost deleted dropped path)
    (hdeleted : ∀ q ∈ deleted, q ∈ deleted')
    (hdropped : ∀ origin edge, dropped origin edge → dropped' origin edge) :
    g.Lost deleted' dropped' path := by
  induction h with
  | deleted h => exact .deleted (hdeleted _ h)
  | cut hentry _ ih =>
    refine .cut hentry fun origin edge hedge htarget hspared => ?_
    exact ih origin edge hedge htarget fun hd => hspared (hdropped origin edge hd)

/-- Modules of a graph that keep each other: each is an entry point, or there is
an edge to it from another one that is spared. -/
structure Graph.Firm (g : Graph) (deleted : List String) (spared : String → Edge → Prop)
    (firm : String → Prop) : Prop where
  contains : ∀ q, firm q → g.contains q
  not_deleted : ∀ q, firm q → q ∉ deleted
  held : ∀ q, firm q → g.isEntry q ∨
    ∃ origin, firm origin ∧ ∃ edge ∈ g.edges origin, edge.target = q ∧ spared origin edge

theorem Graph.firm_of_not_lost (g : Graph) (deleted : List String)
    (dropped : String → Edge → Prop) :
    g.Firm deleted (fun origin edge => ¬ dropped origin edge)
      fun q => g.contains q ∧ ¬ g.Lost deleted dropped q where
  contains := fun _ hq => hq.1
  not_deleted := fun _ hq hdeleted => hq.2 (.deleted hdeleted)
  held := by
    rintro q ⟨_, hlost⟩
    cases hentry : g.isEntry q with
    | true => exact .inl rfl
    | false =>
      refine .inr ?_
      by_contra hnone
      refine hlost (.cut hentry fun origin edge hedge htarget hspared => ?_)
      by_contra horigin
      have hmem : edge.target ∈ g.targets origin := List.mem_map.mpr ⟨edge, hedge, rfl⟩
      exact hnone
        ⟨origin, ⟨contains_of_mem_targets hmem, horigin⟩, edge, hedge, htarget, hspared⟩

/-- Requested, or to be resolved again. -/
def Graph.Touched (g : Graph) (modified deleted : List String) (path : String) : Prop :=
  path ∈ modified ∨ ∃ D ∈ deleted, D ∈ g.targets path

/-- A file that was loaded for a module does not have an edge. -/
def Resolver.Drops (resolve : Resolver) (platform : Option String)
    (loaded : String → LoadedFile → Prop) (origin : String) (edge : Edge) : Prop :=
  ∃ file current, loaded origin file ∧
    resolve.edges origin platform file.result.dependencies [] = .ok current ∧
      Module.keeps current edge = false

theorem Module.keeps_congr {edges : List Edge} {edge edge' : Edge} (hkey : edge.key = edge'.key)
    (htarget : edge.target = edge'.target) : keeps edges edge = keeps edges edge' := by
  rw [keeps, hkey, htarget, keeps]

namespace Edit

/-- The firm modules are still in the graph with their spared edges, and none is
reported as modified but those that were touched. -/
structure Upholds (g : Graph) (spared : String → Edge → Prop) (firm touched : String → Prop)
    (e : Edit) : Prop where
  settings : e.graph.settings = g.settings
  contains : ∀ q, firm q → e.graph.contains q
  edges : ∀ p, firm p → ∀ edge ∈ g.edges p, spared p edge →
    ∃ held ∈ e.graph.edges p, held.key = edge.key ∧ held.target = edge.target
  modified : ∀ q, firm q → e.modified.contains q → touched q

variable {g : Graph} {slack : String → String → Nat} {deleted modified : List String}
  {spared : String → Edge → Prop} {firm touched : String → Prop} {e e' : Edit}
  {path : String} {edge : Edge} {edges current : List Edge} {stack : Stack}
  {resolve : Resolver} {file : LoadedFile} {next : List String}

-- ---------------------------------------------------------------------------
-- Removing edges
-- ---------------------------------------------------------------------------

theorem Upholds.not_firm (hg : g.Firm deleted spared firm)
    (hslack : ∀ t, firm t → ∀ p, slack p t = 0) (h : Upholds g spared firm touched e)
    (hs : Sound slack e) {t : String} (hentry : e.graph.isEntry t = false)
    (hzero : ∀ r, e.count t r = 0) : ¬ firm t := by
  intro ht
  rw [Graph.isEntry_congr h.settings] at hentry
  obtain ⟨origin, horigin, edge, hedge, htarget, hspared⟩ :=
    (hg.held t ht).resolve_left (by simp [hentry])
  obtain ⟨held, hheld, _, hsame⟩ := h.edges origin horigin edge hedge hspared
  have hmem : t ∈ e.graph.targets origin :=
    List.mem_map.mpr ⟨held, hheld, hsame.trans htarget⟩
  have hpos := Graph.edgeCount_pos_iff.mpr hmem
  have hle := hs.le_slack hzero origin
  rw [hslack t ht origin] at hle
  exact Nat.lt_irrefl 0 (Nat.lt_of_lt_of_le hpos hle)

theorem Upholds.of_same (h : Upholds g spared firm touched e)
    (hsettings : e'.graph.settings = e.graph.settings)
    (hcontains : ∀ q, firm q → e.graph.contains q → e'.graph.contains q)
    (hedges : ∀ q, firm q → e'.graph.edges q = e.graph.edges q)
    (hmodified : ∀ q, firm q → e'.modified.contains q → e.modified.contains q) :
    Upholds g spared firm touched e' where
  settings := hsettings.trans h.settings
  contains := fun q hq => hcontains q hq (h.contains q hq)
  edges := fun p hp => by
    rw [hedges p hp]
    exact h.edges p hp
  modified := fun q hq hm => h.modified q hq (hmodified q hq hm)

theorem Upholds.free (h : Upholds g spared firm touched e) (hpath : ¬ firm path) :
    Upholds g spared firm touched (e.free path) := by
  have hne : ∀ q, firm q → path ≠ q := by
    rintro q hq rfl
    exact hpath hq
  refine h.of_same (settings_free path) (fun q hq hc => ?_) (fun q hq => ?_) fun q _ hm => ?_
  · exact (contains_free path q).mpr ⟨hne q hq, hc⟩
  · rw [edges_free, if_neg (hne q hq)]
  · rwa [show (e.free path).modified = e.modified from modified_forget path] at hm

theorem Upholds.detach (h : Upholds g spared firm touched e) (hpath : ¬ firm path) (edge : Edge) :
    Upholds g spared firm touched (e.detach path edge).2 := by
  refine h.of_same (settings_detach path edge) (fun q _ hc => ?_) (fun q hq => ?_) fun q _ hm => ?_
  · rwa [contains_detach]
  · rw [edges_detach, if_neg]
    rintro rfl
    exact hpath hq
  · rwa [show (e.detach path edge).2.modified = e.modified by rw [detach_account]] at hm

/-- An edge that is not kept is not spared, so a firm module can lose it. -/
theorem Upholds.detach_unkept (h : Upholds g spared firm touched e) (hwf : e.graph.WellFormed)
    (hmem : e.graph.contains path → edge ∈ e.graph.edges path)
    (hspared : firm path → ∀ edge ∈ g.edges path, spared path edge → Module.keeps current edge)
    (hkeeps : Module.keeps current edge = false) :
    Upholds g spared firm touched (e.detach path edge).2 := by
  by_cases hpath : firm path
  swap
  · exact h.detach hpath edge
  have hold := h.contains path hpath
  refine
    { settings := (settings_detach path edge).trans h.settings
      contains := fun q hq => by rw [contains_detach]; exact h.contains q hq
      edges := fun p hp spare hspare hsp => ?_
      modified := fun q hq hm => h.modified q hq ?_ }
  · obtain ⟨held, hheld, hkey, htarget⟩ := h.edges p hp spare hspare hsp
    rw [edges_detach]
    split
    swap
    · exact ⟨held, hheld, hkey, htarget⟩
    · rename_i hp'
      subst hp'
      refine ⟨held, ?_, hkey, htarget⟩
      rw [Module.eraseEdge, List.mem_eraseP_of_neg]
      · exact hheld
      · -- the edges of one key are one edge
        rw [decide_eq_true_eq]
        intro hsame
        obtain rfl := List.inj_on_of_nodup_map (hwf.nodup_keys path) hheld (hmem hold) hsame
        rw [Module.keeps_congr hkey htarget, hspared hpath spare hspare hsp] at hkeeps
        cases hkeeps
  · rwa [show (e.detach path edge).2.modified = e.modified by rw [detach_account]] at hm

theorem Releases.upholds (hg : g.Firm deleted spared firm)
    (hslack : ∀ t, firm t → ∀ p, slack p t = 0) (h : Releases stack e e')
    (hs : Unwinding slack stack e) (hstack : ∀ q, Stacked stack q → ¬ firm q)
    (hup : Upholds g spared firm touched e) : Upholds g spared firm touched e' := by
  refine (h.invariant (P := fun stack e => Unwinding slack stack e ∧
    (∀ q, Stacked stack q → ¬ firm q) ∧ Upholds g spared firm touched e)
    ?_ ?_ ?_ ⟨hs, hstack, hup⟩).2.2
  · rintro path stack e hheld ⟨hs, hstack, hup⟩
    exact ⟨hs.free hheld, fun q hq => hstack q (by simp [hq]), hup.free (hstack path (by simp))⟩
  · rintro path edge edges stack e hheld hd ⟨hs, hstack, hup⟩
    exact ⟨hs.keep hheld, fun q hq => hstack q (by simpa using hq),
      hup.detach (hstack path (by simp)) edge⟩
  · rintro path edge edges stack e hheld hd ⟨hs, hstack, hup⟩
    have hpushed := hs.push hheld hd ((e.detach path edge).2.graph.edges edge.target)
    have hdetached := hup.detach (hstack path (by simp)) edge
    obtain ⟨_, _, hentry, hzero⟩ := (fst_detach_iff path edge).mp hd
    refine ⟨hpushed, fun q hq => ?_, hdetached⟩
    rcases stacked_cons.mp hq with rfl | hq
    · exact hdetached.not_firm hg hslack hpushed.sound (by rwa [isEntry_detach]) hzero
    · exact hstack q (by simpa using hq)

theorem Upholds.removeEdge (hg : g.Firm deleted spared firm)
    (hslack : ∀ t, firm t → ∀ p, slack p t = 0) (h : Upholds g spared firm touched e)
    (hs : Sound slack e) (hmem : e.graph.contains path → edge ∈ e.graph.edges path)
    (hspared : firm path → ∀ edge ∈ g.edges path, spared path edge → Module.keeps current edge)
    (hkeeps : Module.keeps current edge = false) :
    Upholds g spared firm touched (e.removeEdge path edge) := by
  have hdetached := h.detach_unkept hs.wellFormed hmem hspared hkeeps
  rcases e.removeEdge_cases path edge with ⟨_, heq⟩ | ⟨hd, hreleases⟩
  · rw [heq]
    exact hdetached
  · have hunwinding := Unwinding.ofDetach hs hmem hd ((e.detach path edge).2.graph.edges edge.target)
    obtain ⟨_, _, hentry, hzero⟩ := (fst_detach_iff path edge).mp hd
    refine hreleases.upholds hg hslack hunwinding (fun q hq => ?_) hdetached
    obtain rfl := (stacked_cons.mp hq).resolve_right stacked_nil
    exact hdetached.not_firm hg hslack hunwinding.sound (by rwa [isEntry_detach]) hzero

-- ---------------------------------------------------------------------------
-- Discovering modules
-- ---------------------------------------------------------------------------

theorem Upholds.enqueue (h : Upholds g spared firm touched e) (hpath : ¬ firm path)
    (referrer : Option String) : Upholds g spared firm touched (e.enqueue path referrer) := by
  refine h.of_same (by rw [graph_enqueue]) (fun _ _ hc => by rwa [graph_enqueue])
    (fun _ _ => by rw [graph_enqueue]) fun q hq hm => ?_
  unfold Edit.enqueue at hm
  split at hm
  · rw [OrderedSet.contains_insert, Bool.or_eq_true, decide_eq_true_eq] at hm
    refine hm.resolve_left ?_
    rintro rfl
    exact hpath hq
  · exact hm

theorem Upholds.addEdge (h : Upholds g spared firm touched e) (parent : String) (edge : Edge) :
    Upholds g spared firm touched (e.addEdge parent edge).1 := by
  rcases e.addEdge_cases parent edge with ⟨hc, h'⟩ | ⟨hc, inverse, hl, h'⟩ | ⟨hc, hl, h'⟩
  · rw [h']
    have hu := ((Untouched.refl e).addReferrer edge.target parent).setColor edge.target .black
    have haccount := hu.account
    refine h.of_same (by simp) (fun q _ hq => by rwa [hu.contains])
      (fun q _ => Graph.edges_congr (hu.content q)) fun q _ hm => by rwa [haccount] at hm
  · rw [h']
    exact h.of_same rfl (fun _ _ hq => hq) (fun _ _ => rfl) fun _ _ hm => hm
  · rw [h']
    refine h.enqueue (fun hfirm => ?_) _
    rw [h.contains _ hfirm] at hc
    cases hc

-- ---------------------------------------------------------------------------
-- Processing a module
-- ---------------------------------------------------------------------------

theorem Upholds.process (hg : g.Firm deleted spared firm)
    (hslack : ∀ t, firm t → ∀ p, slack p t = 0) (h : Upholds g spared firm touched e)
    (hs : Sound slack e)
    (hspared : ∀ current, resolve.edges path g.options.platform file.result.dependencies [] =
      .ok current → firm path → ∀ edge ∈ g.edges path, spared path edge →
        Module.keeps current edge)
    (hprocess : e.process resolve false path file = (.ok next, e')) :
    Processed resolve path file e next e' ∧ Sound slack e' ∧
      Upholds g spared firm touched e' := by
  rw [← Graph.options_congr h.settings] at hspared
  refine process_spec hs hprocess (fun _ => h) (fun _ _ _ => ?_) (fun {arrived} ha => ?_)
    (fun hedges hs hmem hkeeps hup => ?_) fun {current arrived dropped} hedges _ hc _ hup => ?_
  · refine h.of_same (by rw [graph_forget]) (fun _ _ hq => by rwa [graph_forget])
      (fun _ _ => by rw [graph_forget]) fun q _ hm => ?_
    rwa [modified_forget] at hm
  · exact h.of_same ha.settings (fun q _ hq => (ha.contains q).mpr (.inr hq))
      (fun q _ => ha.edges q) fun q _ hm => by rwa [ha.modified] at hm
  · exact hup.removeEdge hg hslack hs hmem (hspared _ hedges) hkeeps
  · have hadded : Upholds g spared firm touched
        (dropped.addEdges false path (arrived.graph.edges path) current).1 :=
      addEdges_preserves (fun edge h => h.addEdge path edge) hup
    refine
      { settings := (settings_setEdges path current).trans hadded.settings
        contains := fun q hq => by rw [contains_setEdges]; exact hadded.contains q hq
        edges := fun p hp edge hedge hsp => ?_
        modified := hadded.modified }
    rw [edges_setEdges]
    split
    · rename_i hpath
      obtain ⟨rfl, _⟩ := hpath
      exact (Module.keeps_iff (Resolver.nodup_edges hedges).1 edge).mp
        (hspared current hedges hp edge hedge hsp)
    · exact hadded.edges p hp edge hedge hsp

-- ---------------------------------------------------------------------------
-- Dropping deleted modules
-- ---------------------------------------------------------------------------

theorem Upholds.dropDeleted {done : List String} {seeds : OrderedSet String} (hg : g.Settled)
    (hf : g.Firm deleted spared firm) (h : Upholds g spared firm touched e)
    (hp : Purging g modified done seeds e) (path : String)
    (hdone : ∀ D ∈ path :: done, ¬ firm D) :
    Upholds g spared firm touched (Graph.dropDeleted (seeds, e) path).2 := by
  have hpath := hdone path (.head _)
  have hrelease : e.graph.contains path → Upholds g spared firm touched (e.release path) := by
    intro hc
    refine (release_releases hc).upholds hf (fun t ht p => ?_) (.ofLost hp.sound path _)
      (fun q hq => ?_) h
    · have hne : t ≠ path := fun heq => hpath (heq ▸ ht)
      have hnot : t ∉ done := fun hd => hdone t (.tail _ hd) ht
      rw [slackOf, if_neg hne, hg.slack_eq, if_neg hnot]
    · obtain rfl := (stacked_cons.mp hq).resolve_right stacked_nil
      exact hpath
  rcases dropDeleted_cases seeds e path with ⟨_, heq⟩ | ⟨hc, _, heq⟩ | ⟨hc, _, heq⟩
  · rw [heq]
    exact h
  · rw [heq]
    exact hrelease hc
  · rw [heq]
    exact (hrelease hc).enqueue hpath none

theorem upholds_incrementalSeeds (hg : g.Settled) (hf : g.Firm deleted spared firm)
    (modified : List String) :
    (∀ q ∈ (g.incrementalSeeds modified deleted).1, firm q → g.Touched modified deleted q) ∧
    Sound (g.slack deleted) (g.incrementalSeeds modified deleted).2 ∧
    Upholds g spared firm (g.Touched modified deleted)
      (g.incrementalSeeds modified deleted).2 := by
  obtain ⟨done, seeds, e, hdone, hp, hq, hmem, hedit⟩ := incrementalSeeds_spec
    (Q := fun done e => (∀ D ∈ done, ¬ firm D) →
      Upholds g spared firm (g.Touched modified deleted) e) deleted hg.sound
    (fun path hp hq hdone => (hq fun D hD => hdone D (.tail _ hD)).dropDeleted hg hf hp path hdone)
    fun _ => ⟨rfl, hf.contains, fun p _ edge hedge _ => ⟨edge, hedge, rfl, rfl⟩, nofun⟩
  have hup := hq fun D hD hfirm => hf.not_deleted D hfirm ((hdone D).mp hD)
  have hseed : ∀ q ∈ (g.incrementalSeeds modified deleted).1, firm q →
      g.Touched modified deleted q := by
    intro q hq hfirm
    rcases hp.seeded q ((hmem q).mp hq).1 with hq | hq | ⟨D, hD, ht⟩
    · exact .inl hq
    · exact absurd ((hdone q).mp hq) (hf.not_deleted q hfirm)
    · exact .inr ⟨D, (hdone D).mp hD, ht⟩
  refine ⟨hseed, ?_, ?_⟩ <;> rw [hedit]
  · exact (hp.sound.mono fun p t => Graph.slack_mono (fun D => (hdone D).mp) p t).of_same rfl
      (fun _ _ => rfl) fun _ hl => hl
  · refine { hup with modified := fun q hfirm hm => ?_ }
    rw [OrderedSet.contains_insertMany, Bool.or_eq_true, List.contains_iff_mem] at hm
    exact hm.elim (hup.modified q hfirm) fun hm => hseed q (List.mem_filter.mp hm).1 hfirm

end Edit

-- ---------------------------------------------------------------------------
-- The whole of it
-- ---------------------------------------------------------------------------

variable {σ : Type} {g : Graph} {ctx : Traversal.Context σ} {modified deleted : List String}
  {spared : String → Edge → Prop} {firm : String → Prop}

/-- A traversal that upholds the firm modules: those that are among its tasks, or
were loaded, have been touched. -/
structure Traversal.Upholding (g : Graph) (modified deleted : List String)
    (spared : String → Edge → Prop) (firm : String → Prop) (tasks : List String)
    (t : Traversal σ) : Prop where
  sound : Edit.Sound (g.slack deleted) t.edit
  upholds : Edit.Upholds g spared firm (g.Touched modified deleted) t.edit
  touched : ∀ q, (q ∈ tasks ∨ ∃ result, t.memo.Holds q result) → firm q →
    g.Touched modified deleted q

theorem Traversal.Upholding.process {path : String} {file : LoadedFile} {tasks next : List String}
    {t t' : Traversal σ} (hg : g.Settled) (hf : g.Firm deleted spared firm)
    (h : t.Upholding g modified deleted spared firm (path :: tasks))
    (hspared : ∀ current, ctx.resolve.edges path g.options.platform file.result.dependencies [] =
      .ok current → ∀ edge ∈ g.edges path, spared path edge → Module.keeps current edge)
    (hmemo : ∀ p result, t'.memo.Holds p result → t.memo.Holds p result)
    (hprocess : t.edit.process ctx.resolve false path file = (.ok next, t'.edit)) :
    t'.Upholding g modified deleted spared firm (tasks ++ next) := by
  have hslack : ∀ q, firm q → ∀ p, g.slack deleted p q = 0 := fun q hq p => by
    rw [hg.slack_eq, if_neg (hf.not_deleted q hq)]
  obtain ⟨hp, hsound, hup⟩ := h.upholds.process hf hslack h.sound
    (fun current hedges _ => hspared current hedges) hprocess
  refine ⟨hsound, hup, fun q hq hfirm => ?_⟩
  rcases hq with hq | ⟨result, hq⟩
  · rcases List.mem_append.mp hq with hq | hq
    · exact h.touched q (.inl (.tail _ hq)) hfirm
    · -- what is discovered is not in the graph
      have hl := hp.awaited q hq
      rw [Edit.loading_contains_eq_false.mpr (hsound.apart q (hup.contains q hfirm))] at hl
      cases hl
  · exact h.touched q (.inr ⟨result, hmemo q result hq⟩) hfirm

namespace Graph

variable {host : σ} {d : GraphDelta} {t : Traversal σ}

/-- All tasks of an incremental traversal, in whatever order they are completed:
firm modules are loaded and reported only when they were touched. The edges that
are spared are those that no load of the whole traversal drops. -/
theorem upholding_worked (hg : g.Settled) (hshallow : ctx.shallow = false)
    (hf : g.Firm deleted (fun origin edge =>
      ¬ ctx.resolve.Drops g.options.platform t.memo.Loaded origin edge) firm)
    (h : g.worked ctx modified deleted host = (.ok (), t)) :
    t.Upholding g modified deleted (fun origin edge =>
      ¬ ctx.resolve.Drops g.options.platform t.memo.Loaded origin edge) firm [] := by
  -- what is loaded so far is part of what is loaded in the end
  have hinv : Queue.Invariant (Traversal.accumulator ctx) (fun s => s.memo.Holds)
      fun tasks s => (∀ p result, s.memo.Holds p result → t.memo.Holds p result) →
        s.Upholding g modified deleted (fun origin edge =>
          ¬ ctx.resolve.Drops g.options.platform t.memo.Loaded origin edge) firm tasks := by
    refine Traversal.holding (fun hp hi hsub => ?_) (fun {path _ _} hi hsub => ?_)
      fun {path ts s file next s'} hi hheld hmemo hprocess hsub => ?_
    · have hup := hi hsub
      exact { hup with touched := fun q hq => hup.touched q (hq.imp_left hp.mem_iff.mpr) }
    · have hup := hi fun p result hp => hsub p result (hp.load _)
      refine ⟨hup.sound, hup.upholds, fun q hq => hup.touched q ?_⟩
      rcases hq with hq | ⟨result, hq⟩
      · exact .inl hq
      · refine (LoadMemo.Holds.of_load hq).imp (fun heq => ?_) fun hq => ⟨result, hq⟩
        rw [heq]
        exact .head _
    · have hsame : ∀ p result, s'.memo.Holds p result ↔ s.memo.Holds p result :=
        fun p result => by rw [hmemo]; exact LoadMemo.holds_settle hheld
      have hbefore := fun p result hp => hsub p result ((hsame p result).mpr hp)
      rw [hshallow] at hprocess
      refine (hi hbefore).process hg hf (fun current hedges edge _ hnot => ?_)
        (fun p result => (hsame p result).mp) hprocess
      by_contra hkeeps
      exact hnot ⟨file, current, hbefore path _ hheld, hedges, by simpa using hkeeps⟩
  obtain ⟨hseeds, hsound, hup⟩ := Edit.upholds_incrementalSeeds hg hf modified
  refine Traversal.drain_invariant hinv (fun _ => ⟨hsound, hup, fun q hq => ?_⟩) h fun _ _ hp => hp
  refine hseeds q (hq.resolve_right ?_)
  rintro ⟨result, st, hst, -⟩
  simp [Traversal.ofEdit] at hst

/-- A module that nobody asked for and that keeps a referrer is neither loaded nor
reported as modified. -/
theorem untouched_traverse (hg : g.Settled) (hshallow : ctx.shallow = false)
    (h : g.traverse ctx modified deleted host = (.ok d, t)) {q : String} (hq : g.contains q)
    (hlost : ¬ g.Lost deleted (ctx.resolve.Drops g.options.platform t.memo.Loaded) q)
    (huntouched : ¬ g.Touched modified deleted q) :
    (∀ result, ¬ t.memo.Holds q result) ∧ q ∉ d.modified.map Prod.fst := by
  obtain ⟨start, hworked, hedit, rfl, hmemo⟩ := traverse_ok h
  rw [hmemo] at hlost ⊢
  have hup := upholding_worked hg hshallow (firm_of_not_lost g deleted _) hworked
  refine ⟨fun result hheld => huntouched (hup.touched q (.inr ⟨result, hheld⟩) ⟨hq, hlost⟩),
    fun hmem => ?_⟩
  rw [deltaOf, mem_map_withModules, List.mem_filter, OrderedSet.mem_toList, hedit] at hmem
  have hcollected : start.edit.collectCycles.modified = start.edit.modified :=
    Edit.collectCycles_preserves (P := fun e => e.modified = start.edit.modified)
      (fun hu hm => by rw [hu.account]; exact hm)
      (fun _ hm => (Edit.modified_forget _).trans hm) rfl
  rw [hcollected] at hmem
  exact huntouched (hup.upholds.modified q ⟨hq, hlost⟩ hmem.1.1)

end Graph

end BundleGraph
