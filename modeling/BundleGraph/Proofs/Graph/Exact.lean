import BundleGraph.Proofs.Graph.Drain

/-!
# Exact graphs, and how a traversal starts from one

In a tidy graph no edge is counted twice, and nothing is left over from a
traversal; an exact one is tidy, and counts every edge.
`underway_incrementalSeeds` says that an incremental traversal sets out rightly:
every module that may have to change is among its seeds.
-/

namespace BundleGraph

/-- Nothing is counted that is not there, what is in the graph is there for a
reason, and no possible root is left. -/
structure Graph.Tidy (g : Graph) : Prop where
  count_le : ∀ p t, g.count t p ≤ g.edgeCount p t
  entries : ∀ t, g.isEntry t → g.contains t
  referenced : ∀ t, g.contains t → g.isEntry t ∨ ∃ p, 0 < g.count t p
  no_root : ∀ t, g.possibleRoots.contains t = false
  black : ∀ t, g.contains t → g.color t = .black
  wellFormed : g.WellFormed

/-- Every edge is counted where it leads. -/
structure Graph.Exact (g : Graph) : Prop extends g.Tidy where
  le_count : ∀ p t, g.edgeCount p t ≤ g.count t p

theorem Graph.Tidy.le_count_iff {g : Graph} (hg : g.Tidy) :
    (∀ p t, g.edgeCount p t ≤ g.count t p) ↔
      (∀ p t, t ∈ g.targets p → g.contains t) ∧
        ∀ p t, g.contains t → g.count t p = g.edgeCount p t := by
  constructor
  · intro hle
    refine ⟨fun p t ht => ?_, fun p t _ => Nat.le_antisymm (hg.count_le p t) (hle p t)⟩
    by_contra hc
    have := hle p t
    rw [count_eq_zero (by simpa using hc)] at this
    exact Nat.lt_irrefl 0 (Nat.lt_of_lt_of_le (edgeCount_pos_iff.mpr ht) this)
  · rintro ⟨hdangling, hcount⟩ p t
    rcases Nat.eq_zero_or_pos (g.edgeCount p t) with hzero | hpos
    · rw [hzero]
      exact Nat.zero_le _
    · exact Nat.le_of_eq (hcount p t (hdangling p t (edgeCount_pos_iff.mp hpos))).symm

/-- Every edge leads to a module, and every module counts each edge to it once. -/
def Graph.Consistent (g : Graph) : Prop :=
  ∀ p m, g.modules.get? p = some m → (∀ edge ∈ m.edges, g.contains edge.target) ∧
    ∀ q, m.inverse.count q = (g.targets q).count p

theorem Graph.consistent_iff (g : Graph) :
    g.Consistent ↔ (∀ p t, t ∈ g.targets p → g.contains t) ∧
      ∀ p t, g.contains t → g.count t p = g.edgeCount p t := by
  constructor
  · intro h
    refine ⟨fun p t ht => ?_, fun p t ht => ?_⟩
    · obtain ⟨m, hm⟩ := (contains_iff g p).mp (contains_of_mem_targets ht)
      rw [targets, edges, hm] at ht
      obtain ⟨edge, hedge, rfl⟩ := List.mem_map.mp ht
      exact (h p m hm).1 edge hedge
    · obtain ⟨m, hm⟩ := (contains_iff g t).mp ht
      rw [count, hm]
      exact (h t m hm).2 p
  · rintro ⟨hedges, hcounts⟩ p m hm
    refine ⟨fun edge hedge => hedges p edge.target ?_, fun q => ?_⟩
    · rw [targets, edges, hm]
      exact List.mem_map.mpr ⟨edge, hedge, rfl⟩
    · have hq := hcounts q p ((contains_iff g p).mpr ⟨m, hm⟩)
      rwa [count, hm] at hq

theorem Graph.Exact.contains_target {g : Graph} (hg : g.Exact) {p t : String}
    (ht : t ∈ g.targets p) : g.contains t :=
  (hg.toTidy.le_count_iff.mp hg.le_count).1 p t ht

theorem Graph.Exact.consistent {g : Graph} (hg : g.Exact) : g.Consistent :=
  (consistent_iff g).mpr (hg.toTidy.le_count_iff.mp hg.le_count)

/-- The number of edges from a module to a target that are not counted there. -/
def Graph.gap (g : Graph) (p t : String) : Nat := g.edgeCount p t - g.count t p

theorem Graph.Exact.gap_eq_zero {g : Graph} (hg : g.Exact) (p t : String) : g.gap p t = 0 :=
  Nat.sub_eq_zero_of_le (hg.le_count p t)

theorem Graph.Exact.gap_lt_iff {g : Graph} (hg : g.Exact) {p t : String} :
    g.gap p t < g.edgeCount p t ↔ t ∈ g.targets p := by
  rw [hg.gap_eq_zero, edgeCount_pos_iff]

/-- The edges that may not be counted once some modules were dropped. -/
def Graph.slack (g : Graph) (dropped : List String) (p t : String) : Nat :=
  g.gap p t + if t ∈ dropped then g.edgeCount p t else 0

theorem Graph.Exact.slack_eq {g : Graph} (hg : g.Exact) (dropped : List String) (p t : String) :
    g.slack dropped p t = if t ∈ dropped then g.edgeCount p t else 0 := by
  rw [slack, hg.gap_eq_zero, Nat.zero_add]

theorem Graph.slack_mono {g : Graph} {dropped dropped' : List String}
    (h : ∀ t ∈ dropped, t ∈ dropped') (p t : String) : g.slack dropped p t ≤ g.slack dropped' p t := by
  unfold slack
  by_cases ht : t ∈ dropped
  · rw [if_pos ht, if_pos (h t ht)]
  · rw [if_neg ht]
    exact Nat.le_add_right _ _

namespace Edit

variable {g : Graph} {e : Edit} {path : String} {slack : String → String → Nat}
  {old : String → Prop} {reached : Prop} {modified done : List String} {seeds : OrderedSet String}

theorem ofGraph_count (g : Graph) (t p : String) : ({ graph := g } : Edit).count t p = g.count t p :=
  count_of_not_loading (by simp) p

theorem Sound.ofGraph (hcount : ∀ p t, g.count t p ≤ g.edgeCount p t)
    (hblack : ∀ p, g.contains p → g.color p = .black) (hwf : g.WellFormed) :
    Sound g.gap { graph := g } where
  count_le := fun p t => by rw [ofGraph_count]; exact hcount p t
  le_count := fun p t => by
    rw [ofGraph_count]
    show g.edgeCount p t ≤ g.count t p + (g.edgeCount p t - g.count t p)
    omega
  apart := fun p _ => by simp
  painted := fun p hp => .inl (hblack p hp)
  wellFormed := hwf

theorem Steady.ofTidy (hg : g.Tidy) : Steady g.gap { graph := g } where
  sound := .ofGraph hg.count_le hg.black hg.wellFormed
  referenced := fun t ht =>
    (hg.referenced t ht).imp_right fun ⟨p, hp⟩ => .inr ⟨p, by rwa [ofGraph_count]⟩

section Enqueueing

variable (hc : e.graph.contains path = false) (hl : e.loading[path]? = none)

include hc hl

theorem count_enqueue_none (q r : String) : (e.enqueue path none).count q r = e.count q r := by
  rw [count_enqueue]
  split
  · rename_i hq
    rw [← hq, count_of_not_loading hl, Graph.count_eq_zero hc]
    rfl
  · rfl

theorem Sound.enqueue (hs : Sound slack e) : Sound slack (e.enqueue path none) where
  count_le := fun p t => by
    rw [count_enqueue_none hc hl, graph_enqueue]
    exact hs.count_le p t
  le_count := fun p t => by
    rw [count_enqueue_none hc hl, graph_enqueue]
    exact hs.le_count p t
  apart := fun p hp => by
    rw [graph_enqueue] at hp
    rw [getElem?_loading_enqueue, if_neg]
    · exact hs.apart p hp
    · rintro rfl
      simp [hc] at hp
  painted := by rw [graph_enqueue]; exact hs.painted
  wellFormed := by rw [graph_enqueue]; exact hs.wellFormed

theorem Steady.enqueue (hs : Steady slack e) : Steady slack (e.enqueue path none) where
  sound := hs.sound.enqueue hc hl
  referenced := fun t ht => by
    rw [graph_enqueue] at ht ⊢
    exact (hs.referenced t ht).imp_right
      (Or.imp_right fun ⟨p, hp⟩ => ⟨p, by rwa [count_enqueue_none hc hl]⟩)

end Enqueueing

-- ---------------------------------------------------------------------------
-- Dropping deleted modules
-- ---------------------------------------------------------------------------

/-- Deleted modules dropped so far. Every module with a counted edge to one of
them is among the seeds, and so are the modified ones; no others are. -/
structure Purging (g : Graph) (modified done : List String) (seeds : OrderedSet String)
    (e : Edit) : Prop where
  sound : Sound (g.slack done) e
  settings : e.graph.settings = g.settings
  content : ∀ q, e.graph.contains q → e.graph.content? q = g.content? q
  loading : ∀ q, e.loading.contains q → seeds.contains q ∧ q ∈ done
  gone : ∀ D ∈ done, e.graph.contains D = false
  seeded : ∀ q, seeds.contains q → q ∈ modified ∨ q ∈ done ∨ ∃ D ∈ done, D ∈ g.targets q
  modified : ∀ q ∈ modified, e.graph.contains q → seeds.contains q
  covered : ∀ D ∈ done, ∀ q, g.gap q D < e.graph.edgeCount q D → seeds.contains q

theorem Purging.edgeCount_le (h : Purging g modified done seeds e) (p t : String) :
    e.graph.edgeCount p t ≤ g.edgeCount p t := by
  cases hc : e.graph.contains p with
  | true => rw [Graph.edgeCount_congr (h.content p hc)]
  | false =>
    rw [Graph.edgeCount_eq_zero hc]
    exact Nat.zero_le _

/-- A path that was not dropped counts what is not in the gap. -/
theorem Purging.count_pos (h : Purging g modified done seeds e) {D q : String}
    (hl : e.loading[D]? = none) (hdone : D ∉ done) (hgap : g.gap q D < e.graph.edgeCount q D) :
    0 < e.graph.count D q := by
  have hle := h.sound.le_count q D
  rw [count_of_not_loading hl, Graph.slack, if_neg hdone] at hle
  omega

theorem Purging.not_done (h : Purging g modified done seeds e)
    (hc : e.graph.contains path) : path ∉ done := by
  intro hd
  rw [h.gone path hd] at hc
  cases hc

theorem Purging.slackOf_le (h : Purging g modified done seeds e) (hc : e.graph.contains path)
    (p t : String) : slackOf (g.slack done) path e.graph p t ≤ g.slack (path :: done) p t := by
  rw [slackOf]
  by_cases ht : t = path
  · subst ht
    have := h.edgeCount_le p t
    rw [Graph.slack, Graph.slack, if_neg (h.not_done hc), if_pos List.mem_cons_self, if_pos rfl]
    omega
  · rw [if_neg ht]
    exact Graph.slack_mono (fun _ => .tail _) p t

theorem Purging.skip (h : Purging g modified done seeds e)
    (hc : e.graph.contains path = false) : Purging g modified (path :: done) seeds e :=
  { h with
    sound := h.sound.mono (Graph.slack_mono fun _ => .tail _)
    loading := fun q hq => ⟨(h.loading q hq).1, .tail _ (h.loading q hq).2⟩
    gone := fun D hD => by
      rcases List.mem_cons.mp hD with rfl | hD
      · exact hc
      · exact h.gone D hD
    covered := fun D hD q hq => by
      by_cases hdone : D ∈ done
      · exact h.covered D hdone q hq
      · obtain rfl := (List.mem_cons.mp hD).resolve_right hdone
        -- what is not in the graph counts nothing
        have hl : e.loading[D]? = none :=
          loading_contains_eq_false.mp (Bool.not_eq_true _ ▸ fun hl => hdone (h.loading D hl).2)
        have hpos := h.count_pos hl hdone hq
        rw [Graph.count_eq_zero hc] at hpos
        cases hpos
    seeded := fun q hq => (h.seeded q hq).imp_right
      (Or.imp (.tail _) fun ⟨D, hD, ht⟩ => ⟨D, .tail _ hD, ht⟩) }

/-- Releasing a deleted module. What had an edge to it was counted there, and
joins the seeds; an entry point is to be loaded again. -/
theorem Purging.release {e' : Edit} {seeds' : OrderedSet String}
    (h : Purging g modified done seeds e) (hc : e.graph.contains path)
    (hgraph : e'.graph = (e.release path).graph) (hsound : Sound (g.slack (path :: done)) e')
    (hloading : ∀ q, e'.loading.contains q ↔
      (e.release path).loading.contains q ∨ path = q ∧ e.graph.isEntry path)
    (hseeds : ∀ q, seeds'.contains q ↔ path ≠ q ∧ seeds.contains q ∨
      0 < e.graph.count path q ∨ path = q ∧ e.graph.isEntry path) :
    Purging g modified (path :: done) seeds' e' := by
  have hreleases := release_releases hc
  have hgone : (e.release path).graph.contains path = false :=
    hreleases.freed (stacked_cons.mpr (.inl rfl))
  have hcontent : ∀ q, (e.release path).graph.contains q →
      (e.release path).graph.content? q = e.graph.content? q := fun q => hreleases.content
  have hkept : ∀ q, (e.release path).graph.contains q → seeds.contains q →
      seeds'.contains q := by
    intro q hq hs
    refine (hseeds q).mpr (.inl ⟨?_, hs⟩)
    rintro rfl
    simp [hgone] at hq
  refine
    { sound := hsound
      settings := by rw [hgraph, hreleases.settings_eq, h.settings]
      content := fun q hq => ?_
      loading := fun q hq => ?_
      gone := fun D hD => ?_
      seeded := fun q hq => ?_
      modified := fun q hq hcq => ?_
      covered := fun D hD q hq => ?_ }
  · rw [hgraph] at hq ⊢
    rw [hcontent q hq, h.content q (hreleases.contains hq)]
  · rcases (hloading q).mp hq with hl | ⟨rfl, he⟩
    · have hq := hreleases.loading hl
      refine ⟨(hseeds q).mpr (.inl ⟨?_, (h.loading q hq).1⟩), .tail _ (h.loading q hq).2⟩
      rintro rfl
      rw [loading_contains_eq_false.mpr (h.sound.apart path hc)] at hq
      cases hq
    · exact ⟨(hseeds path).mpr (.inr (.inr ⟨rfl, he⟩)), List.mem_cons_self⟩
  · rw [hgraph]
    rcases List.mem_cons.mp hD with rfl | hD
    · exact hgone
    · rw [← Bool.not_eq_true]
      intro hcD
      have := hreleases.contains hcD
      simp [h.gone D hD] at this
  · rcases (hseeds q).mp hq with ⟨_, hq⟩ | hcount | ⟨rfl, _⟩
    · exact (h.seeded q hq).imp_right
        (Or.imp (.tail _) fun ⟨D, hD, ht⟩ => ⟨D, .tail _ hD, ht⟩)
    · refine .inr (.inr ⟨path, .head _, Graph.edgeCount_pos_iff.mp ?_⟩)
      have hle := h.sound.count_le q path
      rw [count_of_not_loading (h.sound.apart path hc)] at hle
      have := h.edgeCount_le q path
      omega
    · exact .inr (.inl (.head _))
  · rw [hgraph] at hcq
    exact hkept q hcq (h.modified q hq (hreleases.contains hcq))
  · rw [hgraph] at hq
    have hcq := Graph.contains_of_mem_targets
      (Graph.edgeCount_pos_iff.mp (Nat.zero_lt_of_lt hq))
    rw [Graph.edgeCount_congr (hcontent q hcq)] at hq
    rcases List.mem_cons.mp hD with rfl | hD
    · exact (hseeds q).mpr (.inr (.inl (h.count_pos (h.sound.apart D hc) (h.not_done hc) hq)))
    · exact hkept q hcq (h.covered D hD q hq)

theorem dropDeleted_cases (seeds : OrderedSet String) (e : Edit) (path : String) :
    (e.graph.contains path = false ∧ Graph.dropDeleted (seeds, e) path = (seeds, e)) ∨
    (e.graph.contains path ∧ e.graph.isEntry path = false ∧
      (Graph.dropDeleted (seeds, e) path).2 = e.release path) ∨
    (e.graph.contains path ∧ e.graph.isEntry path ∧
      (Graph.dropDeleted (seeds, e) path).2 = (e.release path).enqueue path none) := by
  unfold Graph.dropDeleted
  dsimp only
  cases hm : e.graph.modules.get? path with
  | none => exact .inl ⟨Graph.contains_eq_false_iff.mpr hm, rfl⟩
  | some m =>
    have hc : e.graph.contains path := (Graph.contains_iff _ _).mpr ⟨m, hm⟩
    have hentry := Graph.isEntry_congr (release_releases hc).settings_eq path
    refine .inr ?_
    dsimp only
    rw [hentry]
    cases he : e.graph.isEntry path with
    | false => exact .inl ⟨hc, rfl, rfl⟩
    | true => exact .inr ⟨hc, rfl, rfl⟩

theorem gone_release (hc : e.graph.contains path) (hl : e.loading[path]? = none) :
    (e.release path).graph.contains path = false ∧ (e.release path).loading[path]? = none := by
  have hreleases := release_releases hc
  exact ⟨hreleases.freed (stacked_cons.mpr (.inl rfl)), hreleases.loading_none hl⟩

theorem Purging.dropDeleted (h : Purging g modified done seeds e) (path : String) :
    Purging g modified (path :: done) (Graph.dropDeleted (seeds, e) path).1
      (Graph.dropDeleted (seeds, e) path).2 := by
  unfold Graph.dropDeleted
  dsimp only
  cases hm : e.graph.modules.get? path with
  | none => exact h.skip (Graph.contains_eq_false_iff.mpr hm)
  | some m =>
    have hc : e.graph.contains path := (Graph.contains_iff _ _).mpr ⟨m, hm⟩
    have hcount : ∀ q, q ∈ m.inverse.toList ↔ 0 < e.graph.count path q := by
      intro q
      rw [← CountingSet.count_pos_iff_mem, Graph.count, hm]
    have hreleases := release_releases hc
    have hsound := (h.sound.release hc).mono (h.slackOf_le hc)
    have hentry := Graph.isEntry_congr hreleases.settings_eq path
    obtain ⟨hgone, hl⟩ := gone_release hc (h.sound.apart path hc)
    dsimp only
    rw [hentry]
    split
    · rename_i he
      refine h.release hc (graph_enqueue path none) (hsound.enqueue hgone hl)
        (fun q => ?_) fun q => ?_
      · rw [loading_contains_enqueue, or_comm, he]
        simp
      · rw [OrderedSet.contains_insert, OrderedSet.contains_insertMany, OrderedSet.contains_erase]
        simp [hcount, he, or_comm, or_assoc]
    · rename_i he
      refine h.release hc rfl hsound (fun q => by simp [he]) fun q => ?_
      rw [OrderedSet.contains_insertMany, OrderedSet.contains_erase]
      simp [hcount, he]

theorem purging_foldl {Q : List String → Edit → Prop} (deleted : List String)
    (hstep : ∀ {done seeds e} (path : String), Purging g modified done seeds e → Q done e →
      Q (path :: done) (Graph.dropDeleted (seeds, e) path).2)
    (h : Purging g modified [] seeds e) (hq : Q [] e) :
    ∃ done, (∀ D, D ∈ done ↔ D ∈ deleted) ∧
      Purging g modified done (deleted.foldl Graph.dropDeleted (seeds, e)).1
        (deleted.foldl Graph.dropDeleted (seeds, e)).2 ∧
      Q done (deleted.foldl Graph.dropDeleted (seeds, e)).2 := by
  suffices hfold : ∀ (todo done : List String) (state : OrderedSet String × Edit),
      Purging g modified done state.1 state.2 → Q done state.2 →
      ∃ done', (∀ D, D ∈ done' ↔ D ∈ done ∨ D ∈ todo) ∧
        Purging g modified done' (todo.foldl Graph.dropDeleted state).1
          (todo.foldl Graph.dropDeleted state).2 ∧
        Q done' (todo.foldl Graph.dropDeleted state).2 by
    obtain ⟨done, hdone, hp⟩ := hfold deleted [] (seeds, e) h hq
    exact ⟨done, fun D => (hdone D).trans (or_iff_right List.not_mem_nil), hp⟩
  intro todo
  induction todo with
  | nil => exact fun done state h hq => ⟨done, fun D => (or_iff_left List.not_mem_nil).symm, h, hq⟩
  | cons path todo ih =>
    intro done state h hq
    obtain ⟨done', hdone, hp⟩ := ih (path :: done) _ (h.dropDeleted path) (hstep path h hq)
    refine ⟨done', fun D => ?_, hp⟩
    rw [hdone, List.mem_cons, List.mem_cons, or_assoc, or_left_comm]

theorem purging_nil (hs : Sound g.gap { graph := g }) (modified : List String) :
    Purging g modified [] (.ofList (modified.filter g.contains)) { graph := g } where
  sound := hs.mono fun _ _ => Nat.le_add_right _ _
  settings := rfl
  content := fun _ _ => rfl
  loading := fun q hq => by simp at hq
  gone := nofun
  modified := fun q hq hc => by
    rw [OrderedSet.contains_ofList, List.contains_iff_mem]
    exact List.mem_filter.mpr ⟨hq, hc⟩
  covered := nofun
  seeded := fun q hq => by
    rw [OrderedSet.contains_ofList, List.contains_iff_mem] at hq
    exact .inl (List.mem_filter.mp hq).1

/-- What an incremental traversal sets out from: the deleted modules are dropped,
and the seeds that are still in the graph are reported as modified. -/
theorem incrementalSeeds_spec {Q : List String → Edit → Prop} (deleted : List String)
    (hs : Sound g.gap { graph := g })
    (hstep : ∀ {done seeds e} (path : String), Purging g modified done seeds e → Q done e →
      Q (path :: done) (Graph.dropDeleted (seeds, e) path).2)
    (hq : Q [] { graph := g }) :
    ∃ done seeds e, (∀ D, D ∈ done ↔ D ∈ deleted) ∧ Purging g modified done seeds e ∧ Q done e ∧
      (∀ q, q ∈ (g.incrementalSeeds modified deleted).1 ↔ seeds.contains q ∧
        (e.graph.contains q ∨ e.loading.contains q)) ∧
      (g.incrementalSeeds modified deleted).2 =
        { e with modified := (e.modified.insertMany
            ((g.incrementalSeeds modified deleted).1.filter e.graph.contains)) } := by
  obtain ⟨done, hdone, hp, hq⟩ := purging_foldl deleted hstep (purging_nil hs modified) hq
  unfold Graph.incrementalSeeds
  dsimp only
  generalize deleted.foldl Graph.dropDeleted (.ofList (modified.filter g.contains), { graph := g }) =
    state at hp hq ⊢
  refine ⟨done, state.1, state.2, hdone, hp, hq, fun q => ?_, rfl⟩
  rw [List.mem_filter, OrderedSet.mem_toList, Bool.or_eq_true]

/-- What an incremental traversal of a tidy graph keeps true while it drops the
deleted modules. -/
structure Clearing (g : Graph) (old : String → Prop) (reached : Prop) (done : List String)
    (e : Edit) : Prop where
  steady : Steady (g.slack done) e
  entries : ∀ q, e.graph.isEntry q → e.graph.contains q ∨ e.loading.contains q
  marked : reached → Marked (fun _ => False) e
  reported : Reported old e

theorem Clearing.dropDeleted (h : Clearing g old reached done e)
    (hp : Purging g modified done seeds e) (path : String) :
    Clearing g old reached (path :: done) (Graph.dropDeleted (seeds, e) path).2 := by
  rcases dropDeleted_cases seeds e path with ⟨hc, heq⟩ | ⟨hc, he, heq⟩ | ⟨hc, he, heq⟩
  · rw [heq]
    exact
      { h with
        steady := ⟨h.steady.sound.mono (Graph.slack_mono fun _ => .tail _), h.steady.referenced⟩ }
  all_goals
    have hreleases := release_releases hc
    have hrelease := h.steady.release hc
    have hsteady : Steady (g.slack (path :: done)) (e.release path) :=
      ⟨hrelease.sound.mono (hp.slackOf_le hc), hrelease.referenced⟩
    have hmarked := fun hr => (h.marked hr).release h.steady hc
    have hreported := hreleases.reported h.reported
    have hentries : ∀ q, path ≠ q → (e.release path).graph.isEntry q →
        (e.release path).graph.contains q ∨ (e.release path).loading.contains q := by
      intro q hne hq
      rw [Graph.isEntry_congr hreleases.settings_eq] at hq
      have hstack : ¬ Stacked [(path, e.graph.edges path)] q := by simp [hne]
      exact (h.entries q hq).imp (hreleases.keeps_entry hq hstack)
        (hreleases.keeps_loading hstack)
    rw [heq]
  · refine ⟨hsteady, fun q hq => hentries q ?_ hq, hmarked, hreported⟩
    rintro rfl
    rw [Graph.isEntry_congr hreleases.settings_eq, he] at hq
    cases hq
  · obtain ⟨hgone, hl⟩ := gone_release hc (hp.sound.apart path hc)
    refine ⟨hsteady.enqueue hgone hl, fun q hq => ?_, fun hr => ?_,
      hreported.enqueue none hgone (loading_contains_eq_false.mpr hl)⟩
    · rw [graph_enqueue] at hq ⊢
      rw [loading_contains_enqueue]
      by_cases hne : path = q
      · exact .inr (.inl hne)
      · exact (hentries q hne hq).imp_right .inr
    · exact (hmarked hr).of_same (fun q => by rw [graph_enqueue]) (by rw [graph_enqueue])
        (by rw [graph_enqueue])

theorem clearing_nil (hg : g.Tidy) (hold : ∀ t, old t → g.contains t)
    (hreached : reached → g.AllReached) : Clearing g old reached [] { graph := g } where
  steady :=
    ⟨(Steady.ofTidy hg).sound.mono fun _ _ => Nat.le_add_right _ _,
      (Steady.ofTidy hg).referenced⟩
  entries := fun q hq => .inl (hg.entries q hq)
  marked := fun hr t ht => by
    obtain ⟨r, hentry, hreach⟩ := hreached hr t ht
    exact ⟨r, .inl hentry, hg.entries r hentry, hreach⟩
  reported := by
    refine ⟨fun t ht hc => ?_, fun t _ => rfl⟩
    rw [hold t ht] at hc
    cases hc

theorem underway_incrementalSeeds {deleted : List String} (hg : g.Tidy) (a : Aim)
    (hsettings : g.settings = a.settings)
    (hslack : ∀ p t, g.slack deleted p t ≤ a.slack p t)
    (hold : ∀ t, a.old t → g.contains t) (hreached : a.reached → g.AllReached)
    (hok : ∀ q m, g.content? q = some m → a.ok m ∨ q ∈ modified ∨ q ∈ deleted ∨
      ∃ D ∈ deleted, g.gap q D < g.edgeCount q D) :
    Underway a (g.incrementalSeeds modified deleted).1 (g.incrementalSeeds modified deleted).2 := by
  obtain ⟨done, seeds, e, hdone, hp, hclear, hmem, hedit⟩ := incrementalSeeds_spec
    (Q := Clearing g a.old a.reached) deleted (Steady.ofTidy hg).sound
    (fun path hp hclear => hclear.dropDeleted hp path) (clearing_nil hg hold hreached)
  rw [hedit]
  have hsteady : Steady a.slack e := by
    refine ⟨hp.sound.mono fun p t => Nat.le_trans ?_ (hslack p t), hclear.steady.referenced⟩
    exact Graph.slack_mono (fun D => (hdone D).mp) p t
  refine
    { steady := hsteady.of_same rfl (fun _ _ => rfl) fun _ hq => hq
      settings := hp.settings.trans hsettings
      loading := fun q hq => (hmem q).mpr ⟨(hp.loading q hq).1, .inr hq⟩
      entries := hclear.entries
      ok := fun q m hm => ?_
      marked := fun hr => (hclear.marked hr).of_same (fun _ => rfl) rfl rfl
      reported := hclear.reported.of_same (fun _ hq => .inl hq) (fun _ hq => .inr hq) rfl rfl }
  have hc := Graph.contains_of_content? hm
  have hcontent := hp.content q hc
  rcases hok q m (by rw [← hcontent]; exact hm) with hm | hq | hq | ⟨D, hD, hedge⟩
  · exact .inl hm
  · exact .inr ((hmem q).mpr ⟨hp.modified q hq hc, .inl hc⟩)
  · rw [hp.gone q ((hdone q).mpr hq)] at hc
    cases hc
  · refine .inr ((hmem q).mpr ⟨hp.covered D ((hdone D).mpr hD) q ?_, .inl hc⟩)
    rwa [Graph.edgeCount_congr hcontent]

end Edit

end BundleGraph
