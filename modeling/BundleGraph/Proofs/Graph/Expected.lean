import BundleGraph.Proofs.Graph.Fresh
import Mathlib.Data.Finset.Card

/-!
# Initial traversals drop nothing

Whatever an initial traversal loads is an entry point, or the target of an edge
that is counted already. So nothing is dropped when its content arrives, and
every task ends with a module whose edges have all been counted. A graph that is
exact and reached in whole is ordered without loss.
-/

namespace BundleGraph

namespace Edit

variable {slack : String → String → Nat} {e e' : Edit} {path : String} {file : LoadedFile}
  {current : List Edge} {tasks next : List String} {resolve : Resolver}

/-- Every task is an entry point, or something refers to it. -/
def Expected (tasks : List String) (e : Edit) : Prop :=
  ∀ q ∈ tasks, e.graph.isEntry q ∨ ∃ p, 0 < e.count q p

theorem Expected.perm {tasks' : List String} (h : Expected tasks e) (hp : tasks.Perm tasks') :
    Expected tasks' e :=
  fun q hq => h q (hp.mem_iff.mpr hq)

/-- Counting edges of a path takes no count away, and what it discovers is the
target of an edge that counts. -/
structure Counting (path : String) (current : List Edge) (e e' : Edit) (next : List String) :
    Prop where
  settings : e'.graph.settings = e.graph.settings
  apart : ∀ p, e'.graph.contains p → e'.loading[p]? = none
  count : ∀ q r, e.count q r ≤ e'.count q r
  next : ∀ q ∈ next, 0 < e'.count q path ∧ q ∈ current.map (·.target)

theorem Counting.add (h : Counting path current e e' next) {edge : Edge} (hedge : edge ∈ current) :
    Counting path current e (e'.addEdge path edge).1
      (next ++ (e'.addEdge path edge).2.toList) where
  settings := (settings_addEdge path edge).trans h.settings
  apart := apart_addEdge h.apart path edge
  count := fun q r => by
    rw [count_addEdge h.apart]
    exact Nat.le_add_right_of_le (h.count q r)
  next := fun q hq => by
    rw [count_addEdge h.apart]
    rcases List.mem_append.mp hq with hq | hq
    · exact ⟨Nat.add_pos_left (h.next q hq).1 _, (h.next q hq).2⟩
    · obtain ⟨rfl, -, -⟩ := snd_addEdge_eq_some.mp (Option.mem_toList.mp hq)
      exact ⟨by simp, List.mem_map.mpr ⟨edge, hedge, rfl⟩⟩

theorem counting_addEdges (path : String) (previous current : List Edge)
    (hapart : ∀ p, e.graph.contains p → e.loading[p]? = none) :
    Counting path current e (e.addEdges false path previous current).1
      (e.addEdges false path previous current).2 := by
  suffices hfold : ∀ (todo : List Edge) (e' : Edit) (next : List String), todo ⊆ current →
      Counting path current e e' next →
      Counting path current e (todo.foldl (addNewEdge false path previous) (e', next)).1
        (todo.foldl (addNewEdge false path previous) (e', next)).2 from
    hfold current e [] (List.Subset.refl _) ⟨rfl, hapart, fun _ _ => Nat.le_refl _, nofun⟩
  intro todo
  induction todo with
  | nil => exact fun e' next _ h => h
  | cons edge todo ih =>
    intro e' next hsub h
    obtain ⟨hedge, hsub⟩ := List.cons_subset.mp hsub
    rw [List.foldl_cons]
    rcases addNewEdge_cases path previous e' next edge with ⟨_, _, heq⟩ | ⟨_, heq⟩
    · rw [heq]
      exact ih e' next hsub h
    · rw [heq]
      exact ih _ _ hsub (h.add hedge)

theorem Pristine.arrives (h : Pristine (path :: tasks) e) (hexpected : Expected (path :: tasks) e)
    (hs : Steady slack e) (hprocess : e.process resolve false path file = (.ok next, e')) :
    ∃ current arrived, resolve.edges path e.graph.options.platform file.result.dependencies [] =
        .ok current ∧ Arrived path file e arrived ∧
      next = (arrived.addEdges false path [] current).2 ∧
      e' = (arrived.addEdges false path [] current).1.setEdges path current := by
  rcases process_cases hs.sound.apart hprocess with
    ⟨_, hl, _, _⟩ | ⟨_, _, hentry, hzero, _⟩ | ⟨current, arrived, hedges, ha, hrest⟩
  · rw [h.loading path List.mem_cons_self] at hl
    cases hl
  · rcases hexpected path List.mem_cons_self with he | ⟨p, hp⟩
    · rw [hentry] at he
      cases he
    · rw [hzero p] at hp
      cases hp
  · have hnone : arrived.graph.edges path = [] := by
      rw [ha.edges, Graph.edges_eq_nil (h.fresh path List.mem_cons_self)]
    have hdrop : arrived.dropEdges path (arrived.graph.edges path) current = arrived := by
      rw [hnone]
      rfl
    rw [hdrop, hnone] at hrest
    rcases hrest with ⟨hgone, _⟩ | ⟨_, hnext, he'⟩
    · rw [(ha.contains path).mpr (.inl rfl)] at hgone
      cases hgone
    · exact ⟨current, arrived, hedges, ha, hnext, he'⟩

/-- What the arrival of a task does to what is known: the path is in the graph,
and what its edges discover, each path once, was not known before. -/
structure Grows (path : String) (e : Edit) (next : List String) (e' : Edit) : Prop where
  contains : ∀ q, e'.graph.contains q ↔ path = q ∨ e.graph.contains q
  loading : ∀ q, path ≠ q ∧ e.loading.contains q ∨ q ∈ next → e'.loading.contains q
  nodup : next.Nodup
  fresh : ∀ q ∈ next, path ≠ q ∧ e.graph.contains q = false ∧ e.loading.contains q = false

theorem Arrived.grows {arrived : Edit} (ha : Arrived path file e arrived) (current : List Edge) :
    Grows path e (arrived.addEdges false path [] current).2
      ((arrived.addEdges false path [] current).1.setEdges path current) := by
  have hd := discovers_addEdges arrived path [] current
  refine
    { contains := fun q => ?_
      loading := fun q hq => ?_
      nodup := hd.nodup
      fresh := fun q hq => ?_ }
  · rw [contains_setEdges, Graph.contains_congr (hd.content q), ha.contains]
  · rw [loading_setEdges]
    exact hd.loading q (hq.imp_left fun hq => (ha.loading q).mpr hq)
  · obtain ⟨hc, hl⟩ := hd.fresh q hq
    rw [← Bool.not_eq_true, ha.contains, not_or, Bool.not_eq_true] at hc
    rw [← Bool.not_eq_true, ha.loading, not_and, Bool.not_eq_true] at hl
    exact ⟨hc.1, hc.2, hl hc.1⟩

theorem Expected.process {arrived : Edit} (h : Expected (path :: tasks) e)
    (ha : Arrived path file e arrived)
    (hc : Counting path current arrived (arrived.addEdges false path [] current).1 next) :
    Expected (tasks ++ next) ((arrived.addEdges false path [] current).1.setEdges path current) := by
  have hsettings := hc.settings.trans ha.settings
  intro q hq
  rw [Graph.isEntry_congr ((settings_setEdges path current).trans hsettings)]
  simp only [count_setEdges]
  rcases List.mem_append.mp hq with hq | hq
  · refine (h q (.tail _ hq)).imp_right fun ⟨p, hp⟩ => ⟨p, ?_⟩
    have hle := hc.count q p
    rw [ha.count] at hle
    exact Nat.lt_of_lt_of_le hp hle
  · exact .inr ⟨path, (hc.next q hq).1⟩

theorem process_error {shallow : Bool} {error : BuildError}
    (h : e.process resolve shallow path file = (.error error, e')) :
    resolve.edges path e.graph.options.platform file.result.dependencies [] = .error error := by
  unfold process at h
  split at h
  · cases h
  · split at h
    · cases h
    · split at h
      · rename_i hedges
        rw [Prod.mk.injEq, Except.error.injEq] at h
        rw [hedges, h.1]
      · dsimp only at h
        split at h <;> cases h

/-- The paths that are neither in the graph nor being loaded. -/
def unknown (paths : Finset String) (e : Edit) : Finset String :=
  paths.filter fun q => !e.graph.contains q && !e.loading.contains q

theorem card_unknown_le (paths : Finset String) (e : Edit) :
    (e.unknown paths).card ≤ paths.card :=
  Finset.card_filter_le _ _

theorem Grows.card_unknown {paths : Finset String} (h : Grows path e next e')
    (hpaths : ∀ q ∈ next, q ∈ paths) :
    (e'.unknown paths).card + next.length ≤ (e.unknown paths).card := by
  have hlength : next.toFinset.card = next.length := List.toFinset_card_of_nodup h.nodup
  have hdisjoint : Disjoint (e'.unknown paths) next.toFinset := by
    refine Finset.disjoint_left.mpr fun q hq hnext => ?_
    have hloading := h.loading q (.inr (List.mem_toFinset.mp hnext))
    simp [unknown, hloading] at hq
  rw [← hlength, ← Finset.card_union_of_disjoint hdisjoint]
  refine Finset.card_le_card fun q hq => ?_
  rcases Finset.mem_union.mp hq with hq | hq
  · simp only [unknown, Finset.mem_filter, Bool.and_eq_true, Bool.not_eq_true'] at hq ⊢
    obtain ⟨hmem, hgraph, hloading⟩ := hq
    rw [← Bool.not_eq_true, h.contains, not_or, Bool.not_eq_true] at hgraph
    refine ⟨hmem, hgraph.2, ?_⟩
    by_contra hnot
    have hstill := h.loading q (.inl ⟨hgraph.1, by simpa using hnot⟩)
    rw [hloading] at hstill
    cases hstill
  · have hnext := List.mem_toFinset.mp hq
    obtain ⟨_, hgraph, hloading⟩ := h.fresh q hnext
    simp [unknown, hpaths q hnext, hgraph, hloading]

end Edit

namespace Graph

variable {g : Graph}

theorem descent_order (children : String → Option (List String))
    (htargets : ∀ p t, t ∈ g.targets p → g.contains t)
    (hentries : ∀ p, g.isEntry p → g.contains p)
    (hchildren : ∀ p, g.contains p → children p = some (g.targets p)) :
    Preorder.Descent children g.entryPoints.toList [] g.order ∧ g.order.Nodup ∧
      ∀ p ∈ g.order, g.contains p := by
  have hbelow : ∀ p, g.contains p → g.adjacency[p]? = some (g.targets p) := by
    intro p hp
    obtain ⟨m, hm⟩ := (OrderedMap.contains_iff _ _).mp hp
    rw [getElem?_adjacency, targets, edges, hm]
    rfl
  have hclosed : ∀ p below, g.contains p → g.adjacency[p]? = some below →
      ∀ c ∈ below, g.contains c := by
    intro p below hp hsome c hc
    rw [hbelow p hp, Option.some.injEq] at hsome
    exact htargets p c (hsome ▸ hc)
  have hstarts : ∀ p ∈ g.entryPoints.toList, g.contains p :=
    fun p hp => hentries p ((OrderedSet.mem_toList _ p).mp hp)
  obtain ⟨visited, hwalk, horder⟩ := Preorder.preorder_spec g.adjacency g.entryPoints.toList
  refine ⟨?_, ?_, (Preorder.preorder_congr (fun _ _ => rfl) hclosed hstarts).2⟩
  · rw [order, horder]
    exact hwalk.descent (fun p hp => (hchildren p hp).trans (hbelow p hp).symm) hclosed hstarts
  · rw [order, horder]
    exact visited.nodup_toList

theorem mem_order (hg : g.Exact) (hall : g.AllReached) (p : String) :
    p ∈ g.order ↔ g.contains p := by
  obtain ⟨hdescent, _, hin⟩ := descent_order
    (fun p => if g.contains p then some (g.targets p) else none)
    (fun _ _ => hg.contains_target) hg.entries fun p hp => if_pos hp
  refine ⟨hin p, fun hp => ?_⟩
  obtain ⟨_, hstarts, hclosed⟩ := hdescent.visits
  obtain ⟨r, hr, hreach⟩ := hall p hp
  induction hreach with
  | refl => exact hstarts r ((OrderedSet.mem_toList _ r).mpr hr) (by simp [hp])
  | tail hrx hs ih =>
    rename_i x y
    have hx := Graph.contains_of_mem_targets hs.1
    rcases hclosed x (ih hx) with hnil | ⟨below, hbelow, hnext⟩
    · cases hnil
    · rw [if_pos hx, Option.some.injEq] at hbelow
      exact hnext y (hbelow ▸ hs.1) (by simp [hs.2])

theorem length_order (hg : g.Exact) (hall : g.AllReached) : g.order.length = g.modules.size := by
  have hnodup := (descent_order (fun p => some (g.targets p)) (fun _ _ => hg.contains_target)
    hg.entries fun _ _ => rfl).2.1
  rw [← OrderedMap.length_keys]
  refine List.Perm.length_eq ((List.perm_ext_iff_of_nodup hnodup g.modules.nodup_keys).mpr ?_)
  exact fun p => (mem_order hg hall p).trans (g.modules.mem_keys p).symm

/-- An initial traversal that works off its tasks succeeds when nothing it came
to is lost. -/
theorem initialTraverse_of_filled {σ : Type} {ctx : Traversal.Context σ} {host : σ}
    {start : Traversal σ} (hempty : g.modules.isEmpty)
    (hfilled : g.filled ctx host = (.ok (), start))
    (hlength : start.edit.graph.order.length = start.edit.graph.modules.size) :
    g.initialTraverse ctx host = (.ok ⟨start.edit.graph.reorder.modules.toList, [], []⟩,
      { start with edit := { start.edit with graph := start.edit.graph.reorder } }) := by
  unfold initialTraverse
  unfold filled seeded blank at hfilled
  simp only [hempty, Bool.not_true, Bool.false_eq_true, if_false, hfilled, hlength, ne_eq,
    not_true_eq_false, decide_false, Bool.and_false]

theorem initialTraverse_of_failed {σ : Type} {ctx : Traversal.Context σ} {host : σ}
    {t : Traversal σ} {error : BuildError} (hempty : g.modules.isEmpty)
    (hfilled : g.filled ctx host = (.error error, t)) :
    g.initialTraverse ctx host = (.error error, t) := by
  unfold initialTraverse
  unfold filled seeded blank at hfilled
  simp only [hempty, Bool.not_true, Bool.false_eq_true, if_false, hfilled]

end Graph

end BundleGraph
