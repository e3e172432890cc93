import BundleGraph.Proofs.Graph.EditViews
import Mathlib.Algebra.BigOperators.Group.Finset.Basic
import Mathlib.Algebra.GroupWithZero.Nat
import Mathlib.Algebra.Order.BigOperators.Group.Finset

/-!
# The weight of a graph

The weight counts modules and edges. It bounds what a release or a walk can
still do, so it is stated as a sum over the paths of the graph.
-/

namespace BundleGraph

namespace Graph

def paths (g : Graph) : Finset String := g.modules.keys.toFinset

theorem mem_paths (g : Graph) (path : String) : path ∈ g.paths ↔ g.contains path := by
  rw [paths, List.mem_toFinset, OrderedMap.mem_keys]
  rfl

theorem paths_congr {g h : Graph} (hc : ∀ q, g.contains q = h.contains q) : g.paths = h.paths := by
  ext q
  rw [mem_paths, mem_paths, hc]

theorem edges_of_get? {g : Graph} {path : String} {m : Module}
    (h : g.modules.get? path = some m) : g.edges path = m.edges := by
  rw [edges, h]

theorem foldAny_add (m : OrderedMap String Module) (f : Module → Nat) :
    m.foldAny (fun n _ m => n + 1 + f m) 0 =
      (m.slots.toList.map fun e => 1 + f e.2.2).sum := by
  rw [OrderedMap.foldAny, Std.TreeMap.foldl_eq_foldl_toList]
  suffices h : ∀ (l : List (String × Nat × Module)) (n : Nat),
      l.foldl (fun a b => a + 1 + f b.2.2) n = n + (l.map fun e => 1 + f e.2.2).sum by
    rw [h, Nat.zero_add]
  intro l
  induction l with
  | nil => intro n; simp
  | cons e rest ih =>
    intro n
    rw [List.foldl_cons, ih, List.map_cons, List.sum_cons]
    omega

theorem weight_eq_sum (g : Graph) : g.weight = ∑ p ∈ g.paths, (1 + (g.edges p).length) := by
  have hmap : g.modules.slots.toList.map (fun e => 1 + e.2.2.edges.length) =
      g.modules.slots.keys.map fun p => 1 + (g.edges p).length := by
    rw [← Std.TreeMap.map_fst_toList_eq_keys, List.map_map]
    refine List.map_congr_left fun e he => ?_
    obtain ⟨p, stamp, m⟩ := e
    have hget : g.modules.get? p = some m := by
      rw [OrderedMap.get?, (Std.TreeMap.mem_toList_iff_getElem?_eq_some).mp he]
      rfl
    simp [edges_of_get? hget]
  rw [weight, foldAny_add, hmap, paths, List.sum_toFinset _ g.modules.nodup_keys]
  exact (g.modules.keys_perm_slots.map _).sum_nat.symm

theorem length_edges_lt_weight {g : Graph} {path : String} (h : g.contains path) :
    (g.edges path).length < g.weight := by
  rw [weight_eq_sum]
  have := Finset.single_le_sum (f := fun p => 1 + (g.edges p).length)
    (fun p _ => Nat.zero_le _) ((g.mem_paths path).mpr h)
  omega

theorem weight_add_edges {g h : Graph} {path : String} (hp : g.contains path)
    (hcontains : ∀ q, h.contains q = g.contains q)
    (hedges : ∀ q, path ≠ q → h.edges q = g.edges q) :
    h.weight + (g.edges path).length = g.weight + (h.edges path).length := by
  rw [weight_eq_sum, weight_eq_sum, paths_congr hcontains]
  have hmem := (g.mem_paths path).mpr hp
  rw [← Finset.add_sum_erase _ _ hmem, ← Finset.add_sum_erase _ _ hmem]
  have hrest : ∑ q ∈ g.paths.erase path, (1 + (h.edges q).length) =
      ∑ q ∈ g.paths.erase path, (1 + (g.edges q).length) :=
    Finset.sum_congr rfl fun q hq => by rw [hedges q (Finset.ne_of_mem_erase hq).symm]
  omega

theorem weight_congr {g h : Graph} (hcontains : ∀ q, h.contains q = g.contains q)
    (hedges : ∀ q, h.edges q = g.edges q) : h.weight = g.weight := by
  rw [weight_eq_sum, weight_eq_sum, paths_congr hcontains]
  exact Finset.sum_congr rfl fun q _ => by rw [hedges q]

end Graph

namespace Edit

variable {e : Edit} {path : String} {edge : Edge} {edges : List Edge}

theorem weight_detach (hp : e.graph.contains path) (hedges : e.graph.edges path = edge :: edges) :
    (e.detach path edge).2.graph.weight + 1 = e.graph.weight := by
  have h := Graph.weight_add_edges (h := (e.detach path edge).2.graph) hp
    (fun q => contains_detach path edge q)
    fun q hq => by rw [edges_detach, if_neg hq]
  rw [edges_detach, if_pos rfl, hedges] at h
  simp only [Module.eraseEdge, List.length_cons, decide_true, List.eraseP_cons_of_pos] at h
  omega

theorem weight_detach_of_not_contains (hp : e.graph.contains path = false) :
    (e.detach path edge).2.graph.weight = e.graph.weight := by
  refine Graph.weight_congr (fun q => contains_detach path edge q) fun q => ?_
  rw [edges_detach]
  split
  · rename_i hq
    subst hq
    rw [Graph.edges_eq_nil hp]
    rfl
  · rfl

theorem weight_free (hp : e.graph.contains path) (hedges : e.graph.edges path = []) :
    (e.free path).graph.weight + 1 = e.graph.weight := by
  rw [Graph.weight_eq_sum, Graph.weight_eq_sum e.graph,
    ← Finset.add_sum_erase _ _ ((e.graph.mem_paths path).mpr hp), hedges]
  have hpaths : (e.free path).graph.paths = e.graph.paths.erase path := by
    ext q
    rw [Graph.mem_paths, contains_free, Finset.mem_erase, Graph.mem_paths]
    exact and_congr_left' ne_comm
  have hsum : ∑ q ∈ e.graph.paths.erase path, (1 + ((e.free path).graph.edges q).length) =
      ∑ q ∈ e.graph.paths.erase path, (1 + (e.graph.edges q).length) :=
    Finset.sum_congr rfl fun q hq => by
      rw [edges_free, if_neg (Finset.ne_of_mem_erase hq).symm]
  rw [hpaths, hsum, List.length_nil]
  omega

theorem weight_free_of_not_contains (hp : e.graph.contains path = false) :
    (e.free path).graph.weight = e.graph.weight := by
  refine Graph.weight_congr (fun q => ?_) fun q => ?_
  · rw [Bool.eq_iff_iff, contains_free]
    refine and_iff_right_of_imp fun hq => ?_
    rintro rfl
    exact Bool.false_ne_true (hp.symm.trans hq)
  · rw [edges_free]
    split
    · rename_i hq
      subst hq
      exact (Graph.edges_eq_nil hp).symm
    · rfl

end Edit

end BundleGraph
