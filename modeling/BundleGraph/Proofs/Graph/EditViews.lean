import BundleGraph.Graph.Traversal
import BundleGraph.Proofs.Graph.References

/-!
# What an edit holds, looked at from outside

The views of a graph, with the referrers of modules that are being loaded. Each
operation on an edit is described by what it does to the views.
-/

namespace BundleGraph.Edit

/-- How often a path counts a referrer, in the graph or while it is loaded. -/
def count (e : Edit) (path referrer : String) : Nat :=
  match e.loading[path]? with
  | some inverse => inverse.count referrer
  | none => e.graph.count path referrer

variable {e : Edit}

theorem count_of_loading {path : String} {inverse : CountingSet String}
    (h : e.loading[path]? = some inverse) (referrer : String) :
    e.count path referrer = inverse.count referrer := by
  rw [count, h]

theorem count_of_not_loading {path : String} (h : e.loading[path]? = none) (referrer : String) :
    e.count path referrer = e.graph.count path referrer := by
  rw [count, h]

theorem loading_contains_iff (path : String) :
    e.loading.contains path ↔ ∃ inverse, e.loading[path]? = some inverse := by
  rw [Std.TreeMap.contains_eq_isSome_getElem?, Option.isSome_iff_exists]

theorem loading_contains_eq_false {path : String} :
    e.loading.contains path = false ↔ e.loading[path]? = none := by
  rw [Std.TreeMap.contains_eq_isSome_getElem?, Option.isSome_eq_false_iff, Option.isNone_iff_eq_none]

-- ---------------------------------------------------------------------------
-- Operations on the graph alone
-- ---------------------------------------------------------------------------

@[simp] theorem graph_setColor (path : String) (c : Color) :
    (e.setColor path c).graph = e.graph.setColor path c := rfl

@[simp] theorem graph_addReferrer (path referrer : String) :
    (e.addReferrer path referrer).graph = e.graph.addReferrer path referrer := rfl

@[simp] theorem graph_deleteReferrer (path referrer : String) :
    (e.deleteReferrer path referrer).graph = e.graph.deleteReferrer path referrer := rfl

@[simp] theorem loading_setColor (path : String) (c : Color) :
    (e.setColor path c).loading = e.loading := rfl

@[simp] theorem loading_addReferrer (path referrer : String) :
    (e.addReferrer path referrer).loading = e.loading := rfl

@[simp] theorem loading_deleteReferrer (path referrer : String) :
    (e.deleteReferrer path referrer).loading = e.loading := rfl

@[simp] theorem loading_eraseEdge (parent key : String) :
    (e.eraseEdge parent key).loading = e.loading := rfl

@[simp] theorem isEntry_eraseEdge (parent key q : String) :
    (e.eraseEdge parent key).graph.isEntry q = e.graph.isEntry q := rfl

@[simp] theorem settings_eraseEdge (parent key : String) :
    (e.eraseEdge parent key).graph.settings = e.graph.settings := rfl

@[simp] theorem color_eraseEdge (parent key q : String) :
    (e.eraseEdge parent key).graph.color q = e.graph.color q := rfl

@[simp] theorem possibleRoots_eraseEdge (parent key : String) :
    (e.eraseEdge parent key).graph.possibleRoots = e.graph.possibleRoots := rfl

-- ---------------------------------------------------------------------------
-- Erasing an edge
-- ---------------------------------------------------------------------------

theorem content?_eraseEdge (parent key q : String) :
    (e.eraseEdge parent key).graph.content? q =
      if parent = q then
        (e.graph.content? q).map fun m => { m with edges := Module.eraseEdge m.edges key }
      else e.graph.content? q := by
  unfold eraseEdge Graph.content?
  rw [Graph.get?_modify]
  split
  · rw [Option.map_map, Option.map_map]
    rfl
  · rfl

@[simp] theorem graph_count_eraseEdge (parent key q r : String) :
    (e.eraseEdge parent key).graph.count q r = e.graph.count q r :=
  Graph.count_modify_of_inverse
    (f := fun m => { m with edges := Module.eraseEdge m.edges key }) (fun _ => rfl) parent q r

@[simp] theorem contains_eraseEdge (parent key q : String) :
    (e.eraseEdge parent key).graph.contains q = e.graph.contains q :=
  Graph.contains_modify parent _ q

-- ---------------------------------------------------------------------------
-- Marking a possible root
-- ---------------------------------------------------------------------------

@[simp] theorem content?_markPossibleRoot (path q : String) :
    (e.markPossibleRoot path).graph.content? q = e.graph.content? q := by
  unfold markPossibleRoot
  split <;> rfl

@[simp] theorem graph_count_markPossibleRoot (path q r : String) :
    (e.markPossibleRoot path).graph.count q r = e.graph.count q r := by
  unfold markPossibleRoot
  split <;> rfl

@[simp] theorem loading_markPossibleRoot (path : String) :
    (e.markPossibleRoot path).loading = e.loading := by
  unfold markPossibleRoot
  split <;> rfl

@[simp] theorem isEntry_markPossibleRoot (path q : String) :
    (e.markPossibleRoot path).graph.isEntry q = e.graph.isEntry q := by
  unfold markPossibleRoot
  split <;> rfl

@[simp] theorem settings_markPossibleRoot (path : String) :
    (e.markPossibleRoot path).graph.settings = e.graph.settings := by
  unfold markPossibleRoot
  split <;> rfl

theorem color_markPossibleRoot (path q : String) :
    (e.markPossibleRoot path).graph.color q = if path = q then .purple else e.graph.color q := by
  unfold markPossibleRoot
  split
  · rename_i h
    by_cases hq : path = q
    · rw [if_pos hq, ← hq, h]
    · rw [if_neg hq]
  · exact Graph.color_setColor path .purple q

theorem possibleRoots_markPossibleRoot (path q : String) :
    (e.markPossibleRoot path).graph.possibleRoots.contains q =
      (e.graph.possibleRoots.contains q || decide (path = q ∧ e.graph.color path ≠ .purple)) := by
  unfold markPossibleRoot
  split
  · rename_i h
    simp [h]
  · rename_i h
    simp only [Graph.possibleRoots_setColor, OrderedSet.contains_insert, ne_eq, h,
      not_false_eq_true, and_true]
    rw [Bool.or_comm]

-- ---------------------------------------------------------------------------
-- Taking an edge away
-- ---------------------------------------------------------------------------

/-- The four ways in which an edge is taken away: its target is being loaded, or
unknown, or lost its last referrer, or has another one left. -/
theorem detach_cases (e : Edit) (parent : String) (edge : Edge) :
    (∃ inverse, e.loading[edge.target]? = some inverse ∧
      e.detach parent edge = (false, { e.eraseEdge parent edge.key with
        loading := e.loading.insert edge.target (inverse.delete parent) })) ∨
    (e.loading[edge.target]? = none ∧ e.graph.contains edge.target = false ∧
      e.detach parent edge = (false, e.eraseEdge parent edge.key)) ∨
    (e.loading[edge.target]? = none ∧ e.graph.contains edge.target ∧
      e.graph.isEntry edge.target = false ∧
      ((e.eraseEdge parent edge.key).deleteReferrer edge.target parent).graph.isUnreferenced
        edge.target ∧
      e.detach parent edge =
        (true, (e.eraseEdge parent edge.key).deleteReferrer edge.target parent)) ∨
    (e.loading[edge.target]? = none ∧ e.graph.contains edge.target ∧
      (((e.eraseEdge parent edge.key).deleteReferrer edge.target parent).graph.isUnreferenced
        edge.target = false ∨ e.graph.isEntry edge.target) ∧
      e.detach parent edge = (false,
        ((e.eraseEdge parent edge.key).deleteReferrer edge.target parent).markPossibleRoot
          edge.target)) := by
  have hload : (e.eraseEdge parent edge.key).loading = e.loading := rfl
  unfold detach
  simp only [hload, contains_eraseEdge]
  cases hl : e.loading[edge.target]? with
  | some inverse => exact .inl ⟨inverse, rfl, rfl⟩
  | none =>
    refine .inr ?_
    cases hc : e.graph.contains edge.target with
    | false => exact .inl ⟨rfl, rfl, rfl⟩
    | true =>
      refine .inr ?_
      have hentry : ((e.eraseEdge parent edge.key).deleteReferrer edge.target parent).graph.isEntry
          edge.target = e.graph.isEntry edge.target := rfl
      rw [hentry]
      cases hu : ((e.eraseEdge parent edge.key).deleteReferrer edge.target parent).graph.isUnreferenced
          edge.target with
      | false => exact .inr ⟨rfl, rfl, .inl rfl, rfl⟩
      | true =>
        cases he : e.graph.isEntry edge.target with
        | false => exact .inl ⟨rfl, rfl, rfl, rfl, rfl⟩
        | true => exact .inr ⟨rfl, rfl, .inr rfl, rfl⟩

theorem detach_account (path : String) (edge : Edge) : (e.detach path edge).2 =
    { e with graph := (e.detach path edge).2.graph, loading := (e.detach path edge).2.loading } := by
  have hmark : ∀ (e : Edit) (q : String), e.markPossibleRoot q =
      { e with graph := (e.markPossibleRoot q).graph } := by
    intro e q
    unfold markPossibleRoot
    split <;> rfl
  rcases e.detach_cases path edge with ⟨_, _, h⟩ | ⟨_, _, h⟩ | ⟨_, _, _, _, h⟩ | ⟨_, _, _, h⟩
  · rw [h]; rfl
  · rw [h]; rfl
  · rw [h]; rfl
  · rw [h]
    dsimp only
    rw [loading_markPossibleRoot]
    exact hmark _ _

theorem content?_detach (parent : String) (edge : Edge) (q : String) :
    (e.detach parent edge).2.graph.content? q =
      if parent = q then
        (e.graph.content? q).map fun m => { m with edges := Module.eraseEdge m.edges edge.key }
      else e.graph.content? q := by
  rw [← content?_eraseEdge]
  rcases e.detach_cases parent edge with ⟨_, _, h⟩ | ⟨_, _, h⟩ | ⟨_, _, _, _, h⟩ | ⟨_, _, _, h⟩ <;>
    simp [h, deleteReferrer]

@[simp] theorem contains_detach (parent : String) (edge : Edge) (q : String) :
    (e.detach parent edge).2.graph.contains q = e.graph.contains q := by
  rw [Bool.eq_iff_iff, Graph.contains_iff_content?, Graph.contains_iff_content?, content?_detach]
  split <;> simp

theorem edges_detach (parent : String) (edge : Edge) (q : String) :
    (e.detach parent edge).2.graph.edges q =
      if parent = q then Module.eraseEdge (e.graph.edges q) edge.key else e.graph.edges q := by
  rw [Graph.edges_eq, content?_detach, Graph.edges_eq]
  split
  · cases e.graph.content? q <;> rfl
  · rfl

@[simp] theorem isEntry_detach (parent : String) (edge : Edge) (q : String) :
    (e.detach parent edge).2.graph.isEntry q = e.graph.isEntry q := by
  rcases e.detach_cases parent edge with ⟨_, _, h⟩ | ⟨_, _, h⟩ | ⟨_, _, _, _, h⟩ | ⟨_, _, _, h⟩ <;>
    simp [h, deleteReferrer]

@[simp] theorem settings_detach (parent : String) (edge : Edge) :
    (e.detach parent edge).2.graph.settings = e.graph.settings := by
  rcases e.detach_cases parent edge with ⟨_, _, h⟩ | ⟨_, _, h⟩ | ⟨_, _, _, _, h⟩ | ⟨_, _, _, h⟩ <;>
    simp [h, deleteReferrer]

@[simp] theorem loading_contains_detach (parent : String) (edge : Edge) (q : String) :
    (e.detach parent edge).2.loading.contains q = e.loading.contains q := by
  rcases e.detach_cases parent edge with ⟨_, hl, h⟩ | ⟨_, _, h⟩ | ⟨_, _, _, _, h⟩ | ⟨_, _, _, h⟩
  · rw [h]
    simp only [Std.TreeMap.contains_insert]
    by_cases hq : edge.target = q
    · subst hq
      simp [(loading_contains_iff edge.target).mpr ⟨_, hl⟩]
    · simp [hq]
  all_goals rw [h]; simp

theorem count_detach (parent : String) (edge : Edge) (q r : String) :
    (e.detach parent edge).2.count q r =
      e.count q r - if edge.target = q ∧ parent = r then 1 else 0 := by
  rcases e.detach_cases parent edge with
    ⟨inverse, hl, h⟩ | ⟨hl, hc, h⟩ | ⟨hl, _, _, _, h⟩ | ⟨hl, _, _, h⟩
  · rw [h]
    unfold count
    simp only [Std.TreeMap.getElem?_insert, Std.LawfulEqOrd.compare_eq_iff_eq,
      graph_count_eraseEdge]
    by_cases hq : edge.target = q
    · subst hq
      simp [hl, CountingSet.count_delete]
    · simp [hq]
  · have hsame : (e.eraseEdge parent edge.key).count q r = e.count q r := by simp [count]
    rw [h, hsame]
    by_cases hq : edge.target = q
    · subst hq
      rw [count_of_not_loading hl, Graph.count_eq_zero hc, Nat.zero_sub]
    · simp [hq]
  all_goals
    rw [h]
    unfold count
    simp only [loading_markPossibleRoot, graph_count_markPossibleRoot, loading_deleteReferrer,
      loading_eraseEdge, graph_deleteReferrer, Graph.count_deleteReferrer, graph_count_eraseEdge]
    cases hlq : e.loading[q]? with
    | some inverse =>
      have hq : edge.target ≠ q := fun hq => by simp [← hq, hl] at hlq
      simp [hq]
    | none => rfl

/-- The target of an edge has to be released when it is in the graph, no entry
point, and counted no more. -/
theorem fst_detach_iff (parent : String) (edge : Edge) :
    (e.detach parent edge).1 ↔ e.loading[edge.target]? = none ∧ e.graph.contains edge.target ∧
      e.graph.isEntry edge.target = false ∧
      ∀ r, (e.detach parent edge).2.count edge.target r = 0 := by
  rcases e.detach_cases parent edge with
    ⟨inverse, hl, h⟩ | ⟨hl, hc, h⟩ | ⟨hl, hc, he, hu, h⟩ | ⟨hl, hc, hu, h⟩
  · simp [h, hl]
  · simp [h, hc]
  · simp only [h, hl, hc, he, true_and, true_iff]
    intro r
    rw [count_of_not_loading (by simpa using hl)]
    exact (Graph.isUnreferenced_iff _ _).mp hu r
  · simp only [h, Bool.false_eq_true, hl, hc, true_and, false_iff, not_and]
    intro he hcount
    rcases hu with hu | hu
    · refine Bool.false_ne_true (hu.symm.trans ((Graph.isUnreferenced_iff _ _).mpr fun r => ?_))
      have := hcount r
      rwa [count_of_not_loading (by simpa using hl), graph_count_markPossibleRoot] at this
    · exact Bool.false_ne_true (he.symm.trans hu)

/-- The target of an edge is marked when it is in the graph and stays there. -/
def Marks (e : Edit) (parent : String) (edge : Edge) : Prop :=
  e.loading[edge.target]? = none ∧ e.graph.contains edge.target ∧ (e.detach parent edge).1 = false

theorem color_detach (parent : String) (edge : Edge) (q : String) :
    (e.detach parent edge).2.graph.color q = .purple ∧ edge.target = q ∧ e.Marks parent edge ∨
      (e.detach parent edge).2.graph.color q = e.graph.color q ∧
        ¬ (edge.target = q ∧ e.Marks parent edge) := by
  unfold Marks
  rcases e.detach_cases parent edge with
    ⟨inverse, hl, h⟩ | ⟨hl, hc, h⟩ | ⟨hl, hc, _, _, h⟩ | ⟨hl, hc, _, h⟩
  · exact .inr ⟨by rw [h]; rfl, by simp [hl]⟩
  · exact .inr ⟨by rw [h]; rfl, by simp [hc]⟩
  · exact .inr ⟨by rw [h]; rfl, by simp [h]⟩
  · rw [h]
    simp only [color_markPossibleRoot, hl, hc, and_true]
    by_cases hq : edge.target = q
    · exact .inl ⟨if_pos hq, hq⟩
    · exact .inr ⟨if_neg hq, hq⟩

theorem possibleRoots_detach (parent : String) (edge : Edge) (q : String) :
    (e.detach parent edge).2.graph.possibleRoots.contains q ↔
      e.graph.possibleRoots.contains q ∨
        edge.target = q ∧ e.Marks parent edge ∧ e.graph.color q ≠ .purple := by
  unfold Marks
  rcases e.detach_cases parent edge with
    ⟨inverse, hl, h⟩ | ⟨hl, hc, h⟩ | ⟨hl, hc, _, _, h⟩ | ⟨hl, hc, _, h⟩
  · simp [h, hl]
  · simp [h, hc]
  · simp [h]
  · simp only [h, possibleRoots_markPossibleRoot, hl, hc, true_and, Bool.or_eq_true,
      decide_eq_true_eq]
    refine or_congr Iff.rfl ⟨?_, ?_⟩
    · rintro ⟨rfl, hcolor⟩; exact ⟨rfl, hcolor⟩
    · rintro ⟨rfl, hcolor⟩; exact ⟨rfl, hcolor⟩

-- ---------------------------------------------------------------------------
-- Freeing a module
-- ---------------------------------------------------------------------------

@[simp] theorem graph_forget (path : String) : (e.forget path).graph = e.graph := by
  unfold forget
  split <;> rfl

@[simp] theorem loading_forget (path : String) :
    (e.forget path).loading = e.loading.erase path := by
  unfold forget
  split <;> rfl

@[simp] theorem loading_free (path : String) : (e.free path).loading = e.loading.erase path :=
  loading_forget path

@[simp] theorem isEntry_free (path q : String) :
    (e.free path).graph.isEntry q = e.graph.isEntry q := by
  simp [free, Graph.isEntry]

@[simp] theorem settings_free (path : String) :
    (e.free path).graph.settings = e.graph.settings := by
  simp [free, Graph.settings]

theorem get?_free (path q : String) :
    (e.free path).graph.modules.get? q = if path = q then none else e.graph.modules.get? q := by
  simp [free, OrderedMap.get?_erase]

theorem content?_free (path q : String) :
    (e.free path).graph.content? q = if path = q then none else e.graph.content? q := by
  unfold Graph.content?
  rw [get?_free]
  split <;> rfl

theorem contains_free (path q : String) :
    (e.free path).graph.contains q ↔ path ≠ q ∧ e.graph.contains q := by
  rw [Graph.contains_iff_content?, Graph.contains_iff_content?, content?_free]
  split <;> simp_all

theorem edges_free (path q : String) :
    (e.free path).graph.edges q = if path = q then [] else e.graph.edges q := by
  rw [Graph.edges_eq, content?_free, Graph.edges_eq]
  split <;> rfl

theorem getElem?_erase_loading (path q : String) :
    (e.loading.erase path)[q]? = if path = q then none else e.loading[q]? := by
  simp only [Std.TreeMap.getElem?_erase, Std.LawfulEqOrd.compare_eq_iff_eq]

theorem graph_count_free (path q r : String) :
    (e.free path).graph.count q r = if path = q then 0 else e.graph.count q r := by
  unfold Graph.count
  rw [get?_free]
  by_cases hq : path = q <;> simp [hq]

theorem count_free (path q r : String) :
    (e.free path).count q r = if path = q then 0 else e.count q r := by
  unfold count
  rw [loading_free, getElem?_erase_loading, graph_count_free]
  by_cases hq : path = q <;> simp [hq]

theorem color_free (path q : String) :
    (e.free path).graph.color q = if path = q then .black else e.graph.color q := by
  simp only [free, graph_forget, Graph.color, Std.TreeMap.getD_erase,
    Std.LawfulEqOrd.compare_eq_iff_eq]

theorem possibleRoots_free (path q : String) :
    (e.free path).graph.possibleRoots.contains q ↔
      path ≠ q ∧ e.graph.possibleRoots.contains q := by
  simp [free, OrderedSet.contains_erase]

-- ---------------------------------------------------------------------------
-- Discovering a module
-- ---------------------------------------------------------------------------

@[simp] theorem graph_enqueue (path : String) (referrer : Option String) :
    (e.enqueue path referrer).graph = e.graph := by
  unfold enqueue
  split <;> rfl

theorem getElem?_loading_enqueue (path : String) (referrer : Option String) (q : String) :
    (e.enqueue path referrer).loading[q]? =
      if path = q then some (.ofList referrer.toList) else e.loading[q]? := by
  unfold enqueue
  split <;> simp only [Std.TreeMap.getElem?_insert, Std.LawfulEqOrd.compare_eq_iff_eq]

@[simp] theorem loading_contains_enqueue (path : String) (referrer : Option String) (q : String) :
    (e.enqueue path referrer).loading.contains q ↔ path = q ∨ e.loading.contains q := by
  rw [loading_contains_iff, loading_contains_iff, getElem?_loading_enqueue]
  by_cases hq : path = q <;> simp [hq]

theorem count_enqueue (path : String) (referrer : Option String) (q r : String) :
    (e.enqueue path referrer).count q r =
      if path = q then referrer.toList.count r else e.count q r := by
  unfold count
  rw [getElem?_loading_enqueue, graph_enqueue]
  by_cases hq : path = q <;> simp [hq]

/-- A new edge is counted at its target: in the graph, among the modules being
loaded, or by discovering the target. -/
theorem addEdge_cases (e : Edit) (parent : String) (edge : Edge) :
    (e.graph.contains edge.target ∧
      e.addEdge parent edge =
        ((e.addReferrer edge.target parent).setColor edge.target .black, none)) ∨
    (e.graph.contains edge.target = false ∧ ∃ inverse, e.loading[edge.target]? = some inverse ∧
      e.addEdge parent edge =
        ({ e with loading := e.loading.insert edge.target (inverse.add parent) }, none)) ∨
    (e.graph.contains edge.target = false ∧ e.loading[edge.target]? = none ∧
      e.addEdge parent edge = (e.enqueue edge.target (some parent), some edge.target)) := by
  cases hc : e.graph.contains edge.target with
  | true => exact .inl ⟨rfl, by simp [addEdge, hc]⟩
  | false =>
    cases hl : e.loading[edge.target]? with
    | some inverse => exact .inr (.inl ⟨rfl, inverse, rfl, by simp [addEdge, hc, hl]⟩)
    | none => exact .inr (.inr ⟨rfl, rfl, by simp [addEdge, hc, hl]⟩)

@[simp] theorem content?_addEdge (parent : String) (edge : Edge) (q : String) :
    (e.addEdge parent edge).1.graph.content? q = e.graph.content? q := by
  rcases e.addEdge_cases parent edge with ⟨_, h⟩ | ⟨_, _, _, h⟩ | ⟨_, _, h⟩ <;> simp [h]

@[simp] theorem isEntry_addEdge (parent : String) (edge : Edge) (q : String) :
    (e.addEdge parent edge).1.graph.isEntry q = e.graph.isEntry q := by
  rcases e.addEdge_cases parent edge with ⟨_, h⟩ | ⟨_, _, _, h⟩ | ⟨_, _, h⟩ <;> simp [h]

@[simp] theorem settings_addEdge (parent : String) (edge : Edge) :
    (e.addEdge parent edge).1.graph.settings = e.graph.settings := by
  rcases e.addEdge_cases parent edge with ⟨_, h⟩ | ⟨_, _, _, h⟩ | ⟨_, _, h⟩ <;> simp [h]

@[simp] theorem possibleRoots_addEdge (parent : String) (edge : Edge) :
    (e.addEdge parent edge).1.graph.possibleRoots = e.graph.possibleRoots := by
  rcases e.addEdge_cases parent edge with ⟨_, h⟩ | ⟨_, _, _, h⟩ | ⟨_, _, h⟩ <;> simp [h]

theorem color_addEdge (parent : String) (edge : Edge) (q : String) :
    (e.addEdge parent edge).1.graph.color q =
      if edge.target = q ∧ e.graph.contains q then .black else e.graph.color q := by
  rcases e.addEdge_cases parent edge with ⟨hc, h⟩ | ⟨hc, _, _, h⟩ | ⟨hc, _, h⟩
  · rw [h]
    simp only [graph_setColor, Graph.color_setColor, graph_addReferrer, Graph.color_addReferrer]
    by_cases hq : edge.target = q
    · subst hq; simp [hc]
    · simp [hq]
  all_goals
    rw [h]
    by_cases hq : edge.target = q
    · subst hq; simp [hc]
    · simp [hq]

theorem loading_contains_addEdge (parent : String) (edge : Edge) (q : String) :
    (e.addEdge parent edge).1.loading.contains q ↔
      e.loading.contains q ∨ (e.addEdge parent edge).2 = some q := by
  rcases e.addEdge_cases parent edge with ⟨hc, h⟩ | ⟨hc, _, hl, h⟩ | ⟨hc, hl, h⟩
  · simp [h]
  · rw [h]
    simp only [Std.TreeMap.contains_insert, Bool.or_eq_true, reduceCtorEq, or_false,
      beq_iff_eq, Std.LawfulEqOrd.compare_eq_iff_eq]
    constructor
    · rintro (rfl | hq)
      · exact (loading_contains_iff _).mpr ⟨_, hl⟩
      · exact hq
    · exact .inr
  · rw [h, loading_contains_iff, loading_contains_iff]
    simp only [getElem?_loading_enqueue, Option.some.injEq]
    by_cases hq : edge.target = q <;> simp [hq]

theorem snd_addEdge_eq_some {parent : String} {edge : Edge} {q : String} :
    (e.addEdge parent edge).2 = some q ↔ edge.target = q ∧
      e.graph.contains q = false ∧ e.loading[q]? = none := by
  rcases e.addEdge_cases parent edge with ⟨hc, h⟩ | ⟨hc, _, hl, h⟩ | ⟨hc, hl, h⟩
  · simp only [h, reduceCtorEq, false_iff]
    rintro ⟨rfl, hf, _⟩
    simp [hc] at hf
  · simp only [h, reduceCtorEq, false_iff]
    rintro ⟨rfl, _, hf⟩
    simp [hl] at hf
  · simp only [h, Option.some.injEq]
    constructor
    · rintro rfl; exact ⟨rfl, hc, hl⟩
    · exact And.left

theorem count_addEdge (hapart : ∀ p, e.graph.contains p → e.loading[p]? = none)
    (parent : String) (edge : Edge) (q r : String) :
    (e.addEdge parent edge).1.count q r =
      e.count q r + if edge.target = q ∧ parent = r then 1 else 0 := by
  rcases e.addEdge_cases parent edge with ⟨hc, h⟩ | ⟨hc, inverse, hl, h⟩ | ⟨hc, hl, h⟩
  · rw [h]
    unfold count
    simp only [loading_setColor, loading_addReferrer, graph_setColor, graph_addReferrer,
      Graph.count_setColor, Graph.count_addReferrer hc]
    cases hlq : e.loading[q]? with
    | some inverse =>
      have hq : edge.target ≠ q := fun hq => by simp [← hq, hapart _ hc] at hlq
      simp [hq]
    | none => rfl
  · rw [h]
    unfold count
    simp only [Std.TreeMap.getElem?_insert, Std.LawfulEqOrd.compare_eq_iff_eq]
    by_cases hq : edge.target = q
    · subst hq
      simp [hl, CountingSet.count_add]
    · simp [hq]
  · rw [h, count_enqueue]
    by_cases hq : edge.target = q
    · subst hq
      have hzero : e.count edge.target r = 0 := by
        rw [count_of_not_loading hl, Graph.count_eq_zero hc]
      simp [hzero, List.count_cons]
    · simp [hq]

end BundleGraph.Edit
