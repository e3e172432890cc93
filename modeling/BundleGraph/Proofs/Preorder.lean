import BundleGraph.Preorder
import BundleGraph.Proofs.InsertionOrder
import Mathlib.Algebra.GroupWithZero.Nat
import Mathlib.Algebra.Order.BigOperators.Group.List
import Mathlib.Algebra.Order.Group.Nat

/-!
# Walks without fuel

`Walk` is the depth-first walk as a relation. The fuel of `preorder` is enough
for it: what is left on the stack, and the children of all nodes not visited
yet, bound the steps to come. Two graphs that agree on what a walk can meet
have the same walks. `Descent` is recursive descent with one list of visited
nodes for all calls; a walk visits the same nodes in the same order.
-/

namespace BundleGraph.Preorder

open Std (TreeMap)

/-- A walk from a stack and the nodes visited so far to all it visits. -/
inductive Walk (graph : Adjacency) : List String → OrderedSet String → OrderedSet String → Prop
  | done (visited : OrderedSet String) : Walk graph [] visited visited
  | skip {node stack visited result} (hvisited : visited.contains node)
      (h : Walk graph stack visited result) : Walk graph (node :: stack) visited result
  | absent {node stack visited result} (hvisited : visited.contains node = false)
      (hnode : graph[node]? = none) (h : Walk graph stack visited result) :
      Walk graph (node :: stack) visited result
  | enter {node stack visited result children} (hvisited : visited.contains node = false)
      (hnode : graph[node]? = some children)
      (h : Walk graph (children ++ stack) (visited.insert node) result) :
      Walk graph (node :: stack) visited result

variable {graph other : Adjacency} {stack : List String} {visited result : OrderedSet String}

theorem Walk.unique {result' : OrderedSet String} (h : Walk graph stack visited result)
    (h' : Walk graph stack visited result') : result = result' := by
  induction h with
  | done => cases h'; rfl
  | skip hvisited _ ih =>
    cases h' with
    | skip _ h' => exact ih h'
    | absent hnot => rw [hvisited] at hnot; cases hnot
    | enter hnot => rw [hvisited] at hnot; cases hnot
  | absent hnot hnode _ ih =>
    cases h' with
    | skip hvisited => rw [hnot] at hvisited; cases hvisited
    | absent _ _ h' => exact ih h'
    | enter _ hsome => rw [hnode] at hsome; cases hsome
  | enter hnot hnode _ ih =>
    cases h' with
    | skip hvisited => rw [hnot] at hvisited; cases hvisited
    | absent _ hnone => rw [hnode] at hnone; cases hnone
    | enter _ hsome h' =>
      rw [hnode] at hsome
      cases hsome
      exact ih h'

/-- Where two graphs agree on a set of nodes closed under children, a walk from
the set is a walk of both, and visits nothing else. -/
theorem Walk.congr {P : String → Prop} (h : Walk graph stack visited result)
    (hagree : ∀ p, P p → other[p]? = graph[p]?)
    (hclosed : ∀ p children, P p → graph[p]? = some children → ∀ c ∈ children, P c)
    (hstack : ∀ p ∈ stack, P p) :
    Walk other stack visited result ∧ ∀ p, result.contains p → visited.contains p ∨ P p := by
  induction h with
  | done => exact ⟨.done _, fun _ hp => .inl hp⟩
  | skip hvisited _ ih =>
    obtain ⟨hw, hr⟩ := ih fun p hp => hstack p (.tail _ hp)
    exact ⟨.skip hvisited hw, hr⟩
  | absent hnot hnode _ ih =>
    obtain ⟨hw, hr⟩ := ih fun p hp => hstack p (.tail _ hp)
    exact ⟨.absent hnot ((hagree _ (hstack _ (.head _))).trans hnode) hw, hr⟩
  | @enter node stack visited result children hnot hnode _ ih =>
    have hP := hstack node (.head _)
    obtain ⟨hw, hr⟩ := ih fun p hp => (List.mem_append.mp hp).elim
      (hclosed node children hP hnode p) fun hp => hstack p (.tail _ hp)
    refine ⟨.enter hnot ((hagree node hP).trans hnode) hw, fun p hp => ?_⟩
    refine (hr p hp).elim (fun hv => ?_) .inr
    rw [OrderedSet.contains_insert, Bool.or_eq_true, decide_eq_true_eq] at hv
    exact hv.elim (fun hp => .inr (hp ▸ hP)) .inl

-- ---------------------------------------------------------------------------
-- Fuel
-- ---------------------------------------------------------------------------

/-- The children of the nodes that are not visited yet. -/
def unvisited (graph : Adjacency) (visited : OrderedSet String) : Nat :=
  (graph.toList.map fun e => if visited.contains e.1 then 0 else e.2.length).sum

theorem unvisited_empty (graph : Adjacency) : unvisited graph ∅ = edgeCount graph := by
  rw [edgeCount, TreeMap.foldl_eq_foldl_toList]
  suffices h : ∀ (l : List (String × List String)) (n : Nat),
      l.foldl (fun n e => n + e.2.length) n =
        n + (l.map fun e => if (∅ : OrderedSet String).contains e.1 then 0 else e.2.length).sum by
    rw [h, Nat.zero_add]
    rfl
  intro l
  induction l with
  | nil => exact fun _ => rfl
  | cons e l ih =>
    intro n
    rw [List.foldl_cons, ih, List.map_cons, List.sum_cons, OrderedSet.contains_empty,
      if_neg Bool.false_ne_true, Nat.add_assoc]

theorem unvisited_insert {node : String} {children : List String}
    (hvisited : visited.contains node = false) (hnode : graph[node]? = some children) :
    unvisited graph (visited.insert node) + children.length ≤ unvisited graph visited := by
  have hmem : (node, children) ∈ graph.toList := TreeMap.mem_toList_iff_getElem?_eq_some.mpr hnode
  unfold unvisited
  generalize graph.toList = l at hmem
  have hle : ∀ e : String × List String,
      (if (visited.insert node).contains e.1 then 0 else e.2.length) ≤
        if visited.contains e.1 then 0 else e.2.length := by
    intro e
    rw [OrderedSet.contains_insert]
    cases visited.contains e.1 <;> simp
    split <;> omega
  induction l with
  | nil => cases hmem
  | cons e l ih =>
    simp only [List.map_cons, List.sum_cons]
    rcases List.mem_cons.mp hmem with rfl | hmem
    · have hrest := List.sum_le_sum fun e (_ : e ∈ l) => hle e
      rw [OrderedSet.contains_insert, hvisited]
      simp only [decide_true, Bool.true_or, if_true, Bool.false_eq_true, if_false]
      omega
    · have := hle e
      have := ih hmem
      omega

theorem walk_spec (graph : Adjacency) (fuel : Nat) (stack : List String)
    (visited : OrderedSet String) (hfuel : stack.length + unvisited graph visited < fuel) :
    Walk graph stack visited (walk graph fuel stack visited) := by
  induction fuel generalizing stack visited with
  | zero => omega
  | succ fuel ih =>
    cases stack with
    | nil => exact .done visited
    | cons node stack =>
      rw [List.length_cons] at hfuel
      unfold walk
      cases hvisited : visited.contains node with
      | true =>
        rw [if_pos rfl]
        exact .skip hvisited (ih _ _ (by omega))
      | false =>
        rw [if_neg Bool.false_ne_true]
        cases hnode : graph[node]? with
        | none => exact .absent hvisited hnode (ih _ _ (by omega))
        | some children =>
          have := unvisited_insert hvisited hnode
          refine .enter hvisited hnode (ih _ _ ?_)
          rw [List.length_append]
          omega

theorem preorder_spec (graph : Adjacency) (starts : List String) :
    ∃ result, Walk graph starts ∅ result ∧ preorder graph starts = result.toList := by
  refine ⟨_, walk_spec graph _ starts ∅ ?_, rfl⟩
  rw [unvisited_empty]
  exact Nat.lt_succ_self _

theorem preorder_congr {P : String → Prop} {starts : List String}
    (hagree : ∀ p, P p → other[p]? = graph[p]?)
    (hclosed : ∀ p children, P p → graph[p]? = some children → ∀ c ∈ children, P c)
    (hstarts : ∀ p ∈ starts, P p) :
    preorder other starts = preorder graph starts ∧ ∀ p ∈ preorder graph starts, P p := by
  obtain ⟨result, hwalk, hresult⟩ := preorder_spec graph starts
  obtain ⟨result', hwalk', hresult'⟩ := preorder_spec other starts
  obtain ⟨hother, hwithin⟩ := hwalk.congr hagree hclosed hstarts
  rw [hresult, hresult', hwalk'.unique hother]
  refine ⟨rfl, fun p hp => (hwithin p ((OrderedSet.mem_toList _ p).mp hp)).resolve_left ?_⟩
  exact Bool.false_ne_true

-- ---------------------------------------------------------------------------
-- Recursive descent
-- ---------------------------------------------------------------------------

/-- Descent into nodes, one after another: a node that was not visited before is
visited, and its children are descended into before the next node is. Nodes
without a list of children are left out. -/
inductive Descent (children : String → Option (List String)) :
    List String → List String → List String → Prop
  | done (visited : List String) : Descent children [] visited visited
  | skip {node nodes visited result} (hvisited : node ∈ visited)
      (h : Descent children nodes visited result) : Descent children (node :: nodes) visited result
  | absent {node nodes visited result} (hvisited : node ∉ visited) (hnode : children node = none)
      (h : Descent children nodes visited result) : Descent children (node :: nodes) visited result
  | enter {node nodes visited below mid result} (hvisited : node ∉ visited)
      (hnode : children node = some below) (hbelow : Descent children below (visited ++ [node]) mid)
      (hrest : Descent children nodes mid result) : Descent children (node :: nodes) visited result

namespace Descent

variable {children : String → Option (List String)} {nodes visited result : List String}

theorem split {rest : List String} (h : Descent children (nodes ++ rest) visited result) :
    ∃ mid, Descent children nodes visited mid ∧ Descent children rest mid result := by
  induction nodes generalizing visited with
  | nil => exact ⟨visited, .done visited, h⟩
  | cons node nodes ih =>
    cases h with
    | skip hvisited h =>
      obtain ⟨mid, hnodes, hrest⟩ := ih h
      exact ⟨mid, .skip hvisited hnodes, hrest⟩
    | absent hvisited hnode h =>
      obtain ⟨mid, hnodes, hrest⟩ := ih h
      exact ⟨mid, .absent hvisited hnode hnodes, hrest⟩
    | enter hvisited hnode hbelow h =>
      obtain ⟨mid, hnodes, hrest⟩ := ih h
      exact ⟨mid, .enter hvisited hnode hbelow hnodes, hrest⟩

/-- Descent forgets no visited node, visits every known node it is sent to, and
with a node its known children. -/
theorem visits (h : Descent children nodes visited result) :
    (∀ p ∈ visited, p ∈ result) ∧ (∀ p ∈ nodes, (children p).isSome → p ∈ result) ∧
      ∀ p ∈ result, p ∈ visited ∨
        ∃ below, children p = some below ∧ ∀ c ∈ below, (children c).isSome → c ∈ result := by
  induction h with
  | done visited => exact ⟨fun _ hp => hp, nofun, fun _ hp => .inl hp⟩
  | skip hvisited _ ih =>
    obtain ⟨hkeeps, hall, hclosed⟩ := ih
    refine ⟨hkeeps, fun p hp hknown => ?_, hclosed⟩
    rcases List.mem_cons.mp hp with rfl | hp
    · exact hkeeps p hvisited
    · exact hall p hp hknown
  | absent _ hnode _ ih =>
    obtain ⟨hkeeps, hall, hclosed⟩ := ih
    refine ⟨hkeeps, fun p hp hknown => ?_, hclosed⟩
    rcases List.mem_cons.mp hp with rfl | hp
    · rw [hnode] at hknown
      cases hknown
    · exact hall p hp hknown
  | @enter node nodes visited below mid result _ hnode _ _ ihbelow ihrest =>
    obtain ⟨hkeeps, hall, hclosed⟩ := ihbelow
    obtain ⟨hkeeps', hall', hclosed'⟩ := ihrest
    refine ⟨fun p hp => hkeeps' p (hkeeps p (List.mem_append_left _ hp)), fun p hp hknown => ?_,
      fun p hp => ?_⟩
    · rcases List.mem_cons.mp hp with rfl | hp
      · exact hkeeps' p (hkeeps p (List.mem_append_right _ (.head _)))
      · exact hall' p hp hknown
    · rcases hclosed' p hp with hp | hp
      · rcases hclosed p hp with hp | ⟨below', hbelow', hin⟩
        · rcases List.mem_append.mp hp with hp | hp
          · exact .inl hp
          · obtain rfl := List.mem_singleton.mp hp
            exact .inr ⟨below, hnode, fun c hc hknown => hkeeps' c (hall c hc hknown)⟩
        · exact .inr ⟨below', hbelow', fun c hc hknown => hkeeps' c (hin c hc hknown)⟩
      · exact .inr hp

theorem unique {result' : List String} (h : Descent children nodes visited result)
    (h' : Descent children nodes visited result') : result = result' := by
  induction h generalizing result' with
  | done =>
    cases h'
    rfl
  | skip hvisited _ ih =>
    cases h' with
    | skip _ h' => exact ih h'
    | absent hnot => exact absurd hvisited hnot
    | enter hnot => exact absurd hvisited hnot
  | absent hnot hnode _ ih =>
    cases h' with
    | skip hvisited => exact absurd hvisited hnot
    | absent _ _ h' => exact ih h'
    | enter _ hsome => cases hnode.symm.trans hsome
  | enter hnot hnode _ _ ihbelow ihrest =>
    cases h' with
    | skip hvisited => exact absurd hvisited hnot
    | absent _ hnone => cases hnode.symm.trans hnone
    | enter _ hsome hbelow hrest =>
      cases hnode.symm.trans hsome
      cases ihbelow hbelow
      exact ihrest hrest

/-- Nodes may come again: by then they are visited, or there is nothing to visit. -/
theorem of_eraseDups (h : Descent children nodes.eraseDups visited result) :
    Descent children nodes visited result := by
  suffices hall : ∀ (nodes seen visited : List String),
      (∀ node ∈ seen, node ∈ visited ∨ children node = none) →
      Descent children (nodes.filter (· ∉ seen)).eraseDups visited result →
      Descent children nodes visited result from
    hall nodes [] visited nofun (by simpa using h)
  intro nodes
  induction nodes with
  | nil =>
    intro seen visited _ h
    simpa using h
  | cons node nodes ih =>
    intro seen visited hseen h
    by_cases hnode : node ∈ seen
    · have hrest := ih seen visited hseen (by simpa [hnode] using h)
      by_cases hvisited : node ∈ visited
      · exact .skip hvisited hrest
      · exact .absent hvisited ((hseen node hnode).resolve_left hvisited) hrest
    · have hfilter : (nodes.filter (· ∉ seen)).filter (fun x => !x == node) =
          nodes.filter (· ∉ node :: seen) := by
        rw [List.filter_filter]
        exact List.filter_congr fun x _ => by by_cases hx : x = node <;> simp [hx]
      rw [List.filter_cons_of_pos (by simpa using hnode), List.eraseDups_cons, hfilter] at h
      cases h with
      | skip hvisited h =>
        refine .skip hvisited (ih (node :: seen) visited ?_ h)
        exact List.forall_mem_cons.mpr ⟨.inl hvisited, hseen⟩
      | absent hvisited hnone h =>
        refine .absent hvisited hnone (ih (node :: seen) visited ?_ h)
        exact List.forall_mem_cons.mpr ⟨.inr hnone, hseen⟩
      | enter hvisited hsome hbelow h =>
        obtain ⟨hkeeps, _, _⟩ := hbelow.visits
        refine .enter hvisited hsome hbelow (ih (node :: seen) _ ?_ h)
        refine List.forall_mem_cons.mpr ⟨.inl (hkeeps node (by simp)), fun x hx => ?_⟩
        exact (hseen x hx).imp_left fun hx => hkeeps x (List.mem_append_left _ hx)

end Descent

theorem Walk.descent {children : String → Option (List String)} {P : String → Prop}
    (h : Walk graph stack visited result) (hagree : ∀ p, P p → children p = graph[p]?)
    (hclosed : ∀ p below, P p → graph[p]? = some below → ∀ c ∈ below, P c)
    (hstack : ∀ p ∈ stack, P p) : Descent children stack visited.toList result.toList := by
  induction h with
  | done visited => exact .done visited.toList
  | skip hvisited _ ih =>
    exact .skip ((OrderedSet.mem_toList _ _).mpr hvisited) (ih fun p hp => hstack p (.tail _ hp))
  | absent hnot hnode _ ih =>
    refine .absent ?_ ((hagree _ (hstack _ (.head _))).trans hnode)
      (ih fun p hp => hstack p (.tail _ hp))
    rw [OrderedSet.mem_toList, hnot]
    exact Bool.false_ne_true
  | @enter node stack visited result below hnot hnode _ ih =>
    have hP := hstack node (.head _)
    have hboth := ih fun p hp => (List.mem_append.mp hp).elim (hclosed node below hP hnode p)
      fun hp => hstack p (.tail _ hp)
    rw [OrderedSet.toList_insert, hnot] at hboth
    obtain ⟨mid, hbelow, hrest⟩ := hboth.split
    refine .enter ?_ ((hagree node hP).trans hnode) hbelow hrest
    rw [OrderedSet.mem_toList, hnot]
    exact Bool.false_ne_true

/-- Whatever is on the stack and was visited before, enough fuel comes to what a
descent into the nodes of the stack does. -/
theorem descent_walk {fuel : Nat} (hfuel : stack.length + unvisited graph visited < fuel) :
    Descent (fun p => graph[p]?) stack visited.toList (walk graph fuel stack visited).toList :=
  (walk_spec graph fuel stack visited hfuel).descent (P := fun _ => True) (fun _ _ => rfl)
    (fun _ _ _ _ _ _ => trivial) fun _ _ => trivial

theorem descent_preorder (graph : Adjacency) (starts : List String) :
    Descent (fun p => graph[p]?) starts [] (preorder graph starts) := by
  have hfuel : starts.length + unvisited graph ∅ < starts.length + edgeCount graph + 1 := by
    rw [unvisited_empty]
    exact Nat.lt_succ_self _
  exact descent_walk hfuel

theorem Descent.known {children : String → Option (List String)} {nodes visited result : List String}
    (h : Descent children nodes visited result) :
    ∀ p ∈ result, p ∈ visited ∨ (children p).isSome := by
  intro p hp
  obtain ⟨_, _, hclosed⟩ := h.visits
  exact (hclosed p hp).imp_right fun ⟨_, hbelow, _⟩ => Option.isSome_iff_exists.mpr ⟨_, hbelow⟩

/-- The pre-order of any finite graph from any starts, be they repeated or unknown, is
that of recursive descent: the loop ends, after no more turns than there are starts and
edges, and has visited the nodes that a descent with one list of visited nodes visits,
each of them once and in the same order. -/
theorem preorder_eq_descent (graph : Adjacency) (starts : List String) :
    (∃ visited, Walk graph starts ∅ visited ∧ visited.toList = preorder graph starts ∧
      ∀ fuel, starts.length + edgeCount graph < fuel → walk graph fuel starts ∅ = visited) ∧
    (∀ order, Descent (fun p => graph[p]?) starts [] order ↔ order = preorder graph starts) ∧
    (preorder graph starts).Nodup ∧ ∀ p ∈ preorder graph starts, graph.contains p := by
  have hdescent := descent_preorder graph starts
  refine ⟨?_, fun order => ⟨fun h => h.unique hdescent, ?_⟩, OrderedSet.nodup_toList _, fun p hp => ?_⟩
  · obtain ⟨visited, hwalk, horder⟩ := preorder_spec graph starts
    refine ⟨visited, hwalk, horder.symm, fun fuel hfuel => ?_⟩
    have henough : starts.length + unvisited graph ∅ < fuel := by rwa [unvisited_empty]
    exact (walk_spec graph fuel starts ∅ henough).unique hwalk
  · rintro rfl
    exact hdescent
  · have hknown := (hdescent.known p hp).resolve_left List.not_mem_nil
    rwa [TreeMap.isSome_getElem?_eq_contains] at hknown

example : preorder (.ofList [("a", ["c", "b", "a"]), ("b", ["c", "d"]), ("c", ["a", "x"]), ("d", [])])
    ["b", "x", "a", "b"] = ["b", "c", "a", "d"] := by decide +kernel

end BundleGraph.Preorder
