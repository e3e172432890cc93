import BundleGraph.Proofs.Graph.Weight
import Mathlib.Tactic.Linarith

/-!
# Releasing, step by step

`Releases` is the release of a stack of modules without a bound on its steps,
and `releaseAll_releases` says that the steps `release` allows itself are
enough. At every step the module on top of the stack, when it is still in the
graph, holds just the edges it still has to drop: a module may be on the stack
several times, but its uppermost occurrence comes to an end first, and frees it.
-/

namespace BundleGraph.Edit

/-- Modules to release with the edges they still have to drop. -/
abbrev Stack := List (String × List Edge)

/-- One release after another, until the stack is empty. -/
inductive Releases : Stack → Edit → Edit → Prop
  | done {e} : Releases [] e e
  | free {path stack e e'} :
    (e.graph.contains path → e.graph.edges path = []) →
    Releases stack (e.free path) e' → Releases ((path, []) :: stack) e e'
  | keep {path edge edges stack e e'} :
    (e.graph.contains path → e.graph.edges path = edge :: edges) →
    (e.detach path edge).1 = false →
    Releases ((path, edges) :: stack) (e.detach path edge).2 e' →
    Releases ((path, edge :: edges) :: stack) e e'
  | push {path edge edges stack e e'} :
    (e.graph.contains path → e.graph.edges path = edge :: edges) →
    (e.detach path edge).1 = true →
    Releases ((edge.target, (e.detach path edge).2.graph.edges edge.target) ::
      (path, edges) :: stack) (e.detach path edge).2 e' →
    Releases ((path, edge :: edges) :: stack) e e'

/-- The uppermost occurrence of every module of a stack lists the edges that the
module has; `above` are the modules further up. -/
def Held (e : Edit) : List String → Stack → Prop
  | _, [] => True
  | above, (path, edges) :: stack =>
    (path ∉ above → e.graph.contains path → e.graph.edges path = edges) ∧
      Held e (path :: above) stack

variable {e e' : Edit} {path : String} {edge : Edge} {edges : List Edge} {stack : Stack}

theorem Held.of_same {above above' : List String} (h : Held e above stack)
    (hsame : ∀ q, q ∉ above' → e'.graph.contains q →
      q ∉ above ∧ e.graph.contains q ∧ e'.graph.edges q = e.graph.edges q) :
    Held e' above' stack := by
  induction stack generalizing above above' with
  | nil => trivial
  | cons f stack ih =>
    obtain ⟨p, rest⟩ := f
    refine ⟨fun hp hc => ?_, ih h.2 fun q hq hc => ?_⟩
    · obtain ⟨habove, hcontains, hedges⟩ := hsame p hp hc
      rw [hedges, h.1 habove hcontains]
    · rw [List.mem_cons, not_or] at hq ⊢
      obtain ⟨habove, hcontains, hedges⟩ := hsame q hq.2 hc
      exact ⟨⟨hq.1, habove⟩, hcontains, hedges⟩

theorem Held.free (h : Held e [] ((path, []) :: stack)) : Held (e.free path) [] stack := by
  refine h.2.of_same fun q _ hc => ?_
  obtain ⟨hq, hcontains⟩ := (contains_free path q).mp hc
  exact ⟨by simpa using Ne.symm hq, hcontains, by rw [edges_free, if_neg hq]⟩

theorem Held.detach (h : Held e [] ((path, edge :: edges) :: stack)) :
    Held (e.detach path edge).2 [] ((path, edges) :: stack) := by
  refine ⟨fun _ hc => ?_, h.2.of_same fun q hq hc => ?_⟩
  · rw [contains_detach] at hc
    rw [edges_detach, if_pos rfl, h.1 List.not_mem_nil hc]
    simp [Module.eraseEdge]
  · rw [contains_detach] at hc
    refine ⟨hq, hc, ?_⟩
    rw [edges_detach, if_neg (by simpa [eq_comm] using hq)]

theorem Held.push (h : Held e [] stack) (path : String) :
    Held e [] ((path, e.graph.edges path) :: stack) :=
  ⟨fun _ _ => rfl, h.of_same fun _ _ hc => ⟨List.not_mem_nil, hc, rfl⟩⟩

-- ---------------------------------------------------------------------------
-- The steps are enough
-- ---------------------------------------------------------------------------

/-- Steps that the modules on a stack take without any other module. -/
def stackCost (stack : Stack) : Nat := (stack.map fun f => 1 + f.2.length).sum

/-- Whether the uppermost module has left the graph already. -/
def isStale (e : Edit) : Stack → Nat
  | [] => 1
  | (path, _) :: _ => if e.graph.contains path then 0 else 1

theorem isStale_le (e : Edit) (stack : Stack) : isStale e stack ≤ 1 := by
  unfold isStale
  split
  · exact Nat.le_refl 1
  · split <;> omega

/-- Every step of an uppermost module in the graph takes an edge or a module out
of it. One that left the graph takes nothing out, but when it puts a module on
the stack, that one is in the graph. -/
def potential (bound : Nat) (stack : Stack) (e : Edit) : Nat :=
  (2 * e.graph.weight + isStale e stack) * (bound + 1) + stackCost stack

theorem potential_lt {bound : Nat} {stack' : Stack}
    (hstep : 2 * e'.graph.weight + isStale e' stack' + 1 ≤ 2 * e.graph.weight + isStale e stack)
    (hcost : stackCost stack' ≤ stackCost stack + bound) :
    potential bound stack' e' < potential bound stack e := by
  have := Nat.mul_le_mul_right (bound + 1) hstep
  rw [Nat.add_mul, Nat.one_mul] at this
  unfold potential
  omega

theorem potential_lt_of_stale {bound : Nat} {stack' : Stack}
    (hweight : e'.graph.weight = e.graph.weight) (hstale : isStale e stack = 1)
    (hcost : stackCost stack' < stackCost stack) :
    potential bound stack' e' < potential bound stack e := by
  have := Nat.mul_le_mul_right (bound + 1)
    (show 2 * e'.graph.weight + isStale e' stack' ≤ 2 * e.graph.weight + isStale e stack by
      have := isStale_le e' stack'
      omega)
  unfold potential
  omega

theorem potential_free {bound : Nat} (h : Held e [] ((path, []) :: stack)) :
    potential bound stack (e.free path) < potential bound ((path, []) :: stack) e := by
  have hcost : stackCost stack < stackCost ((path, []) :: stack) := by simp [stackCost]
  cases hc : e.graph.contains path with
  | true =>
    have hweight := weight_free hc (h.1 List.not_mem_nil hc)
    refine potential_lt ?_ (by omega)
    have := isStale_le (e.free path) stack
    omega
  | false =>
    exact potential_lt_of_stale (weight_free_of_not_contains hc) (by simp [isStale, hc]) hcost

theorem potential_keep {bound : Nat} (h : Held e [] ((path, edge :: edges) :: stack)) :
    potential bound ((path, edges) :: stack) (e.detach path edge).2 <
      potential bound ((path, edge :: edges) :: stack) e := by
  have hcost : stackCost ((path, edges) :: stack) < stackCost ((path, edge :: edges) :: stack) := by
    simp [stackCost]
  cases hc : e.graph.contains path with
  | true =>
    have hweight := weight_detach hc (h.1 List.not_mem_nil hc)
    refine potential_lt ?_ (by omega)
    have := isStale_le (e.detach path edge).2 ((path, edges) :: stack)
    omega
  | false =>
    exact potential_lt_of_stale (weight_detach_of_not_contains hc) (by simp [isStale, hc]) hcost

theorem potential_push {bound : Nat} (hb : e.graph.weight ≤ bound)
    (h : Held e [] ((path, edge :: edges) :: stack)) (hd : (e.detach path edge).1 = true) :
    potential bound ((edge.target, (e.detach path edge).2.graph.edges edge.target) ::
        (path, edges) :: stack) (e.detach path edge).2 <
      potential bound ((path, edge :: edges) :: stack) e := by
  have htarget : (e.detach path edge).2.graph.contains edge.target := by
    rw [contains_detach]
    exact ((fst_detach_iff path edge).mp hd).2.1
  have hlength := Graph.length_edges_lt_weight htarget
  have hstale : isStale (e.detach path edge).2
      ((edge.target, (e.detach path edge).2.graph.edges edge.target) :: (path, edges) :: stack) =
        0 := by
    simp only [isStale, htarget, ↓reduceIte]
  have hcost : stackCost ((edge.target, (e.detach path edge).2.graph.edges edge.target) ::
      (path, edges) :: stack) ≤ stackCost ((path, edge :: edges) :: stack) +
        (e.detach path edge).2.graph.weight := by
    simp only [stackCost, List.map_cons, List.sum_cons, List.length_cons]
    omega
  cases hc : e.graph.contains path with
  | true =>
    have hweight := weight_detach hc (h.1 List.not_mem_nil hc)
    exact potential_lt (by rw [hstale]; omega) (by omega)
  | false =>
    have hweight : (e.detach path edge).2.graph.weight = e.graph.weight :=
      weight_detach_of_not_contains hc
    refine potential_lt ?_ (by omega)
    rw [hstale, hweight]
    simp [isStale, hc]

theorem weight_le_of_detach {bound : Nat} (hb : e.graph.weight ≤ bound)
    (h : Held e [] ((path, edge :: edges) :: stack)) :
    (e.detach path edge).2.graph.weight ≤ bound := by
  cases hc : e.graph.contains path with
  | true =>
    have := weight_detach hc (h.1 List.not_mem_nil hc)
    omega
  | false => rwa [weight_detach_of_not_contains hc]

theorem weight_le_of_free {bound : Nat} (hb : e.graph.weight ≤ bound)
    (h : Held e [] ((path, []) :: stack)) : (e.free path).graph.weight ≤ bound := by
  cases hc : e.graph.contains path with
  | true =>
    have := weight_free hc (h.1 List.not_mem_nil hc)
    omega
  | false => rwa [weight_free_of_not_contains hc]

theorem releaseAll_keep (fuel : Nat) (stack : Stack) (h : (e.detach path edge).1 = false) :
    releaseAll (fuel + 1) ((path, edge :: edges) :: stack) e =
      releaseAll fuel ((path, edges) :: stack) (e.detach path edge).2 := by
  rw [releaseAll]
  split
  · rename_i hd; rw [hd]
  · rename_i hd; rw [hd] at h; cases h

theorem releaseAll_push (fuel : Nat) (stack : Stack) (h : (e.detach path edge).1 = true) :
    releaseAll (fuel + 1) ((path, edge :: edges) :: stack) e =
      releaseAll fuel ((edge.target, (e.detach path edge).2.graph.edges edge.target) ::
        (path, edges) :: stack) (e.detach path edge).2 := by
  rw [releaseAll]
  split
  · rename_i hd; rw [hd] at h; cases h
  · rename_i hd; rw [hd]

theorem releaseAll_releases {bound : Nat} (fuel : Nat) (stack : Stack) (e : Edit)
    (hheld : Held e [] stack) (hb : e.graph.weight ≤ bound)
    (hfuel : potential bound stack e ≤ fuel) : Releases stack e (releaseAll fuel stack e) := by
  induction fuel generalizing stack e with
  | zero =>
    cases stack with
    | nil => exact .done
    | cons f stack => simp [potential, stackCost] at hfuel
  | succ fuel ih =>
    match stack with
    | [] => exact .done
    | (path, []) :: stack =>
      have : potential bound stack (e.free path) < potential bound ((path, []) :: stack) e :=
        potential_free hheld
      exact .free (hheld.1 List.not_mem_nil)
        (ih stack (e.free path) hheld.free (weight_le_of_free hb hheld) (by omega))
    | (path, edge :: edges) :: stack =>
      have hweight := weight_le_of_detach hb hheld
      cases hd : (e.detach path edge).1 with
      | false =>
        have : potential bound ((path, edges) :: stack) (e.detach path edge).2 <
            potential bound ((path, edge :: edges) :: stack) e := potential_keep hheld
        refine .keep (hheld.1 List.not_mem_nil) hd ?_
        rw [releaseAll_keep fuel stack hd]
        exact ih _ _ hheld.detach hweight (by omega)
      | true =>
        have := potential_push hb hheld hd
        refine .push (hheld.1 List.not_mem_nil) hd ?_
        rw [releaseAll_push fuel stack hd]
        exact ih _ _ (hheld.detach.push _) hweight (by omega)

theorem release_releases (hp : e.graph.contains path) :
    Releases [(path, e.graph.edges path)] e (e.release path) := by
  rw [release, if_pos hp]
  refine releaseAll_releases _ _ _ ⟨fun _ _ => rfl, trivial⟩ (Nat.le_refl _) ?_
  have hlength := Graph.length_edges_lt_weight hp
  simp only [potential, isStale, hp, ↓reduceIte, stackCost, List.map_cons, List.map_nil,
    List.sum_cons, List.sum_nil, releaseFuel]
  nlinarith

end BundleGraph.Edit
