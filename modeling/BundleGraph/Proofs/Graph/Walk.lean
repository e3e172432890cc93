import BundleGraph.Proofs.Graph.Sound

/-!
# Walks of the collector

Every walk of the collector enters a module at most once, which is seen from
its color. So the modules of a color that are left, with their edges, bound the
steps of a walk: its visits pay for what they enter. `followFrom_invariant` is an
induction over a walk in which the fuel does not appear.
-/

namespace BundleGraph

namespace Graph

/-- Modules of some colors, with their edges. -/
def left (P : Color → Bool) (g : Graph) : Nat :=
  ∑ p ∈ g.paths with P (g.color p), (1 + (g.targets p).length)

variable {P : Color → Bool} {g h : Graph}

theorem length_targets (g : Graph) (path : String) :
    (g.targets path).length = (g.edges path).length := by
  rw [targets, List.length_map]

theorem left_le_weight (P : Color → Bool) (g : Graph) : g.left P ≤ g.weight := by
  rw [left, weight_eq_sum]
  simp only [length_targets]
  exact Finset.sum_le_sum_of_subset (Finset.filter_subset _ _)

theorem left_le (hleft : ∀ p, h.contains p → P (h.color p) →
      g.contains p ∧ P (g.color p) ∧ h.targets p = g.targets p) : h.left P ≤ g.left P := by
  unfold left
  have hmem : ∀ p ∈ h.paths.filter fun p => P (h.color p),
      p ∈ (g.paths.filter fun p => P (g.color p)) ∧ h.targets p = g.targets p := by
    intro p hp
    rw [Finset.mem_filter, mem_paths] at hp
    obtain ⟨hc, hcolor, htargets⟩ := hleft p hp.1 hp.2
    exact ⟨Finset.mem_filter.mpr ⟨(g.mem_paths p).mpr hc, hcolor⟩, htargets⟩
  rw [Finset.sum_congr rfl fun p hp => by rw [(hmem p hp).2]]
  exact Finset.sum_le_sum_of_subset fun p hp => (hmem p hp).1

theorem left_lt {child : String} (hchild : g.contains child) (hcolor : P (g.color child))
    (hleft : ∀ p, h.contains p → P (h.color p) →
      p ≠ child ∧ g.contains p ∧ P (g.color p) ∧ h.targets p = g.targets p) :
    h.left P + (1 + (g.targets child).length) ≤ g.left P := by
  have hmem : child ∈ g.paths.filter fun p => P (g.color p) :=
    Finset.mem_filter.mpr ⟨(g.mem_paths child).mpr hchild, hcolor⟩
  rw [left, left, ← Finset.add_sum_erase _ _ hmem, Nat.add_comm]
  refine Nat.add_le_add_left ?_ _
  have hsub : ∀ p ∈ h.paths.filter fun p => P (h.color p),
      p ∈ (g.paths.filter fun p => P (g.color p)).erase child ∧ h.targets p = g.targets p := by
    intro p hp
    rw [Finset.mem_filter, mem_paths] at hp
    obtain ⟨hne, hc, hcolor, htargets⟩ := hleft p hp.1 hp.2
    exact ⟨Finset.mem_erase.mpr
      ⟨hne, Finset.mem_filter.mpr ⟨(g.mem_paths p).mpr hc, hcolor⟩⟩, htargets⟩
  rw [Finset.sum_congr rfl fun p hp => by rw [(hsub p hp).2]]
  exact Finset.sum_le_sum_of_subset fun p hp => (hsub p hp).1

theorem left_repaint {child : String} (color : Color) (hchild : g.contains child)
    (hold : P (g.color child)) (hnew : P color = false)
    (hcontains : ∀ p, h.contains p = g.contains p) (htargets : ∀ p, h.targets p = g.targets p)
    (hcolor : ∀ p, h.color p = if child = p then color else g.color p) :
    h.left P + (1 + (h.targets child).length) ≤ g.left P := by
  rw [htargets]
  refine left_lt hchild hold fun p hp hcolored => ?_
  rw [hcontains] at hp
  rw [hcolor] at hcolored
  split at hcolored
  · rw [hnew] at hcolored
    cases hcolored
  · rename_i hne
    exact ⟨Ne.symm hne, hp, hcolored, htargets p⟩

end Graph

namespace Edit

variable {visit : String → String → Edit → Bool × Edit} {leave : String → Edit → Edit}

/-- Steps that a trail takes if nothing more is entered. -/
def trailCost (trail : Trail) : Nat := (trail.map fun f => 1 + f.2.length).sum

/-- How often a module still has to visit a target. -/
def pending (trail : Trail) (path target : String) : Nat :=
  (trail.map fun f => if f.1 = path then f.2.count target else 0).sum

@[simp] theorem pending_nil (path target : String) : pending [] path target = 0 := rfl

theorem pending_cons (p : String) (rest : List String) (trail : Trail) (path target : String) :
    pending ((p, rest) :: trail) path target =
      (if p = path then rest.count target else 0) + pending trail path target := rfl

theorem pending_visit (p child : String) (rest : List String) (trail : Trail)
    (path target : String) :
    pending ((p, child :: rest) :: trail) path target =
      pending ((p, rest) :: trail) path target +
        if p = path ∧ child = target then 1 else 0 := by
  simp only [pending_cons, List.count_cons]
  by_cases hp : p = path
  · by_cases hc : child = target
    · simp only [hp, hc, ↓reduceIte, beq_self_eq_true, and_self]
      omega
    · simp [hp, hc]
  · simp [hp]

theorem pending_leave (p : String) (trail : Trail) (path target : String) :
    pending ((p, []) :: trail) path target = pending trail path target := by
  simp [pending_cons]

theorem pending_eq_zero {trail : Trail} {path : String} (h : ∀ f ∈ trail, f.1 ≠ path)
    (target : String) : pending trail path target = 0 := by
  induction trail with
  | nil => rfl
  | cons f trail ih =>
    rw [pending_cons, if_neg (h f List.mem_cons_self), ih fun f hf => h f (.tail _ hf)]

theorem follow_preserves {P : Edit → Prop} (hleave : ∀ {path e}, P e → P (leave path e))
    (hvisit : ∀ {path child e}, P e → P (visit path child e).2) (fuel : Nat) (trail : Trail)
    (e : Edit) (h : P e) : P (follow visit leave fuel trail e) := by
  induction fuel generalizing trail e with
  | zero => exact h
  | succ fuel ih =>
    match trail with
    | [] => exact h
    | (path, []) :: trail => exact ih trail _ (hleave h)
    | (path, child :: rest) :: trail =>
      have hafter : P (visit path child e).2 := hvisit h
      rw [follow]
      split
      · split
        · rename_i hv; rw [hv] at hafter; exact ih _ _ hafter
        · rename_i hv; rw [hv] at hafter; exact ih _ _ hafter
      · exact ih _ _ h

/-- What is left after a visit, with the module that is entered. -/
def leftAfter (C : Color → Bool) (child : String) : Bool × Edit → Nat
  | (true, e) => e.graph.left C + (1 + (e.graph.targets child).length)
  | (false, e) => e.graph.left C

/-- Visits leave no more modules of the colors than there were, and fewer by the
ones that they enter. -/
def Pays (C : Color → Bool) (visit : String → String → Edit → Bool × Edit) : Prop :=
  ∀ path child e, e.graph.contains child → leftAfter C child (visit path child e) ≤ e.graph.left C

theorem follow_invariant {P : Trail → Edit → Prop} {C : Color → Bool} (hpays : Pays C visit)
    (hspares : ∀ path e, (leave path e).graph.left C ≤ e.graph.left C)
    (hleave : ∀ {path trail e}, P ((path, []) :: trail) e → P trail (leave path e))
    (habsent : ∀ {path child rest trail e}, e.graph.contains child = false →
      P ((path, child :: rest) :: trail) e → P ((path, rest) :: trail) e)
    (hpass : ∀ {path child rest trail e}, e.graph.contains child →
      (visit path child e).1 = false → P ((path, child :: rest) :: trail) e →
      P ((path, rest) :: trail) (visit path child e).2)
    (henter : ∀ {path child rest trail e}, e.graph.contains child →
      (visit path child e).1 = true → P ((path, child :: rest) :: trail) e →
      P ((child, (visit path child e).2.graph.targets child) :: (path, rest) :: trail)
        (visit path child e).2)
    (fuel : Nat) (trail : Trail) (e : Edit) (h : P trail e)
    (hfuel : e.graph.left C + trailCost trail ≤ fuel) :
    P [] (follow visit leave fuel trail e) := by
  induction fuel generalizing trail e with
  | zero =>
    cases trail with
    | nil => exact h
    | cons f trail => simp [trailCost] at hfuel
  | succ fuel ih =>
    match trail with
    | [] => exact h
    | (path, []) :: trail =>
      have hle := hspares path e
      refine ih trail (leave path e) (hleave h) ?_
      simp only [trailCost, List.map_cons, List.sum_cons, List.length_nil] at hfuel ⊢
      omega
    | (path, child :: rest) :: trail =>
      simp only [trailCost, List.map_cons, List.sum_cons, List.length_cons] at hfuel
      rw [follow]
      cases hc : e.graph.contains child with
      | false =>
        refine ih _ e (habsent hc h) ?_
        simp only [trailCost, List.map_cons, List.sum_cons]
        omega
      | true =>
        have hpaid := hpays path child e hc
        cases hv : visit path child e with
        | mk goes after =>
          rw [hv] at hpaid
          cases goes with
          | false =>
            have hstep := hpass hc (by rw [hv]) h
            rw [hv] at hstep
            refine ih _ after hstep ?_
            simp only [trailCost, List.map_cons, List.sum_cons, leftAfter] at hpaid ⊢
            omega
          | true =>
            have hstep := henter hc (by rw [hv]) h
            rw [hv] at hstep
            refine ih _ after hstep ?_
            simp only [trailCost, List.map_cons, List.sum_cons, leftAfter] at hpaid ⊢
            omega

theorem le_walkFuel (C : Color → Bool) (e : Edit) (path : String) :
    e.graph.left C + trailCost [(path, e.graph.targets path)] ≤ walkFuel e.graph := by
  have hleft := e.graph.left_le_weight C
  have hlength : (e.graph.edges path).length ≤ e.graph.weight := by
    cases hc : e.graph.contains path with
    | true => exact Nat.le_of_lt (Graph.length_edges_lt_weight hc)
    | false => simp [Graph.edges_eq_nil hc]
  simp only [trailCost, List.map_cons, List.map_nil, List.sum_cons, List.sum_nil,
    Graph.length_targets, walkFuel]
  omega

theorem followFrom_invariant {P : Trail → Edit → Prop} {C : Color → Bool} {e : Edit}
    {path : String} (hpays : Pays C visit)
    (hspares : ∀ path e, (leave path e).graph.left C ≤ e.graph.left C)
    (hleave : ∀ {path trail e}, P ((path, []) :: trail) e → P trail (leave path e))
    (habsent : ∀ {path child rest trail e}, e.graph.contains child = false →
      P ((path, child :: rest) :: trail) e → P ((path, rest) :: trail) e)
    (hpass : ∀ {path child rest trail e}, e.graph.contains child →
      (visit path child e).1 = false → P ((path, child :: rest) :: trail) e →
      P ((path, rest) :: trail) (visit path child e).2)
    (henter : ∀ {path child rest trail e}, e.graph.contains child →
      (visit path child e).1 = true → P ((path, child :: rest) :: trail) e →
      P ((child, (visit path child e).2.graph.targets child) :: (path, rest) :: trail)
        (visit path child e).2)
    (h : P [(path, e.graph.targets path)] e) : P [] (e.followFrom visit leave path) :=
  follow_invariant hpays hspares hleave habsent hpass henter _ _ e h (le_walkFuel C e path)

end Edit

end BundleGraph
