import BundleGraph.Proofs.Graph.Release

/-!
# Sound edits

In a sound edit every path counts each of its referrers once for an edge: the
count is never too high, and too low by no more than the slack of the pair.
There is slack where a path was dropped while modules still had edges to it;
when it comes back, these edges may not be counted.
-/

namespace BundleGraph

theorem Module.count_eraseEdge {edges : List Edge} {edge : Edge}
    (hkeys : (edges.map Edge.key).Nodup) (hmem : edge ∈ edges) (target : String) :
    ((Module.eraseEdge edges edge.key).map (·.target)).count target +
      (if edge.target = target then 1 else 0) = (edges.map (·.target)).count target := by
  induction edges with
  | nil => cases hmem
  | cons head rest ih =>
    obtain ⟨hhead, hrest⟩ := List.nodup_cons.mp hkeys
    by_cases hkey : head.key = edge.key
    · have : edge = head := by
        rcases List.mem_cons.mp hmem with rfl | hmem
        · rfl
        · exact absurd (List.mem_map.mpr ⟨edge, hmem, hkey.symm⟩) hhead
      subst this
      simp [Module.eraseEdge, List.count_cons]
    · have hne : edge ≠ head := fun h => hkey (h ▸ rfl)
      have := ih hrest ((List.mem_cons.mp hmem).resolve_left hne)
      simp only [Module.eraseEdge, hkey, decide_false, Bool.false_eq_true, not_false_eq_true,
        List.eraseP_cons_of_neg, List.map_cons, List.count_cons] at this ⊢
      omega

theorem Module.nodup_eraseEdge {edges : List Edge} (hkeys : (edges.map Edge.key).Nodup)
    (key : String) : ((Module.eraseEdge edges key).map Edge.key).Nodup :=
  (List.eraseP_sublist.map Edge.key).nodup hkeys

/-- Modules stand under their paths, and no module has two edges of one key. -/
structure Graph.WellFormed (g : Graph) : Prop where
  path_eq : ∀ {path m}, g.content? path = some m → m.path = path
  nodup_keys : ∀ path, ((g.edges path).map Edge.key).Nodup

theorem Graph.WellFormed.nodup_of_content {g : Graph} (hg : g.WellFormed) {path : String}
    {m : Module} (hm : g.content? path = some m) : (m.edges.map Edge.key).Nodup := by
  have hkeys := hg.nodup_keys path
  rw [edges_eq, hm] at hkeys
  exact hkeys

theorem Graph.WellFormed.of_content {g h : Graph} (hg : g.WellFormed)
    (hc : ∀ path m, h.content? path = some m →
      g.content? path = some m ∨ m.path = path ∧ (m.edges.map Edge.key).Nodup) :
    h.WellFormed where
  path_eq := fun hm => (hc _ _ hm).elim hg.path_eq And.left
  nodup_keys := fun path => by
    rw [edges_eq]
    cases hm : h.content? path with
    | none => exact List.nodup_nil
    | some m => exact (hc path m hm).elim hg.nodup_of_content And.right

namespace Edit

/-- Counts and edges agree, but for the slack by which a count may be too low. -/
structure Sound (slack : String → String → Nat) (e : Edit) : Prop where
  count_le : ∀ p t, e.count t p ≤ e.graph.edgeCount p t
  le_count : ∀ p t, e.graph.edgeCount p t ≤ e.count t p + slack p t
  /-- A module in the graph is not being loaded. -/
  apart : ∀ p, e.graph.contains p → e.loading[p]? = none
  painted : ∀ p, e.graph.contains p → e.graph.color p = .black ∨
    e.graph.color p = .purple ∧ e.graph.possibleRoots.contains p
  wellFormed : e.graph.WellFormed

/-- A module that is no entry point is counted, exceptions apart. -/
def Referenced (except : String → Prop) (e : Edit) : Prop :=
  ∀ t, e.graph.contains t → e.graph.isEntry t ∨ except t ∨ ∃ p, 0 < e.count t p

/-- Every module can be reached from an entry point, a possible root or an
exception. -/
def Marked (except : String → Prop) (e : Edit) : Prop :=
  ∀ t, e.graph.contains t → ∃ r,
    (e.graph.isEntry r ∨ e.graph.possibleRoots.contains r ∨ except r) ∧
      e.graph.contains r ∧ e.graph.Reaches r t

variable {slack : String → String → Nat} {e e' : Edit} {path : String} {edge : Edge}
  {edges : List Edge} {stack : Stack}

theorem Sound.mono {slack' : String → String → Nat} (h : Sound slack e)
    (hle : ∀ p t, slack p t ≤ slack' p t) : Sound slack' e :=
  { h with le_count := fun p t => Nat.le_trans (h.le_count p t) (Nat.add_le_add_left (hle p t) _) }

theorem Sound.count_eq_zero (h : Sound slack e) {p : String} (hp : e.graph.contains p = false)
    (t : String) : e.count t p = 0 := by
  have := h.count_le p t
  rw [Graph.edgeCount_eq_zero hp] at this
  omega

-- ---------------------------------------------------------------------------
-- Taking an edge away
-- ---------------------------------------------------------------------------

theorem edgeCount_detach_of_ne {p : String} (hp : path ≠ p) (t : String) :
    (e.detach path edge).2.graph.edgeCount p t = e.graph.edgeCount p t := by
  rw [Graph.edgeCount, Graph.targets, edges_detach, if_neg hp]
  rfl

theorem edgeCount_detach_le (path : String) (edge : Edge) (p t : String) :
    (e.detach path edge).2.graph.edgeCount p t ≤ e.graph.edgeCount p t := by
  rw [Graph.edgeCount, Graph.targets, edges_detach]
  split
  · exact (List.eraseP_sublist.map Edge.target).count_le t
  · exact Nat.le_refl _

theorem edgeCount_detach_self (h : e.graph.WellFormed) (hmem : edge ∈ e.graph.edges path)
    (t : String) :
    (e.detach path edge).2.graph.edgeCount path t + (if edge.target = t then 1 else 0) =
      e.graph.edgeCount path t := by
  rw [Graph.edgeCount, Graph.targets, edges_detach, if_pos rfl]
  exact Module.count_eraseEdge (h.nodup_keys path) hmem t

theorem WellFormed.detach (h : e.graph.WellFormed) (path : String) (edge : Edge) :
    (e.detach path edge).2.graph.WellFormed := by
  refine h.of_content fun q m hm => ?_
  rw [content?_detach] at hm
  split at hm
  · obtain ⟨m', hm', rfl⟩ := Option.map_eq_some_iff.mp hm
    have hpath := h.path_eq hm'
    exact .inr ⟨hpath, Module.nodup_eraseEdge (h.nodup_of_content hm') edge.key⟩
  · exact .inl hm

theorem Sound.detach (h : Sound slack e)
    (hmem : e.graph.contains path → edge ∈ e.graph.edges path) :
    Sound slack (e.detach path edge).2 where
  count_le := by
    intro p t
    have hle := h.count_le p t
    rw [count_detach]
    by_cases hp : path = p
    · subst hp
      cases hc : e.graph.contains path with
      | true =>
        have := edgeCount_detach_self h.wellFormed (hmem hc) t
        simp only [and_true]
        omega
      | false =>
        have := h.count_eq_zero hc t
        omega
    · rw [edgeCount_detach_of_ne hp]
      omega
  le_count := by
    intro p t
    have hle := h.le_count p t
    rw [count_detach]
    by_cases hp : path = p
    · subst hp
      cases hc : e.graph.contains path with
      | true =>
        have := edgeCount_detach_self h.wellFormed (hmem hc) t
        simp only [and_true]
        omega
      | false =>
        rw [Graph.edgeCount_eq_zero (by simpa using hc)]
        exact Nat.zero_le _
    · rw [edgeCount_detach_of_ne hp]
      simp [hp, hle]
  apart := by
    intro p hp
    rw [contains_detach] at hp
    rw [← loading_contains_eq_false, loading_contains_detach, loading_contains_eq_false]
    exact h.apart p hp
  painted := by
    intro p hp
    rw [contains_detach] at hp
    have hroot := possibleRoots_detach (e := e) path edge p
    rcases color_detach (e := e) path edge p with ⟨hc, ht, hm⟩ | ⟨hc, _⟩
    · refine .inr ⟨hc, hroot.mpr ?_⟩
      rcases h.painted p hp with hp | hp
      · exact .inr ⟨ht, hm, by simp [hp]⟩
      · exact .inl hp.2
    · rw [hc]
      exact (h.painted p hp).imp_right fun hp => ⟨hp.1, hroot.mpr (.inl hp.2)⟩
  wellFormed := WellFormed.detach h.wellFormed path edge

theorem Referenced.detach {except : String → Prop} (h : Referenced except e)
    (hapart : ∀ p, e.graph.contains p → e.loading[p]? = none) (path : String) (edge : Edge) :
    Referenced (fun t => except t ∨ (e.detach path edge).1 = true ∧ t = edge.target)
      (e.detach path edge).2 := by
  intro t ht
  rw [contains_detach] at ht
  rw [isEntry_detach]
  by_cases htarget : edge.target = t
  · subst htarget
    by_cases hd : (e.detach path edge).1 = true
    · exact .inr (.inl (.inr ⟨hd, rfl⟩))
    · rw [fst_detach_iff] at hd
      cases he : e.graph.isEntry edge.target with
      | true => exact .inl rfl
      | false =>
        refine .inr (.inr ?_)
        by_contra hnone
        refine hd ⟨hapart _ ht, ht, he, fun r => ?_⟩
        exact Nat.eq_zero_of_not_pos fun hr => hnone ⟨r, hr⟩
  · rcases h t ht with he | he | ⟨p, hp⟩
    · exact .inl he
    · exact .inr (.inl (.inl he))
    · refine .inr (.inr ⟨p, ?_⟩)
      rw [count_detach, if_neg (fun hf => htarget hf.1)]
      exact hp

theorem reaches_detach (hwf : e.graph.WellFormed)
    (hmem : e.graph.contains path → edge ∈ e.graph.edges path) {r t : String}
    (h : e.graph.Reaches r t) :
    (e.detach path edge).2.graph.Reaches r t ∨
      e.graph.contains edge.target ∧ (e.detach path edge).2.graph.Reaches edge.target t := by
  induction h with
  | refl => exact .inl .refl
  | @tail b c _ hstep ih =>
    by_cases hc : c = edge.target
    · subst hc
      exact .inr ⟨hstep.2, .refl⟩
    · have hkept : (e.detach path edge).2.graph.Step b c := by
        refine ⟨?_, by rw [contains_detach]; exact hstep.2⟩
        have hpos := Graph.edgeCount_pos_iff.mpr hstep.1
        rw [← Graph.edgeCount_pos_iff]
        by_cases hb : path = b
        · subst hb
          have hcontains := Graph.contains_of_mem_targets hstep.1
          have := edgeCount_detach_self hwf (hmem hcontains) c
          rw [if_neg (Ne.symm hc)] at this
          omega
        · rwa [edgeCount_detach_of_ne hb]
      exact ih.imp (·.tail hkept) fun ⟨ht, hr⟩ => ⟨ht, hr.tail hkept⟩

/-- A module whose edge goes stays marked: what was reached over the edge is
reached from its target, which is now a possible root, or released. -/
theorem Marked.detach {except : String → Prop} (h : Marked except e) (hs : Sound slack e)
    (hmem : e.graph.contains path → edge ∈ e.graph.edges path) :
    Marked (fun t => except t ∨ (e.detach path edge).1 = true ∧ t = edge.target)
      (e.detach path edge).2 := by
  intro t ht
  rw [contains_detach] at ht
  obtain ⟨r, hroot, hr, hreach⟩ := h t ht
  rcases reaches_detach hs.wellFormed hmem hreach with hreach | ⟨htarget, hreach⟩
  · refine ⟨r, ?_, by rwa [contains_detach], hreach⟩
    rw [isEntry_detach, possibleRoots_detach]
    exact hroot.imp_right (Or.imp .inl .inl)
  · refine ⟨edge.target, ?_, by rwa [contains_detach], hreach⟩
    rw [possibleRoots_detach]
    by_cases hd : (e.detach path edge).1 = true
    · exact .inr (.inr (.inr ⟨hd, rfl⟩))
    · refine .inr (.inl ?_)
      rcases hs.painted _ htarget with hc | hc
      · exact .inr ⟨rfl, ⟨hs.apart _ htarget, htarget, by simpa using hd⟩, by simp [hc]⟩
      · exact .inl hc.2

-- ---------------------------------------------------------------------------
-- Freeing a module without edges
-- ---------------------------------------------------------------------------

theorem edgeCount_free_of_ne {p : String} (hp : path ≠ p) (t : String) :
    (e.free path).graph.edgeCount p t = e.graph.edgeCount p t := by
  rw [Graph.edgeCount, Graph.targets, edges_free, if_neg hp]
  rfl

theorem edgeCount_free_self (t : String) : (e.free path).graph.edgeCount path t = 0 := by
  rw [Graph.edgeCount, Graph.targets, edges_free, if_pos rfl]
  rfl

theorem edgeCount_free_le (path p t : String) :
    (e.free path).graph.edgeCount p t ≤ e.graph.edgeCount p t := by
  by_cases hp : path = p
  · subst hp
    rw [edgeCount_free_self]
    exact Nat.zero_le _
  · rw [edgeCount_free_of_ne hp]

theorem edgeCount_of_edges_nil {g : Graph} {path : String}
    (hnil : g.contains path → g.edges path = []) (t : String) : g.edgeCount path t = 0 := by
  cases hc : g.contains path with
  | true =>
    rw [Graph.edgeCount, Graph.targets, hnil hc]
    rfl
  | false => exact Graph.edgeCount_eq_zero hc t

theorem Sound.free (h : Sound slack e) (hnil : e.graph.contains path → e.graph.edges path = [])
    (hslack : ∀ r, e.graph.edgeCount r path ≤ slack r path) : Sound slack (e.free path) where
  count_le := by
    intro p t
    have hle := h.count_le p t
    rw [count_free]
    by_cases hp : path = p
    · subst hp
      rw [edgeCount_of_edges_nil hnil] at hle
      rw [edgeCount_free_self]
      split <;> omega
    · rw [edgeCount_free_of_ne hp]
      split <;> omega
  le_count := by
    intro p t
    have hle := h.le_count p t
    rw [count_free]
    by_cases hp : path = p
    · subst hp
      rw [edgeCount_free_self]
      exact Nat.zero_le _
    · rw [edgeCount_free_of_ne hp]
      by_cases hpt : path = t
      · subst hpt
        rw [if_pos rfl, Nat.zero_add]
        exact hslack p
      · rwa [if_neg hpt]
  apart := by
    intro p hp
    obtain ⟨hne, hp⟩ := (contains_free path p).mp hp
    rw [loading_free, getElem?_erase_loading, if_neg hne]
    exact h.apart p hp
  painted := by
    intro p hp
    obtain ⟨hne, hp⟩ := (contains_free path p).mp hp
    rw [color_free, if_neg hne, possibleRoots_free]
    exact (h.painted p hp).imp_right fun hp => ⟨hp.1, hne, hp.2⟩
  wellFormed := by
    refine h.wellFormed.of_content fun q m hm => .inl ?_
    rw [content?_free] at hm
    split at hm
    · cases hm
    · exact hm

theorem Referenced.free {except : String → Prop} (h : Referenced except e) (path : String) :
    Referenced (fun t => except t ∧ path ≠ t) (e.free path) := by
  intro t ht
  obtain ⟨hne, ht⟩ := (contains_free path t).mp ht
  rw [isEntry_free]
  refine (h t ht).imp_right (Or.imp (⟨·, hne⟩) fun ⟨p, hp⟩ => ⟨p, ?_⟩)
  rwa [count_free, if_neg hne]

theorem reaches_free (hnil : e.graph.contains path → e.graph.edges path = []) {r t : String}
    (ht : path ≠ t) (h : e.graph.Reaches r t) :
    (e.free path).graph.Reaches r t := by
  induction h with
  | refl => exact .refl
  | @tail b c _ hstep ih =>
    have hb : path ≠ b := by
      rintro rfl
      have := edgeCount_of_edges_nil hnil c
      have := Graph.edgeCount_pos_iff.mpr hstep.1
      omega
    refine (ih hb).tail ⟨?_, (contains_free path c).mpr ⟨ht, hstep.2⟩⟩
    rw [← Graph.edgeCount_pos_iff, edgeCount_free_of_ne hb]
    exact Graph.edgeCount_pos_iff.mpr hstep.1

theorem Marked.free {except : String → Prop} (h : Marked except e)
    (hnil : e.graph.contains path → e.graph.edges path = []) :
    Marked (fun t => except t ∧ path ≠ t) (e.free path) := by
  intro t ht
  obtain ⟨hne, ht⟩ := (contains_free path t).mp ht
  obtain ⟨r, hroot, hr, hreach⟩ := h t ht
  have hrne : path ≠ r := by
    rintro rfl
    rcases Relation.ReflTransGen.cases_head hreach with rfl | ⟨c, hstep, _⟩
    · exact hne rfl
    · have := edgeCount_of_edges_nil hnil c
      have := Graph.edgeCount_pos_iff.mpr hstep.1
      omega
  refine ⟨r, ?_, (contains_free path r).mpr ⟨hrne, hr⟩, reaches_free hnil hne hreach⟩
  rw [isEntry_free, possibleRoots_free]
  exact hroot.imp_right (Or.imp (⟨hrne, ·⟩) (⟨·, hrne⟩))

end Edit

end BundleGraph
