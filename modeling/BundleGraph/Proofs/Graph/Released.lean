import BundleGraph.Proofs.Graph.Sound

/-!
# What a release leaves behind

A release only takes modules away: those on its stack, and those that are
counted no more. What stays keeps its content. `Releases.invariant` is the
induction over the steps of a release; the invariants of an edit go through it
with the modules on the stack as exceptions.
-/

namespace BundleGraph.Edit

variable {slack : String → String → Nat} {e e' : Edit} {path : String} {edge : Edge}
  {edges : List Edge} {stack : Stack}

theorem Releases.invariant {P : Stack → Edit → Prop}
    (hfree : ∀ {path stack e}, (e.graph.contains path → e.graph.edges path = []) →
      P ((path, []) :: stack) e → P stack (e.free path))
    (hkeep : ∀ {path edge edges stack e},
      (e.graph.contains path → e.graph.edges path = edge :: edges) →
      (e.detach path edge).1 = false → P ((path, edge :: edges) :: stack) e →
      P ((path, edges) :: stack) (e.detach path edge).2)
    (hpush : ∀ {path edge edges stack e},
      (e.graph.contains path → e.graph.edges path = edge :: edges) →
      (e.detach path edge).1 = true → P ((path, edge :: edges) :: stack) e →
      P ((edge.target, (e.detach path edge).2.graph.edges edge.target) :: (path, edges) :: stack)
        (e.detach path edge).2)
    (h : Releases stack e e') (hp : P stack e) : P [] e' := by
  induction h with
  | done => exact hp
  | free hheld _ ih => exact ih (hfree hheld hp)
  | keep hheld hd _ ih => exact ih (hkeep hheld hd hp)
  | push hheld hd _ ih => exact ih (hpush hheld hd hp)

theorem mem_of_held (hheld : e.graph.contains path → e.graph.edges path = edge :: edges)
    (hc : e.graph.contains path) : edge ∈ e.graph.edges path := by
  rw [hheld hc]
  exact List.mem_cons_self

def Stacked (stack : Stack) (path : String) : Prop := ∃ f ∈ stack, f.1 = path

@[simp] theorem stacked_nil : ¬ Stacked [] path := by simp [Stacked]

@[simp] theorem stacked_cons {p : String} {rest : List Edge} :
    Stacked ((p, rest) :: stack) path ↔ p = path ∨ Stacked stack path := by
  simp [Stacked]

-- ---------------------------------------------------------------------------
-- Frames
-- ---------------------------------------------------------------------------

theorem Releases.settings_eq (h : Releases stack e e') : e'.graph.settings = e.graph.settings := by
  induction h with
  | done => rfl
  | free _ _ ih => rw [ih, settings_free]
  | keep _ _ _ ih => rw [ih, settings_detach]
  | push _ _ _ ih => rw [ih, settings_detach]

theorem Releases.contains (h : Releases stack e e') {q : String} (hq : e'.graph.contains q) :
    e.graph.contains q := by
  induction h with
  | done => exact hq
  | free _ _ ih => exact ((contains_free _ q).mp (ih hq)).2
  | keep _ _ _ ih => rw [← contains_detach]; exact ih hq
  | push _ _ _ ih => rw [← contains_detach]; exact ih hq

theorem Releases.loading (h : Releases stack e e') {q : String}
    (hq : e'.loading.contains q) : e.loading.contains q := by
  induction h with
  | done => exact hq
  | @free path _ _ _ _ _ ih =>
    have := ih hq
    rw [loading_free, Std.TreeMap.contains_erase, Bool.and_eq_true] at this
    exact this.2
  | keep _ _ _ ih => rw [← loading_contains_detach]; exact ih hq
  | push _ _ _ ih => rw [← loading_contains_detach]; exact ih hq

theorem Releases.loading_none (h : Releases stack e e') {q : String}
    (hq : e.loading[q]? = none) : e'.loading[q]? = none := by
  rw [← loading_contains_eq_false, ← Bool.not_eq_true] at hq ⊢
  exact fun hl => hq (h.loading hl)

theorem Releases.freed (h : Releases stack e e') {q : String} (hq : Stacked stack q) :
    e'.graph.contains q = false := by
  induction h with
  | done => exact absurd hq stacked_nil
  | @free path _ _ _ _ hrest ih =>
    rcases stacked_cons.mp hq with rfl | hq
    · rw [← Bool.not_eq_true]
      exact fun hc => ((contains_free path path).mp (hrest.contains hc)).1 rfl
    · exact ih hq
  | keep _ _ _ ih => exact ih (stacked_cons.mpr (stacked_cons.mp hq))
  | push _ _ _ ih => exact ih (stacked_cons.mpr (.inr (stacked_cons.mpr (stacked_cons.mp hq))))

theorem Releases.content (h : Releases stack e e') {q : String} (hq : e'.graph.contains q) :
    e'.graph.content? q = e.graph.content? q := by
  induction h with
  | done => rfl
  | @free path _ _ _ _ hrest ih =>
    rw [ih hq, content?_free, if_neg ((contains_free path q).mp (hrest.contains hq)).1]
  | @keep path _ _ _ _ _ _ _ hrest ih =>
    have hne : path ≠ q := fun hp =>
      Bool.false_ne_true ((hrest.freed (stacked_cons.mpr (.inl hp))).symm.trans hq)
    rw [ih hq, content?_detach, if_neg hne]
  | @push path _ _ _ _ _ _ _ hrest ih =>
    have hne : path ≠ q := fun hp => Bool.false_ne_true
      ((hrest.freed (stacked_cons.mpr (.inr (stacked_cons.mpr (.inl hp))))).symm.trans hq)
    rw [ih hq, content?_detach, if_neg hne]

theorem Releases.keeps_entry (h : Releases stack e e') {q : String} (hentry : e.graph.isEntry q)
    (hstack : ¬ Stacked stack q) (hq : e.graph.contains q) : e'.graph.contains q := by
  induction h with
  | done => exact hq
  | @free path _ _ _ _ _ ih =>
    rw [stacked_cons, not_or] at hstack
    exact ih (by rwa [isEntry_free]) hstack.2 ((contains_free path q).mpr ⟨hstack.1, hq⟩)
  | keep _ _ _ ih =>
    exact ih (by rwa [isEntry_detach]) (by simpa using hstack) (by rwa [contains_detach])
  | push _ hd _ ih =>
    refine ih (by rwa [isEntry_detach]) ?_ (by rwa [contains_detach])
    rw [stacked_cons, not_or]
    refine ⟨?_, by simpa using hstack⟩
    rintro rfl
    simp [((fst_detach_iff _ _).mp hd).2.2.1] at hentry

theorem Releases.keeps_loading (h : Releases stack e e') {q : String}
    (hstack : ¬ Stacked stack q) (hq : e.loading.contains q) : e'.loading.contains q := by
  induction h with
  | done => exact hq
  | @free path _ _ _ _ _ ih =>
    rw [stacked_cons, not_or] at hstack
    refine ih hstack.2 ?_
    rw [loading_free, Std.TreeMap.contains_erase]
    simp [hstack.1, hq]
  | keep _ _ _ ih => exact ih (by simpa using hstack) (by rwa [loading_contains_detach])
  | @push path edge _ _ e _ _ hd _ ih =>
    refine ih ?_ (by rwa [loading_contains_detach])
    rw [stacked_cons, not_or]
    refine ⟨?_, by simpa using hstack⟩
    rintro rfl
    rw [loading_contains_eq_false.mpr ((fst_detach_iff path edge).mp hd).1] at hq
    exact Bool.false_ne_true hq

-- ---------------------------------------------------------------------------
-- Invariants
-- ---------------------------------------------------------------------------

/-- There is slack for all edges to modules on the stack. -/
def Uncounted (slack : String → String → Nat) (stack : Stack) (e : Edit) : Prop :=
  ∀ t, Stacked stack t → ∀ r, e.graph.edgeCount r t ≤ slack r t

theorem Uncounted.detach (h : Uncounted slack ((path, edge :: edges) :: stack) e) :
    Uncounted slack ((path, edges) :: stack) (e.detach path edge).2 := fun t ht r =>
  Nat.le_trans (edgeCount_detach_le path edge r t) (h t (by simpa using ht) r)

theorem Sound.le_slack (h : Sound slack e) {t : String} (hzero : ∀ r, e.count t r = 0)
    (r : String) : e.graph.edgeCount r t ≤ slack r t := by
  have := h.le_count r t
  rw [hzero r, Nat.zero_add] at this
  exact this

theorem Referenced.mono {except except' : String → Prop} (h : Referenced except e)
    (hle : ∀ t, except t → except' t) : Referenced except' e :=
  fun t ht => (h t ht).imp_right (Or.imp_left (hle t))

theorem Marked.mono {except except' : String → Prop} (h : Marked except e)
    (hle : ∀ t, except t → except' t) : Marked except' e := by
  intro t ht
  obtain ⟨r, hroot, hr, hreach⟩ := h t ht
  exact ⟨r, hroot.imp_right (Or.imp_right (hle r)), hr, hreach⟩

/-- The counts of an edit while a stack is released. -/
structure Unwinding (slack : String → String → Nat) (stack : Stack) (e : Edit) : Prop where
  sound : Sound slack e
  uncounted : Uncounted slack stack e

theorem Unwinding.free (h : Unwinding slack ((path, []) :: stack) e)
    (hheld : e.graph.contains path → e.graph.edges path = []) :
    Unwinding slack stack (e.free path) where
  sound := h.sound.free hheld (h.uncounted path (by simp))
  uncounted := fun t ht r =>
    Nat.le_trans (edgeCount_free_le path r t) (h.uncounted t (by simp [ht]) r)

theorem Unwinding.keep (h : Unwinding slack ((path, edge :: edges) :: stack) e)
    (hheld : e.graph.contains path → e.graph.edges path = edge :: edges) :
    Unwinding slack ((path, edges) :: stack) (e.detach path edge).2 where
  sound := h.sound.detach (mem_of_held hheld)
  uncounted := h.uncounted.detach

theorem Unwinding.push (h : Unwinding slack ((path, edge :: edges) :: stack) e)
    (hheld : e.graph.contains path → e.graph.edges path = edge :: edges)
    (hd : (e.detach path edge).1 = true) (pushed : List Edge) :
    Unwinding slack ((edge.target, pushed) :: (path, edges) :: stack) (e.detach path edge).2 where
  sound := h.sound.detach (mem_of_held hheld)
  uncounted := by
    intro t ht
    rcases stacked_cons.mp ht with rfl | ht
    · exact (h.sound.detach (mem_of_held hheld)).le_slack ((fst_detach_iff path edge).mp hd).2.2.2
    · exact h.uncounted.detach t ht

/-- What a release keeps true of its stack and its edit. -/
structure Releasing (slack : String → String → Nat) (stack : Stack) (e : Edit) : Prop
    extends Unwinding slack stack e where
  referenced : Referenced (Stacked stack) e

theorem Releasing.free (h : Releasing slack ((path, []) :: stack) e)
    (hheld : e.graph.contains path → e.graph.edges path = []) :
    Releasing slack stack (e.free path) where
  toUnwinding := h.toUnwinding.free hheld
  referenced := (h.referenced.free path).mono fun _ ⟨ht, hne⟩ =>
    (stacked_cons.mp ht).resolve_left hne

theorem Releasing.keep (h : Releasing slack ((path, edge :: edges) :: stack) e)
    (hheld : e.graph.contains path → e.graph.edges path = edge :: edges)
    (hd : (e.detach path edge).1 = false) :
    Releasing slack ((path, edges) :: stack) (e.detach path edge).2 where
  toUnwinding := h.toUnwinding.keep hheld
  referenced := (h.referenced.detach h.sound.apart path edge).mono fun t ht => by
    rcases ht with ht | ⟨ht, _⟩
    · simpa using ht
    · simp [hd] at ht

theorem Releasing.push (h : Releasing slack ((path, edge :: edges) :: stack) e)
    (hheld : e.graph.contains path → e.graph.edges path = edge :: edges)
    (hd : (e.detach path edge).1 = true) :
    Releasing slack ((edge.target, (e.detach path edge).2.graph.edges edge.target) ::
      (path, edges) :: stack) (e.detach path edge).2 where
  toUnwinding := h.toUnwinding.push hheld hd _
  referenced := (h.referenced.detach h.sound.apart path edge).mono fun t ht => by
    rcases ht with ht | ⟨_, rfl⟩
    · rw [stacked_cons, stacked_cons]
      exact .inr (stacked_cons.mp ht)
    · simp

theorem Releases.unwinding (h : Releases stack e e') (hs : Unwinding slack stack e) :
    Unwinding slack [] e' :=
  h.invariant (fun hheld h => h.free hheld) (fun hheld _ h => h.keep hheld)
    (fun hheld hd h => h.push hheld hd _) hs

theorem Releases.releasing (h : Releases stack e e') (hs : Releasing slack stack e) :
    Releasing slack [] e' :=
  h.invariant (fun hheld h => h.free hheld) (fun hheld hd h => h.keep hheld hd)
    (fun hheld hd h => h.push hheld hd) hs

theorem Releases.marked (h : Releases stack e e') (hs : Releasing slack stack e)
    (hm : Marked (Stacked stack) e) : Marked (fun _ => False) e' := by
  refine (h.invariant (P := fun stack e => Releasing slack stack e ∧ Marked (Stacked stack) e)
    ?_ ?_ ?_ ⟨hs, hm⟩).2.mono fun t ht => stacked_nil ht
  · rintro path stack e hheld ⟨hs, hm⟩
    exact ⟨hs.free hheld, (hm.free hheld).mono fun _ ⟨ht, hne⟩ =>
      (stacked_cons.mp ht).resolve_left hne⟩
  · rintro path edge edges stack e hheld hd ⟨hs, hm⟩
    refine ⟨hs.keep hheld hd, (hm.detach hs.sound (mem_of_held hheld)).mono fun t ht => ?_⟩
    rcases ht with ht | ⟨ht, _⟩
    · simpa using ht
    · simp [hd] at ht
  · rintro path edge edges stack e hheld hd ⟨hs, hm⟩
    refine ⟨hs.push hheld hd, (hm.detach hs.sound (mem_of_held hheld)).mono fun t ht => ?_⟩
    rcases ht with ht | ⟨_, rfl⟩
    · rw [stacked_cons, stacked_cons]
      exact .inr (stacked_cons.mp ht)
    · simp

-- ---------------------------------------------------------------------------
-- Removing an edge
-- ---------------------------------------------------------------------------

/-- Between releases an edit is sound, and every module is an entry point or
counted. -/
structure Steady (slack : String → String → Nat) (e : Edit) : Prop where
  sound : Sound slack e
  referenced : Referenced (fun _ => False) e

theorem Releases.steady (h : Releases stack e e') (hs : Releasing slack stack e) :
    Steady slack e' :=
  have hend := h.releasing hs
  ⟨hend.sound, hend.referenced.mono fun _ ht => stacked_nil ht⟩

theorem removeEdge_cases (e : Edit) (path : String) (edge : Edge) :
    ((e.detach path edge).1 = false ∧ e.removeEdge path edge = (e.detach path edge).2) ∨
    ((e.detach path edge).1 = true ∧
      Releases [(edge.target, (e.detach path edge).2.graph.edges edge.target)]
        (e.detach path edge).2 (e.removeEdge path edge)) := by
  unfold removeEdge
  cases hd : e.detach path edge with
  | mk flag after =>
    cases flag with
    | false => exact .inl ⟨rfl, rfl⟩
    | true =>
      refine .inr ⟨rfl, release_releases ?_⟩
      have := ((fst_detach_iff path edge).mp (by rw [hd])).2.1
      rwa [← contains_detach path edge, hd] at this

theorem settings_removeEdge (path : String) (edge : Edge) :
    (e.removeEdge path edge).graph.settings = e.graph.settings := by
  rcases e.removeEdge_cases path edge with ⟨_, h⟩ | ⟨_, h⟩
  · rw [h, settings_detach]
  · rw [h.settings_eq, settings_detach]

theorem contains_of_removeEdge {q : String}
    (hq : (e.removeEdge path edge).graph.contains q) : e.graph.contains q := by
  rcases e.removeEdge_cases path edge with ⟨_, h⟩ | ⟨_, h⟩
  · rwa [h, contains_detach] at hq
  · rw [← contains_detach path edge]
    exact h.contains hq

theorem loading_removeEdge (path : String) (edge : Edge) (q : String) :
    (e.removeEdge path edge).loading.contains q ↔ e.loading.contains q := by
  rcases e.removeEdge_cases path edge with ⟨_, h⟩ | ⟨hd, h⟩
  · rw [h, loading_contains_detach]
  · constructor
    · intro hq
      rw [← loading_contains_detach path edge]
      exact h.loading hq
    · intro hq
      refine h.keeps_loading ?_ (by rwa [loading_contains_detach])
      rw [stacked_cons]
      rintro (rfl | hf)
      · rw [loading_contains_eq_false.mpr ((fst_detach_iff path edge).mp hd).1] at hq
        exact Bool.false_ne_true hq
      · exact stacked_nil hf

theorem entry_removeEdge {q : String} (hentry : e.graph.isEntry q) (hq : e.graph.contains q) :
    (e.removeEdge path edge).graph.contains q := by
  rcases e.removeEdge_cases path edge with ⟨_, h⟩ | ⟨hd, h⟩
  · rwa [h, contains_detach]
  · refine h.keeps_entry (by rwa [isEntry_detach]) ?_ (by rwa [contains_detach])
    rw [stacked_cons]
    rintro (rfl | hf)
    · simp [((fst_detach_iff path edge).mp hd).2.2.1] at hentry
    · exact stacked_nil hf

theorem content?_removeEdge {q : String} (hq : (e.removeEdge path edge).graph.contains q) :
    (e.removeEdge path edge).graph.content? q =
      if path = q then
        (e.graph.content? q).map fun m => { m with edges := Module.eraseEdge m.edges edge.key }
      else e.graph.content? q := by
  rw [← content?_detach]
  rcases e.removeEdge_cases path edge with ⟨_, h⟩ | ⟨_, h⟩
  · rw [h]
  · exact h.content hq

theorem Unwinding.ofDetach (hs : Sound slack e)
    (hmem : e.graph.contains path → edge ∈ e.graph.edges path)
    (hd : (e.detach path edge).1 = true) (edges : List Edge) :
    Unwinding slack [(edge.target, edges)] (e.detach path edge).2 where
  sound := hs.detach hmem
  uncounted := by
    intro t ht
    rcases stacked_cons.mp ht with rfl | ht
    · exact (hs.detach hmem).le_slack ((fst_detach_iff path edge).mp hd).2.2.2
    · exact absurd ht stacked_nil

theorem Releasing.ofDetach (hs : Steady slack e)
    (hmem : e.graph.contains path → edge ∈ e.graph.edges path)
    (hd : (e.detach path edge).1 = true) (edges : List Edge) :
    Releasing slack [(edge.target, edges)] (e.detach path edge).2 where
  toUnwinding := .ofDetach hs.sound hmem hd edges
  referenced := (hs.referenced.detach hs.sound.apart path edge).mono fun t ht => by
    rcases ht with ht | ⟨_, rfl⟩
    · exact ht.elim
    · simp

theorem Sound.removeEdge (hs : Sound slack e)
    (hmem : e.graph.contains path → edge ∈ e.graph.edges path) :
    Sound slack (e.removeEdge path edge) := by
  rcases e.removeEdge_cases path edge with ⟨_, h⟩ | ⟨hd, h⟩
  · rw [h]
    exact hs.detach hmem
  · exact (h.unwinding (.ofDetach hs hmem hd _)).sound

theorem Steady.removeEdge (hs : Steady slack e)
    (hmem : e.graph.contains path → edge ∈ e.graph.edges path) :
    Steady slack (e.removeEdge path edge) := by
  rcases e.removeEdge_cases path edge with ⟨hd, h⟩ | ⟨hd, h⟩
  · rw [h]
    refine ⟨hs.sound.detach hmem, (hs.referenced.detach hs.sound.apart path edge).mono ?_⟩
    rintro t (ht | ⟨ht, _⟩)
    · exact ht
    · exact Bool.false_ne_true (hd.symm.trans ht)
  · exact h.steady (.ofDetach hs hmem hd _)

theorem Marked.removeEdge (hm : Marked (fun _ => False) e) (hs : Steady slack e)
    (hmem : e.graph.contains path → edge ∈ e.graph.edges path) :
    Marked (fun _ => False) (e.removeEdge path edge) := by
  have hdetach := hm.detach hs.sound hmem
  rcases e.removeEdge_cases path edge with ⟨hd, h⟩ | ⟨hd, h⟩
  · rw [h]
    refine hdetach.mono ?_
    rintro t (ht | ⟨ht, _⟩)
    · exact ht
    · exact Bool.false_ne_true (hd.symm.trans ht)
  · refine h.marked (.ofDetach hs hmem hd _) (hdetach.mono ?_)
    rintro t (ht | ⟨_, rfl⟩)
    · exact ht.elim
    · simp

-- ---------------------------------------------------------------------------
-- Releasing a module that may still be counted
-- ---------------------------------------------------------------------------

/-- The slack after a module is dropped: its edges are counted no more. -/
def slackOf (slack : String → String → Nat) (path : String) (g : Graph) (p t : String) : Nat :=
  slack p t + if t = path then g.edgeCount p t else 0

theorem Unwinding.ofLost (hs : Sound slack e) (path : String) (edges : List Edge) :
    Unwinding (slackOf slack path e.graph) [(path, edges)] e where
  sound := hs.mono fun p t => Nat.le_add_right _ _
  uncounted := by
    intro t ht r
    rcases stacked_cons.mp ht with rfl | ht
    · rw [slackOf, if_pos rfl]
      exact Nat.le_add_left _ _
    · exact absurd ht stacked_nil

theorem Releasing.ofLost (hs : Steady slack e) (path : String) (edges : List Edge) :
    Releasing (slackOf slack path e.graph) [(path, edges)] e where
  toUnwinding := .ofLost hs.sound path edges
  referenced := hs.referenced.mono fun _ => False.elim

theorem Sound.release (hs : Sound slack e) (hp : e.graph.contains path) :
    Sound (slackOf slack path e.graph) (e.release path) :=
  ((release_releases hp).unwinding (.ofLost hs path _)).sound

theorem Steady.release (hs : Steady slack e) (hp : e.graph.contains path) :
    Steady (slackOf slack path e.graph) (e.release path) :=
  (release_releases hp).steady (.ofLost hs path _)

theorem Marked.release (hm : Marked (fun _ => False) e) (hs : Steady slack e)
    (hp : e.graph.contains path) : Marked (fun _ => False) (e.release path) :=
  (release_releases hp).marked (.ofLost hs path _) (hm.mono fun _ => False.elim)

end BundleGraph.Edit
