import BundleGraph.Proofs.Graph.Arrival
import BundleGraph.Proofs.Graph.Collect

/-!
# Reported deletions

Whatever an edit does, the modules that it found in the graph and that are gone
are reported as deleted, unless they are being loaded again.
-/

namespace BundleGraph.Edit

/-- Modules that were there before are reported when they are gone, and never
count as added. -/
structure Reported (old : String → Prop) (e : Edit) : Prop where
  deleted : ∀ t, old t → e.graph.contains t = false → e.loading.contains t = false →
    e.deleted.contains t
  not_added : ∀ t, old t → e.added.contains t = false

variable {old : String → Prop} {e e' : Edit} {path : String} {edge : Edge} {stack : Stack}

theorem Reported.of_same (h : Reported old e)
    (hcontains : ∀ q, e.graph.contains q → e'.graph.contains q ∨ e'.loading.contains q)
    (hloading : ∀ q, e.loading.contains q → e'.graph.contains q ∨ e'.loading.contains q)
    (hdeleted : e'.deleted = e.deleted) (hadded : e'.added = e.added) : Reported old e' where
  deleted := by
    intro t ht hc hl
    rw [hdeleted]
    have hgone : ¬ (e'.graph.contains t ∨ e'.loading.contains t) := by simp [hc, hl]
    refine h.deleted t ht ?_ ?_
    · rw [← Bool.not_eq_true]
      exact fun hold => hgone (hcontains t hold)
    · rw [← Bool.not_eq_true]
      exact fun hold => hgone (hloading t hold)
  not_added := fun t ht => by rw [hadded]; exact h.not_added t ht

-- ---------------------------------------------------------------------------
-- Taking away
-- ---------------------------------------------------------------------------

theorem Reported.detach (h : Reported old e) (path : String) (edge : Edge) :
    Reported old (e.detach path edge).2 :=
  h.of_same (fun q hq => .inl (by rwa [contains_detach]))
    (fun q hq => .inr (by rwa [loading_contains_detach]))
    (by rw [detach_account]) (by rw [detach_account])

theorem deleted_forget (path q : String) :
    (e.forget path).deleted.contains q ↔
      e.deleted.contains q ∨ path = q ∧ e.added.contains path = false := by
  unfold forget
  split
  · rename_i hadded
    simp [hadded]
  · rename_i hadded
    simp only [Bool.not_eq_true] at hadded
    simp [hadded, OrderedSet.contains_insert, or_comm]

theorem added_forget {q : String} (h : e.added.contains q = false) :
    (e.forget path).added.contains q = false := by
  unfold forget
  split
  · simp [OrderedSet.contains_erase, h]
  · exact h

theorem Reported.forget (h : Reported old e) (path : String) :
    Reported old (e.forget path) where
  deleted := by
    intro t ht hc hl
    rw [graph_forget] at hc
    rw [deleted_forget]
    by_cases hpath : path = t
    · subst hpath
      exact .inr ⟨rfl, h.not_added path ht⟩
    · refine .inl (h.deleted t ht hc ?_)
      rw [loading_contains_eq_false, loading_forget, getElem?_erase_loading, if_neg hpath] at hl
      exact loading_contains_eq_false.mpr hl
  not_added := fun t ht => added_forget (h.not_added t ht)

theorem Reported.free (h : Reported old e) (path : String) : Reported old (e.free path) where
  deleted := by
    intro t ht hc hl
    have hdeleted := (h.forget path).deleted t ht
    rw [graph_forget] at hdeleted
    by_cases hpath : path = t
    · subst hpath
      exact (deleted_forget path path).mpr (.inr ⟨rfl, h.not_added path ht⟩)
    · refine hdeleted ?_ hl
      rw [← Bool.not_eq_true] at hc ⊢
      exact fun hold => hc ((contains_free path t).mpr ⟨hpath, hold⟩)
  not_added := fun t ht => added_forget (h.not_added t ht)

theorem Releases.reported (h : Releases stack e e') (hr : Reported old e) : Reported old e' :=
  h.invariant (P := fun _ e => Reported old e) (fun _ hr => hr.free _)
    (fun _ _ hr => hr.detach _ _) (fun _ _ hr => hr.detach _ _) hr

theorem Reported.removeEdge (hr : Reported old e) (path : String) (edge : Edge) :
    Reported old (e.removeEdge path edge) := by
  rcases e.removeEdge_cases path edge with ⟨_, h⟩ | ⟨_, h⟩
  · rw [h]
    exact hr.detach path edge
  · exact h.reported (hr.detach path edge)

-- ---------------------------------------------------------------------------
-- Discovering and placing
-- ---------------------------------------------------------------------------

/-- A module that is gone is reported, so that it comes back as modified. -/
theorem Reported.enqueue (h : Reported old e) {path : String} (referrer : Option String)
    (hc : e.graph.contains path = false) (hl : e.loading.contains path = false) :
    Reported old (e.enqueue path referrer) where
  deleted := by
    intro t ht hct hlt
    rw [graph_enqueue] at hct
    have hne : path ≠ t := by
      rintro rfl
      rw [(loading_contains_enqueue path referrer path).mpr (.inl rfl)] at hlt
      cases hlt
    have hlt' : e.loading.contains t = false := by
      rw [← Bool.not_eq_true] at hlt ⊢
      exact fun hold => hlt ((loading_contains_enqueue path referrer t).mpr (.inr hold))
    have hdeleted := h.deleted t ht hct hlt'
    unfold Edit.enqueue
    split
    · simp [OrderedSet.contains_erase, hne, hdeleted]
    · exact hdeleted
  not_added := by
    intro t ht
    unfold Edit.enqueue
    split
    · exact h.not_added t ht
    · rename_i hdeleted
      have hne : path ≠ t := by
        rintro rfl
        exact hdeleted (h.deleted path ht hc hl)
      simp [OrderedSet.contains_insert, hne, h.not_added t ht]

theorem Reported.addEdge (h : Reported old e) (path : String) (edge : Edge) :
    Reported old (e.addEdge path edge).1 := by
  rcases e.addEdge_cases path edge with ⟨hc, h'⟩ | ⟨hc, inverse, hl, h'⟩ | ⟨hc, hl, h'⟩
  · rw [h']
    exact h.of_same (fun q hq => .inl (by simpa using hq)) (fun q hq => .inr hq) rfl rfl
  · rw [h']
    refine h.of_same (fun q hq => .inl hq) (fun q hq => .inr ?_) rfl rfl
    simp [Std.TreeMap.contains_insert, hq]
  · rw [h']
    exact h.enqueue _ hc (loading_contains_eq_false.mpr hl)

theorem Arrived.reported {file : LoadedFile} (h : Arrived path file e e')
    (hr : Reported old e) : Reported old e' := by
  refine hr.of_same (fun q hq => .inl ((h.contains q).mpr (.inr hq))) (fun q hq => ?_)
    h.deleted h.added
  by_cases hpath : path = q
  · exact .inl ((h.contains q).mpr (.inl hpath))
  · exact .inr ((h.loading q).mpr ⟨hpath, hq⟩)

-- ---------------------------------------------------------------------------
-- Collecting
-- ---------------------------------------------------------------------------

theorem Untouched.reported (h : Untouched e e') (hr : Reported old e) : Reported old e' := by
  have haccount := h.account
  exact hr.of_same (fun q hq => .inl (by rwa [h.contains]))
    (fun q hq => .inr (by rw [haccount]; exact hq))
    (by rw [haccount]) (by rw [haccount])

section Collecting

variable {P : Edit → Prop} (huntouched : ∀ {e e' : Edit}, Untouched e e' → P e → P e')

include huntouched

theorem markGray_preserves (path : String) (h : P e) : P (e.markGray path) := by
  have hcolor : ∀ {e : Edit} (path : String) (c : Color), P e → P (e.setColor path c) :=
    fun path c => huntouched ((Untouched.refl _).setColor path c)
  unfold markGray
  split
  · exact h
  · refine follow_preserves (P := P) (fun h => h) (fun {parent child e} h => ?_) _ _ _
      (hcolor path .gray h)
    have hcount := huntouched ((Untouched.refl e).deleteReferrer child parent) h
    unfold visitGray
    dsimp only
    split
    · exact hcount
    · exact hcolor child .gray hcount

theorem judge_preserves (path : String) (h : P e) : P (e.judge path).2 := by
  rcases e.judge_cases path with ⟨_, hj⟩ | ⟨_, _, hj⟩ | ⟨_, _, _, hj⟩
  · rwa [hj]
  · rw [hj]
    exact huntouched (Untouched.markBlack e path) h
  · rw [hj]
    exact huntouched ((Untouched.refl e).setColor path .white) h

theorem scan_preserves (path : String) (h : P e) : P (e.scan path) := by
  have hjudge := judge_preserves huntouched path h
  unfold scan
  split
  · rename_i hj
    rw [hj] at hjudge
    exact follow_preserves (P := P) (fun h => h) (fun h => judge_preserves huntouched _ h) _ _ _
      hjudge
  · rename_i hj
    rwa [hj] at hjudge

variable (hfree : ∀ {e : Edit} {path : String}, e.graph.contains path → P e → P (e.free path))

include hfree

theorem markRoot_preserves (path : String) (h : P e) : P (e.markRoot path) := by
  have hdrop := huntouched ((Untouched.refl e).dropRoot path) h
  unfold markRoot
  split
  · rename_i hc
    split
    · exact markGray_preserves huntouched path h
    · dsimp only
      split
      · exact hfree hc hdrop
      · exact hdrop
  · exact hdrop

/-- A walk over white modules enters none twice, so that what it frees was there. -/
theorem collectWhite_preserves {path : String} (hc : e.graph.contains path) (h : P e) :
    P (e.collectWhite path) := by
  have hcolor : ∀ {e : Edit} (path : String) (c : Color), P e → P (e.setColor path c) :=
    fun path c => huntouched ((Untouched.refl _).setColor path c)
  suffices hwalk : ∀ (fuel : Nat) (trail : Trail) (e : Edit), (trail.map Prod.fst).Nodup →
      (∀ p ∈ trail.map Prod.fst, e.graph.contains p ∧ e.graph.color p ≠ .white) → P e →
      P (follow visitWhite (fun path e => e.free path) fuel trail e) by
    unfold collectWhite
    split
    · refine hwalk _ [(path, _)] _ (List.nodup_singleton path) (fun p hp => ?_) (hcolor path .black h)
      obtain rfl := List.mem_singleton.mp hp
      refine ⟨hc, ?_⟩
      rw [graph_setColor, Graph.color_setColor, if_pos rfl]
      exact nofun
    · exact h
  intro fuel
  induction fuel with
  | zero => exact fun _ _ _ _ h => h
  | succ fuel ih =>
    intro trail e hnodup htrail h
    match trail with
    | [] => exact h
    | (path, []) :: trail =>
      obtain ⟨hpath, hnodup⟩ := List.nodup_cons.mp hnodup
      refine ih trail _ hnodup (fun p hp => ?_) (hfree (htrail path (.head _)).1 h)
      have hne : path ≠ p := fun heq => hpath (heq ▸ hp)
      obtain ⟨hcp, hwhite⟩ := htrail p (.tail _ hp)
      exact ⟨(contains_free path p).mpr ⟨hne, hcp⟩, by rwa [color_free, if_neg hne]⟩
    | (path, child :: rest) :: trail =>
      rw [follow]
      split
      · rename_i hchild
        by_cases hcollect : e.isCollectable child
        · have hwhite := ((isCollectable_iff child).mp hcollect).1
          rw [visitWhite_of_collectable hcollect]
          refine ih _ _ (List.nodup_cons.mpr ⟨fun hp => (htrail child hp).2 hwhite, hnodup⟩)
            (fun p hp => ?_) (hcolor child .black h)
          rw [graph_setColor, Graph.contains_setColor, Graph.color_setColor]
          rcases List.mem_cons.mp hp with rfl | hp
          · exact ⟨hchild, by rw [if_pos rfl]; exact nofun⟩
          · refine ⟨(htrail p hp).1, ?_⟩
            split
            · exact nofun
            · exact (htrail p hp).2
        · rw [visitWhite_of_not_collectable hcollect]
          exact ih _ _ hnodup htrail h
      · exact ih _ _ hnodup htrail h

theorem collectCycles_preserves (h : P e) : P e.collectCycles := by
  have hfold : ∀ {step : Edit → String → Edit}, (∀ {e : Edit} (r : String), P e → P (step e r)) →
      ∀ (roots : List String) {e : Edit}, P e → P (roots.foldl step e) := by
    intro step hstep roots
    induction roots with
    | nil => exact fun h => h
    | cons r roots ih => exact fun h => ih (hstep r h)
  have hroot : ∀ {e : Edit} (r : String), P e → P (e.collectRoot r) := by
    intro e r h
    have hdrop := huntouched ((Untouched.refl e).dropRoot r) h
    rw [collectRoot_eq]
    split
    · rename_i hc
      exact collectWhite_preserves huntouched hfree hc hdrop
    · exact hdrop
  unfold Edit.collectCycles
  exact hfold hroot _ (hfold (scan_preserves huntouched) _
    (hfold (markRoot_preserves huntouched hfree) _ h))

end Collecting

theorem Reported.collectCycles (h : Reported old e) : Reported old e.collectCycles :=
  collectCycles_preserves Untouched.reported (fun _ h => h.free _) h

theorem loading_collectCycles (h : ∀ t, e.loading.contains t = false) (t : String) :
    e.collectCycles.loading.contains t = false := by
  refine collectCycles_preserves (P := fun e => ∀ t, e.loading.contains t = false)
    (fun hu h t => ?_) (fun {e path} _ h t => ?_) h t
  · rw [hu.account]
    exact h t
  · rw [show (e.free path).loading = (e.forget path).loading from rfl, loading_forget,
      Std.TreeMap.contains_erase, h t, Bool.and_false]

end BundleGraph.Edit
