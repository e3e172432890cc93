import BundleGraph.Proofs.Graph.Walk

/-!
# Trial deletion

Marking the purple roots gray takes away the counts of all edges inside what
they reach. `Marking.finish` says what is left then: the modules under
suspicion, which a purple root reaches, are gray and count each other no more,
and nothing else has changed.
-/

namespace BundleGraph

/-- A purple root reaches the module. -/
def Graph.Suspect (g : Graph) (path : String) : Prop :=
  ∃ r, g.possibleRoots.contains r ∧ g.color r = .purple ∧ g.contains r ∧ g.Reaches r path

/-- What the collector needs of a graph: no edge is counted twice, modules are
black or purple roots, and what is black among the roots is not unreferenced. -/
structure Graph.Collectable (g : Graph) : Prop where
  count_le : ∀ p t, g.count t p ≤ g.edgeCount p t
  painted : ∀ p, g.contains p → g.color p = .black ∨
    g.color p = .purple ∧ g.possibleRoots.contains p
  held : ∀ r, g.possibleRoots.contains r → g.contains r → g.color r = .black →
    g.isEntry r ∨ ∃ p, 0 < g.count r p

/-- Between the steps of a traversal all but the entry points are counted. -/
structure Graph.Counted (g : Graph) : Prop where
  count_le : ∀ p t, g.count t p ≤ g.edgeCount p t
  painted : ∀ p, g.contains p → g.color p = .black ∨
    g.color p = .purple ∧ g.possibleRoots.contains p
  referenced : ∀ t, g.contains t → g.isEntry t ∨ ∃ p, 0 < g.count t p

theorem Graph.Counted.collectable {g : Graph} (h : g.Counted) : g.Collectable :=
  ⟨h.count_le, h.painted, fun r _ hr _ => h.referenced r hr⟩

namespace Edit

/-- An edit that has colored and counted anew, but has changed no module's
content, nor its account. -/
structure Untouched (before e : Edit) : Prop where
  content : ∀ q, e.graph.content? q = before.graph.content? q
  settings : e.graph.settings = before.graph.settings
  account : e = { before with graph := e.graph }

variable {before e : Edit}

namespace Untouched

theorem refl (e : Edit) : Untouched e e := ⟨fun _ => rfl, rfl, rfl⟩

theorem contains (h : Untouched before e) (q : String) :
    e.graph.contains q = before.graph.contains q := Graph.contains_congr (h.content q)

theorem targets (h : Untouched before e) (q : String) :
    e.graph.targets q = before.graph.targets q := Graph.targets_congr (h.content q)

theorem isEntry (h : Untouched before e) (q : String) :
    e.graph.isEntry q = before.graph.isEntry q := Graph.isEntry_congr h.settings q

theorem setColor (h : Untouched before e) (path : String) (c : Color) :
    Untouched before (e.setColor path c) :=
  ⟨h.content, h.settings, congrArg (Edit.setColor · path c) h.account⟩

theorem addReferrer (h : Untouched before e) (path referrer : String) :
    Untouched before (e.addReferrer path referrer) :=
  ⟨fun q => by simp [h.content q], by simp [h.settings],
    congrArg (Edit.addReferrer · path referrer) h.account⟩

theorem deleteReferrer (h : Untouched before e) (path referrer : String) :
    Untouched before (e.deleteReferrer path referrer) :=
  ⟨fun q => by simp [h.content q], by simp [h.settings],
    congrArg (Edit.deleteReferrer · path referrer) h.account⟩

theorem dropRoot (h : Untouched before e) (path : String) : Untouched before (e.dropRoot path) :=
  ⟨h.content, h.settings, congrArg (Edit.dropRoot · path) h.account⟩

end Untouched

def Gray (e : Edit) (x : String) : Prop := e.graph.contains x ∧ e.graph.color x = .gray

/-- Trial deletion underway: the edges of a gray module are counted no more, but
for those its frame still has to visit; origins reach all that is gray. -/
structure Graying (before : Edit) (origin : String → Prop) (trail : Trail) (e : Edit) : Prop where
  untouched : Untouched before e
  count_gray : ∀ x, e.Gray x → ∀ y, e.graph.count y x =
    before.graph.count y x - (before.graph.edgeCount x y - pending trail x y)
  count_other : ∀ x, ¬ e.Gray x → ∀ y, e.graph.count y x = before.graph.count y x
  color_other : ∀ x, e.graph.contains x → ¬ e.Gray x → e.graph.color x = before.graph.color x
  pending_le : ∀ x y, pending trail x y ≤ before.graph.edgeCount x y
  trail_gray : ∀ f ∈ trail, e.Gray f.1
  closed : ∀ x y, e.Gray x → y ∈ before.graph.targets x → before.graph.contains y →
    e.Gray y ∨ 0 < pending trail x y
  reached : ∀ x, e.Gray x → ∃ r, origin r ∧ before.graph.Reaches r x

variable {origin : String → Prop} {trail : Trail} {path child : String} {rest : List String}

theorem gray_deleteReferrer (child path x : String) :
    (e.deleteReferrer child path).Gray x ↔ e.Gray x := by
  simp [Gray]

theorem gray_setColor_gray (hchild : e.graph.contains child) (x : String) :
    (e.setColor child .gray).Gray x ↔ x = child ∨ e.Gray x := by
  unfold Gray
  simp only [graph_setColor, Graph.contains_setColor, Graph.color_setColor]
  by_cases hx : x = child
  · subst hx; simp [hchild]
  · simp [hx, Ne.symm hx]

namespace Graying

theorem leave (h : Graying before origin ((path, []) :: trail) e) :
    Graying before origin trail e where
  untouched := h.untouched
  count_gray := fun x hx y => by rw [h.count_gray x hx y, pending_leave]
  count_other := h.count_other
  color_other := h.color_other
  pending_le := fun x y => by rw [← pending_leave path]; exact h.pending_le x y
  trail_gray := fun f hf => h.trail_gray f (.tail _ hf)
  closed := fun x y hx hy hc => by rw [← pending_leave path]; exact h.closed x y hx hy hc
  reached := h.reached

theorem absent (h : Graying before origin ((path, child :: rest) :: trail) e)
    (hc : e.graph.contains child = false) :
    Graying before origin ((path, rest) :: trail) e where
  untouched := h.untouched
  count_gray := by
    intro x hx y
    rw [h.count_gray x hx y, pending_visit]
    by_cases hy : path = x ∧ child = y
    · obtain ⟨rfl, rfl⟩ := hy
      rw [h.untouched.contains] at hc
      rw [Graph.count_eq_zero hc, Nat.zero_sub, Nat.zero_sub]
    · rw [if_neg hy, Nat.add_zero]
  count_other := h.count_other
  color_other := h.color_other
  pending_le := fun x y => by
    have := h.pending_le x y
    rw [pending_visit] at this
    omega
  trail_gray := by
    intro f hf
    rcases List.mem_cons.mp hf with rfl | hf
    · exact h.trail_gray (path, child :: rest) List.mem_cons_self
    · exact h.trail_gray f (.tail _ hf)
  closed := by
    intro x y hx hy hcy
    refine (h.closed x y hx hy hcy).imp_right fun hp => ?_
    rw [pending_visit, if_neg ?_] at hp
    · exact hp
    · rintro ⟨-, rfl⟩
      rw [h.untouched.contains, hcy] at hc
      cases hc
  reached := h.reached

theorem pass (h : Graying before origin ((path, child :: rest) :: trail) e)
    (hchild : e.Gray child) :
    Graying before origin ((path, rest) :: trail) (e.deleteReferrer child path) where
  untouched := h.untouched.deleteReferrer child path
  count_gray := by
    intro x hx y
    rw [gray_deleteReferrer] at hx
    have hpending := h.pending_le x y
    rw [graph_deleteReferrer, Graph.count_deleteReferrer, h.count_gray x hx y]
    rw [pending_visit] at hpending ⊢
    rw [if_congr (and_comm (a := child = y)) rfl rfl]
    omega
  count_other := by
    intro x hx y
    rw [gray_deleteReferrer] at hx
    have hne : path ≠ x := fun hp => hx (hp ▸ h.trail_gray _ List.mem_cons_self)
    rw [graph_deleteReferrer, Graph.count_deleteReferrer, if_neg (fun hf => hne hf.2)]
    exact h.count_other x hx y
  color_other := by
    intro x hc hx
    rw [gray_deleteReferrer] at hx
    exact h.color_other x (by simpa using hc) hx
  pending_le := fun x y => by
    have := h.pending_le x y
    rw [pending_visit] at this
    omega
  trail_gray := by
    intro f hf
    rw [gray_deleteReferrer]
    rcases List.mem_cons.mp hf with rfl | hf
    · exact h.trail_gray (path, child :: rest) List.mem_cons_self
    · exact h.trail_gray f (.tail _ hf)
  closed := by
    intro x y hx hy hcy
    rw [gray_deleteReferrer] at hx ⊢
    rcases h.closed x y hx hy hcy with hg | hp
    · exact .inl hg
    · rw [pending_visit] at hp
      by_cases hxy : path = x ∧ child = y
      · exact .inl (hxy.2 ▸ hchild)
      · rw [if_neg hxy] at hp
        exact .inr hp
  reached := fun x hx => h.reached x ((gray_deleteReferrer child path x).mp hx)

theorem swap {f f' : String × List String} (h : Graying before origin (f :: f' :: trail) e) :
    Graying before origin (f' :: f :: trail) e := by
  have hpending : ∀ x y, pending (f' :: f :: trail) x y = pending (f :: f' :: trail) x y :=
    fun x y => Nat.add_left_comm _ _ _
  refine
    { h with
      count_gray := fun x hx y => by rw [hpending]; exact h.count_gray x hx y
      pending_le := fun x y => by rw [hpending]; exact h.pending_le x y
      trail_gray := fun g hg => h.trail_gray g ((List.Perm.swap f f' trail).mem_iff.mp hg)
      closed := fun x y hx hy hc => by rw [hpending]; exact h.closed x y hx hy hc }

theorem start (h : Graying before origin trail e) (hc : e.graph.contains child)
    (hchild : ¬ e.Gray child) (hreached : ∃ r, origin r ∧ before.graph.Reaches r child) :
    Graying before origin ((child, before.graph.targets child) :: trail)
      (e.setColor child .gray) := by
  have hfresh : ∀ y, pending trail child y = 0 :=
    pending_eq_zero fun f hf hp => hchild (hp ▸ h.trail_gray f hf)
  have hother : ∀ x, child ≠ x → ((e.setColor child .gray).Gray x ↔ e.Gray x) := fun x hx => by
    rw [gray_setColor_gray hc]
    exact or_iff_right (Ne.symm hx)
  have hself : (e.setColor child .gray).Gray child := (gray_setColor_gray hc child).mpr (.inl rfl)
  have hpending : ∀ x y, child ≠ x →
      pending ((child, before.graph.targets child) :: trail) x y = pending trail x y :=
    fun x y hx => by rw [pending_cons, if_neg hx, Nat.zero_add]
  refine
    { untouched := h.untouched.setColor child .gray
      count_gray := fun x hx y => ?_
      count_other := fun x hx y => ?_
      color_other := fun x hcx hx => ?_
      pending_le := fun x y => ?_
      trail_gray := fun f hf => ?_
      closed := fun x y hx hy hcy => ?_
      reached := fun x hx => ?_ }
  · rw [graph_setColor, Graph.count_setColor]
    by_cases hxc : child = x
    · subst hxc
      rw [pending_cons, if_pos rfl, hfresh, h.count_other child hchild]
      simp [Graph.edgeCount]
    · rw [hpending x y hxc]
      exact h.count_gray x ((hother x hxc).mp hx) y
  · exact h.count_other x (fun hg => hx ((gray_setColor_gray hc x).mpr (.inr hg))) y
  · have hxc : child ≠ x := fun hp => hx (hp ▸ hself)
    rw [graph_setColor, Graph.color_setColor, if_neg hxc]
    exact h.color_other x hcx fun hg => hx ((hother x hxc).mpr hg)
  · by_cases hxc : child = x
    · subst hxc
      rw [pending_cons, if_pos rfl, hfresh]
      exact Nat.le_refl _
    · rw [hpending x y hxc]
      exact h.pending_le x y
  · rcases List.mem_cons.mp hf with rfl | hf
    · exact hself
    · exact (gray_setColor_gray hc f.1).mpr (.inr (h.trail_gray f hf))
  · by_cases hxc : child = x
    · subst hxc
      rw [pending_cons, if_pos rfl]
      exact .inr (Nat.lt_add_right _ (List.count_pos_iff.mpr hy))
    · rw [hpending x y hxc]
      exact (h.closed x y ((hother x hxc).mp hx) hy hcy).imp_left
        fun hg => (gray_setColor_gray hc y).mpr (.inr hg)
  · by_cases hxc : child = x
    · exact hxc ▸ hreached
    · exact h.reached x ((hother x hxc).mp hx)

theorem enter (h : Graying before origin ((path, child :: rest) :: trail) e)
    (hc : e.graph.contains child) (hchild : ¬ e.Gray child) :
    Graying before origin ((child, before.graph.targets child) :: (path, rest) :: trail)
      ((e.deleteReferrer child path).setColor child .gray) := by
  have hreached : ∃ r, origin r ∧ before.graph.Reaches r child := by
    obtain ⟨r, hr, hreach⟩ := h.reached path (h.trail_gray (path, child :: rest) List.mem_cons_self)
    refine ⟨r, hr, hreach.tail ⟨?_, by rw [← h.untouched.contains]; exact hc⟩⟩
    rw [← Graph.edgeCount_pos_iff]
    have := h.pending_le path child
    rw [pending_visit, if_pos ⟨rfl, rfl⟩] at this
    omega
  exact ((h.start hc hchild hreached).swap.pass
    ((gray_setColor_gray hc child).mpr (.inl rfl))).swap

end Graying

/-- Modules that may still turn gray. -/
def notGray (c : Color) : Bool := c ≠ .gray

theorem visitGray_of_gray (h : e.graph.color child = .gray) :
    visitGray path child e = (false, e.deleteReferrer child path) := by
  simp [visitGray, h]

theorem visitGray_of_not_gray (h : e.graph.color child ≠ .gray) :
    visitGray path child e = (true, (e.deleteReferrer child path).setColor child .gray) := by
  simp [visitGray, h]

theorem pays_visitGray : Pays notGray visitGray := by
  intro path child e hc
  by_cases hgray : e.graph.color child = .gray
  · rw [visitGray_of_gray hgray]
    exact Graph.left_le fun p hp hcolor => ⟨by simpa using hp, hcolor, by simp⟩
  · rw [visitGray_of_not_gray hgray]
    exact Graph.left_repaint .gray hc (by simp [notGray, hgray]) rfl (fun _ => by simp) (fun _ => by simp)
      fun _ => by simp [Graph.color_setColor]

theorem Graying.followFrom {r : String} (h : Graying before origin [] e)
    (hc : e.graph.contains r) (hr : ¬ e.Gray r) (horigin : origin r) :
    Graying before origin [] ((e.setColor r .gray).followFrom visitGray (fun _ => id) r) := by
  have hstart := h.start hc hr ⟨r, horigin, .refl⟩
  have htargets : (e.setColor r .gray).graph.targets r = before.graph.targets r :=
    hstart.untouched.targets r
  refine followFrom_invariant pays_visitGray (fun _ _ => Nat.le_refl _) (fun h => h.leave)
    (fun hc h => h.absent hc) ?_ ?_ (htargets ▸ hstart)
  · intro path child rest trail e hc hv h
    by_cases hgray : e.graph.color child = .gray
    · rw [visitGray_of_gray hgray]
      exact h.pass ⟨hc, hgray⟩
    · simp [visitGray_of_not_gray hgray] at hv
  · intro path child rest trail e hc hv h
    by_cases hgray : e.graph.color child = .gray
    · simp [visitGray_of_gray hgray] at hv
    · rw [visitGray_of_not_gray hgray]
      have hchild := h.enter hc fun hg => hgray hg.2
      rw [hchild.untouched.targets]
      exact hchild

theorem possibleRoots_visitGray (path child : String) (e : Edit) :
    (visitGray path child e).2.graph.possibleRoots = e.graph.possibleRoots := by
  by_cases hgray : e.graph.color child = .gray
  · rw [visitGray_of_gray hgray]
    rfl
  · rw [visitGray_of_not_gray hgray]
    rfl

theorem gray_visitGray {x : String} (h : e.Gray x) : (visitGray path child e).2.Gray x := by
  by_cases hgray : e.graph.color child = .gray
  · rw [visitGray_of_gray hgray]
    exact (gray_deleteReferrer child path x).mpr h
  · rw [visitGray_of_not_gray hgray]
    refine ⟨by simpa using h.1, ?_⟩
    rw [graph_setColor, Graph.color_setColor]
    split
    · rfl
    · exact h.2

theorem markGray_of_not_gray (h : e.graph.color path ≠ .gray) :
    e.markGray path = (e.setColor path .gray).followFrom visitGray (fun _ => id) path := by
  rw [markGray, if_neg h]

theorem possibleRoots_markGray (h : e.graph.color path ≠ .gray) :
    (e.markGray path).graph.possibleRoots = e.graph.possibleRoots := by
  rw [markGray_of_not_gray h]
  exact follow_preserves (P := fun e' => e'.graph.possibleRoots = e.graph.possibleRoots)
    (fun h => h) (fun h => (possibleRoots_visitGray _ _ _).trans h) _ _ _ rfl

theorem gray_markGray {x : String} (hc : e.graph.contains path)
    (h : e.graph.color path ≠ .gray) (hx : x = path ∨ e.Gray x) : (e.markGray path).Gray x := by
  rw [markGray_of_not_gray h]
  exact follow_preserves (P := fun e' => e'.Gray x) (fun h => h) gray_visitGray _ _ _
    ((gray_setColor_gray hc x).mpr hx)

-- ---------------------------------------------------------------------------
-- All roots
-- ---------------------------------------------------------------------------

theorem possibleRoots_dropRoot (path q : String) :
    (e.dropRoot path).graph.possibleRoots.contains q ↔
      path ≠ q ∧ e.graph.possibleRoots.contains q := by
  simp [dropRoot, OrderedSet.contains_erase]

theorem Graying.mono {origin' : String → Prop} (h : Graying before origin trail e)
    (hle : ∀ r, origin r → origin' r) : Graying before origin' trail e :=
  { h with
    reached := fun x hx => by
      obtain ⟨r, hr, hreach⟩ := h.reached x hx
      exact ⟨r, hle r hr, hreach⟩ }

theorem Graying.dropRoot (h : Graying before origin trail e) (path : String) :
    Graying before origin trail (e.dropRoot path) where
  untouched := h.untouched.dropRoot path
  count_gray := h.count_gray
  count_other := h.count_other
  color_other := h.color_other
  pending_le := h.pending_le
  trail_gray := h.trail_gray
  closed := h.closed
  reached := h.reached

/-- Nothing gray has an edge to a module that is not, so that one is counted as
before. -/
theorem Graying.count_eq (h : Graying before origin [] e) {y : String} (hy : ¬ e.Gray y)
    (x : String) : e.graph.count y x = before.graph.count y x := by
  by_cases hx : e.Gray x
  · rw [h.count_gray x hx y, pending_nil, Nat.sub_zero]
    suffices hzero : before.graph.edgeCount x y = 0 ∨ before.graph.count y x = 0 by omega
    cases hc : before.graph.contains y with
    | false => exact .inr (Graph.count_eq_zero hc x)
    | true =>
      refine .inl (Nat.eq_zero_of_not_pos fun hpos => ?_)
      rcases h.closed x y hx (Graph.edgeCount_pos_iff.mp hpos) hc with hg | hp
      · exact hy hg
      · exact Nat.lt_irrefl 0 hp
  · exact h.count_other x hx y

/-- The roots are marked in turn; those in `todo` still have to be. A root that
had its turn is gray, or a root no more. -/
structure Marking (before : Edit) (todo : List String) (e : Edit) : Prop where
  graying : Graying before (fun r => r ∉ todo ∧ before.graph.color r = .purple ∧
    before.graph.contains r ∧ e.graph.possibleRoots.contains r) [] e
  marked : ∀ r, before.graph.possibleRoots.contains r → before.graph.contains r →
    before.graph.color r = .purple → r ∉ todo → e.Gray r
  roots : ∀ r, e.graph.possibleRoots.contains r → before.graph.possibleRoots.contains r
  todo_roots : ∀ r ∈ todo, e.graph.possibleRoots.contains r
  done_roots : ∀ r, e.graph.possibleRoots.contains r → r ∉ todo → e.Gray r

variable {r : String} {todo : List String}

theorem Marking.drop (h : Marking before (r :: todo) e) (hr : r ∉ todo)
    (hgray : before.graph.contains r → before.graph.color r = .purple → e.Gray r) :
    Marking before todo (e.dropRoot r) where
  graying := (h.graying.dropRoot r).mono fun r' ⟨hnot, hcolor, hc, hroot⟩ => by
    rw [List.mem_cons, not_or] at hnot
    exact ⟨hnot.2, hcolor, hc, (possibleRoots_dropRoot r r').mpr ⟨Ne.symm hnot.1, hroot⟩⟩
  marked := by
    intro r' hroot hc hcolor hnot
    by_cases hrr : r' = r
    · subst hrr
      exact hgray hc hcolor
    · exact h.marked r' hroot hc hcolor (by simp [hrr, hnot])
  roots := fun r' hr' => h.roots r' ((possibleRoots_dropRoot r r').mp hr').2
  todo_roots := fun r' hr' => (possibleRoots_dropRoot r r').mpr
    ⟨fun hrr => hr (hrr ▸ hr'), h.todo_roots r' (.tail _ hr')⟩
  done_roots := by
    intro r' hr' hnot
    obtain ⟨hne, hr'⟩ := (possibleRoots_dropRoot r r').mp hr'
    exact h.done_roots r' hr' (by simp [Ne.symm hne, hnot])

theorem Marking.mark (h : Marking before (r :: todo) e) (hr : r ∉ todo)
    (hc : e.graph.contains r) (hcolor : e.graph.color r = .purple) :
    Marking before todo (e.markGray r) := by
  have hne : e.graph.color r ≠ .gray := by simp [hcolor]
  have hnot : ¬ e.Gray r := fun hg => hne hg.2
  have hroots := possibleRoots_markGray hne
  have hc' : before.graph.contains r := by rwa [← h.graying.untouched.contains]
  have hpurple : before.graph.color r = .purple := by rwa [← h.graying.color_other r hc hnot]
  refine
    { graying := ?_
      marked := fun r' hroot hc' hcolor' hnot => gray_markGray hc hne ?_
      roots := fun r' hr' => h.roots r' (hroots ▸ hr')
      todo_roots := fun r' hr' => hroots ▸ h.todo_roots r' (.tail _ hr')
      done_roots := fun r' hr' hnot => gray_markGray hc hne ?_ }
  · rw [hroots, markGray_of_not_gray hne]
    refine (h.graying.mono fun r' hr' => ?_).followFrom hc hnot ?_
    · exact ⟨fun hmem => hr'.1 (.tail _ hmem), hr'.2⟩
    · exact ⟨hr, hpurple, hc', h.todo_roots r List.mem_cons_self⟩
  · by_cases hrr : r' = r
    · exact .inl hrr
    · exact .inr (h.marked r' hroot hc' hcolor' (by simp [hrr, hnot]))
  · by_cases hrr : r' = r
    · exact .inl hrr
    · exact .inr (h.done_roots r' (hroots ▸ hr') (by simp [hrr, hnot]))

/-- A black root is referenced as before, so it is not freed. -/
theorem Marking.step (hg : before.graph.Collectable) (hr : r ∉ todo)
    (h : Marking before (r :: todo) e) : Marking before todo (e.markRoot r) := by
  have huntouched := h.graying.untouched
  unfold markRoot
  cases hc : e.graph.contains r with
  | false =>
    refine h.drop hr fun hc' => ?_
    rw [huntouched.contains, hc'] at hc
    cases hc
  | true =>
    rw [if_pos rfl]
    split
    · rename_i hcolor
      exact h.mark hr hc hcolor
    · rename_i hcolor
      have hdrop : Marking before todo (e.dropRoot r) := by
        refine h.drop hr fun _ hpurple => ?_
        by_contra hnot
        exact hcolor ((h.graying.color_other r hc hnot).trans hpurple)
      rw [if_neg]
      · exact hdrop
      · intro hfree
        simp only [Bool.and_eq_true, decide_eq_true_eq, Bool.not_eq_true'] at hfree
        obtain ⟨⟨hblack, hunref⟩, hentry⟩ := hfree
        have hnot : ¬ e.Gray r := fun hg => by simp [hg.2] at hblack
        have hentry : before.graph.isEntry r = false := by
          rw [← huntouched.isEntry]
          exact hentry
        have hblack : before.graph.color r = .black :=
          (h.graying.color_other r hc hnot).symm.trans hblack
        rcases hg.held r (h.roots r (h.todo_roots r (.head _)))
          (by rw [← huntouched.contains, hc]) hblack with he | ⟨p, hp⟩
        · exact Bool.false_ne_true (hentry.symm.trans he)
        · rw [← h.graying.count_eq hnot, (Graph.isUnreferenced_iff _ _).mp hunref] at hp
          exact Nat.lt_irrefl 0 hp

/-- What trial deletion comes to: the modules under suspicion are gray, count
one another no more, and are reached from the roots that are left. -/
structure OnTrial (before e : Edit) : Prop where
  untouched : Untouched before e
  gray_iff : ∀ x, e.Gray x ↔ before.graph.Suspect x
  count_suspect : ∀ x, before.graph.Suspect x → ∀ y, e.graph.count y x = 0
  count_other : ∀ x, ¬ before.graph.Suspect x → ∀ y,
    e.graph.count y x = before.graph.count y x
  color_other : ∀ x, e.graph.contains x → ¬ before.graph.Suspect x → e.graph.color x = .black
  roots : ∀ r, e.graph.possibleRoots.contains r → before.graph.Suspect r
  rooted : ∀ x, before.graph.Suspect x → ∃ r, e.graph.possibleRoots.contains r ∧
    before.graph.Reaches r x

theorem Marking.finish (hg : before.graph.Collectable) (h : Marking before [] e) :
    OnTrial before e := by
  have hgray : ∀ x, e.Gray x ↔ before.graph.Suspect x := by
    intro x
    constructor
    · intro hx
      obtain ⟨r, ⟨_, hcolor, hc, hroot⟩, hreach⟩ := h.graying.reached x hx
      exact ⟨r, h.roots r hroot, hcolor, hc, hreach⟩
    · rintro ⟨r, hroot, hcolor, hc, hreach⟩
      induction hreach with
      | refl => exact h.marked r hroot hc hcolor List.not_mem_nil
      | tail _ hstep ih =>
        refine (h.graying.closed _ _ ih hstep.1 hstep.2).resolve_right ?_
        exact Nat.lt_irrefl 0
  refine
    { untouched := h.graying.untouched
      gray_iff := hgray
      count_suspect := fun x hx y => ?_
      count_other := fun x hx => h.graying.count_other x (mt (hgray x).mp hx)
      color_other := fun x hc hx => ?_
      roots := fun r hr => (hgray r).mp (h.done_roots r hr List.not_mem_nil)
      rooted := fun x hx => ?_ }
  · have := hg.count_le x y
    rw [h.graying.count_gray x ((hgray x).mpr hx), pending_nil]
    omega
  · rw [h.graying.color_other x hc (mt (hgray x).mp hx)]
    have hc' : before.graph.contains x := by rwa [← h.graying.untouched.contains]
    exact (hg.painted x hc').resolve_right fun hp => hx ⟨x, hp.2, hp.1, hc', .refl⟩
  · obtain ⟨r, ⟨_, _, _, hroot⟩, hreach⟩ := h.graying.reached x ((hgray x).mpr hx)
    exact ⟨r, hroot, hreach⟩

theorem Marking.init (hg : e.graph.Collectable) :
    Marking e e.graph.possibleRoots.toList e := by
  have hnot : ∀ x, ¬ e.Gray x := fun x hx => by
    rcases hg.painted x hx.1 with hb | hp
    · simp [hx.2] at hb
    · simp [hx.2] at hp
  have hmem := fun r => OrderedSet.mem_toList e.graph.possibleRoots r
  refine
    { graying :=
        { untouched := .refl e
          count_gray := fun x hx => absurd hx (hnot x)
          count_other := fun _ _ _ => rfl
          color_other := fun _ _ _ => rfl
          pending_le := fun _ _ => Nat.zero_le _
          trail_gray := nofun
          closed := fun x _ hx => absurd hx (hnot x)
          reached := fun x hx => absurd hx (hnot x) }
      marked := fun r hroot _ _ hr => absurd ((hmem r).mpr hroot) hr
      roots := fun _ hr => hr
      todo_roots := fun r hr => (hmem r).mp hr
      done_roots := fun r hroot hr => absurd ((hmem r).mpr hroot) hr }

theorem onTrial_foldl_markRoot (hg : e.graph.Collectable) :
    OnTrial e (e.graph.possibleRoots.toList.foldl markRoot e) := by
  suffices h : ∀ (todo : List String) (e' : Edit), todo.Nodup → Marking e todo e' →
      Marking e [] (todo.foldl markRoot e') from
    (h _ e e.graph.possibleRoots.nodup_toList (.init hg)).finish hg
  intro todo
  induction todo with
  | nil => exact fun e' _ h => h
  | cons r todo ih =>
    intro e' hnodup h
    obtain ⟨hr, hnodup⟩ := List.nodup_cons.mp hnodup
    exact ih _ hnodup (h.step hg hr)

end Edit

end BundleGraph
