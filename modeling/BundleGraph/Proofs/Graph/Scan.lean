import BundleGraph.Proofs.Graph.TrialDeletion

/-!
# Telling garbage from what is alive

A suspect that is an entry point, or is counted by a module that is no suspect,
anchors all it reaches. The scan turns these modules black again and gives them
their counts back, edge by edge; every other suspect turns white.
`Scanning.finish` says that the white modules are exactly the garbage.
-/

namespace BundleGraph

namespace Graph

/-- A suspect that something outside holds. -/
def Anchor (g : Graph) (path : String) : Prop :=
  g.Suspect path ∧ (g.isEntry path ∨ ∃ p, ¬ g.Suspect p ∧ 0 < g.count path p)

/-- An anchor reaches the module. -/
def Anchored (g : Graph) (path : String) : Prop := ∃ a, g.Anchor a ∧ g.Reaches a path

/-- A suspect that no anchor reaches. -/
def Garbage (g : Graph) (path : String) : Prop := g.Suspect path ∧ ¬ g.Anchored path

variable {g : Graph}

theorem Suspect.contains {x : String} (h : g.Suspect x) : g.contains x := by
  obtain ⟨r, _, _, hr, hreach⟩ := h
  exact hreach.contains hr

theorem Suspect.step {x y : String} (h : g.Suspect x) (hs : g.Step x y) : g.Suspect y := by
  obtain ⟨r, hroot, hcolor, hr, hreach⟩ := h
  exact ⟨r, hroot, hcolor, hr, hreach.tail hs⟩

theorem Suspect.reaches {x y : String} (h : g.Suspect x) (hr : g.Reaches x y) :
    g.Suspect y := by
  induction hr with
  | refl => exact h
  | tail _ hs ih => exact ih.step hs

theorem Anchored.step {x y : String} (h : g.Anchored x) (hs : g.Step x y) : g.Anchored y := by
  obtain ⟨a, ha, hreach⟩ := h
  exact ⟨a, ha, hreach.tail hs⟩

theorem Anchored.suspect {x : String} (h : g.Anchored x) : g.Suspect x := by
  obtain ⟨a, ha, hreach⟩ := h
  exact ha.1.reaches hreach

end Graph

namespace Edit

/-- Counts given back: a black suspect's edges are counted, but for those its
frame still has to visit; another suspect's are not. -/
structure Restoring (before : Edit) (trail : Trail) (e : Edit) : Prop where
  untouched : Untouched before e
  count_other : ∀ x, ¬ before.graph.Suspect x → ∀ y,
    e.graph.count y x = before.graph.count y x
  color_other : ∀ x, e.graph.contains x → ¬ before.graph.Suspect x → e.graph.color x = .black
  count_black : ∀ x, before.graph.Suspect x → e.graph.color x = .black →
    ∀ y, before.graph.contains y →
      e.graph.count y x + pending trail x y = before.graph.edgeCount x y
  count_dark : ∀ x, before.graph.Suspect x → e.graph.color x ≠ .black →
    ∀ y, e.graph.count y x = 0
  trail_black : ∀ f ∈ trail, before.graph.Suspect f.1 ∧ e.graph.color f.1 = .black
  closed : ∀ x y, before.graph.Suspect x → e.graph.color x = .black → before.graph.Step x y →
    e.graph.color y = .black ∨ 0 < pending trail x y
  anchored : ∀ x, before.graph.Suspect x → e.graph.color x = .black → before.graph.Anchored x

variable {before e : Edit} {trail : Trail} {path child : String} {rest : List String}

namespace Restoring

theorem leave (h : Restoring before ((path, []) :: trail) e) : Restoring before trail e where
  untouched := h.untouched
  count_other := h.count_other
  color_other := h.color_other
  count_black := fun x hx hc y hy => by rw [← pending_leave path]; exact h.count_black x hx hc y hy
  count_dark := h.count_dark
  trail_black := fun f hf => h.trail_black f (.tail _ hf)
  closed := fun x y hx hc hs => by rw [← pending_leave path]; exact h.closed x y hx hc hs
  anchored := h.anchored

theorem trail_black_tail (h : Restoring before ((path, child :: rest) :: trail) e) :
    ∀ f ∈ (path, rest) :: trail, before.graph.Suspect f.1 ∧ e.graph.color f.1 = .black := by
  intro f hf
  rcases List.mem_cons.mp hf with rfl | hf
  · exact h.trail_black (path, child :: rest) List.mem_cons_self
  · exact h.trail_black f (.tail _ hf)

theorem absent (h : Restoring before ((path, child :: rest) :: trail) e)
    (hc : e.graph.contains child = false) : Restoring before ((path, rest) :: trail) e := by
  have hpending : ∀ x y, before.graph.contains y →
      pending ((path, child :: rest) :: trail) x y = pending ((path, rest) :: trail) x y := by
    intro x y hy
    rw [pending_visit, if_neg, Nat.add_zero]
    rintro ⟨-, rfl⟩
    rw [h.untouched.contains, hy] at hc
    cases hc
  exact
    { h with
      count_black := fun x hx hblack y hy => by
        rw [← hpending x y hy]
        exact h.count_black x hx hblack y hy
      trail_black := h.trail_black_tail
      closed := fun x y hx hblack hs => by
        rw [← hpending x y hs.2]
        exact h.closed x y hx hblack hs }

theorem pass (h : Restoring before ((path, child :: rest) :: trail) e)
    (hc : e.graph.contains child) (hchild : e.graph.color child = .black) :
    Restoring before ((path, rest) :: trail) (e.addReferrer child path) := by
  obtain ⟨hsuspect, hblack⟩ := h.trail_black (path, child :: rest) List.mem_cons_self
  have hcount : ∀ y x, (e.addReferrer child path).graph.count y x =
      e.graph.count y x + if path = x ∧ child = y then 1 else 0 := fun y x => by
    rw [graph_addReferrer, Graph.count_addReferrer hc, if_congr (and_comm (a := child = y)) rfl rfl]
  refine
    { untouched := h.untouched.addReferrer child path
      count_other := fun x hx y => ?_
      color_other := fun x hx => h.color_other x (by simpa using hx)
      count_black := fun x hx hblack y hy => ?_
      count_dark := fun x hx hdark y => ?_
      trail_black := h.trail_black_tail
      closed := fun x y hx hblack hs => ?_
      anchored := h.anchored }
  · rw [hcount, if_neg fun (hp : path = x ∧ _) => hx (hp.1 ▸ hsuspect)]
    exact h.count_other x hx y
  · have := h.count_black x hx hblack y hy
    rw [pending_visit] at this
    rw [hcount]
    omega
  · rw [hcount, if_neg fun (hp : path = x ∧ _) => hdark (hp.1 ▸ hblack)]
    exact h.count_dark x hx hdark y
  · rcases h.closed x y hx hblack hs with hy | hp
    · exact .inl hy
    · rw [pending_visit] at hp
      by_cases hxy : path = x ∧ child = y
      · exact .inl (hxy.2 ▸ hchild)
      · rw [if_neg hxy] at hp
        exact .inr hp

theorem swap {f f' : String × List String} (h : Restoring before (f :: f' :: trail) e) :
    Restoring before (f' :: f :: trail) e := by
  have hpending : ∀ x y, pending (f' :: f :: trail) x y = pending (f :: f' :: trail) x y :=
    fun x y => Nat.add_left_comm _ _ _
  refine
    { h with
      count_black := fun x hx hc y hy => by rw [hpending]; exact h.count_black x hx hc y hy
      trail_black := fun g hg => h.trail_black g ((List.Perm.swap f f' trail).mem_iff.mp hg)
      closed := fun x y hx hc hs => by rw [hpending]; exact h.closed x y hx hc hs }

theorem start (h : Restoring before trail e) (hanchored : before.graph.Anchored child)
    (hdark : e.graph.color child ≠ .black) :
    Restoring before ((child, before.graph.targets child) :: trail)
      (e.setColor child .black) := by
  have hsuspect := hanchored.suspect
  have hfresh : ∀ y, pending trail child y = 0 :=
    pending_eq_zero fun f hf hp => hdark (hp ▸ (h.trail_black f hf).2)
  have hcolor : ∀ x, (e.setColor child .black).graph.color x =
      if child = x then .black else e.graph.color x := Graph.color_setColor child .black
  have hpending : ∀ x y, child ≠ x →
      pending ((child, before.graph.targets child) :: trail) x y = pending trail x y :=
    fun x y hx => by rw [pending_cons, if_neg hx, Nat.zero_add]
  refine
    { untouched := h.untouched.setColor child .black
      count_other := h.count_other
      color_other := fun x hc hx => ?_
      count_black := fun x hx hblack y hy => ?_
      count_dark := fun x hx hx' y => ?_
      trail_black := fun f hf => ?_
      closed := fun x y hx hblack hs => ?_
      anchored := fun x hx hblack => ?_ }
  · rw [hcolor, if_neg fun (hp : child = x) => hx (hp ▸ hsuspect)]
    exact h.color_other x hc hx
  · by_cases hxc : child = x
    · subst hxc
      rw [pending_cons, if_pos rfl, hfresh, graph_setColor, Graph.count_setColor,
        h.count_dark child hx hdark, Nat.zero_add, Nat.add_zero]
      rfl
    · rw [hcolor, if_neg hxc] at hblack
      rw [hpending x y hxc]
      exact h.count_black x hx hblack y hy
  · have hxc : child ≠ x := fun hp => hx' (by rw [hcolor, if_pos hp])
    rw [hcolor, if_neg hxc] at hx'
    exact h.count_dark x hx hx' y
  · rw [hcolor]
    rcases List.mem_cons.mp hf with rfl | hf
    · exact ⟨hsuspect, if_pos rfl⟩
    · obtain ⟨hf, hblack⟩ := h.trail_black f hf
      exact ⟨hf, by rw [hblack, ite_self]⟩
  · by_cases hxc : child = x
    · subst hxc
      rw [pending_cons, if_pos rfl]
      exact .inr (Nat.lt_add_right _ (List.count_pos_iff.mpr hs.1))
    · rw [hcolor, if_neg hxc] at hblack
      rw [hpending x y hxc, hcolor]
      exact (h.closed x y hx hblack hs).imp_left fun hy => by rw [hy, ite_self]
  · by_cases hxc : child = x
    · exact hxc ▸ hanchored
    · rw [hcolor, if_neg hxc] at hblack
      exact h.anchored x hx hblack

theorem enter (h : Restoring before ((path, child :: rest) :: trail) e)
    (hc : e.graph.contains child) (hdark : e.graph.color child ≠ .black) :
    Restoring before ((child, before.graph.targets child) :: (path, rest) :: trail)
      ((e.addReferrer child path).setColor child .black) := by
  obtain ⟨hsuspect, hblack⟩ := h.trail_black (path, child :: rest) List.mem_cons_self
  have hc' : before.graph.contains child := by rwa [← h.untouched.contains]
  have hstep : before.graph.Step path child := by
    refine ⟨?_, hc'⟩
    rw [← Graph.edgeCount_pos_iff]
    have := h.count_black path hsuspect hblack child hc'
    rw [pending_visit, if_pos ⟨rfl, rfl⟩] at this
    omega
  have hstart := h.start ((h.anchored path hsuspect hblack).step hstep) hdark
  refine (hstart.swap.pass (by simpa using hc) ?_).swap
  rw [graph_setColor, Graph.color_setColor, if_pos rfl]

end Restoring

/-- Modules that may still turn black. -/
def notBlack (c : Color) : Bool := c ≠ .black

theorem visitBlack_of_black (h : e.graph.color child = .black) :
    visitBlack path child e = (false, e.addReferrer child path) := by
  simp [visitBlack, h]

theorem visitBlack_of_not_black (h : e.graph.color child ≠ .black) :
    visitBlack path child e = (true, (e.addReferrer child path).setColor child .black) := by
  simp [visitBlack, h]

theorem pays_visitBlack : Pays notBlack visitBlack := by
  intro path child e hc
  by_cases hblack : e.graph.color child = .black
  · rw [visitBlack_of_black hblack]
    exact Graph.left_le fun p hp hcolor => ⟨by simpa using hp, hcolor, by simp⟩
  · rw [visitBlack_of_not_black hblack]
    exact Graph.left_repaint .black hc (by simp [notBlack, hblack]) rfl (fun _ => by simp)
      (fun _ => by simp) fun _ => by simp [Graph.color_setColor]

/-- Modules only ever turn black. -/
structure Blackened (before e : Edit) : Prop where
  color : ∀ x, e.graph.color x = before.graph.color x ∨ e.graph.color x = .black
  roots : e.graph.possibleRoots = before.graph.possibleRoots

theorem Blackened.setColor (h : Blackened before e) (path : String) :
    Blackened before (e.setColor path .black) where
  color := fun x => by
    rw [graph_setColor, Graph.color_setColor]
    split
    · exact .inr rfl
    · exact h.color x
  roots := h.roots

theorem Blackened.visitBlack (h : Blackened before e) :
    Blackened before (visitBlack path child e).2 := by
  have hadd : Blackened before (e.addReferrer child path) := ⟨h.color, h.roots⟩
  by_cases hblack : e.graph.color child = .black
  · rw [visitBlack_of_black hblack]
    exact hadd
  · rw [visitBlack_of_not_black hblack]
    exact hadd.setColor child

theorem blackened_markBlack (e : Edit) (path : String) : Blackened e (e.markBlack path) :=
  follow_preserves (P := Blackened e) (fun h => h) (fun h => h.visitBlack) _ _ _
    (Blackened.setColor ⟨fun _ => .inl rfl, rfl⟩ path)

theorem color_markBlack (e : Edit) (path : String) :
    (e.markBlack path).graph.color path = .black := by
  refine follow_preserves (P := fun e' => e'.graph.color path = .black) (fun h => h) ?_ _ _ _
    (by rw [graph_setColor, Graph.color_setColor, if_pos rfl])
  intro p c e' h
  have hblackened : Blackened e' (visitBlack p c e').2 :=
    Blackened.visitBlack ⟨fun _ => .inl rfl, rfl⟩
  exact (hblackened.color path).elim (·.trans h) id

theorem Restoring.markBlack (h : Restoring before [] e) (hanchored : before.graph.Anchored path)
    (hdark : e.graph.color path ≠ .black) : Restoring before [] (e.markBlack path) := by
  have hstart := h.start hanchored hdark
  have htargets : (e.setColor path .black).graph.targets path = before.graph.targets path :=
    hstart.untouched.targets path
  refine followFrom_invariant pays_visitBlack (fun _ _ => Nat.le_refl _) (fun h => h.leave)
    (fun hc h => h.absent hc) ?_ ?_ (htargets ▸ hstart)
  · intro path child rest trail e hc hv h
    by_cases hblack : e.graph.color child = .black
    · rw [visitBlack_of_black hblack]
      exact h.pass hc hblack
    · simp [visitBlack_of_not_black hblack] at hv
  · intro path child rest trail e hc hv h
    by_cases hblack : e.graph.color child = .black
    · simp [visitBlack_of_black hblack] at hv
    · rw [visitBlack_of_not_black hblack]
      have hchild := h.enter hc hblack
      rw [hchild.untouched.targets]
      exact hchild

-- ---------------------------------------------------------------------------
-- Judging
-- ---------------------------------------------------------------------------

/-- The scan underway: every suspect is gray, white or black, no white one is an
anchor, and the targets of a white one have been judged, but for those its
frame still has to visit. -/
structure Scanning (before : Edit) (trail : Trail) (e : Edit) : Prop where
  restoring : Restoring before [] e
  shade : ∀ x, before.graph.Suspect x →
    e.graph.color x = .gray ∨ e.graph.color x = .white ∨ e.graph.color x = .black
  white_bare : ∀ x, before.graph.Suspect x → e.graph.color x = .white → ¬ before.graph.Anchor x
  white_closed : ∀ x y, before.graph.Suspect x → e.graph.color x = .white →
    before.graph.Step x y → e.graph.color y ≠ .gray ∨ 0 < pending trail x y

/-- A module that is not gray is left alone; a gray one turns black when it is
referenced or an entry point, and white when it is not. -/
theorem judge_cases (e : Edit) (path : String) :
    (e.graph.color path ≠ .gray ∧ e.judge path = (false, e)) ∨
    (e.graph.color path = .gray ∧ (e.graph.isUnreferenced path = false ∨ e.graph.isEntry path) ∧
      e.judge path = (false, e.markBlack path)) ∨
    (e.graph.color path = .gray ∧ e.graph.isUnreferenced path ∧ e.graph.isEntry path = false ∧
      e.judge path = (true, e.setColor path .white)) := by
  unfold judge
  by_cases hg : e.graph.color path = .gray
  · refine .inr ?_
    rw [if_pos hg]
    cases hu : e.graph.isUnreferenced path with
    | false => exact .inl ⟨hg, .inl rfl, rfl⟩
    | true =>
      cases he : e.graph.isEntry path with
      | true => exact .inl ⟨hg, .inr rfl, rfl⟩
      | false => exact .inr ⟨hg, rfl, rfl, rfl⟩
  · exact .inl ⟨hg, if_neg hg⟩

namespace Scanning

theorem leave (h : Scanning before ((path, []) :: trail) e) : Scanning before trail e :=
  { h with
    white_closed := fun x y hx hw hs => by
      rw [← pending_leave path]
      exact h.white_closed x y hx hw hs }

theorem swap {f f' : String × List String} (h : Scanning before (f :: f' :: trail) e) :
    Scanning before (f' :: f :: trail) e := by
  have hpending : ∀ x y, pending (f' :: f :: trail) x y = pending (f :: f' :: trail) x y :=
    fun x y => Nat.add_left_comm _ _ _
  exact
    { h with
      white_closed := fun x y hx hw hs => by rw [hpending]; exact h.white_closed x y hx hw hs }

theorem judged (h : Scanning before ((path, child :: rest) :: trail) e)
    (hchild : before.graph.contains child → e.graph.color child ≠ .gray) :
    Scanning before ((path, rest) :: trail) e :=
  { h with
    white_closed := fun x y hx hw hs => by
      rcases h.white_closed x y hx hw hs with hy | hp
      · exact .inl hy
      · rw [pending_visit] at hp
        by_cases hxy : path = x ∧ child = y
        · exact .inl (hxy.2 ▸ hchild (hxy.2 ▸ hs.2))
        · rw [if_neg hxy] at hp
          exact .inr hp }

theorem suspect_of_gray (h : Scanning before trail e) {x : String} (hc : e.graph.contains x)
    (hg : e.graph.color x = .gray) : before.graph.Suspect x := by
  by_contra hx
  simp [h.restoring.color_other x hc hx] at hg

/-- A gray module that is counted is held from outside: what is black among the
suspects has black targets only. -/
theorem anchor_of_gray (h : Scanning before trail e) {x : String} (hc : e.graph.contains x)
    (hg : e.graph.color x = .gray)
    (hheld : e.graph.isUnreferenced x = false ∨ e.graph.isEntry x) : before.graph.Anchor x := by
  have hx := h.suspect_of_gray hc hg
  refine ⟨hx, ?_⟩
  rcases hheld with hu | he
  · refine .inr ?_
    have hcounted : ∃ r, 0 < e.graph.count x r := by
      by_contra hnone
      refine Bool.false_ne_true (hu.symm.trans ((Graph.isUnreferenced_iff _ _).mpr fun r => ?_))
      exact Nat.eq_zero_of_not_pos fun hr => hnone ⟨r, hr⟩
    obtain ⟨r, hr⟩ := hcounted
    have houtside : ¬ before.graph.Suspect r := by
      intro hsuspect
      by_cases hblack : e.graph.color r = .black
      · have hcount := h.restoring.count_black r hsuspect hblack x hx.contains
        rw [pending_nil, Nat.add_zero] at hcount
        have hstep : before.graph.Step r x :=
          ⟨Graph.edgeCount_pos_iff.mp (hcount ▸ hr), hx.contains⟩
        rcases h.restoring.closed r x hsuspect hblack hstep with hb | hp
        · simp [hb] at hg
        · exact Nat.lt_irrefl 0 hp
      · rw [h.restoring.count_dark r hsuspect hblack] at hr
        exact Nat.lt_irrefl 0 hr
    exact ⟨r, houtside, by rwa [← h.restoring.count_other r houtside]⟩
  · exact .inl (by rwa [← h.restoring.untouched.isEntry])

theorem blacken (h : Scanning before trail e) (hc : e.graph.contains child)
    (hg : e.graph.color child = .gray)
    (hheld : e.graph.isUnreferenced child = false ∨ e.graph.isEntry child) :
    Scanning before trail (e.markBlack child) := by
  have hanchor := h.anchor_of_gray hc hg hheld
  have hblackened := blackened_markBlack e child
  have hwhite : ∀ x, (e.markBlack child).graph.color x = .white → e.graph.color x = .white := by
    intro x hw
    rcases hblackened.color x with hsame | hb
    · exact hsame.symm.trans hw
    · simp [hb] at hw
  refine
    { restoring := h.restoring.markBlack ⟨child, hanchor, .refl⟩ (by simp [hg])
      shade := fun x hx => ?_
      white_bare := fun x hx hw => h.white_bare x hx (hwhite x hw)
      white_closed := fun x y hx hw hs => ?_ }
  · rcases hblackened.color x with hsame | hb
    · rw [hsame]
      exact h.shade x hx
    · exact .inr (.inr hb)
  · refine (h.white_closed x y hx (hwhite x hw) hs).imp_left fun hy => ?_
    rcases hblackened.color y with hsame | hb
    · rwa [hsame]
    · simp [hb]

theorem whiten (h : Scanning before trail e) (hc : e.graph.contains child)
    (hg : e.graph.color child = .gray) (hu : e.graph.isUnreferenced child)
    (hentry : e.graph.isEntry child = false) :
    Scanning before ((child, before.graph.targets child) :: trail)
      (e.setColor child .white) := by
  have hsuspect := h.suspect_of_gray hc hg
  have hcolor : ∀ x, (e.setColor child .white).graph.color x =
      if child = x then .white else e.graph.color x := Graph.color_setColor child .white
  have hblack : ∀ x, (e.setColor child .white).graph.color x = .black ↔
      e.graph.color x = .black := by
    intro x
    rw [hcolor]
    split
    · rename_i hx
      subst hx
      simp [hg]
    · rfl
  have hrestoring : Restoring before [] (e.setColor child .white) :=
    { untouched := h.restoring.untouched.setColor child .white
      count_other := h.restoring.count_other
      color_other := fun x hx hx' => (hblack x).mpr (h.restoring.color_other x hx hx')
      count_black := fun x hx hb => h.restoring.count_black x hx ((hblack x).mp hb)
      count_dark := fun x hx hd => h.restoring.count_dark x hx (mt (hblack x).mpr hd)
      trail_black := nofun
      closed := fun x y hx hb hs =>
        (h.restoring.closed x y hx ((hblack x).mp hb) hs).imp_left (hblack y).mpr
      anchored := fun x hx hb => h.restoring.anchored x hx ((hblack x).mp hb) }
  refine
    { restoring := hrestoring
      shade := fun x hx => ?_
      white_bare := fun x hx hw => ?_
      white_closed := fun x y hx hw hs => ?_ }
  · rw [hcolor]
    split
    · exact .inr (.inl rfl)
    · exact h.shade x hx
  · by_cases hxc : child = x
    · subst hxc
      rintro ⟨_, he | ⟨r, hr, hcount⟩⟩
      · rw [h.restoring.untouched.isEntry, he] at hentry
        cases hentry
      · rw [← h.restoring.count_other r hr, (Graph.isUnreferenced_iff _ _).mp hu] at hcount
        exact Nat.lt_irrefl 0 hcount
    · rw [hcolor, if_neg hxc] at hw
      exact h.white_bare x hx hw
  · rw [pending_cons]
    by_cases hxc : child = x
    · subst hxc
      rw [if_pos rfl]
      exact .inr (Nat.lt_add_right _ (List.count_pos_iff.mpr hs.1))
    · rw [hcolor, if_neg hxc] at hw
      rw [if_neg hxc, Nat.zero_add, hcolor]
      refine (h.white_closed x y hx hw hs).imp_left fun hy => ?_
      split
      · simp
      · exact hy

end Scanning

/-- Modules that are still to be judged. -/
def isGray (c : Color) : Bool := c = .gray

theorem left_markBlack_le (e : Edit) (path : String)
    (h : Untouched e (e.markBlack path)) :
    (e.markBlack path).graph.left isGray ≤ e.graph.left isGray := by
  refine Graph.left_le fun p hp hcolor => ?_
  refine ⟨by rwa [← h.contains], ?_, h.targets p⟩
  rcases (blackened_markBlack e path).color p with hsame | hb
  · rwa [← hsame]
  · simp [isGray, hb] at hcolor

theorem color_judge_ne_gray {x : String} (h : e.graph.color x ≠ .gray) :
    (e.judge path).2.graph.color x ≠ .gray := by
  rcases e.judge_cases path with ⟨_, hj⟩ | ⟨_, _, hj⟩ | ⟨_, _, _, hj⟩
  · rwa [hj]
  · rw [hj]
    rcases (blackened_markBlack e path).color x with hsame | hb
    · simpa [hsame] using h
    · simp [hb]
  · rw [hj]
    simp only [graph_setColor, Graph.color_setColor]
    split
    · simp
    · exact h

theorem color_judge_self (e : Edit) (path : String) :
    (e.judge path).2.graph.color path ≠ .gray := by
  rcases e.judge_cases path with ⟨hg, hj⟩ | ⟨_, _, hj⟩ | ⟨_, _, _, hj⟩
  · rwa [hj]
  · rw [hj]
    simp [color_markBlack e path]
  · rw [hj]
    simp [Graph.color_setColor]

theorem possibleRoots_judge (e : Edit) (path : String) :
    (e.judge path).2.graph.possibleRoots = e.graph.possibleRoots := by
  rcases e.judge_cases path with ⟨_, hj⟩ | ⟨_, _, hj⟩ | ⟨_, _, _, hj⟩
  · rw [hj]
  · rw [hj]
    exact (blackened_markBlack e path).roots
  · rw [hj]
    rfl

theorem Untouched.markBlack (e : Edit) (path : String) : Untouched e (e.markBlack path) := by
  refine follow_preserves (P := Untouched e) (fun h => h) (fun {path child e'} h => ?_) _ _ _
    ((Untouched.refl e).setColor path .black)
  by_cases hblack : e'.graph.color child = .black
  · rw [visitBlack_of_black hblack]
    exact h.addReferrer child path
  · rw [visitBlack_of_not_black hblack]
    exact (h.addReferrer child path).setColor child .black

theorem pays_judge : Pays isGray fun _ child e => e.judge child := by
  intro path child e hc
  dsimp only
  rcases e.judge_cases child with ⟨hg, hj⟩ | ⟨hg, _, hj⟩ | ⟨hg, _, _, hj⟩
  · rw [hj]
    exact Nat.le_refl _
  · rw [hj]
    exact left_markBlack_le e child (.markBlack e child)
  · rw [hj]
    exact Graph.left_repaint .white hc (by simp [isGray, hg]) rfl (fun _ => by simp) (fun _ => by simp)
      fun _ => by simp [Graph.color_setColor]

theorem Scanning.followFrom (h : Scanning before [(path, before.graph.targets path)] e) :
    Scanning before [] (e.followFrom (fun _ child e => e.judge child) (fun _ => id) path) := by
  refine followFrom_invariant pays_judge (fun _ _ => Nat.le_refl _) (fun h => h.leave) ?_ ?_ ?_
    (h.restoring.untouched.targets path ▸ h)
  · intro path child rest trail e hc h
    refine h.judged fun hc' => ?_
    rw [h.restoring.untouched.contains, hc'] at hc
    cases hc
  · intro path child rest trail e hc hv h
    rcases e.judge_cases child with ⟨hg, hj⟩ | ⟨hg, hheld, hj⟩ | ⟨_, _, _, hj⟩
    · rw [hj]
      exact h.judged fun _ => hg
    · rw [hj]
      exact (h.blacken hc hg hheld).judged fun _ => by simp [color_markBlack]
    · simp [hj] at hv
  · intro path child rest trail e hc hv h
    rcases e.judge_cases child with ⟨hg, hj⟩ | ⟨hg, hheld, hj⟩ | ⟨hg, hu, hentry, hj⟩
    · simp [hj] at hv
    · simp [hj] at hv
    · rw [hj]
      have hwhite := h.whiten hc hg hu hentry
      have htargets : (e.setColor child .white).graph.targets child = before.graph.targets child :=
        hwhite.restoring.untouched.targets child
      rw [htargets]
      refine (hwhite.swap.judged fun _ => ?_).swap
      simp [Graph.color_setColor]

theorem possibleRoots_scan (e : Edit) (path : String) :
    (e.scan path).graph.possibleRoots = e.graph.possibleRoots := by
  have hj := possibleRoots_judge e path
  unfold scan
  split <;> rename_i heq <;> rw [heq] at hj
  · exact follow_preserves (P := fun e' => e'.graph.possibleRoots = e.graph.possibleRoots)
      (fun h => h) (fun h => (possibleRoots_judge _ _).trans h) _ _ _ hj
  · exact hj

theorem color_scan_ne_gray {x : String} (h : x = path ∨ e.graph.color x ≠ .gray) :
    (e.scan path).graph.color x ≠ .gray := by
  have hj : (e.judge path).2.graph.color x ≠ .gray := by
    rcases h with rfl | h
    · exact color_judge_self e x
    · exact color_judge_ne_gray h
  unfold scan
  split <;> rename_i heq <;> rw [heq] at hj
  · exact follow_preserves (P := fun e' => e'.graph.color x ≠ .gray) (fun h => h)
      color_judge_ne_gray _ _ _ hj
  · exact hj

theorem Scanning.scan (h : Scanning before [] e) (hc : e.graph.contains path) :
    Scanning before [] (e.scan path) := by
  unfold Edit.scan
  rcases e.judge_cases path with ⟨_, hj⟩ | ⟨hg, hheld, hj⟩ | ⟨hg, hu, hentry, hj⟩
  · rw [hj]
    exact h
  · rw [hj]
    exact h.blacken hc hg hheld
  · rw [hj]
    exact (h.whiten hc hg hu hentry).followFrom

-- ---------------------------------------------------------------------------
-- All roots
-- ---------------------------------------------------------------------------

/-- What the scan comes to: the garbage is white, all else is black with its
edges counted. -/
structure Scanned (before e : Edit) : Prop where
  untouched : Untouched before e
  color : ∀ x, e.graph.contains x →
    before.graph.Garbage x ∧ e.graph.color x = .white ∨
    ¬ before.graph.Garbage x ∧ e.graph.color x = .black
  count_garbage : ∀ x, before.graph.Garbage x → ∀ y, e.graph.count y x = 0
  count_anchored : ∀ x, before.graph.Anchored x → ∀ y, before.graph.contains y →
    e.graph.count y x = before.graph.edgeCount x y
  count_other : ∀ x, ¬ before.graph.Suspect x → ∀ y,
    e.graph.count y x = before.graph.count y x
  roots : ∀ r, e.graph.possibleRoots.contains r → before.graph.Suspect r
  rooted : ∀ x, before.graph.Suspect x → ∃ r, e.graph.possibleRoots.contains r ∧
    before.graph.Reaches r x

theorem Scanning.finish (h : Scanning before [] e)
    (hroots : ∀ r, e.graph.possibleRoots.contains r →
      before.graph.Suspect r ∧ e.graph.color r ≠ .gray)
    (hrooted : ∀ x, before.graph.Suspect x → ∃ r, e.graph.possibleRoots.contains r ∧
      before.graph.Reaches r x) : Scanned before e := by
  have hr := h.restoring
  have hjudged : ∀ x, before.graph.Suspect x → e.graph.color x ≠ .gray := by
    intro x hx
    obtain ⟨r, hroot, hreach⟩ := hrooted x hx
    obtain ⟨hsuspect, hcolor⟩ := hroots r hroot
    induction hreach with
    | refl => exact hcolor
    | @tail b c hb hs ih =>
      have hbsuspect := hsuspect.reaches hb
      have hbcolor := ih hbsuspect
      rcases h.shade b hbsuspect with hg | hw | hblack
      · exact absurd hg hbcolor
      · exact (h.white_closed b c hbsuspect hw hs).resolve_right (Nat.lt_irrefl 0)
      · simp [(hr.closed b c hbsuspect hblack hs).resolve_right (Nat.lt_irrefl 0)]
  have hblack : ∀ x, before.graph.Anchored x → e.graph.color x = .black := by
    rintro x ⟨a, ha, hreach⟩
    induction hreach with
    | refl =>
      rcases h.shade a ha.1 with hg | hw | hb
      · exact absurd hg (hjudged a ha.1)
      · exact absurd ha (h.white_bare a ha.1 hw)
      · exact hb
    | @tail b c hb hs ih =>
      exact (hr.closed b c (ha.1.reaches hb) ih hs).resolve_right (Nat.lt_irrefl 0)
  refine
    { untouched := hr.untouched
      color := fun x hc => ?_
      count_garbage := fun x hx => hr.count_dark x hx.1 fun hb => hx.2 (hr.anchored x hx.1 hb)
      count_anchored := fun x hx y hy => hr.count_black x hx.suspect (hblack x hx) y hy
      count_other := hr.count_other
      roots := fun r hroot => (hroots r hroot).1
      rooted := hrooted }
  by_cases hx : before.graph.Suspect x
  · rcases h.shade x hx with hg | hw | hb
    · exact absurd hg (hjudged x hx)
    · refine .inl ⟨⟨hx, fun hanchored => ?_⟩, hw⟩
      simp [hblack x hanchored] at hw
    · exact .inr ⟨fun hgarbage => hgarbage.2 (hr.anchored x hx hb), hb⟩
  · exact .inr ⟨fun hgarbage => hx hgarbage.1, hr.color_other x hc hx⟩

theorem OnTrial.scanning (h : OnTrial before e) : Scanning before [] e := by
  have hnot : ∀ x, before.graph.Suspect x → e.graph.color x = .gray :=
    fun x hx => ((h.gray_iff x).mpr hx).2
  refine
    { restoring :=
        { untouched := h.untouched
          count_other := h.count_other
          color_other := h.color_other
          count_black := fun x hx hb => ?_
          count_dark := fun x hx _ => h.count_suspect x hx
          trail_black := nofun
          closed := fun x y hx hb => ?_
          anchored := fun x hx hb => ?_ }
      shade := fun x hx => .inl (hnot x hx)
      white_bare := fun x hx hw => ?_
      white_closed := fun x y hx hw => ?_ }
  all_goals simp_all

theorem scanned_foldl_scan (h : OnTrial before e) :
    Scanned before (e.graph.possibleRoots.toList.foldl scan e) := by
  have hmem := fun r => OrderedSet.mem_toList e.graph.possibleRoots r
  suffices hfold : ∀ (todo : List String) (e' : Edit), Scanning before [] e' →
      (∀ r ∈ todo, before.graph.Suspect r) →
      Scanning before [] (todo.foldl Edit.scan e') ∧
        (todo.foldl Edit.scan e').graph.possibleRoots = e'.graph.possibleRoots ∧
        ∀ x, x ∈ todo ∨ e'.graph.color x ≠ .gray → (todo.foldl Edit.scan e').graph.color x ≠ .gray by
    obtain ⟨hscanning, hroots, hcolor⟩ := hfold e.graph.possibleRoots.toList e h.scanning
      fun r hr => h.roots r ((hmem r).mp hr)
    refine hscanning.finish (fun r hr => ?_) fun x hx => ?_
    · rw [hroots] at hr
      exact ⟨h.roots r hr, hcolor r (.inl ((hmem r).mpr hr))⟩
    · rw [hroots]
      exact h.rooted x hx
  intro todo
  induction todo with
  | nil => exact fun e' h _ => ⟨h, rfl, fun x hx => hx.resolve_left List.not_mem_nil⟩
  | cons r todo ih =>
    intro e' h hsuspect
    have hc : e'.graph.contains r := by
      rw [h.restoring.untouched.contains]
      exact (hsuspect r List.mem_cons_self).contains
    obtain ⟨hscanning, hroots, hcolor⟩ := ih _ (h.scan hc) fun r hr => hsuspect r (.tail _ hr)
    refine ⟨hscanning, hroots.trans (possibleRoots_scan e' r), fun x hx => hcolor x ?_⟩
    rcases hx with hx | hx
    · rcases List.mem_cons.mp hx with rfl | hx
      · exact .inr (color_scan_ne_gray (.inl rfl))
      · exact .inl hx
    · exact .inr (color_scan_ne_gray (.inr hx))

end Edit

end BundleGraph
