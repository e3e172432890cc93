import BundleGraph.Proofs.Graph.Scan

/-!
# What a collection leaves

`collected` describes the whole collection: the garbage is gone, what anchors
reach is counted exactly, everything else is as it was, and no root is left.
-/

namespace BundleGraph

/-- What a collection leaves of the graph it started with. -/
structure Graph.Collected (before e : Graph) : Prop where
  settings : e.settings = before.settings
  garbage : ∀ x, before.Garbage x → e.contains x = false
  content : ∀ x, ¬ before.Garbage x → e.content? x = before.content? x
  count_garbage : ∀ x, before.Garbage x → ∀ y, e.contains y → e.count y x = 0
  count_anchored : ∀ x, before.Anchored x → ∀ y, e.contains y →
    e.count y x = before.edgeCount x y
  count_other : ∀ x, ¬ before.Suspect x → ∀ y, e.contains y → e.count y x = before.count y x
  color : ∀ x, e.contains x → e.color x = .black
  roots : ∀ x, e.possibleRoots.contains x = false

namespace Edit

/-- The module is not white in the graph: it was entered, freed, or never
garbage. -/
def Settled (e : Edit) (x : String) : Prop := e.graph.contains x → e.graph.color x ≠ .white

/-- White modules being freed, after a scan that came to `mid`. The garbage that
garbage leads to is settled, waits for its turn as a root, or is pending. -/
structure Collecting (before mid : Edit) (waits : String → Prop) (trail : Trail) (e : Edit) :
    Prop where
  settings : e.graph.settings = before.graph.settings
  kept : ∀ x, ¬ before.graph.Garbage x →
    e.graph.content? x = before.graph.content? x ∧
      (∀ r, e.graph.count x r = mid.graph.count x r) ∧
      (e.graph.contains x → e.graph.color x = .black)
  content : ∀ x, e.graph.contains x → e.graph.content? x = before.graph.content? x
  shade : ∀ x, before.graph.Garbage x → e.graph.contains x →
    e.graph.color x = .white ∨ ∃ f ∈ trail, f.1 = x
  trail_settled : ∀ f ∈ trail, before.graph.Garbage f.1 ∧ e.Settled f.1
  closed : ∀ x y, before.graph.Garbage x → e.Settled x → before.graph.Garbage y →
    before.graph.Step x y → e.Settled y ∨ waits y ∨ 0 < pending trail x y
  waiting : ∀ x, before.graph.Garbage x → waits x →
    e.graph.contains x ∧ e.graph.color x = .white
  rooted : ∀ r, before.graph.Garbage r → mid.graph.possibleRoots.contains r →
    e.Settled r ∨ waits r

variable {before mid e : Edit} {waits waits' : String → Prop} {trail : Trail}
  {path child r : String} {rest : List String}

namespace Collecting

theorem congr (h : Collecting before mid waits trail e)
    (hwaits : ∀ y, before.graph.Garbage y → (waits' y ↔ waits y)) :
    Collecting before mid waits' trail e :=
  { h with
    closed := fun x y hx hs hy hstep => by
      rw [hwaits y hy]
      exact h.closed x y hx hs hy hstep
    waiting := fun x hx hw => h.waiting x hx ((hwaits x hx).mp hw)
    rooted := fun r hr hroot => by
      rw [hwaits r hr]
      exact h.rooted r hr hroot }

theorem dropRoot (h : Collecting before mid waits trail e) (path : String) :
    Collecting before mid waits trail (e.dropRoot path) :=
  { settings := h.settings, kept := h.kept, content := h.content, shade := h.shade,
    trail_settled := h.trail_settled, closed := h.closed, waiting := h.waiting,
    rooted := h.rooted }

theorem swap {f f' : String × List String}
    (h : Collecting before mid waits (f :: f' :: trail) e) :
    Collecting before mid waits (f' :: f :: trail) e := by
  have hpending : ∀ x y, pending (f' :: f :: trail) x y = pending (f :: f' :: trail) x y :=
    fun x y => Nat.add_left_comm _ _ _
  have hmem : ∀ g, g ∈ f' :: f :: trail ↔ g ∈ f :: f' :: trail :=
    fun g => (List.Perm.swap f f' trail).mem_iff
  exact
    { h with
      shade := fun x hx hc => by
        refine (h.shade x hx hc).imp_right fun ⟨g, hg, hgx⟩ => ⟨g, (hmem g).mpr hg, hgx⟩
      trail_settled := fun g hg => h.trail_settled g ((hmem g).mp hg)
      closed := fun x y hx hs hy hstep => by rw [hpending]; exact h.closed x y hx hs hy hstep }

theorem visited (h : Collecting before mid waits ((path, child :: rest) :: trail) e)
    (hchild : before.graph.Garbage child → e.Settled child ∨ waits child) :
    Collecting before mid waits ((path, rest) :: trail) e :=
  { h with
    shade := fun x hx hc => by
      refine (h.shade x hx hc).imp_right fun ⟨f, hf, hfx⟩ => ?_
      rcases List.mem_cons.mp hf with rfl | hf
      · exact ⟨_, List.mem_cons_self, hfx⟩
      · exact ⟨f, .tail _ hf, hfx⟩
    trail_settled := fun f hf => by
      rcases List.mem_cons.mp hf with rfl | hf
      · exact h.trail_settled (path, child :: rest) List.mem_cons_self
      · exact h.trail_settled f (.tail _ hf)
    closed := fun x y hx hs hy hstep => by
      rcases h.closed x y hx hs hy hstep with hy' | hw | hp
      · exact .inl hy'
      · exact .inr (.inl hw)
      · rw [pending_visit] at hp
        by_cases hxy : path = x ∧ child = y
        · obtain ⟨rfl, rfl⟩ := hxy
          exact (hchild hy).imp_right .inl
        · rw [if_neg hxy] at hp
          exact .inr (.inr hp) }

theorem start (h : Collecting before mid waits trail e) (hgarbage : before.graph.Garbage child) :
    Collecting before mid (fun y => waits y ∧ child ≠ y)
      ((child, before.graph.targets child) :: trail) (e.setColor child .black) := by
  have hcolor : ∀ x, (e.setColor child .black).graph.color x =
      if child = x then .black else e.graph.color x := Graph.color_setColor child .black
  have hsettled : ∀ x, (e.setColor child .black).Settled x ↔ child = x ∨ e.Settled x := by
    intro x
    unfold Settled
    rw [hcolor]
    by_cases hx : child = x <;> simp [hx]
  refine
    { settings := h.settings
      kept := fun x hx => ?_
      content := h.content
      shade := fun x hx hc => ?_
      trail_settled := fun f hf => ?_
      closed := fun x y hx hs hy hstep => ?_
      waiting := fun x hx hw => ?_
      rooted := fun r hr hroot => ?_ }
  · obtain ⟨hcontent, hcount, hblack⟩ := h.kept x hx
    refine ⟨hcontent, hcount, fun hc => ?_⟩
    rw [hcolor, hblack hc, ite_self]
  · by_cases hxc : child = x
    · exact .inr ⟨_, List.mem_cons_self, hxc⟩
    · rw [hcolor, if_neg hxc]
      exact (h.shade x hx hc).imp_right fun ⟨f, hf, hfx⟩ => ⟨f, .tail _ hf, hfx⟩
  · rw [hsettled]
    rcases List.mem_cons.mp hf with rfl | hf
    · exact ⟨hgarbage, .inl rfl⟩
    · exact ⟨(h.trail_settled f hf).1, .inr (h.trail_settled f hf).2⟩
  · rw [hsettled, pending_cons]
    by_cases hxc : child = x
    · subst hxc
      rw [if_pos rfl]
      exact .inr (.inr (Nat.lt_add_right _ (List.count_pos_iff.mpr hstep.1)))
    · rw [if_neg hxc, Nat.zero_add]
      by_cases hyc : child = y
      · exact .inl (.inl hyc)
      · rcases h.closed x y hx (((hsettled x).mp hs).resolve_left hxc) hy hstep with hy' | hw | hp
        · exact .inl (.inr hy')
        · exact .inr (.inl ⟨hw, hyc⟩)
        · exact .inr (.inr hp)
  · obtain ⟨hc, hwhite⟩ := h.waiting x hx hw.1
    exact ⟨hc, by rw [hcolor, if_neg hw.2, hwhite]⟩
  · rw [hsettled]
    by_cases hrc : child = r
    · exact .inl (.inl hrc)
    · exact (h.rooted r hr hroot).imp .inr (⟨·, hrc⟩)

theorem leave (h : Collecting before mid waits ((path, []) :: trail) e) :
    Collecting before mid waits trail (e.free path) := by
  obtain ⟨hgarbage, hpath⟩ := h.trail_settled (path, []) List.mem_cons_self
  have hsettled : ∀ x, (e.free path).Settled x ↔ e.Settled x := by
    intro x
    unfold Settled
    rw [contains_free, color_free]
    by_cases hx : path = x
    · subst hx
      simpa [Settled] using hpath
    · simp [hx]
  have hne : ∀ x, ¬ before.graph.Garbage x → path ≠ x := fun x hx hp => hx (hp ▸ hgarbage)
  refine
    { settings := (settings_free path).trans h.settings
      kept := fun x hx => ?_
      content := fun x hc => ?_
      shade := fun x hx hc => ?_
      trail_settled := fun f hf => ?_
      closed := fun x y hx hs hy hstep => ?_
      waiting := fun x hx hw => ?_
      rooted := fun r hr hroot => ?_ }
  · obtain ⟨hcontent, hcount, hblack⟩ := h.kept x hx
    refine ⟨by rw [content?_free, if_neg (hne x hx), hcontent], fun r => ?_, fun hc => ?_⟩
    · rw [graph_count_free, if_neg (hne x hx), hcount r]
    · rw [color_free, if_neg (hne x hx), hblack ((contains_free path x).mp hc).2]
  · obtain ⟨hx, hc⟩ := (contains_free path x).mp hc
    rw [content?_free, if_neg hx, h.content x hc]
  · obtain ⟨hxp, hc⟩ := (contains_free path x).mp hc
    rw [color_free, if_neg hxp]
    refine (h.shade x hx hc).imp_right fun ⟨f, hf, hfx⟩ => ?_
    rcases List.mem_cons.mp hf with rfl | hf
    · exact absurd hfx hxp
    · exact ⟨f, hf, hfx⟩
  · rw [hsettled]
    exact h.trail_settled f (.tail _ hf)
  · rw [hsettled, ← pending_leave path]
    exact h.closed x y hx ((hsettled x).mp hs) hy hstep
  · obtain ⟨hc, hwhite⟩ := h.waiting x hx hw
    have hxp : path ≠ x := by
      rintro rfl
      exact hpath hc hwhite
    exact ⟨(contains_free path x).mpr ⟨hxp, hc⟩, by rw [color_free, if_neg hxp, hwhite]⟩
  · rw [hsettled]
    exact h.rooted r hr hroot

theorem garbage_of_white (h : Collecting before mid waits trail e) {x : String}
    (hc : e.graph.contains x) (hw : e.graph.color x = .white) : before.graph.Garbage x := by
  by_contra hx
  simp [(h.kept x hx).2.2 hc] at hw

end Collecting

/-- Modules that are still to be entered. -/
def isWhite (c : Color) : Bool := c = .white

/-- The module is a root that has not had its turn. -/
def Rooted (e : Edit) (x : String) : Prop := e.graph.possibleRoots.contains x

theorem isCollectable_iff (path : String) :
    e.isCollectable path ↔ e.graph.color path = .white ∧ ¬ e.Rooted path := by
  simp [isCollectable, Rooted]

theorem visitWhite_of_collectable (h : e.isCollectable child) :
    visitWhite path child e = (true, e.setColor child .black) := by
  rw [visitWhite, if_pos h]

theorem visitWhite_of_not_collectable (h : ¬ e.isCollectable child) :
    visitWhite path child e = (false, e) := by
  rw [visitWhite, if_neg h]

theorem pays_visitWhite : Pays isWhite visitWhite := by
  intro path child e hc
  by_cases hcollect : e.isCollectable child
  · rw [visitWhite_of_collectable hcollect]
    have hwhite := ((isCollectable_iff child).mp hcollect).1
    exact Graph.left_repaint .black hc (by simp [isWhite, hwhite]) rfl (fun _ => by simp)
      (fun _ => by simp) fun _ => by simp [Graph.color_setColor]
  · rw [visitWhite_of_not_collectable hcollect]
    exact Nat.le_refl _

theorem left_free_le (C : Color → Bool) (path : String) (e : Edit) :
    (e.free path).graph.left C ≤ e.graph.left C := by
  refine Graph.left_le fun p hp hcolor => ?_
  obtain ⟨hne, hp⟩ := (contains_free path p).mp hp
  rw [color_free, if_neg hne] at hcolor
  refine ⟨hp, hcolor, ?_⟩
  rw [Graph.targets, edges_free, if_neg hne]
  rfl

theorem Collecting.followFrom
    (h : Collecting before mid e.Rooted [(path, before.graph.targets path)] e)
    (hc : e.graph.contains path) :
    Collecting before mid (e.followFrom visitWhite (fun path e => e.free path) path).Rooted []
      (e.followFrom visitWhite (fun path e => e.free path) path) := by
  refine followFrom_invariant (P := fun trail e => Collecting before mid e.Rooted trail e)
    pays_visitWhite (left_free_le isWhite) ?_ ?_ ?_ ?_ (Graph.targets_congr (h.content path hc) ▸ h)
  · intro path trail e h
    have hpath := (h.trail_settled (path, []) List.mem_cons_self).2
    refine h.leave.congr fun y hy => ?_
    refine (possibleRoots_free path y).trans (and_iff_right_of_imp fun hroot => ?_)
    rintro rfl
    obtain ⟨hc, hwhite⟩ := h.waiting path hy hroot
    exact hpath hc hwhite
  · intro path child rest trail e hc h
    refine h.visited fun _ => .inl fun hc' => ?_
    rw [hc'] at hc
    cases hc
  · intro path child rest trail e hc hv h
    by_cases hcollect : e.isCollectable child
    · simp [visitWhite_of_collectable hcollect] at hv
    · rw [visitWhite_of_not_collectable hcollect]
      refine h.visited fun _ => ?_
      rw [isCollectable_iff, not_and_or, not_not] at hcollect
      exact hcollect.imp_left fun hw _ => hw
  · intro path child rest trail e hc hv h
    by_cases hcollect : e.isCollectable child
    · rw [visitWhite_of_collectable hcollect]
      obtain ⟨hwhite, hroot⟩ := (isCollectable_iff child).mp hcollect
      have hstart := h.start (h.garbage_of_white hc hwhite)
      have hsettled : (e.setColor child .black).Settled child := fun _ => by
        simp [Graph.color_setColor]
      have htargets : (e.setColor child .black).graph.targets child = before.graph.targets child :=
        Graph.targets_congr (hstart.content child hc)
      rw [htargets]
      refine (hstart.swap.visited fun _ => .inl hsettled).swap.congr fun y _ => ?_
      refine ⟨fun hy => ⟨hy, ?_⟩, And.left⟩
      rintro rfl
      exact hroot hy
    · simp [visitWhite_of_not_collectable hcollect] at hv

theorem rooted_dropRoot (y : String) : (e.dropRoot r).Rooted y ↔ r ≠ y ∧ e.Rooted y :=
  possibleRoots_dropRoot r y

theorem collectRoot_eq (e : Edit) (r : String) : e.collectRoot r =
    if (e.dropRoot r).graph.contains r then (e.dropRoot r).collectWhite r else e.dropRoot r := rfl

theorem Collecting.collectRoot (h : Collecting before mid e.Rooted [] e) :
    Collecting before mid (e.collectRoot r).Rooted [] (e.collectRoot r) := by
  rw [collectRoot_eq]
  by_cases hwhite : e.graph.contains r ∧ e.graph.color r = .white
  · have hc : (e.dropRoot r).graph.contains r := hwhite.1
    have hcollect : (e.dropRoot r).isCollectable r :=
      (isCollectable_iff r).mpr ⟨hwhite.2, fun hf => ((rooted_dropRoot r).mp hf).1 rfl⟩
    rw [if_pos hc, collectWhite, if_pos hcollect]
    refine (((h.start (h.garbage_of_white hwhite.1 hwhite.2)).dropRoot r).congr fun y _ => ?_).followFrom hc
    exact (rooted_dropRoot y).trans and_comm
  · have hdrop : Collecting before mid (e.dropRoot r).Rooted [] (e.dropRoot r) := by
      refine (h.dropRoot r).congr fun y hy => (rooted_dropRoot y).trans ?_
      refine and_iff_right_of_imp fun hyr => ?_
      rintro rfl
      exact hwhite (h.waiting r hy hyr)
    split
    · rename_i hc
      rw [collectWhite, if_neg]
      · exact hdrop
      · rw [isCollectable_iff]
        exact fun hcollect => hwhite ⟨hc, hcollect.1⟩
    · exact hdrop

theorem rooted_of_visitWhite {y : String} (h : (visitWhite path child e).2.Rooted y) :
    e.Rooted y := by
  by_cases hcollect : e.isCollectable child
  · rw [visitWhite_of_collectable hcollect] at h
    exact h
  · rwa [visitWhite_of_not_collectable hcollect] at h

theorem rooted_of_collectRoot {y : String} (h : (e.collectRoot r).Rooted y) :
    r ≠ y ∧ e.Rooted y := by
  rw [← rooted_dropRoot]
  rw [collectRoot_eq] at h
  split at h
  · unfold collectWhite at h
    split at h
    · revert h
      exact follow_preserves (P := fun e' => e'.Rooted y → (e.dropRoot r).Rooted y)
        (fun hp hy => hp ((possibleRoots_free _ y).mp hy).2)
        (fun hp hy => hp (rooted_of_visitWhite hy)) _ _ _ (fun hy => hy)
    · exact h
  · exact h

-- ---------------------------------------------------------------------------
-- The whole collection
-- ---------------------------------------------------------------------------

theorem Scanned.collecting (h : Scanned before mid) : Collecting before mid mid.Rooted [] mid := by
  have hwhite : ∀ x, before.graph.Garbage x →
      mid.graph.contains x ∧ mid.graph.color x = .white := by
    intro x hx
    have hc : mid.graph.contains x := by
      rw [h.untouched.contains]
      exact hx.1.contains
    exact ⟨hc, ((h.color x hc).resolve_right fun hnot => hnot.1 hx).2⟩
  exact
    { settings := h.untouched.settings
      kept := fun x hx => ⟨h.untouched.content x, fun _ => rfl, fun hc =>
        ((h.color x hc).resolve_left fun hg => hx hg.1).2⟩
      content := fun x _ => h.untouched.content x
      shade := fun x hx _ => .inl (hwhite x hx).2
      trail_settled := nofun
      closed := fun x y hx hs => absurd (hwhite x hx).2 (hs (hwhite x hx).1)
      waiting := fun x hx _ => hwhite x hx
      rooted := fun _ _ hroot => .inr hroot }

/-- With no root left to wait for, all garbage is settled: every piece is
reached from a root inside the garbage. -/
theorem Collecting.finish (hscanned : Scanned before mid)
    (h : Collecting before mid e.Rooted [] e) (hnone : ∀ x, ¬ e.Rooted x) :
    before.graph.Collected e.graph := by
  have hsettled : ∀ x, before.graph.Garbage x → e.Settled x := by
    intro x hx
    obtain ⟨r, hroot, hreach⟩ := hscanned.rooted x hx.1
    have hsuspect := hscanned.roots r hroot
    induction hreach with
    | refl => exact (h.rooted r hx hroot).resolve_right (hnone r)
    | @tail b c hb hs ih =>
      have hgarbage : before.graph.Garbage b :=
        ⟨hsuspect.reaches hb, fun hanchored => hx.2 (hanchored.step hs)⟩
      rcases h.closed b c hgarbage (ih hgarbage) hx hs with hc | hw | hp
      · exact hc
      · exact absurd hw (hnone c)
      · exact absurd hp (Nat.lt_irrefl 0)
  have hgone : ∀ x, before.graph.Garbage x → e.graph.contains x = false := by
    intro x hx
    rw [← Bool.not_eq_true]
    intro hc
    rcases h.shade x hx hc with hw | ⟨f, hf, _⟩
    · exact hsettled x hx hc hw
    · cases hf
  have hkept : ∀ x, e.graph.contains x → ¬ before.graph.Garbage x :=
    fun x hc hx => Bool.false_ne_true ((hgone x hx).symm.trans hc)
  have hbefore : ∀ x, e.graph.contains x → before.graph.contains x := fun x hc =>
    Graph.contains_congr (h.kept x (hkept x hc)).1 ▸ hc
  exact
    { settings := h.settings
      garbage := hgone
      content := fun x hx => (h.kept x hx).1
      count_garbage := fun x hx y hc =>
        ((h.kept y (hkept y hc)).2.1 x).trans (hscanned.count_garbage x hx y)
      count_anchored := fun x hx y hc =>
        ((h.kept y (hkept y hc)).2.1 x).trans (hscanned.count_anchored x hx y (hbefore y hc))
      count_other := fun x hx y hc =>
        ((h.kept y (hkept y hc)).2.1 x).trans (hscanned.count_other x hx y)
      color := fun x hc => (h.kept x (hkept x hc)).2.2 hc
      roots := fun x => Bool.not_eq_true _ ▸ hnone x }

theorem collected_of_collectable (hg : e.graph.Collectable) :
    e.graph.Collected e.collectCycles.graph := by
  have hscanned := scanned_foldl_scan (onTrial_foldl_markRoot hg)
  unfold collectCycles
  dsimp only
  generalize (e.graph.possibleRoots.toList.foldl markRoot e).graph.possibleRoots.toList.foldl scan
    (e.graph.possibleRoots.toList.foldl markRoot e) = mid at hscanned ⊢
  have hmem := fun r => OrderedSet.mem_toList mid.graph.possibleRoots r
  suffices h : ∀ (todo : List String) (e' : Edit), Collecting e mid e'.Rooted [] e' →
      (∀ x, e'.Rooted x → x ∈ todo) →
      Collecting e mid (todo.foldl Edit.collectRoot e').Rooted [] (todo.foldl Edit.collectRoot e') ∧
        ∀ x, ¬ (todo.foldl Edit.collectRoot e').Rooted x by
    obtain ⟨hcollecting, hnone⟩ := h mid.graph.possibleRoots.toList mid hscanned.collecting
      fun x hx => (hmem x).mpr hx
    exact hcollecting.finish hscanned hnone
  intro todo
  induction todo with
  | nil => exact fun e' h hall => ⟨h, fun x hx => List.not_mem_nil (hall x hx)⟩
  | cons r todo ih =>
    intro e' h hall
    refine ih _ h.collectRoot fun x hx => ?_
    obtain ⟨hne, hx⟩ := rooted_of_collectRoot hx
    exact (List.mem_cons.mp (hall x hx)).resolve_left (Ne.symm hne)

theorem collected (hcounted : e.graph.Counted) : e.graph.Collected e.collectCycles.graph :=
  collected_of_collectable hcounted.collectable

end Edit

namespace Graph

variable {g h : Graph}

theorem Suspect.anchored_or_garbage {x : String} (hx : g.Suspect x) : g.Anchored x ∨ g.Garbage x := by
  by_cases ha : g.Anchored x
  · exact .inl ha
  · exact .inr ⟨hx, ha⟩

theorem not_garbage_of_count {x y : String} (hy : ¬ g.Garbage x) (hcount : 0 < g.count y x)
    (hle : g.count y x ≤ g.edgeCount x y) : ¬ g.Garbage y := by
  intro hgarbage
  by_cases hx : g.Suspect x
  · have hanchored := hx.anchored_or_garbage.resolve_right hy
    have htarget := edgeCount_pos_iff.mp (Nat.lt_of_lt_of_le hcount hle)
    exact hgarbage.2 (hanchored.step ⟨htarget, hgarbage.1.contains⟩)
  · exact hgarbage.2 ⟨y, ⟨hgarbage.1, .inr ⟨x, hx, hcount⟩⟩, .refl⟩

namespace Collected

theorem contains (hcol : Collected g h) (x : String) :
    h.contains x ↔ g.contains x ∧ ¬ g.Garbage x := by
  by_cases hx : g.Garbage x
  · simp [hcol.garbage x hx, hx]
  · rw [contains_congr (hcol.content x hx)]
    simp [hx]

theorem content_of_contains (hcol : Collected g h) {x : String} (hx : h.contains x) :
    h.content? x = g.content? x :=
  hcol.content x ((hcol.contains x).mp hx).2

theorem isEntry (hcol : Collected g h) (x : String) : h.isEntry x = g.isEntry x :=
  isEntry_congr hcol.settings x

theorem entry (hcol : Collected g h) {x : String} (hentry : g.isEntry x) (hx : g.contains x) :
    h.contains x :=
  (hcol.contains x).mpr ⟨hx, fun hgarbage =>
    hgarbage.2 ⟨x, ⟨hgarbage.1, .inl hentry⟩, .refl⟩⟩

theorem referenced (hcol : Collected g h) (hcounted : g.Counted) {x : String}
    (hx : h.contains x) : h.isEntry x ∨ ∃ p, 0 < h.count x p := by
  obtain ⟨hc, hgarbage⟩ := (hcol.contains x).mp hx
  rw [hcol.isEntry]
  by_cases hsuspect : g.Suspect x
  · obtain ⟨a, ha, hreach⟩ := hsuspect.anchored_or_garbage.resolve_right hgarbage
    rcases Relation.ReflTransGen.cases_tail hreach with rfl | ⟨b, hab, hstep⟩
    · refine ha.2.imp_right fun ⟨p, hp, hcount⟩ => ⟨p, ?_⟩
      rwa [hcol.count_other p hp x hx]
    · refine .inr ⟨b, ?_⟩
      rw [hcol.count_anchored b ⟨a, ha, hab⟩ x hx]
      exact edgeCount_pos_iff.mpr hstep.1
  · refine (hcounted.referenced x hc).imp_right fun ⟨p, hp⟩ => ⟨p, ?_⟩
    have htarget := edgeCount_pos_iff.mp (Nat.lt_of_lt_of_le hp (hcounted.count_le p x))
    rwa [hcol.count_other p (fun hps => hsuspect (hps.step ⟨htarget, hc⟩)) x hx]

theorem count_le (hcol : Collected g h) (hcounted : g.Counted) (p t : String) :
    h.count t p ≤ h.edgeCount p t := by
  cases hc : h.contains t with
  | false => rw [count_eq_zero hc]; exact Nat.zero_le _
  | true =>
    by_cases hgarbage : g.Garbage p
    · rw [hcol.count_garbage p hgarbage t hc]
      exact Nat.zero_le _
    · rw [edgeCount_congr (hcol.content p hgarbage)]
      by_cases hsuspect : g.Suspect p
      · rw [hcol.count_anchored p (hsuspect.anchored_or_garbage.resolve_right hgarbage) t hc]
      · rw [hcol.count_other p hsuspect t hc]
        exact hcounted.count_le p t

/-- The edges of garbage are counted no more and those of anchored modules are
counted anew; all others are counted as they were. -/
theorem count_eq (hcol : Collected g h) {p t : String} (ht : h.contains t)
    (hother : ¬ g.Garbage p → ¬ g.Suspect p → g.count t p = g.edgeCount p t) :
    h.count t p = h.edgeCount p t := by
  by_cases hgarbage : g.Garbage p
  · rw [hcol.count_garbage p hgarbage t ht, edgeCount_eq_zero (hcol.garbage p hgarbage)]
  · rw [edgeCount_congr (hcol.content p hgarbage)]
    by_cases hsuspect : g.Suspect p
    · exact hcol.count_anchored p (hsuspect.anchored_or_garbage.resolve_right hgarbage) t ht
    · rw [hcol.count_other p hsuspect t ht, hother hgarbage hsuspect]

/-- After a collection all edges lead to modules and are counted there exactly
when every edge that was not counted before it starts at garbage, or at an
anchored module and leads to one that was in the graph. -/
theorem exact_iff (hcol : Collected g h) (hcounted : g.Counted) :
    ((∀ p t, t ∈ h.targets p → h.contains t) ∧
      ∀ p t, h.contains t → h.count t p = h.edgeCount p t) ↔
    ∀ p t, g.count t p < g.edgeCount p t → g.Garbage p ∨ g.Anchored p ∧ g.contains t := by
  constructor
  · rintro ⟨hdangling, hcount⟩ p t hgap
    by_cases hgarbage : g.Garbage p
    · exact .inl hgarbage
    · have hsame := hcol.content p hgarbage
      have htarget : t ∈ h.targets p := by
        rw [targets_congr hsame, ← edgeCount_pos_iff]
        omega
      have ht := hdangling p t htarget
      refine .inr ⟨?_, ((hcol.contains t).mp ht).1⟩
      by_contra hanchored
      have hsuspect : ¬ g.Suspect p := fun hs =>
        (hs.anchored_or_garbage).elim hanchored hgarbage
      have := hcount p t ht
      rw [hcol.count_other p hsuspect t ht, edgeCount_congr hsame] at this
      omega
  · intro hgap
    have hstays : ∀ p t, t ∈ h.targets p → h.contains t := by
      intro p t htarget
      have hp : ¬ g.Garbage p := ((hcol.contains p).mp (contains_of_mem_targets htarget)).2
      rw [targets_congr (hcol.content p hp)] at htarget
      have hedge := edgeCount_pos_iff.mpr htarget
      by_cases hlt : g.count t p < g.edgeCount p t
      · obtain ⟨hanchored, ht⟩ := (hgap p t hlt).resolve_left hp
        exact (hcol.contains t).mpr ⟨ht, fun hgarbage =>
          hgarbage.2 (hanchored.step ⟨htarget, ht⟩)⟩
      · have hpos : 0 < g.count t p := by omega
        refine (hcol.contains t).mpr ⟨?_, not_garbage_of_count hp hpos (hcounted.count_le p t)⟩
        by_contra hc
        rw [count_eq_zero (by simpa using hc)] at hpos
        exact Nat.lt_irrefl 0 hpos
    refine ⟨hstays, fun p t ht => hcol.count_eq ht fun hgarbage hsuspect => ?_⟩
    refine Nat.le_antisymm (hcounted.count_le p t) (Nat.le_of_not_lt fun hlt => ?_)
    exact (hgap p t hlt).elim hgarbage fun hanchored => hsuspect hanchored.1.suspect

end Collected

end Graph

end BundleGraph
