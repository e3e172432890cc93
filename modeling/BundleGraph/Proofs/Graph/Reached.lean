import BundleGraph.Proofs.Graph.Traverse

/-!
# What a collection leaves unreached

A collection starts from the purple roots only. It leaves nothing unreached
exactly when every module outside their reach was reached before. What was
marked as a possible root, but turned black again under an edge that was added
later, is passed over with all that hangs on it.
-/

namespace BundleGraph

namespace Graph

variable {g h : Graph}

/-- A possible root that was painted black again. -/
def Repainted (g : Graph) (path : String) : Prop :=
  g.possibleRoots.contains path ∧ g.contains path ∧ g.color path = .black

theorem reached_of_marked {e : Edit} (hm : e.Marked fun _ => False) (hcounted : e.graph.Counted)
    (hrepainted : ∀ r, e.graph.Repainted r → e.graph.Reached r ∨ e.graph.Suspect r)
    {p : String} (hp : e.graph.contains p) (hsuspect : ¬ e.graph.Suspect p) :
    e.graph.Reached p := by
  obtain ⟨r, hr, hc, hreach⟩ := hm p hp
  rcases hr with hentry | hroot | hnone
  · exact ⟨r, hentry, hreach⟩
  · rcases hcounted.painted r hc with hblack | ⟨hpurple, _⟩
    · rcases hrepainted r ⟨hroot, hc, hblack⟩ with ⟨entry, hentry, hr⟩ | hr
      · exact ⟨entry, hentry, hr.trans hreach⟩
      · exact absurd (hr.reaches hreach) hsuspect
    · exact absurd ⟨r, hroot, hpurple, hc, hreach⟩ hsuspect
  · exact hnone.elim

namespace Collected

theorem step_of_step (hcol : Collected g h) {p q : String} (hs : h.Step p q) : g.Step p q := by
  have hcontent := hcol.content_of_contains (contains_of_mem_targets hs.1)
  exact ⟨targets_congr hcontent ▸ hs.1, ((hcol.contains q).mp hs.2).1⟩

/-- What keeps a set of modules apart from the garbage is reached as before. -/
theorem reaches_within (hcol : Collected g h) (keep : String → Prop)
    (hkeep : ∀ p, keep p → ¬ g.Garbage p) {p q : String} (hr : g.Reaches p q)
    (hclosed : ∀ x, g.Reaches p x → g.Reaches x q → keep x) : h.Reaches p q := by
  induction hr with
  | refl => exact .refl
  | tail hpx hs ih =>
    rename_i x y
    have hx : ¬ g.Garbage x := hkeep x (hclosed x hpx (.single hs))
    have hy : ¬ g.Garbage y := hkeep y (hclosed y (hpx.tail hs) .refl)
    refine (ih fun z hz hzx => hclosed z hz (hzx.tail hs)).tail ⟨?_, ?_⟩
    · rw [targets_congr (hcol.content x hx)]
      exact hs.1
    · exact (hcol.contains y).mpr ⟨hs.2, hy⟩

theorem reached_of_not_suspect (hcol : Collected g h) {p : String} (hp : ¬ g.Suspect p)
    (hr : g.Reached p) : h.Reached p := by
  obtain ⟨r, hentry, hreach⟩ := hr
  refine ⟨r, by rwa [hcol.isEntry], hcol.reaches_within (fun x => ¬ g.Suspect x)
    (fun _ hx hg => hx hg.1) hreach fun x _ hx hs => hp (hs.reaches hx)⟩

/-- An anchored module is reached: its anchor is an entry point, or is counted by
a module that is no suspect. -/
theorem reached_of_anchored (hcol : Collected g h) (hcounted : g.Counted)
    (hother : ∀ p, g.contains p → ¬ g.Suspect p → g.Reached p) {p : String}
    (hp : g.Anchored p) : h.Reached p := by
  obtain ⟨a, ha, hreach⟩ := hp
  have hap : h.Reaches a p := hcol.reaches_within g.Anchored
    (fun _ hx hg => hg.2 hx) hreach fun x hx _ => ⟨a, ha, hx⟩
  rcases ha.2 with hentry | ⟨q, hq, hcount⟩
  · exact ⟨a, by rwa [hcol.isEntry], hap⟩
  · have htarget := edgeCount_pos_iff.mp (Nat.lt_of_lt_of_le hcount (hcounted.count_le q a))
    obtain ⟨r, hentry, hr⟩ :=
      hcol.reached_of_not_suspect hq (hother q (contains_of_mem_targets htarget) hq)
    have hqa : h.Step q a := by
      refine ⟨?_, (hcol.contains a).mpr ⟨ha.1.contains, fun hg => hg.2 ⟨a, ha, .refl⟩⟩⟩
      rw [targets_congr (hcol.content q fun hg => hq hg.1)]
      exact htarget
    exact ⟨r, hentry, (hr.tail hqa).trans hap⟩

theorem allReached_iff_before (hcol : Collected g h) (hcounted : g.Counted) :
    h.AllReached ↔ ∀ p, g.contains p → ¬ g.Suspect p → g.Reached p := by
  constructor
  · intro hall p hp hsuspect
    obtain ⟨r, hentry, hreach⟩ := hall p ((hcol.contains p).mpr ⟨hp, fun hg => hsuspect hg.1⟩)
    exact ⟨r, by rwa [← hcol.isEntry],
      Relation.ReflTransGen.mono (fun _ _ hs => hcol.step_of_step hs) _ _ hreach⟩
  · intro hother p hp
    obtain ⟨hc, hgarbage⟩ := (hcol.contains p).mp hp
    by_cases hsuspect : g.Suspect p
    · exact hcol.reached_of_anchored hcounted hother
        (hsuspect.anchored_or_garbage.resolve_right hgarbage)
    · exact hcol.reached_of_not_suspect hsuspect (hother p hc hsuspect)

end Collected

variable {σ : Type} {ctx : Traversal.Context σ} {modified deleted : List String}
  {host : σ} {d : GraphDelta} {t : Traversal σ}

theorem deleted_deltaOf (e : Edit) : (deltaOf e).deleted = e.deleted.toList := rfl

theorem deleted_traverse (hg : g.Tidy) (hshallow : ctx.shallow = false)
    (h : g.traverse ctx modified deleted host = (.ok d, t)) {p : String} (hp : g.contains p)
    (hgone : t.edit.graph.contains p = false) : p ∈ d.deleted := by
  obtain ⟨start, hworked, hedit, hd, _⟩ := traverse_ok h
  have hu := underway_worked hg hshallow hworked
  have hreported := hu.reported.collectCycles
  rw [hedit] at hgone
  rw [hd, deleted_deltaOf, OrderedSet.mem_toList, hedit]
  refine hreported.deleted p hp hgone ?_
  refine Edit.loading_collectCycles (fun q => ?_) p
  exact Edit.loading_contains_eq_false.mpr (hu.loading_none q)

/-- From a graph that is reached in whole, a traversal leaves something unreached
exactly when a possible root was painted black again, nothing reaches it, and no
other root leads the collection to it. -/
theorem allReached_traverse_iff (hg : g.Tidy) (hshallow : ctx.shallow = false)
    (h : g.traverse ctx modified deleted host = (.ok d, t)) :
    ∃ start, g.worked ctx modified deleted host = (.ok (), start) ∧
      (t.edit.graph.AllReached ↔ ∀ p, start.edit.graph.contains p →
        ¬ start.edit.graph.Suspect p → start.edit.graph.Reached p) ∧
      (g.AllReached → (t.edit.graph.AllReached ↔ ∀ r, start.edit.graph.Repainted r →
        start.edit.graph.Reached r ∨ start.edit.graph.Suspect r)) := by
  obtain ⟨start, hworked, hedit, _⟩ := traverse_ok h
  have hu := underway_worked hg hshallow hworked
  have hiff := (Edit.collected hu.counted).allReached_iff_before hu.counted
  rw [← hedit] at hiff
  refine ⟨start, hworked, hiff, fun hall => hiff.trans ⟨fun hother r hr => ?_, fun hrepainted p => ?_⟩⟩
  · by_cases hsuspect : start.edit.graph.Suspect r
    · exact .inr hsuspect
    · exact .inl (hother r hr.2.1 hsuspect)
  · exact reached_of_marked (hu.marked hall) hu.counted hrepainted

end Graph

end BundleGraph
