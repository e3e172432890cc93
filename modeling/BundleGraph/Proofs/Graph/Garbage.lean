import BundleGraph.Proofs.Graph.Initial

/-!
# Which modules a collection removes

When every edge is counted and the possible roots are all that is purple, what
is garbage can be told by reachability alone. A module that the roots reach is
anchored when an entry point reaches it, or a module that the roots do not
reach: on the way from there, the first module under suspicion is an anchor.
-/

namespace BundleGraph

namespace Graph

/-- Every module counts each edge that leads to it. -/
def ExactCounts (g : Graph) : Prop := ∀ p t, g.contains t → g.count t p = g.edgeCount p t

/-- The possible roots are purple, and all other modules are black. -/
def Painted (g : Graph) : Prop :=
  ∀ p, g.contains p → g.color p = if g.possibleRoots.contains p then .purple else .black

/-- A possible root reaches the module. -/
def RootReached (g : Graph) (path : String) : Prop :=
  ∃ r, g.possibleRoots.contains r ∧ g.contains r ∧ g.Reaches r path

variable {g h : Graph} {x m : String}

theorem painted_iff : g.Painted ↔ ∀ entry ∈ g.modules.toList,
    g.color entry.1 = if g.possibleRoots.contains entry.1 then .purple else .black := by
  constructor
  · rintro hp ⟨p, m⟩ hmem
    exact hp p ((contains_iff g p).mpr ⟨m, (g.modules.mem_toList p m).mp hmem⟩)
  · intro hp p hc
    obtain ⟨m, hm⟩ := (contains_iff g p).mp hc
    exact hp (p, m) ((g.modules.mem_toList p m).mpr hm)

instance : Decidable g.Painted := decidable_of_iff _ painted_iff.symm

theorem Painted.suspect_iff (hp : g.Painted) (x : String) : g.Suspect x ↔ g.RootReached x := by
  constructor
  · rintro ⟨r, hroot, -, hc, hreach⟩
    exact ⟨r, hroot, hc, hreach⟩
  · rintro ⟨r, hroot, hc, hreach⟩
    exact ⟨r, hroot, by rw [hp r hc, if_pos hroot], hc, hreach⟩

theorem ExactCounts.collectable (hg : g.ExactCounts) (hp : g.Painted) : g.Collectable where
  count_le := fun p t => by
    cases hc : g.contains t with
    | true => exact Nat.le_of_eq (hg p t hc)
    | false => simp [count_eq_zero hc]
  painted := fun p hc => by
    rw [hp p hc]
    split
    case isTrue hroot => exact .inr ⟨rfl, hroot⟩
    case isFalse => exact .inl rfl
  held := fun r hroot hc hblack => by
    rw [hp r hc, if_pos hroot] at hblack
    cases hblack

/-- On the way from a module out of suspicion, the first suspect is an anchor. -/
theorem ExactCounts.anchored_of_reaches (hg : g.ExactCounts) (hm : ¬ g.Suspect m)
    (hx : g.Suspect x) (hreach : g.Reaches m x) : g.Anchored x := by
  induction hreach using Relation.ReflTransGen.head_induction_on with
  | refl => exact absurd hx hm
  | @head m a hstep hreach ih =>
    by_cases ha : g.Suspect a
    · have hcount : 0 < g.count a m := by
        rw [hg m a hstep.2]
        exact edgeCount_pos_iff.mpr hstep.1
      exact ⟨a, ⟨ha, .inr ⟨m, hm, hcount⟩⟩, hreach⟩
    · exact ih ha

theorem ExactCounts.anchored_iff (hg : g.ExactCounts) (hx : g.Suspect x) :
    g.Anchored x ↔ g.Reached x ∨ ∃ m, g.contains m ∧ ¬ g.Suspect m ∧ g.Reaches m x := by
  constructor
  · rintro ⟨a, ⟨hsuspect, hentry | ⟨p, hp, hcount⟩⟩, hreach⟩
    · exact .inl ⟨a, hentry, hreach⟩
    · rw [hg p a hsuspect.contains] at hcount
      have htarget := edgeCount_pos_iff.mp hcount
      exact .inr ⟨p, contains_of_mem_targets htarget, hp,
        .head ⟨htarget, hsuspect.contains⟩ hreach⟩
  · rintro (⟨entry, hentry, hreach⟩ | ⟨m, -, hm, hreach⟩)
    · by_cases hsuspect : g.Suspect entry
      · exact ⟨entry, ⟨hsuspect, .inl hentry⟩, hreach⟩
      · exact hg.anchored_of_reaches hsuspect hx hreach
    · exact hg.anchored_of_reaches hm hx hreach

theorem Collected.exactCounts (hcol : Collected g h) (hg : g.ExactCounts) : h.ExactCounts :=
  fun p t ht => hcol.count_eq ht fun _ _ => hg p t ((hcol.contains t).mp ht).1

/-- A collection removes exactly the modules that the roots reach, but neither
an entry point nor a module that the roots do not reach. All others keep what
they are, are counted exactly and are black, and no possible root is left. -/
theorem collectCycles_removes (e : Edit) (hcounts : e.graph.ExactCounts)
    (hpainted : e.graph.Painted) :
    let g := e.graph
    let h := e.collectCycles.graph
    (∀ x, g.contains x ∧ h.contains x = false ↔ g.RootReached x ∧ ¬ g.Reached x ∧
      ¬ ∃ m, g.contains m ∧ ¬ g.RootReached m ∧ g.Reaches m x) ∧
    (∀ x, h.contains x → h.content? x = g.content? x ∧ h.color x = .black) ∧
    h.ExactCounts ∧ ∀ r, h.possibleRoots.contains r = false := by
  intro g h
  have hg : g.ExactCounts := hcounts
  have hp : g.Painted := hpainted
  have hcol : Collected g h := Edit.collected_of_collectable (hg.collectable hp)
  refine ⟨fun x => ?_, fun x hx => ⟨hcol.content_of_contains hx, hcol.color x hx⟩,
    hcol.exactCounts hg, hcol.roots⟩
  have hgarbage : g.contains x ∧ h.contains x = false ↔ g.Garbage x := by
    constructor
    · rintro ⟨hx, hgone⟩
      by_contra hkept
      rw [(hcol.contains x).mpr ⟨hx, hkept⟩] at hgone
      cases hgone
    · exact fun hx => ⟨hx.1.contains, hcol.garbage x hx⟩
  simp only [hgarbage, Garbage, ← hp.suspect_iff]
  refine and_congr_right fun hx => ?_
  rw [hg.anchored_iff hx, not_or]

theorem exactCounts_worked {σ : Type} {ctx : Traversal.Context σ} {modified : List String}
    {host : σ} {t : Traversal σ} (hg : g.Exact) (hshallow : ctx.shallow = false)
    (h : g.worked ctx modified [] host = (.ok (), t)) : t.edit.graph.ExactCounts := by
  have hu := underway_worked hg.toTidy hshallow h
  intro p u _
  have hle : _ ≤ _ + g.slack [] p u := hu.le_count p u
  rw [hg.slack_eq] at hle
  exact Nat.le_antisymm (hu.counted.count_le p u) (by simpa using hle)

/-- The module `a` drops `b` and `d`. Of the two cycles that lose it, `b` and `c`
go, and `d` and `f` stay, since `x` still refers to `d`. -/
theorem collectCycles_removes_one_cycle :
    ∃ e : Edit, e.graph.ExactCounts ∧ e.graph.Painted ∧
      e.graph.RootReached "b" ∧ e.graph.RootReached "d" ∧
      e.collectCycles.graph.contains "b" = false ∧ ¬ e.graph.Reached "b" ∧
      e.collectCycles.graph.contains "d" ∧ e.collectCycles.graph.count "d" "f" = 1 ∧
      e.collectCycles.graph.ExactCounts := by
  let others : String → List String := fun path =>
    if path = "b" then ["c"] else if path = "c" then ["b"] else if path = "x" then ["d"]
    else if path = "d" then ["f"] else if path = "f" then ["d"] else []
  let before := Traversal.Context.ofImports fun path =>
    if path = "a" then ["b", "d", "x"] else others path
  let after := Traversal.Context.ofImports fun path => if path = "a" then ["x"] else others path
  let g := ((Graph.ofEntries ["a"] {}).initialTraverse before ()).2.edit.graph
  have hg : g.Exact := exact_of_isOk rfl (by decide +kernel)
  have hstart : (g.worked after ["a"] [] ()).1.isOk ∧
      (fun e : Edit => (decide e.graph.Painted, e.graph.possibleRoots.contains "d",
        e.graph.contains "b", e.graph.contains "d", e.collectCycles.graph.contains "b",
        e.collectCycles.graph.contains "d", e.collectCycles.graph.count "d" "f"))
        (g.worked after ["a"] [] ()).2.edit = (true, true, true, true, false, true, 1) := by
    decide +kernel
  clear_value g
  rcases hworked : g.worked after ["a"] [] () with ⟨_ | ⟨⟩, t⟩
  case error => simp [hworked, Except.isOk, Except.toBool] at hstart
  case ok =>
    rw [hworked] at hstart
    simp only [Prod.mk.injEq, decide_eq_true_eq] at hstart
    obtain ⟨-, hpainted, hroot, hb, hd, hgone, hkept, hcount⟩ := hstart
    have hcounts := exactCounts_worked hg rfl hworked
    obtain ⟨hremoved, -, hexact, -⟩ := collectCycles_removes t.edit hcounts hpainted
    obtain ⟨hreached, hnot, -⟩ := (hremoved "b").mp ⟨hb, hgone⟩
    exact ⟨t.edit, hcounts, hpainted, hreached, ⟨"d", hroot, hd, .refl⟩, hgone, hnot, hkept, hcount,
      hexact⟩

end Graph

end BundleGraph
