import BundleGraph.Proofs.Graph.Garbage

/-!
# What a release frees

A release frees the module it is asked for, and with it everything that loses its
last referrer, level by level. `Graph.Freed` is the least set of such modules,
told from the edges alone. While a stack is worked off, everything on it and
everything gone belongs to the set (`Freeing`); when the stack is empty, nothing
of the set is left.
-/

namespace BundleGraph

/-- The released module, and what is no entry point, has a referrer, and has all
its referrers among what is freed. -/
inductive Graph.Freed (g : Graph) (root : String) : String → Prop
  | root : g.Freed root root
  | cut {path : String} (hc : g.contains path) (hentry : g.isEntry path = false)
      (hreferred : ∃ origin, path ∈ g.targets origin)
      (hall : ∀ origin, path ∈ g.targets origin → g.Freed root origin) : g.Freed root path

namespace Edit

variable {g : Graph} {freed : String → Prop} {root path : String} {edge : Edge}
  {edges : List Edge} {stack : Stack} {e e' : Edit}

/-- A part of a graph in which every edge is counted exactly: what is missing
belongs to what is freed, and so does what has lost edges. -/
structure Shrunk (g : Graph) (freed : String → Prop) (e : Edit) : Prop where
  settings : e.graph.settings = g.settings
  loading : ∀ q : String, e.loading[q]? = none
  counts : e.graph.ExactCounts
  purple : ∀ q, e.graph.contains q → e.graph.color q = .purple → e.graph.possibleRoots.contains q
  old : ∀ q, e.graph.contains q → g.contains q
  gone : ∀ q, g.contains q → e.graph.contains q ∨ freed q
  kept : ∀ q, e.graph.contains q → freed q ∨ e.graph.targets q = g.targets q
  fewer : ∀ p t, e.graph.edgeCount p t ≤ g.edgeCount p t

theorem edgeCount_detach_held (hheld : e.graph.contains path → e.graph.edges path = edge :: edges)
    (p t : String) : (e.detach path edge).2.graph.edgeCount p t =
      e.graph.edgeCount p t - if edge.target = t ∧ path = p then 1 else 0 := by
  by_cases hp : path = p
  · subst hp
    cases hc : e.graph.contains path with
    | true =>
      rw [Graph.edgeCount, Graph.targets, edges_detach, if_pos rfl, Graph.edgeCount, Graph.targets,
        hheld hc]
      simp [Module.eraseEdge, List.count_cons]
    | false =>
      rw [Graph.edgeCount_eq_zero (by rwa [contains_detach]), Graph.edgeCount_eq_zero hc,
        Nat.zero_sub]
  · rw [edgeCount_detach_of_ne hp, if_neg fun h => hp h.2, Nat.sub_zero]

theorem loading_none_detach (h : ∀ q : String, e.loading[q]? = none) (path : String) (edge : Edge)
    (q : String) : (e.detach path edge).2.loading[q]? = none := by
  rw [← loading_contains_eq_false, loading_contains_detach, loading_contains_eq_false]
  exact h q

theorem Shrunk.count_eq (h : Shrunk g freed e) (q r : String) :
    e.count q r = e.graph.count q r := count_of_not_loading (h.loading q) r

theorem Shrunk.detach (h : Shrunk g freed e)
    (hheld : e.graph.contains path → e.graph.edges path = edge :: edges) (hpath : freed path) :
    Shrunk g freed (e.detach path edge).2 where
  settings := (settings_detach path edge).trans h.settings
  loading := loading_none_detach h.loading path edge
  counts := by
    intro p t ht
    rw [contains_detach] at ht
    rw [← count_of_not_loading (loading_none_detach h.loading path edge t), count_detach,
      edgeCount_detach_held hheld, h.count_eq, h.counts p t ht]
  purple := by
    intro q hq hpurple
    rw [contains_detach] at hq
    rw [possibleRoots_detach]
    rcases color_detach (e := e) path edge q with ⟨_, htarget, hmarks⟩ | ⟨hsame, _⟩
    · by_cases hold : e.graph.color q = .purple
      · exact .inl (h.purple q hq hold)
      · exact .inr ⟨htarget, hmarks, hold⟩
    · exact .inl (h.purple q hq (hsame ▸ hpurple))
  old := fun q hq => h.old q (by rwa [contains_detach] at hq)
  gone := fun q hq => by
    rw [contains_detach]
    exact h.gone q hq
  kept := by
    intro q hq
    rw [contains_detach] at hq
    by_cases hne : path = q
    · exact .inl (hne ▸ hpath)
    · rw [Graph.targets, edges_detach, if_neg hne]
      exact h.kept q hq
  fewer := fun p t => Nat.le_trans (edgeCount_detach_le path edge p t) (h.fewer p t)

theorem Shrunk.free (h : Shrunk g freed e)
    (hheld : e.graph.contains path → e.graph.edges path = []) (hpath : freed path) :
    Shrunk g freed (e.free path) where
  settings := (settings_free path).trans h.settings
  loading := fun q => by
    rw [loading_free, getElem?_erase_loading, h.loading q, ite_self]
  counts := by
    intro p t ht
    obtain ⟨hne, ht⟩ := (contains_free path t).mp ht
    rw [graph_count_free, if_neg hne, h.counts p t ht]
    by_cases hp : path = p
    · subst hp
      rw [edgeCount_free_self, edgeCount_of_edges_nil hheld]
    · rw [edgeCount_free_of_ne hp]
  purple := by
    intro q hq hpurple
    obtain ⟨hne, hq⟩ := (contains_free path q).mp hq
    rw [color_free, if_neg hne] at hpurple
    exact (possibleRoots_free path q).mpr ⟨hne, h.purple q hq hpurple⟩
  old := fun q hq => h.old q ((contains_free path q).mp hq).2
  gone := by
    intro q hq
    by_cases hne : path = q
    · exact .inr (hne ▸ hpath)
    · exact (h.gone q hq).imp_left fun hc => (contains_free path q).mpr ⟨hne, hc⟩
  kept := by
    intro q hq
    obtain ⟨hne, hq⟩ := (contains_free path q).mp hq
    rw [Graph.targets, edges_free, if_neg hne]
    exact h.kept q hq
  fewer := fun p t => Nat.le_trans (edgeCount_free_le path p t) (h.fewer p t)

-- ---------------------------------------------------------------------------
-- Working off the stack
-- ---------------------------------------------------------------------------

/-- While a release works off its stack: what is on it is to be freed. A module
that is neither on the stack nor an entry point has a referrer, if it ever had
one, and it is purple if it has lost an edge. -/
structure Freeing (g : Graph) (root : String) (stack : Stack) (e : Edit) : Prop
    extends Shrunk g (g.Freed root) e where
  stacked : ∀ q, Stacked stack q → g.Freed root q
  frames : ∀ f ∈ stack, ∀ edge ∈ f.2, edge.target ∈ g.targets f.1
  referred : ∀ t, e.graph.contains t → Stacked stack t ∨ g.isEntry t ∨
    (∃ origin, t ∈ e.graph.targets origin) ∨ ∀ origin, t ∉ g.targets origin
  marked : ∀ t, e.graph.contains t → Stacked stack t ∨ e.graph.color t = .purple ∨
    ∀ origin, e.graph.edgeCount origin t = g.edgeCount origin t

theorem Freeing.free (h : Freeing g root ((path, []) :: stack) e)
    (hheld : e.graph.contains path → e.graph.edges path = []) :
    Freeing g root stack (e.free path) where
  toShrunk := h.toShrunk.free hheld (h.stacked path (by simp))
  stacked := fun q hq => h.stacked q (by simp [hq])
  frames := fun f hf => h.frames f (.tail _ hf)
  referred := by
    intro t ht
    obtain ⟨hne, ht⟩ := (contains_free path t).mp ht
    rcases h.referred t ht with hs | hentry | ⟨origin, horigin⟩ | hnone
    · exact .inl ((stacked_cons.mp hs).resolve_left hne)
    · exact .inr (.inl hentry)
    · refine .inr (.inr (.inl ⟨origin, ?_⟩))
      have hpos := Graph.edgeCount_pos_iff.mpr horigin
      have hother : path ≠ origin := by
        rintro rfl
        rw [edgeCount_of_edges_nil hheld] at hpos
        exact Nat.lt_irrefl 0 hpos
      rw [← Graph.edgeCount_pos_iff, edgeCount_free_of_ne hother]
      exact hpos
    · exact .inr (.inr (.inr hnone))
  marked := by
    intro t ht
    obtain ⟨hne, ht⟩ := (contains_free path t).mp ht
    rw [color_free, if_neg hne]
    refine (h.marked t ht).imp (fun hs => (stacked_cons.mp hs).resolve_left hne)
      (Or.imp_right fun hsame origin => ?_)
    by_cases hother : path = origin
    · subst hother
      rw [edgeCount_free_self, ← hsame, edgeCount_of_edges_nil hheld]
    · rw [edgeCount_free_of_ne hother, hsame]

/-- What no longer has a referrer had all its edges from what is freed. -/
theorem Freeing.freed_target (h : Freeing g root ((path, edge :: edges) :: stack) e)
    (hd : (e.detach path edge).1 = true) : g.Freed root edge.target := by
  obtain ⟨_, hc, hentry, hzero⟩ := (fst_detach_iff path edge).mp hd
  rw [Graph.isEntry_congr h.settings] at hentry
  have hedge : edge.target ∈ g.targets path :=
    h.frames (path, edge :: edges) (.head _) edge (.head _)
  refine .cut (h.old _ hc) hentry ⟨path, hedge⟩ fun origin horigin => ?_
  by_cases hpath : path = origin
  · exact h.stacked origin (by simp [hpath])
  -- another referrer that still had its edges would be counted
  rcases h.gone origin (Graph.contains_of_mem_targets horigin) with hc' | hfreed
  · rcases h.kept origin hc' with hfreed | hsame
    · exact hfreed
    · have hpos : 0 < e.graph.edgeCount origin edge.target := by
        rw [Graph.edgeCount_pos_iff, hsame]
        exact horigin
      have hcount := hzero origin
      rw [count_detach, if_neg fun hf => hpath hf.2, h.count_eq, h.counts _ _ hc] at hcount
      omega
  · exact hfreed

theorem Freeing.referred_target (h : Freeing g root ((path, edge :: edges) :: stack) e)
    (hheld : e.graph.contains path → e.graph.edges path = edge :: edges)
    (hc : e.graph.contains edge.target) (hentry : g.isEntry edge.target = false)
    (hd : ¬ (e.detach path edge).1 = true) :
    ∃ origin, edge.target ∈ (e.detach path edge).2.graph.targets origin := by
  rw [fst_detach_iff] at hd
  by_contra hnone
  refine hd ⟨h.loading _, hc, by rwa [Graph.isEntry_congr h.settings], fun r => ?_⟩
  have hafter := h.toShrunk.detach hheld (h.stacked path (by simp))
  rw [hafter.count_eq, hafter.counts r _ (by rwa [contains_detach])]
  exact Nat.eq_zero_of_not_pos fun hr => hnone ⟨r, Graph.edgeCount_pos_iff.mp hr⟩

/-- An edge is dropped; `stack'` is the stack from then on, with the target on it
when that has to be released. -/
theorem Freeing.detach {stack' : Stack} (h : Freeing g root ((path, edge :: edges) :: stack) e)
    (hheld : e.graph.contains path → e.graph.edges path = edge :: edges)
    (hstack : ∀ q, Stacked stack' q ↔
      Stacked ((path, edge :: edges) :: stack) q ∨ (e.detach path edge).1 = true ∧ edge.target = q)
    (hframes : ∀ f ∈ stack', ∀ edge ∈ f.2, edge.target ∈ g.targets f.1) :
    Freeing g root stack' (e.detach path edge).2 where
  toShrunk := h.toShrunk.detach hheld (h.stacked path (by simp))
  stacked := by
    intro q hq
    rcases (hstack q).mp hq with hq | ⟨hd, rfl⟩
    · exact h.stacked q hq
    · exact h.freed_target hd
  frames := hframes
  referred := by
    intro t ht
    rw [contains_detach] at ht
    rw [hstack]
    have hother : edge.target ≠ t → ∀ origin, t ∈ e.graph.targets origin →
        t ∈ (e.detach path edge).2.graph.targets origin := by
      intro hne origin horigin
      rw [← Graph.edgeCount_pos_iff, edgeCount_detach_held hheld, if_neg fun hf => hne hf.1]
      exact Graph.edgeCount_pos_iff.mpr horigin
    by_cases htarget : edge.target = t
    · subst htarget
      by_cases hd : (e.detach path edge).1 = true
      · exact .inl (.inr ⟨hd, rfl⟩)
      cases hentry : g.isEntry edge.target with
      | true => exact .inr (.inl rfl)
      | false =>
        exact .inr (.inr (.inl (h.referred_target hheld ht hentry hd)))
    · rcases h.referred t ht with hs | hentry | ⟨origin, horigin⟩ | hnone
      · exact .inl (.inl hs)
      · exact .inr (.inl hentry)
      · exact .inr (.inr (.inl ⟨origin, hother htarget origin horigin⟩))
      · exact .inr (.inr (.inr hnone))
  marked := by
    intro t ht
    rw [contains_detach] at ht
    rw [hstack]
    rcases color_detach (e := e) path edge t with ⟨hpurple, _⟩ | ⟨hsame, hunmarked⟩
    · exact .inr (.inl hpurple)
    · rw [hsame]
      by_cases htarget : edge.target = t
      · subst htarget
        refine .inl (.inr ⟨?_, rfl⟩)
        by_contra hd
        exact hunmarked ⟨rfl, h.loading _, ht, by simpa using hd⟩
      · refine (h.marked t ht).imp .inl (Or.imp_right fun hcount origin => ?_)
        rw [edgeCount_detach_held hheld, if_neg fun hf => htarget hf.1, Nat.sub_zero, hcount]

theorem Freeing.keep (h : Freeing g root ((path, edge :: edges) :: stack) e)
    (hheld : e.graph.contains path → e.graph.edges path = edge :: edges)
    (hd : (e.detach path edge).1 = false) :
    Freeing g root ((path, edges) :: stack) (e.detach path edge).2 := by
  refine h.detach hheld (fun q => ?_) fun f hf => ?_
  · simp [hd]
  · rcases List.mem_cons.mp hf with rfl | hf
    · exact fun other hother => h.frames (path, edge :: edges) (.head _) other (.tail _ hother)
    · exact h.frames f (.tail _ hf)

theorem Freeing.push (h : Freeing g root ((path, edge :: edges) :: stack) e)
    (hheld : e.graph.contains path → e.graph.edges path = edge :: edges)
    (hd : (e.detach path edge).1 = true) :
    Freeing g root ((edge.target, (e.detach path edge).2.graph.edges edge.target) ::
      (path, edges) :: stack) (e.detach path edge).2 := by
  refine h.detach hheld (fun q => ?_) fun f hf => ?_
  · simp only [stacked_cons, hd, true_and]
    tauto
  · rcases List.mem_cons.mp hf with rfl | hf
    · intro other hother
      have hfewer := (h.toShrunk.detach hheld (h.stacked path (by simp))).fewer edge.target
        other.target
      rw [← Graph.edgeCount_pos_iff]
      exact Nat.lt_of_lt_of_le
        (Graph.edgeCount_pos_iff.mpr (List.mem_map.mpr ⟨other, hother, rfl⟩)) hfewer
    · rcases List.mem_cons.mp hf with rfl | hf
      · exact fun other hother => h.frames (path, edge :: edges) (.head _) other (.tail _ hother)
      · exact h.frames f (.tail _ hf)

theorem Releases.freeing (h : Releases stack e e') (hf : Freeing g root stack e) :
    Freeing g root [] e' :=
  h.invariant (fun hheld hf => hf.free hheld) (fun hheld hd hf => hf.keep hheld hd)
    (fun hheld hd hf => hf.push hheld hd) hf

theorem Freeing.ofRoot (hcounts : e.graph.ExactCounts)
    (hpurple : ∀ q, e.graph.contains q → e.graph.color q = .purple →
      e.graph.possibleRoots.contains q)
    (hloading : ∀ q : String, e.loading[q]? = none) (root : String) :
    Freeing e.graph root [(root, e.graph.edges root)] e where
  settings := rfl
  loading := hloading
  counts := hcounts
  purple := hpurple
  old := fun _ hq => hq
  gone := fun _ hq => .inl hq
  kept := fun _ _ => .inr rfl
  fewer := fun _ _ => Nat.le_refl _
  stacked := fun q hq => by
    obtain rfl := (stacked_cons.mp hq).resolve_right stacked_nil
    exact .root
  frames := fun f hf edge hedge => by
    rw [List.mem_singleton.mp hf] at hedge ⊢
    exact List.mem_map.mpr ⟨edge, hedge, rfl⟩
  referred := fun t _ => by
    by_cases hreferred : ∃ origin, t ∈ e.graph.targets origin
    · exact .inr (.inr (.inl hreferred))
    · exact .inr (.inr (.inr fun origin horigin => hreferred ⟨origin, horigin⟩))
  marked := fun _ _ => .inr (.inr fun _ => rfl)

theorem Freeing.gone_of_freed (h : Freeing g root [] e) (hroot : e.graph.contains root = false)
    {q : String} (hq : g.Freed root q) : e.graph.contains q = false := by
  induction hq with
  | root => exact hroot
  | @cut t _ hentry hreferred _ ih =>
    by_contra hc
    rw [Bool.not_eq_false] at hc
    obtain ⟨origin, horigin⟩ := hreferred
    rcases h.referred t hc with hs | hentry' | ⟨other, hother⟩ | hnone
    · exact stacked_nil hs
    · rw [hentry] at hentry'
      cases hentry'
    · have hpos := Graph.edgeCount_pos_iff.mpr hother
      have hgone := ih other (Graph.edgeCount_pos_iff.mp (Nat.lt_of_lt_of_le hpos (h.fewer other t)))
      rw [Graph.contains_of_mem_targets hother] at hgone
      cases hgone
    · exact hnone origin horigin

/-- A release works its stack off, and removes exactly the least set that holds the
module and every module with referrers, but no entry point, whose referrers are
all in the set. What stays keeps its content and counts its edges exactly, and
what has lost an edge is purple and a possible root. -/
theorem release_frees (e : Edit) (path : String) (hpath : e.graph.contains path)
    (hcounts : e.graph.ExactCounts)
    (hpurple : ∀ q, e.graph.contains q → e.graph.color q = .purple →
      e.graph.possibleRoots.contains q)
    (hloading : ∀ q : String, e.loading[q]? = none) :
    let g := e.graph
    let h := (e.release path).graph
    Releases [(path, g.edges path)] e (e.release path) ∧
    (∀ x, h.contains x ↔ g.contains x ∧ ¬ g.Freed path x) ∧
    (∀ x, g.Freed path x → g.contains x) ∧
    (∀ x, h.contains x → h.content? x = g.content? x) ∧ h.ExactCounts ∧
    ∀ x, h.contains x → ∀ origin, g.Freed path origin → x ∈ g.targets origin →
      h.color x = .purple ∧ h.possibleRoots.contains x := by
  intro g h
  have hreleases : Releases [(path, g.edges path)] e (e.release path) := release_releases hpath
  have hend : Freeing g path [] (e.release path) :=
    hreleases.freeing (.ofRoot hcounts hpurple hloading path)
  have hgone : ∀ {x}, g.Freed path x → h.contains x = false :=
    hend.gone_of_freed (hreleases.freed (by simp))
  refine ⟨hreleases, fun x => ⟨fun hx => ⟨hend.old x hx, fun hfreed => ?_⟩, ?_⟩, ?_, ?_,
    hend.counts, ?_⟩
  · rw [hgone hfreed] at hx
    cases hx
  · rintro ⟨hx, hkept⟩
    exact (hend.gone x hx).resolve_right hkept
  · intro x hfreed
    cases hfreed with
    | root => exact hpath
    | cut hc => exact hc
  · exact fun x hx => hreleases.content hx
  · intro x hx origin horigin hedge
    have hcolor : h.color x = .purple := by
      rcases hend.marked x hx with hs | hcolor | hsame
      · exact absurd hs stacked_nil
      · exact hcolor
      · -- an edge of what is freed is gone
        have hpos := Graph.edgeCount_pos_iff.mpr hedge
        rw [← hsame origin, Graph.edgeCount_eq_zero (hgone horigin)] at hpos
        cases hpos
    exact ⟨hcolor, hend.purple x hx hcolor⟩

/-- The module `b` is released although `a` refers to it and it is on a cycle. The
rest of the cycle goes with it; `d` stays for `x`, as a possible root. -/
theorem release_frees_cycle :
    ∃ e : Edit, e.graph.ExactCounts ∧ "b" ∈ e.graph.targets "a" ∧ "b" ∈ e.graph.targets "c" ∧
      e.graph.Freed "b" "c" ∧ (e.release "b").graph.contains "c" = false ∧
      (e.release "b").graph.contains "d" ∧ (e.release "b").graph.color "d" = .purple ∧
      (e.release "b").graph.possibleRoots.contains "d" ∧ (e.release "b").graph.ExactCounts := by
  let ctx := Traversal.Context.ofImports fun path =>
    if path = "a" then ["b", "x"] else if path = "b" then ["c"] else if path = "c" then ["b", "d"]
    else if path = "x" then ["d"] else []
  let g := ((Graph.ofEntries ["a"] {}).initialTraverse ctx ()).2.edit.graph
  have hg : g.Exact := Graph.exact_of_isOk rfl (by decide +kernel)
  have hstart : (g.contains "b", g.contains "c", g.targets "a", g.targets "b", g.targets "c",
      (Edit.release { graph := g } "b").graph.contains "c",
      (Edit.release { graph := g } "b").graph.contains "d") =
      (true, true, ["b", "x"], ["c"], ["b", "d"], false, true) := by
    decide +kernel
  clear_value g
  simp only [Prod.mk.injEq] at hstart
  obtain ⟨hb, hc, ha, hb', hc', hgone, hkept⟩ := hstart
  have hcounts : g.ExactCounts := ((Graph.consistent_iff g).mp hg.consistent).2
  have hpurple : ∀ q, g.contains q → g.color q = .purple → g.possibleRoots.contains q := by
    intro q hq hpurple
    rw [hg.black q hq] at hpurple
    cases hpurple
  obtain ⟨-, hsurvivors, -, -, hexact, hmarked⟩ :=
    release_frees { graph := g } "b" hb hcounts hpurple fun _ => Std.TreeMap.getElem?_emptyc
  have hfreed : g.Freed "b" "c" := by
    by_contra hnot
    rw [(hsurvivors "c").mpr ⟨hc, hnot⟩] at hgone
    cases hgone
  obtain ⟨hcolor, hroot⟩ := hmarked "d" hkept "c" hfreed (by simp [hc'])
  exact ⟨{ graph := g }, hcounts, by simp [ha], by simp [hc'], hfreed, hgone, hkept, hcolor, hroot,
    hexact⟩

end Edit

end BundleGraph
