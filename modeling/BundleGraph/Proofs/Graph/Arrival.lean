import BundleGraph.Proofs.Graph.Released

/-!
# The arrival of a module

A module that was loaded takes its referrers along into the graph, and has the
edges it had before. `Arrived` says what that does to an edit; the invariants
of edits stay true.
-/

namespace BundleGraph.Edit

variable {slack : String → String → Nat} {e e' claimed : Edit} {path : String} {file : LoadedFile}
  {inverse : CountingSet String}

-- ---------------------------------------------------------------------------
-- Placing a module, and giving it edges
-- ---------------------------------------------------------------------------

theorem get?_place (m : Module) (q : String) :
    (e.place m).graph.modules.get? q = if m.path = q then some m else e.graph.modules.get? q := by
  have hmodules : (e.place m).graph.modules = e.graph.modules.insert m.path m := by
    unfold place
    dsimp only
    split <;> rfl
  rw [hmodules, OrderedMap.get?_insert]

theorem content?_place (m : Module) (q : String) :
    (e.place m).graph.content? q = if m.path = q then some m.content else e.graph.content? q := by
  unfold Graph.content?
  rw [get?_place]
  split <;> rfl

theorem graph_count_place (m : Module) (q r : String) :
    (e.place m).graph.count q r =
      if m.path = q then m.inverse.count r else e.graph.count q r := by
  unfold Graph.count
  rw [get?_place]
  by_cases hq : m.path = q <;> simp [hq]

@[simp] theorem loading_place (m : Module) : (e.place m).loading = e.loading := rfl

@[simp] theorem settings_place (m : Module) :
    (e.place m).graph.settings = e.graph.settings := by
  unfold place
  dsimp only
  split <;> rfl

@[simp] theorem possibleRoots_place (m : Module) :
    (e.place m).graph.possibleRoots = e.graph.possibleRoots := by
  unfold place
  dsimp only
  split <;> rfl

theorem color_place (m : Module) (q : String) :
    (e.place m).graph.color q =
      if m.path = q ∧ e.graph.contains m.path = false then .black else e.graph.color q := by
  unfold place
  dsimp only
  by_cases hc : e.graph.contains m.path = true
  · rw [if_pos hc, if_neg (by simp [hc])]
    rfl
  · rw [if_neg hc, Graph.color_setColor]
    simp only [Bool.not_eq_true] at hc
    simp only [hc, and_true]
    rfl

theorem content?_setEdges (path : String) (edges : List Edge) (q : String) :
    (e.setEdges path edges).graph.content? q =
      if path = q then (e.graph.content? q).map fun m => { m with edges }
      else e.graph.content? q := by
  unfold setEdges Graph.content?
  rw [Graph.get?_modify]
  split
  · rw [Option.map_map, Option.map_map]
    rfl
  · rfl

@[simp] theorem contains_setEdges (path : String) (edges : List Edge) (q : String) :
    (e.setEdges path edges).graph.contains q = e.graph.contains q :=
  Graph.contains_modify path _ q

theorem edges_setEdges (path : String) (edges : List Edge) (q : String) :
    (e.setEdges path edges).graph.edges q =
      if path = q ∧ e.graph.contains q then edges else e.graph.edges q := by
  have hc := e.graph.contains_iff_content? q
  rw [Graph.edges_eq, content?_setEdges, Graph.edges_eq]
  by_cases hq : path = q
  · cases hm : e.graph.content? q <;> simp only [hm] at hc <;> simp [hq, hc]
  · simp [hq]

@[simp] theorem graph_count_setEdges (path : String) (edges : List Edge) (q r : String) :
    (e.setEdges path edges).graph.count q r = e.graph.count q r :=
  Graph.count_modify_of_inverse (f := fun m => { m with edges }) (fun _ => rfl) path q r

@[simp] theorem count_setEdges (path : String) (edges : List Edge) (q r : String) :
    (e.setEdges path edges).count q r = e.count q r := by
  unfold count
  rw [graph_count_setEdges]
  rfl

@[simp] theorem loading_setEdges (path : String) (edges : List Edge) :
    (e.setEdges path edges).loading = e.loading := rfl

@[simp] theorem settings_setEdges (path : String) (edges : List Edge) :
    (e.setEdges path edges).graph.settings = e.graph.settings := rfl

@[simp] theorem color_setEdges (path : String) (edges : List Edge) (q : String) :
    (e.setEdges path edges).graph.color q = e.graph.color q := rfl

@[simp] theorem possibleRoots_setEdges (path : String) (edges : List Edge) :
    (e.setEdges path edges).graph.possibleRoots = e.graph.possibleRoots := rfl

-- ---------------------------------------------------------------------------
-- Arriving
-- ---------------------------------------------------------------------------

/-- A module that is in the graph or being loaded, or an entry point, has
arrived with its content. -/
structure Arrived (path : String) (file : LoadedFile) (e e' : Edit) : Prop where
  settings : e'.graph.settings = e.graph.settings
  content : ∀ q, e'.graph.content? q =
    if path = q then some ⟨path, e.graph.edges path, ∅, file.result, file.digest⟩
    else e.graph.content? q
  count : ∀ q r, e'.count q r = e.count q r
  loading : ∀ q, e'.loading.contains q ↔ path ≠ q ∧ e.loading.contains q
  color : ∀ q, e'.graph.color q =
    if path = q ∧ e.graph.contains path = false then .black else e.graph.color q
  roots : e'.graph.possibleRoots = e.graph.possibleRoots
  added : e'.added = e.added
  modified : e'.modified = e.modified
  deleted : e'.deleted = e.deleted
  held : e.graph.contains path ∨ e.graph.isEntry path ∨ ∃ r, 0 < e.count path r

/-- A claim takes the referrers of a module: from the graph, from those kept
while it was loaded, or none for an entry point. -/
theorem claim_cases (h : e.claim path = some (inverse, claimed)) :
    (e.graph.contains path ∧ claimed = e ∧ ∀ r, inverse.count r = e.graph.count path r) ∨
    (e.graph.contains path = false ∧ e.loading[path]? = some inverse ∧
      claimed = { e with loading := e.loading.erase path }) ∨
    (e.graph.contains path = false ∧ e.loading[path]? = none ∧ e.graph.isEntry path ∧
      claimed = e ∧ inverse = ∅) := by
  unfold claim at h
  cases hm : e.graph.modules.get? path with
  | some m =>
    simp only [hm, Option.some.injEq, Prod.mk.injEq] at h
    obtain ⟨rfl, rfl⟩ := h
    exact .inl ⟨(e.graph.contains_iff path).mpr ⟨m, hm⟩, rfl, fun r => by rw [Graph.count, hm]⟩
  | none =>
    have hc : e.graph.contains path = false := Graph.contains_eq_false_iff.mpr hm
    simp only [hm] at h
    cases hl : e.loading[path]? with
    | some kept =>
      simp only [hl, Option.some.injEq, Prod.mk.injEq] at h
      obtain ⟨rfl, rfl⟩ := h
      exact .inr (.inl ⟨hc, rfl, rfl⟩)
    | none =>
      simp only [hl, Option.ite_none_right_eq_some, Option.some.injEq, Prod.mk.injEq] at h
      obtain ⟨he, rfl, rfl⟩ := h
      exact .inr (.inr ⟨hc, rfl, he, rfl, rfl⟩)

theorem claim_eq_none (h : e.claim path = none) : e.graph.contains path = false ∧
    e.loading.contains path = false ∧ e.graph.isEntry path = false := by
  unfold claim at h
  split at h
  · cases h
  · rename_i hm
    split at h
    · cases h
    · rename_i hl
      split at h
      · cases h
      · rename_i hentry
        exact ⟨Graph.contains_eq_false_iff.mpr hm, loading_contains_eq_false.mpr hl,
          by simpa using hentry⟩

theorem arrived (hapart : ∀ p, e.graph.contains p → e.loading[p]? = none)
    (h : e.claim path = some (inverse, claimed))
    (hheld : e.graph.contains path ∨ inverse.isEmpty = false ∨ e.graph.isEntry path) :
    Arrived path file e
      (claimed.place ⟨path, e.graph.edges path, inverse, file.result, file.digest⟩) := by
  have hgraph : claimed.graph = e.graph := by
    rcases claim_cases h with ⟨_, rfl, _⟩ | ⟨_, _, rfl⟩ | ⟨_, _, _, rfl, _⟩ <;> rfl
  have hinverse : ∀ r, inverse.count r = e.count path r := by
    intro r
    rcases claim_cases h with ⟨hc, _, hcount⟩ | ⟨_, hl, _⟩ | ⟨hc, hl, _, _, rfl⟩
    · rw [hcount, count_of_not_loading (hapart path hc)]
    · rw [count_of_loading hl]
    · rw [count_of_not_loading hl, Graph.count_eq_zero hc, CountingSet.count_empty]
  have hloading : ∀ q, claimed.loading[q]? = if path = q then none else e.loading[q]? := by
    intro q
    rcases claim_cases h with ⟨hc, rfl, _⟩ | ⟨_, _, rfl⟩ | ⟨_, hl, _, rfl, _⟩
    · split
      · rename_i hq; rw [← hq, hapart path hc]
      · rfl
    · exact getElem?_erase_loading path q
    · split
      · rename_i hq; rw [← hq, hl]
      · rfl
  have hreports : claimed.added = e.added ∧ claimed.modified = e.modified ∧
      claimed.deleted = e.deleted := by
    rcases claim_cases h with ⟨_, rfl, _⟩ | ⟨_, _, rfl⟩ | ⟨_, _, _, rfl, _⟩ <;> exact ⟨rfl, rfl, rfl⟩
  refine
    { settings := by rw [settings_place, hgraph]
      content := fun q => by rw [content?_place, hgraph]; rfl
      count := fun q r => ?_
      loading := fun q => ?_
      color := fun q => by rw [color_place, hgraph]
      roots := by rw [possibleRoots_place, hgraph]
      added := hreports.1
      modified := hreports.2.1
      deleted := hreports.2.2
      held := ?_ }
  · unfold count
    rw [loading_place, hloading, graph_count_place, hgraph]
    by_cases hq : path = q
    · subst hq
      simp only [↓reduceIte]
      exact hinverse r
    · simp only [if_neg hq]
  · rw [loading_place, loading_contains_iff, loading_contains_iff, hloading]
    by_cases hq : path = q <;> simp [hq]
  · rcases hheld with hc | hi | he
    · exact .inl hc
    · refine .inr (.inr ?_)
      by_contra hnone
      refine Bool.false_ne_true (hi.symm.trans (inverse.isEmpty_iff_count.mpr fun r => ?_))
      rw [hinverse]
      exact Nat.eq_zero_of_not_pos fun hr => hnone ⟨r, hr⟩
    · exact .inr (.inl he)

namespace Arrived

theorem isEntry (h : Arrived path file e e') (q : String) :
    e'.graph.isEntry q = e.graph.isEntry q := Graph.isEntry_congr h.settings q

theorem contains (h : Arrived path file e e') (q : String) :
    e'.graph.contains q ↔ path = q ∨ e.graph.contains q := by
  rw [Graph.contains_iff_content?, h.content, Graph.contains_iff_content?]
  by_cases hq : path = q <;> simp [hq]

theorem edges (h : Arrived path file e e') (q : String) :
    e'.graph.edges q = e.graph.edges q := by
  rw [Graph.edges_eq, h.content]
  split
  · rename_i hq
    rw [← hq]
    rfl
  · rw [Graph.edges_eq]

theorem targets (h : Arrived path file e e') (q : String) :
    e'.graph.targets q = e.graph.targets q := by
  rw [Graph.targets, h.edges, Graph.targets]

theorem apart (h : Arrived path file e e')
    (hapart : ∀ p, e.graph.contains p → e.loading[p]? = none) :
    ∀ p, e'.graph.contains p → e'.loading[p]? = none := by
  intro p hp
  rw [← loading_contains_eq_false, ← Bool.not_eq_true, h.loading, not_and]
  intro hne
  rw [Bool.not_eq_true, loading_contains_eq_false]
  exact hapart p (((h.contains p).mp hp).resolve_left hne)

theorem sound (h : Arrived path file e e') (hs : Sound slack e) : Sound slack e' where
  count_le := fun p t => by
    rw [h.count, Graph.edgeCount, h.targets]
    exact hs.count_le p t
  le_count := fun p t => by
    rw [h.count, Graph.edgeCount, h.targets]
    exact hs.le_count p t
  apart := h.apart hs.apart
  painted := fun p hp => by
    rw [h.color, h.roots]
    split
    · exact .inl rfl
    · rename_i hnot
      refine hs.painted p (((h.contains p).mp hp).elim (fun hq => ?_) id)
      subst hq
      simpa using hnot
  wellFormed := by
    refine hs.wellFormed.of_content fun q m hm => ?_
    rw [h.content] at hm
    split at hm
    · rename_i hq
      cases hm
      exact .inr ⟨hq, hs.wellFormed.nodup_keys path⟩
    · exact .inl hm

theorem steady (h : Arrived path file e e') (hs : Steady slack e) : Steady slack e' where
  sound := h.sound hs.sound
  referenced := by
    intro t ht
    have hold : e.graph.contains t → e'.graph.isEntry t ∨ False ∨ ∃ p, 0 < e'.count t p := by
      intro hc
      rw [h.isEntry]
      refine (hs.referenced t hc).imp_right (Or.imp_right (Exists.imp fun p hp => ?_))
      rwa [h.count]
    rcases (h.contains t).mp ht with rfl | ht
    · rcases h.held with hc | he | ⟨r, hr⟩
      · exact hold hc
      · exact .inl (by rwa [h.isEntry])
      · exact .inr (.inr ⟨r, by rwa [h.count]⟩)
    · exact hold ht

theorem marked (h : Arrived path file e e') (hs : Steady slack e)
    (hm : Marked (fun _ => False) e) : Marked (fun _ => False) e' := by
  have hstep : ∀ b c, e.graph.Step b c → e'.graph.Step b c := fun b c hs =>
    ⟨by rw [h.targets]; exact hs.1, (h.contains c).mpr (.inr hs.2)⟩
  have hold : ∀ t, e.graph.contains t → ∃ r, (e'.graph.isEntry r ∨
      e'.graph.possibleRoots.contains r ∨ False) ∧ e'.graph.contains r ∧ e'.graph.Reaches r t := by
    intro t ht
    obtain ⟨r, hroot, hr, hreach⟩ := hm t ht
    refine ⟨r, by rwa [h.isEntry, h.roots], (h.contains r).mpr (.inr hr), ?_⟩
    exact Relation.ReflTransGen.mono hstep r t hreach
  intro t ht
  rcases (h.contains t).mp ht with rfl | ht
  · rcases h.held with hc | he | ⟨p, hp⟩
    · exact hold path hc
    · exact ⟨path, .inl (by rwa [h.isEntry]), ht, .refl⟩
    · have htarget := Graph.edgeCount_pos_iff.mp (Nat.lt_of_lt_of_le hp (hs.sound.count_le p path))
      obtain ⟨r, hroot, hr, hreach⟩ := hold p (Graph.contains_of_mem_targets htarget)
      exact ⟨r, hroot, hr, hreach.tail ⟨by rwa [h.targets], ht⟩⟩
  · exact hold t ht

end Arrived

end BundleGraph.Edit
