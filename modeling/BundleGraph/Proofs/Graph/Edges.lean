import BundleGraph.Proofs.Graph.Reported

/-!
# Dropping and adding the edges of a module

While a module is processed, the edges that its new ones do not keep are
removed, and its new edges are counted. In between, the edges it has and the
edges that are counted for it differ: `Adding` gives the module the edges that
are counted, so that the edit is sound at every step.
-/

namespace BundleGraph

/-- The targets of edges, as often as edges lead there. -/
def targetCount (edges : List Edge) (target : String) : Nat := (edges.map (·.target)).count target

theorem targetCount_cons (edge : Edge) (edges : List Edge) (target : String) :
    targetCount (edge :: edges) target =
      targetCount edges target + if edge.target = target then 1 else 0 := by
  simp [targetCount, List.count_cons]

theorem targetCount_append (es es' : List Edge) (target : String) :
    targetCount (es ++ es') target = targetCount es target + targetCount es' target := by
  simp [targetCount]

theorem targetCount_pos_of_mem {edges : List Edge} {edge : Edge} (h : edge ∈ edges) :
    0 < targetCount edges edge.target :=
  List.count_pos_iff.mpr (List.mem_map.mpr ⟨edge, h, rfl⟩)

theorem Module.keeps_iff {edges : List Edge} (hkeys : (edges.map Edge.key).Nodup) (edge : Edge) :
    keeps edges edge ↔ ∃ kept ∈ edges, kept.key = edge.key ∧ kept.target = edge.target := by
  unfold keeps edge?
  rw [Option.any_eq_true]
  constructor
  · rintro ⟨kept, hfind, htarget⟩
    have hkey := List.find?_some hfind
    simp only [decide_eq_true_eq] at hkey htarget
    exact ⟨kept, List.mem_of_find?_eq_some hfind, hkey, htarget⟩
  · rintro ⟨kept, hmem, hkey, htarget⟩
    refine ⟨kept, ?_, by simpa using htarget⟩
    induction edges with
    | nil => cases hmem
    | cons head rest ih =>
      obtain ⟨hhead, hrest⟩ := List.nodup_cons.mp hkeys
      rcases List.mem_cons.mp hmem with rfl | hmem
      · simp [hkey]
      · have hne : head.key ≠ edge.key := fun heq =>
          hhead (List.mem_map.mpr ⟨kept, hmem, hkey.trans heq.symm⟩)
        rw [List.find?_cons_of_neg (by simpa using hne)]
        exact ih hrest hmem

theorem targetCount_kept {es es' : List Edge} (hkeys : (es.map Edge.key).Nodup)
    (hkeys' : (es'.map Edge.key).Nodup) (target : String) :
    targetCount (es.filter (Module.keeps es')) target =
      targetCount (es'.filter (Module.keeps es)) target := by
  have hpairs : ∀ (as bs : List Edge), (as.map Edge.key).Nodup → (bs.map Edge.key).Nodup →
      ((as.filter (Module.keeps bs)).map fun e => (e.key, e.target)).Nodup ∧
        ∀ k t, (k, t) ∈ (as.filter (Module.keeps bs)).map (fun e => (e.key, e.target)) ↔
          (∃ a ∈ as, a.key = k ∧ a.target = t) ∧ ∃ b ∈ bs, b.key = k ∧ b.target = t := by
    intro as bs has hbs
    refine ⟨?_, fun k t => ?_⟩
    · refine List.Nodup.of_map Prod.fst ?_
      rw [List.map_map]
      exact (List.filter_sublist.map Edge.key).nodup has
    · simp only [List.mem_map, List.mem_filter, Module.keeps_iff hbs, Prod.mk.injEq]
      constructor
      · rintro ⟨a, ⟨ha, b, hb, hkey, htarget⟩, rfl, rfl⟩
        exact ⟨⟨a, ha, rfl, rfl⟩, b, hb, hkey, htarget⟩
      · rintro ⟨⟨a, ha, rfl, rfl⟩, b, hb, hkey, htarget⟩
        exact ⟨a, ⟨ha, b, hb, hkey, htarget⟩, rfl, rfl⟩
  obtain ⟨hnodup, hmem⟩ := hpairs es es' hkeys hkeys'
  obtain ⟨hnodup', hmem'⟩ := hpairs es' es hkeys' hkeys
  have hperm := (List.perm_ext_iff_of_nodup hnodup hnodup').mpr fun ⟨k, t⟩ => by
    rw [hmem, hmem', and_comm]
  have := (hperm.map Prod.snd).count_eq target
  simpa only [targetCount, List.map_map, Function.comp_def] using this

namespace Edit

variable {slack : String → String → Nat} {before e : Edit} {path : String} {edge : Edge}
  {previous current todo edges : List Edge} {Q : Edit → Prop}

-- ---------------------------------------------------------------------------
-- Dropping
-- ---------------------------------------------------------------------------

/-- Edges dropped so far, with `todo` to be looked at. The module has those that
are kept, unless it was released. -/
structure Dropping (before : Edit) (path : String) (current todo : List Edge) (e : Edit) :
    Prop where
  settings : e.graph.settings = before.graph.settings
  contains : ∀ q, e.graph.contains q → before.graph.contains q
  loading : ∀ q, e.loading.contains q ↔ before.loading.contains q
  entry : ∀ q, before.graph.isEntry q → before.graph.contains q → e.graph.contains q
  content : ∀ q, path ≠ q → e.graph.contains q →
    e.graph.content? q = before.graph.content? q
  self : e.graph.contains path → ∀ edges,
    (e.graph.content? path).map (fun m => { m with edges }) =
      (before.graph.content? path).map fun m => { m with edges }
  edges : e.graph.contains path → ∃ kept, e.graph.edges path = kept ++ todo ∧
    kept ++ todo.filter (Module.keeps current) =
      (before.graph.edges path).filter (Module.keeps current)

theorem Dropping.keep (h : Dropping before path current (edge :: todo) e)
    (hkeeps : Module.keeps current edge) : Dropping before path current todo e :=
  { h with
    edges := fun hc => by
      obtain ⟨kept, hedges, hfilter⟩ := h.edges hc
      refine ⟨kept ++ [edge], by simp [hedges], ?_⟩
      rw [← hfilter, List.filter_cons_of_pos hkeeps, List.append_assoc, List.singleton_append] }

theorem Dropping.mem (h : Dropping before path current (edge :: todo) e)
    (hc : e.graph.contains path) : edge ∈ e.graph.edges path := by
  obtain ⟨kept, hedges, _⟩ := h.edges hc
  simp [hedges]

theorem eraseEdge_append {kept : List Edge}
    (hkeys : ((kept ++ edge :: todo).map Edge.key).Nodup) :
    Module.eraseEdge (kept ++ edge :: todo) edge.key = kept ++ todo := by
  have hnot : ∀ a ∈ kept, a.key ≠ edge.key := by
    intro a ha heq
    rw [List.map_append, List.nodup_append] at hkeys
    exact hkeys.2.2 a.key (List.mem_map.mpr ⟨a, ha, rfl⟩) edge.key (by simp) heq
  rw [Module.eraseEdge, List.eraseP_append_right _ (by simpa using hnot)]
  simp

theorem Dropping.remove (h : Dropping before path current (edge :: todo) e)
    (hwf : e.graph.WellFormed) (hkeeps : Module.keeps current edge = false) :
    Dropping before path current todo (e.removeEdge path edge) where
  settings := (settings_removeEdge path edge).trans h.settings
  contains := fun q hq => h.contains q (contains_of_removeEdge hq)
  loading := fun q => (loading_removeEdge path edge q).trans (h.loading q)
  entry := fun q he hq =>
    entry_removeEdge ((Graph.isEntry_congr h.settings q).trans he) (h.entry q he hq)
  content := fun q hne hq => by
    rw [content?_removeEdge hq, if_neg hne, h.content q hne (contains_of_removeEdge hq)]
  self := fun hq edges => by
    rw [content?_removeEdge hq, if_pos rfl, Option.map_map,
      ← h.self (contains_of_removeEdge hq) edges]
    rfl
  edges := by
    intro hq
    obtain ⟨kept, hedges, hfilter⟩ := h.edges (contains_of_removeEdge hq)
    refine ⟨kept, ?_, ?_⟩
    · have hkeys := hwf.nodup_keys path
      rw [hedges] at hkeys
      rw [Graph.edges_eq, content?_removeEdge hq, if_pos rfl, ← eraseEdge_append hkeys, ← hedges,
        Graph.edges_eq]
      cases e.graph.content? path <;> rfl
    · rw [← hfilter, List.filter_cons_of_neg (by simp [hkeeps])]

theorem dropped (path : String) (hs : Sound slack before)
    (hQ : ∀ {e : Edit} {edge : Edge}, Sound slack e →
      (e.graph.contains path → edge ∈ e.graph.edges path) → Module.keeps current edge = false →
      Q e → Q (e.removeEdge path edge))
    (hq : Q before) :
    Dropping before path current [] (before.dropEdges path (before.graph.edges path) current) ∧
      Sound slack (before.dropEdges path (before.graph.edges path) current) ∧
      Q (before.dropEdges path (before.graph.edges path) current) := by
  suffices h : ∀ (todo : List Edge) (e : Edit), Dropping before path current todo e →
      Sound slack e → Q e → Dropping before path current [] (e.dropEdges path todo current) ∧
        Sound slack (e.dropEdges path todo current) ∧ Q (e.dropEdges path todo current) by
    refine h _ before ?_ hs hq
    exact
      { settings := rfl, contains := fun _ hq => hq, loading := fun _ => Iff.rfl,
        entry := fun _ _ hq => hq, content := fun _ _ _ => rfl, self := fun _ _ => rfl,
        edges := fun _ => ⟨[], rfl, rfl⟩ }
  intro todo
  induction todo with
  | nil => exact fun e h hs hq => ⟨h, hs, hq⟩
  | cons edge todo ih =>
    intro e h hs hq
    unfold dropEdges
    rw [List.foldl_cons]
    cases hkeeps : Module.keeps current edge with
    | true => exact ih e (h.keep hkeeps) hs hq
    | false =>
      exact ih _ (h.remove hs.wellFormed hkeeps) (hs.removeEdge h.mem) (hQ hs h.mem hkeeps hq)

-- ---------------------------------------------------------------------------
-- Adding
-- ---------------------------------------------------------------------------

theorem edgeCount_setEdges_self (hc : e.graph.contains path) (target : String) :
    (e.setEdges path edges).graph.edgeCount path target = targetCount edges target := by
  rw [Graph.edgeCount, Graph.targets, edges_setEdges, if_pos ⟨rfl, hc⟩]
  rfl

theorem edgeCount_setEdges_of_ne {p : String} (hp : path ≠ p) (target : String) :
    (e.setEdges path edges).graph.edgeCount p target = e.graph.edgeCount p target := by
  rw [Graph.edgeCount, Graph.targets, edges_setEdges, if_neg fun hf => hp hf.1]
  rfl

theorem WellFormed.setEdges (h : e.graph.WellFormed) (hkeys : (edges.map Edge.key).Nodup)
    (path : String) : (e.setEdges path edges).graph.WellFormed := by
  refine h.of_content fun q m hm => ?_
  rw [content?_setEdges] at hm
  split at hm
  · obtain ⟨m', hm', rfl⟩ := Option.map_eq_some_iff.mp hm
    have hpath := h.path_eq hm'
    exact .inr ⟨hpath, hkeys⟩
  · exact .inl hm

/-- Exchanging edges for others that lead to the same targets as often. -/
theorem Sound.setEdges (h : Sound slack e) (hc : e.graph.contains path)
    (hkeys : (edges.map Edge.key).Nodup)
    (hsame : ∀ t, targetCount edges t = e.graph.edgeCount path t) :
    Sound slack (e.setEdges path edges) := by
  have hcount : ∀ p t, (e.setEdges path edges).graph.edgeCount p t = e.graph.edgeCount p t := by
    intro p t
    by_cases hp : path = p
    · subst hp
      rw [edgeCount_setEdges_self hc, hsame]
    · exact edgeCount_setEdges_of_ne hp t
  exact
    { count_le := fun p t => by rw [count_setEdges, hcount]; exact h.count_le p t
      le_count := fun p t => by rw [count_setEdges, hcount]; exact h.le_count p t
      apart := fun p hp => h.apart p (by simpa using hp)
      painted := fun p hp => h.painted p (by simpa using hp)
      wellFormed := WellFormed.setEdges h.wellFormed hkeys path }

theorem contains_addEdge (path : String) (edge : Edge) (q : String) :
    (e.addEdge path edge).1.graph.contains q = e.graph.contains q :=
  Graph.contains_congr (content?_addEdge path edge q)

theorem apart_addEdge (hapart : ∀ p, e.graph.contains p → e.loading[p]? = none) (path : String)
    (edge : Edge) (p : String) (hp : (e.addEdge path edge).1.graph.contains p) :
    (e.addEdge path edge).1.loading[p]? = none := by
  rw [contains_addEdge] at hp
  rw [← loading_contains_eq_false, ← Bool.not_eq_true, loading_contains_addEdge, not_or,
    Bool.not_eq_true]
  refine ⟨loading_contains_eq_false.mpr (hapart p hp), fun hsome => ?_⟩
  have hnot := (snd_addEdge_eq_some.mp hsome).2.1
  rw [hp] at hnot
  cases hnot

theorem WellFormed.addEdge (h : (e.setEdges path edges).graph.WellFormed) (edge : Edge)
    {es : List Edge} (hkeys : (es.map Edge.key).Nodup) :
    ((e.addEdge path edge).1.setEdges path es).graph.WellFormed := by
  refine h.of_content fun q m hm => ?_
  rw [content?_setEdges, content?_addEdge] at hm
  rw [content?_setEdges]
  split at hm
  · rename_i hq
    obtain ⟨m', hm', rfl⟩ := Option.map_eq_some_iff.mp hm
    have hset : (e.setEdges path edges).graph.content? q = some { m' with edges } := by
      rw [content?_setEdges, if_pos hq, hm']
      rfl
    have hpath := h.path_eq hset
    exact .inr ⟨hpath, hkeys⟩
  · rename_i hq
    exact .inl (by rw [if_neg hq, hm])

theorem Sound.addEdge (h : Sound slack (e.setEdges path edges)) (hc : e.graph.contains path)
    {es : List Edge} (hkeys : (es.map Edge.key).Nodup)
    (hle : ∀ t, e.count t path + (if edge.target = t then 1 else 0) ≤ targetCount es t)
    (hge : ∀ t, targetCount es t ≤
      e.count t path + (if edge.target = t then 1 else 0) + slack path t) :
    Sound slack ((e.addEdge path edge).1.setEdges path es) := by
  have hapart : ∀ p, e.graph.contains p → e.loading[p]? = none :=
    fun p hp => h.apart p (by simpa using hp)
  have hc' : (e.addEdge path edge).1.graph.contains path := by rwa [contains_addEdge]
  have hother : ∀ p t, path ≠ p →
      ((e.addEdge path edge).1.setEdges path es).graph.edgeCount p t =
        (e.setEdges path edges).graph.edgeCount p t := by
    intro p t hp
    rw [edgeCount_setEdges_of_ne hp, edgeCount_setEdges_of_ne hp]
    exact Graph.edgeCount_congr (content?_addEdge path edge p) t
  refine
    { count_le := fun p t => ?_
      le_count := fun p t => ?_
      apart := fun p hp => ?_
      painted := fun p hp => ?_
      wellFormed := WellFormed.addEdge h.wellFormed edge hkeys }
  · rw [count_setEdges, count_addEdge hapart]
    by_cases hp : path = p
    · subst hp
      rw [edgeCount_setEdges_self hc']
      simpa only [and_true] using hle t
    · rw [hother p t hp, if_neg fun hf => hp hf.2, Nat.add_zero]
      simpa using h.count_le p t
  · rw [count_setEdges, count_addEdge hapart]
    by_cases hp : path = p
    · subst hp
      rw [edgeCount_setEdges_self hc']
      simpa only [and_true] using hge t
    · rw [hother p t hp, if_neg fun hf => hp hf.2, Nat.add_zero]
      simpa using h.le_count p t
  · rw [contains_setEdges] at hp
    rw [loading_setEdges]
    exact apart_addEdge hapart path edge p hp
  · rw [contains_setEdges, contains_addEdge] at hp
    rw [color_setEdges, possibleRoots_setEdges, color_addEdge, possibleRoots_addEdge]
    split
    · exact .inl rfl
    · exact h.painted p (by simpa using hp)

end Edit

end BundleGraph
