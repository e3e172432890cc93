import BundleGraph.Proofs.Graph.Edges

/-!
# Processing a module

`processed` is all that the processing of one module does to an edit: the
module gets its new content or leaves the graph, what else is left keeps its
content, and the edit stays steady.
-/

namespace BundleGraph.Edit

variable {slack : String → String → Nat} {old : String → Prop} {before e e' : Edit} {path : String} {edge : Edge}
  {previous current done todo : List Edge} {next : List String} {resolve : Resolver}
  {file : LoadedFile}

-- ---------------------------------------------------------------------------
-- Counting new edges
-- ---------------------------------------------------------------------------

/-- Edges counted so far, with `todo` to be looked at. Of these, the ones that
are kept from before are counted already. -/
structure Adding (slack : String → String → Nat) (before : Edit) (path : String)
    (previous done todo : List Edge) (e : Edit) (next : List String) : Prop where
  content : ∀ q, e.graph.content? q = before.graph.content? q
  settings : e.graph.settings = before.graph.settings
  roots : e.graph.possibleRoots = before.graph.possibleRoots
  loading : ∀ q, e.loading.contains q ↔ before.loading.contains q ∨ q ∈ next
  count : ∀ t r, before.count t r ≤ e.count t r
  sound : Sound slack (e.setEdges path (done ++ todo.filter (Module.keeps previous)))

theorem addNewEdge_cases (path : String) (previous : List Edge) (e : Edit) (next : List String)
    (edge : Edge) :
    (Module.keeps previous edge ∧ (e.graph.contains edge.target ∨ e.loading.contains edge.target) ∧
      addNewEdge false path previous (e, next) edge = (e, next)) ∨
    ((Module.keeps previous edge = false ∨
        e.graph.contains edge.target = false ∧ e.loading.contains edge.target = false) ∧
      addNewEdge false path previous (e, next) edge =
        ((e.addEdge path edge).1, next ++ (e.addEdge path edge).2.toList)) := by
  unfold addNewEdge
  dsimp only
  rw [Bool.false_or, Bool.not_and, Bool.not_not, Bool.not_not]
  by_cases hskip : (Module.keeps previous edge &&
      (e.graph.contains edge.target || e.loading.contains edge.target)) = true
  · rw [if_pos hskip]
    rw [Bool.and_eq_true, Bool.or_eq_true] at hskip
    exact .inl ⟨hskip.1, hskip.2, rfl⟩
  · rw [if_neg hskip]
    rw [Bool.not_eq_true, Bool.and_eq_false_iff, Bool.or_eq_false_iff] at hskip
    refine .inr ⟨hskip, ?_⟩
    split <;> rename_i hadd <;> simp [hadd]

theorem Adding.apart (h : Adding slack before path previous done todo e next) :
    ∀ p, e.graph.contains p → e.loading[p]? = none :=
  fun p hp => h.sound.apart p (by simpa using hp)

theorem Adding.skip (h : Adding slack before path previous done (edge :: todo) e next)
    (hkeeps : Module.keeps previous edge) :
    Adding slack before path previous (done ++ [edge]) todo e next :=
  { h with
    sound := by
      have := h.sound
      rwa [List.filter_cons_of_pos hkeeps, ← List.singleton_append, ← List.append_assoc] at this }

theorem Adding.contains (h : Adding slack before path previous done todo e next) (q : String) :
    e.graph.contains q = before.graph.contains q := Graph.contains_congr (h.content q)

theorem Adding.count_le (h : Adding slack before path previous done todo e next)
    (hc : e.graph.contains path) (t : String) :
    e.count t path ≤ targetCount (done ++ todo.filter (Module.keeps previous)) t := by
  have := h.sound.count_le path t
  rwa [count_setEdges, edgeCount_setEdges_self hc] at this

theorem Adding.le_count (h : Adding slack before path previous done todo e next)
    (hc : e.graph.contains path) (t : String) :
    targetCount (done ++ todo.filter (Module.keeps previous)) t ≤
      e.count t path + slack path t := by
  have := h.sound.le_count path t
  rwa [count_setEdges, edgeCount_setEdges_self hc] at this

theorem Adding.add (h : Adding slack before path previous done (edge :: todo) e next)
    (hc : e.graph.contains path) (hkeys : ((done ++ edge :: todo).map Edge.key).Nodup)
    (hnew : Module.keeps previous edge = false ∨
      e.graph.contains edge.target = false ∧ e.loading.contains edge.target = false) :
    Adding slack before path previous (done ++ [edge]) todo (e.addEdge path edge).1
      (next ++ (e.addEdge path edge).2.toList) where
  content := fun q => (content?_addEdge path edge q).trans (h.content q)
  settings := (settings_addEdge path edge).trans h.settings
  roots := (possibleRoots_addEdge path edge).trans h.roots
  loading := by
    intro q
    rw [loading_contains_addEdge, h.loading, List.mem_append, Option.mem_toList, or_assoc]
  count := by
    intro t r
    rw [count_addEdge h.apart]
    exact Nat.le_add_right_of_le (h.count t r)
  sound := by
    have hkeys' : (((done ++ [edge]) ++ todo.filter (Module.keeps previous)).map
        Edge.key).Nodup := by
      refine List.Nodup.sublist (List.Sublist.map Edge.key ?_) hkeys
      rw [List.append_assoc, List.singleton_append]
      exact (List.filter_sublist.cons_cons edge).append_left done
    have htargets : ∀ t, targetCount ((done ++ [edge]) ++ todo.filter (Module.keeps previous)) t =
        targetCount (done ++ todo.filter (Module.keeps previous)) t +
          if edge.target = t then 1 else 0 := by
      intro t
      simp only [targetCount_append, targetCount_cons]
      simp only [targetCount, List.map_nil, List.count_nil]
      omega
    have hle := h.count_le hc
    have hge := h.le_count hc
    cases hkeeps : Module.keeps previous edge with
    | false =>
      simp only [List.filter_cons, hkeeps, Bool.false_eq_true, ↓reduceIte] at hle hge
      exact h.sound.addEdge hc hkeys' (fun t => by have := hle t; rw [htargets]; omega)
        fun t => by have := hge t; rw [htargets]; omega
    | true =>
      -- the edge is in the list already, and its target is counted by nobody
      have hmissing := hnew.resolve_left (by simp [hkeeps])
      have hzero : e.count edge.target path = 0 := by
        rw [count_of_not_loading (loading_contains_eq_false.mp hmissing.2),
          Graph.count_eq_zero hmissing.1]
      have hlist : done ++ (edge :: todo).filter (Module.keeps previous) =
          (done ++ [edge]) ++ todo.filter (Module.keeps previous) := by
        simp [hkeeps]
      rw [hlist] at hle hge
      refine h.sound.addEdge hc hkeys' (fun t => ?_) fun t => ?_
      · by_cases ht : edge.target = t
        · subst ht
          have : 0 < targetCount ((done ++ [edge]) ++ todo.filter (Module.keeps previous))
              edge.target := targetCount_pos_of_mem (by simp)
          rw [hzero, if_pos rfl]
          exact this
        · rw [if_neg ht]
          exact hle t
      · have := hge t
        omega

theorem adding (h : Adding slack before path previous [] current before [])
    (hc : before.graph.contains path) (hkeys : (current.map Edge.key).Nodup) :
    Adding slack before path previous current []
      (before.addEdges false path previous current).1
      (before.addEdges false path previous current).2 := by
  suffices hfold : ∀ (todo done : List Edge) (e : Edit) (next : List String),
      done ++ todo = current → Adding slack before path previous done todo e next →
      Adding slack before path previous current []
        (todo.foldl (addNewEdge false path previous) (e, next)).1
        (todo.foldl (addNewEdge false path previous) (e, next)).2 from
    hfold current [] before [] rfl h
  intro todo
  induction todo with
  | nil =>
    intro done e next hdone h
    rw [List.append_nil] at hdone
    exact hdone ▸ h
  | cons edge todo ih =>
    intro done e next hdone h
    have hdone' : (done ++ [edge]) ++ todo = current := by simpa using hdone
    rw [List.foldl_cons]
    rcases addNewEdge_cases path previous e next edge with ⟨hkeeps, _, heq⟩ | ⟨hnew, heq⟩
    · rw [heq]
      exact ih _ e next hdone' (h.skip hkeeps)
    · rw [heq]
      have hce : e.graph.contains path := by rwa [h.contains]
      exact ih _ _ _ hdone' (h.add hce (hdone ▸ hkeys) hnew)

theorem addEdges_preserves {Q : Edit → Prop} {shallow : Bool}
    (hadd : ∀ {e : Edit} (edge : Edge), Q e → Q (e.addEdge path edge).1) (hq : Q e) :
    Q (e.addEdges shallow path previous current).1 := by
  suffices hfold : ∀ (todo : List Edge) (e : Edit) (next : List String), Q e →
      Q (todo.foldl (addNewEdge shallow path previous) (e, next)).1 from
    hfold current e [] hq
  intro todo
  induction todo with
  | nil => exact fun e next hq => hq
  | cons edge todo ih =>
    intro e next hq
    rw [List.foldl_cons]
    have hstep : Q (addNewEdge shallow path previous (e, next) edge).1 := by
      have hcounted := hadd edge hq
      unfold addNewEdge
      dsimp only
      split
      · exact hq
      · split <;> rename_i heq <;> rwa [heq] at hcounted
    exact ih _ _ hstep

-- ---------------------------------------------------------------------------
-- The whole of it
-- ---------------------------------------------------------------------------

/-- What becomes of a module whose content arrives: nothing when it is unknown;
it is forgotten when nothing refers to it any more; otherwise it is placed and
drops the edges it does not keep, which may release it; when it is still there,
its new edges are counted. -/
theorem process_cases {shallow : Bool} (hapart : ∀ p, e.graph.contains p → e.loading[p]? = none)
    (h : e.process resolve shallow path file = (.ok next, e')) :
    (e.graph.contains path = false ∧ e.loading.contains path = false ∧
      e.graph.isEntry path = false ∧ next = [] ∧ e' = e) ∨
    (e.graph.contains path = false ∧ e.loading.contains path ∧ e.graph.isEntry path = false ∧
      (∀ r, e.count path r = 0) ∧ next = [] ∧
      e' = { e.forget path with loading := (e.loading.erase path).erase path }) ∨
    ∃ current arrived, resolve.edges path e.graph.options.platform file.result.dependencies [] =
        .ok current ∧ Arrived path file e arrived ∧
      ((arrived.dropEdges path (arrived.graph.edges path) current).graph.contains path = false ∧
          next = [] ∧ e' = arrived.dropEdges path (arrived.graph.edges path) current ∨
        (arrived.dropEdges path (arrived.graph.edges path) current).graph.contains path ∧
          next = ((arrived.dropEdges path (arrived.graph.edges path) current).addEdges shallow path
            (arrived.graph.edges path) current).2 ∧
          e' = ((arrived.dropEdges path (arrived.graph.edges path) current).addEdges shallow path
            (arrived.graph.edges path) current).1.setEdges path current) := by
  unfold process at h
  cases hclaim : e.claim path with
  | none =>
    simp only [hclaim, Prod.mk.injEq, Except.ok.injEq] at h
    obtain ⟨rfl, rfl⟩ := h
    obtain ⟨hc, hl, hentry⟩ := claim_eq_none hclaim
    exact .inl ⟨hc, hl, hentry, rfl, rfl⟩
  | some claim =>
    obtain ⟨inverse, claimed⟩ := claim
    refine .inr ?_
    simp only [hclaim] at h
    by_cases hforget : (!e.graph.contains path && inverse.isEmpty && !e.graph.isEntry path) = true
    · refine .inl ?_
      rw [if_pos hforget] at h
      simp only [Bool.and_eq_true, Bool.not_eq_true'] at hforget
      obtain ⟨⟨hc, hempty⟩, hentry⟩ := hforget
      simp only [Prod.mk.injEq, Except.ok.injEq] at h
      obtain ⟨rfl, rfl⟩ := h
      rcases claim_cases hclaim with ⟨hc', _⟩ | ⟨_, hl, rfl⟩ | ⟨_, _, he, _⟩
      · rw [hc'] at hc
        cases hc
      · refine ⟨hc, (loading_contains_iff path).mpr ⟨_, hl⟩, hentry, fun r => ?_, rfl, ?_⟩
        · rw [count_of_loading hl]
          exact inverse.isEmpty_iff_count.mp hempty r
        · unfold forget
          split <;> rfl
      · rw [he] at hentry
        cases hentry
    · refine .inr ?_
      rw [if_neg hforget] at h
      have hheld : e.graph.contains path ∨ inverse.isEmpty = false ∨ e.graph.isEntry path := by
        by_contra hnot
        simp only [not_or, Bool.not_eq_true, Bool.not_eq_false] at hnot
        simp [hnot.1, hnot.2.1, hnot.2.2] at hforget
      cases hedges : resolve.edges path e.graph.options.platform file.result.dependencies [] with
      | error error => simp [hedges] at h
      | ok current =>
        have harrived : Arrived path file e
            (claimed.place ⟨path, e.graph.edges path, inverse, file.result, file.digest⟩) :=
          arrived hapart hclaim hheld
        refine ⟨current, _, rfl, harrived, ?_⟩
        rw [harrived.edges]
        simp only [hedges] at h
        split at h
        · rename_i hgone
          simp only [Prod.mk.injEq, Except.ok.injEq] at h
          exact .inl ⟨by simpa using hgone, h.1.symm, h.2.symm⟩
        · rename_i hstays
          simp only [Prod.mk.injEq, Except.ok.injEq] at h
          exact .inr ⟨by simpa using hstays, h.1.symm, h.2.symm⟩

/-- What the processing of one module does to the graph and to what is being
loaded. -/
structure Processed (resolve : Resolver) (path : String) (file : LoadedFile) (e : Edit)
    (next : List String) (e' : Edit) : Prop where
  settings : e'.graph.settings = e.graph.settings
  other : ∀ q, path ≠ q → e'.graph.contains q → e'.graph.content? q = e.graph.content? q
  self : e'.graph.contains path → ∃ current,
    resolve.edges path e.graph.options.platform file.result.dependencies [] = .ok current ∧
      e'.graph.content? path = some ⟨path, current, ∅, file.result, file.digest⟩
  loading : ∀ q, e'.loading.contains q → q ∈ next ∨ path ≠ q ∧ e.loading.contains q
  awaited : ∀ q ∈ next, e'.loading.contains q
  entries : ∀ q, e.graph.isEntry q → (e.graph.contains q ∨ e.loading.contains q) →
    e'.graph.contains q ∨ e'.loading.contains q

theorem processed_forget (hc : e.graph.contains path = false)
    (hentry : e.graph.isEntry path = false) :
    Processed resolve path file e []
      { e.forget path with loading := (e.loading.erase path).erase path } where
  settings := by rw [graph_forget]
  other := fun q _ _ => by rw [graph_forget]
  self := fun hc' => by
    rw [graph_forget, hc] at hc'
    cases hc'
  loading := fun q hq => by
    refine .inr ?_
    simp only [Std.TreeMap.contains_erase, Bool.and_eq_true, bne_iff_ne, ne_eq,
      Std.LawfulEqOrd.compare_eq_iff_eq] at hq
    exact ⟨hq.1, hq.2.2⟩
  awaited := nofun
  entries := fun q hq hold => by
    have hne : path ≠ q := by
      rintro rfl
      rw [hq] at hentry
      cases hentry
    refine hold.imp (fun h => by rwa [graph_forget]) fun h => ?_
    simp [Std.TreeMap.contains_erase, hne, h]

theorem Sound.of_same (hs : Sound slack e)
    (hgraph : e'.graph = e.graph) (hcount : ∀ q r, e'.count q r = e.count q r)
    (hloading : ∀ q : String, e.loading[q]? = none → e'.loading[q]? = none) : Sound slack e' where
  count_le := fun p t => by rw [hcount, hgraph]; exact hs.count_le p t
  le_count := fun p t => by rw [hcount, hgraph]; exact hs.le_count p t
  apart := fun p hp => hloading p (hs.apart p (hgraph ▸ hp))
  painted := hgraph ▸ hs.painted
  wellFormed := hgraph ▸ hs.wellFormed

theorem Steady.of_same (hs : Steady slack e)
    (hgraph : e'.graph = e.graph) (hcount : ∀ q r, e'.count q r = e.count q r)
    (hloading : ∀ q : String, e.loading[q]? = none → e'.loading[q]? = none) : Steady slack e' where
  sound := hs.sound.of_same hgraph hcount hloading
  referenced := by
    intro t ht
    rw [hgraph] at ht ⊢
    exact (hs.referenced t ht).imp_right (Or.imp_right fun ⟨p, hp⟩ => ⟨p, by rwa [hcount]⟩)

section Forgetting

variable (hc : e.graph.contains path = false) (hzero : ∀ r, e.count path r = 0)

theorem getElem?_loading_forgotten (path q : String) :
    ((e.loading.erase path).erase path)[q]? = if path = q then none else e.loading[q]? := by
  simp only [Std.TreeMap.getElem?_erase, Std.LawfulEqOrd.compare_eq_iff_eq]
  split <;> rfl

include hc hzero

/-- A path that nothing counts is forgotten without a trace. -/
theorem count_forgotten (q r : String) :
    count { e.forget path with loading := (e.loading.erase path).erase path } q r =
      e.count q r := by
  by_cases hq : path = q
  · subst hq
    rw [hzero, count_of_not_loading (by simp)]
    rw [graph_forget, Graph.count_eq_zero hc]
  · simp only [count, getElem?_loading_forgotten, if_neg hq, graph_forget]

theorem Sound.forget (hs : Sound slack e) :
    Sound slack { e.forget path with loading := (e.loading.erase path).erase path } :=
  hs.of_same (graph_forget path) (count_forgotten hc hzero) fun q hq => by
    rw [getElem?_loading_forgotten, hq, ite_self]

theorem Steady.forget (hs : Steady slack e) :
    Steady slack { e.forget path with loading := (e.loading.erase path).erase path } :=
  hs.of_same (graph_forget path) (count_forgotten hc hzero) fun q hq => by
    rw [getElem?_loading_forgotten, hq, ite_self]

end Forgetting

theorem Marked.setEdges (h : Marked (fun _ => False) e) (hc : e.graph.contains path)
    (hmore : ∀ t ∈ e.graph.targets path, 0 < targetCount current t) :
    Marked (fun _ => False) (e.setEdges path current) := by
  have hstep : ∀ b c, e.graph.Step b c → (e.setEdges path current).graph.Step b c := by
    rintro b c ⟨htarget, hcontains⟩
    refine ⟨?_, by rwa [contains_setEdges]⟩
    rw [← Graph.edgeCount_pos_iff]
    by_cases hb : path = b
    · subst hb
      rw [edgeCount_setEdges_self hc]
      exact hmore c htarget
    · rw [edgeCount_setEdges_of_ne hb]
      exact Graph.edgeCount_pos_iff.mpr htarget
  intro t ht
  rw [contains_setEdges] at ht
  obtain ⟨r, hroot, hr, hreach⟩ := h t ht
  refine ⟨r, hroot, by rwa [contains_setEdges], ?_⟩
  exact Relation.ReflTransGen.mono hstep r t hreach

theorem Marked.of_same (h : Marked (fun _ => False) e)
    (hcontent : ∀ q, e'.graph.content? q = e.graph.content? q)
    (hsettings : e'.graph.settings = e.graph.settings)
    (hroots : e'.graph.possibleRoots = e.graph.possibleRoots) :
    Marked (fun _ => False) e' := by
  intro t ht
  rw [Graph.contains_congr (hcontent t)] at ht
  obtain ⟨r, hroot, hr, hreach⟩ := h t ht
  refine ⟨r, ?_, by rwa [Graph.contains_congr (hcontent r)],
    Graph.reaches_congr (fun q => (hcontent q).symm) hreach⟩
  rwa [Graph.isEntry_congr hsettings, hroots]

theorem Dropping.adding (h : Dropping before path current [] e) (hs : Sound slack e)
    (hwf : before.graph.WellFormed) (hc : e.graph.contains path)
    (hkeys : (current.map Edge.key).Nodup) :
    Adding slack e path (before.graph.edges path) [] current e [] := by
  obtain ⟨kept, hedges, hkept⟩ := h.edges hc
  rw [List.filter_nil, List.append_nil] at hkept
  rw [List.append_nil] at hedges
  refine
    { content := fun _ => rfl, settings := rfl, roots := rfl,
      loading := fun _ => by simp, count := fun _ _ => Nat.le_refl _, sound := ?_ }
  rw [List.nil_append]
  refine hs.setEdges hc ((List.filter_sublist.map Edge.key).nodup hkeys) fun t => ?_
  rw [← targetCount_kept (hwf.nodup_keys path) hkeys, ← hkept, ← hedges]
  rfl

theorem Reported.forget_claimed (h : Reported old e) (path : String) :
    Reported old { e.forget path with loading := (e.loading.erase path).erase path } := by
  refine (h.forget path).of_same (fun _ hq => .inl hq) (fun q hq => .inr ?_) rfl rfl
  rw [loading_forget] at hq
  simp only [Std.TreeMap.contains_erase, Bool.and_eq_true] at hq ⊢
  exact ⟨hq.1, hq⟩

theorem Dropping.processed {arrived : Edit} (ha : Arrived path file e arrived)
    (h : Dropping arrived path current [] e') (hc : e'.graph.contains path = false) :
    Processed resolve path file e [] e' where
  settings := h.settings.trans ha.settings
  other := fun q hne hq => by rw [h.content q hne hq, ha.content, if_neg hne]
  self := fun hc' => by
    rw [hc] at hc'
    cases hc'
  loading := fun q hq => .inr ((ha.loading q).mp ((h.loading q).mp hq))
  awaited := nofun
  entries := fun q he hold => by
    have harrived : arrived.graph.contains q → e'.graph.contains q :=
      h.entry q (by rwa [ha.isEntry])
    rcases hold with hq | hq
    · exact .inl (harrived ((ha.contains q).mpr (.inr hq)))
    · by_cases hne : path = q
      · exact .inl (harrived ((ha.contains q).mpr (.inl hne)))
      · exact .inr ((h.loading q).mpr ((ha.loading q).mpr ⟨hne, hq⟩))

theorem Adding.processed {arrived dropped : Edit} (ha : Arrived path file e arrived)
    (hd : Dropping arrived path current [] dropped) (hc : dropped.graph.contains path)
    (hedges : resolve.edges path e.graph.options.platform file.result.dependencies [] =
      .ok current)
    (h : Adding slack dropped path previous current [] e' next) :
    Processed resolve path file e next (e'.setEdges path current) where
  settings := (settings_setEdges path current).trans
    (h.settings.trans (hd.settings.trans ha.settings))
  other := fun q hne hq => by
    rw [contains_setEdges, h.contains] at hq
    rw [content?_setEdges, if_neg hne, h.content, hd.content q hne hq, ha.content, if_neg hne]
  self := fun _ => by
    refine ⟨current, hedges, ?_⟩
    rw [content?_setEdges, if_pos rfl, h.content, hd.self hc, ha.content, if_pos rfl]
    rfl
  loading := fun q hq => by
    rcases (h.loading q).mp hq with hq | hq
    · exact .inr ((ha.loading q).mp ((hd.loading q).mp hq))
    · exact .inl hq
  awaited := fun q hq => (h.loading q).mpr (.inr hq)
  entries := fun q he hold => by
    have harrived : arrived.graph.contains q → e'.graph.contains q := fun hq => by
      rw [h.contains]
      exact hd.entry q (by rwa [ha.isEntry]) hq
    rw [contains_setEdges]
    rcases hold with hq | hq
    · exact .inl (harrived ((ha.contains q).mpr (.inr hq)))
    · by_cases hne : path = q
      · exact .inl (harrived ((ha.contains q).mpr (.inl hne)))
      · exact .inr ((h.loading q).mpr (.inl ((hd.loading q).mpr ((ha.loading q).mpr ⟨hne, hq⟩))))

theorem Adding.sound_setEdges (h : Adding slack before path previous current [] e next) :
    Sound slack (e.setEdges path current) := by
  have := h.sound
  rwa [List.filter_nil, List.append_nil] at this

theorem Adding.steady (h : Adding slack before path previous current [] e next)
    (hs : Steady slack before) : Steady slack (e.setEdges path current) where
  sound := h.sound_setEdges
  referenced := by
    intro t ht
    rw [contains_setEdges, h.contains] at ht
    have hentry : (e.setEdges path current).graph.isEntry t = before.graph.isEntry t :=
      Graph.isEntry_congr ((settings_setEdges path current).trans h.settings) t
    rw [hentry]
    refine (hs.referenced t ht).imp_right (Or.imp_right fun ⟨p, hp⟩ => ⟨p, ?_⟩)
    rw [count_setEdges]
    exact Nat.lt_of_lt_of_le hp (h.count t p)

theorem Dropping.targets_current (h : Dropping before path current [] e)
    (hc : e.graph.contains path) (hkeys : (current.map Edge.key).Nodup) :
    ∀ t ∈ e.graph.targets path, 0 < targetCount current t := by
  obtain ⟨kept, hedges, hkept⟩ := h.edges hc
  rw [List.filter_nil, List.append_nil] at hkept
  rw [List.append_nil, hkept] at hedges
  intro t ht
  rw [Graph.targets, hedges, List.mem_map] at ht
  obtain ⟨edge, hedge, rfl⟩ := ht
  obtain ⟨kept, hmem, _, htarget⟩ :=
    (Module.keeps_iff hkeys edge).mp (List.mem_filter.mp hedge).2
  rw [← htarget]
  exact targetCount_pos_of_mem hmem

/-- Processing a module of a sound edit keeps what each of its steps keeps: it is
forgotten; or it arrives, the edges that are not kept are removed one by one,
and when the module is still there its new edges are added. -/
theorem process_spec {Q : Edit → Prop} (hs : Sound slack e)
    (h : e.process resolve false path file = (.ok next, e'))
    (hunknown : e.graph.contains path = false → Q e)
    (hforget : e.graph.contains path = false → e.loading.contains path →
      (∀ r, e.count path r = 0) →
      Q { e.forget path with loading := (e.loading.erase path).erase path })
    (harrive : ∀ {arrived}, Arrived path file e arrived → Q arrived)
    (hremove : ∀ {current e₁ edge},
      resolve.edges path e.graph.options.platform file.result.dependencies [] = .ok current →
      Sound slack e₁ → (e₁.graph.contains path → edge ∈ e₁.graph.edges path) →
      Module.keeps current edge = false → Q e₁ → Q (e₁.removeEdge path edge))
    (hadd : ∀ {current arrived dropped},
      resolve.edges path e.graph.options.platform file.result.dependencies [] = .ok current →
      Dropping arrived path current [] dropped → dropped.graph.contains path →
      Adding slack dropped path (arrived.graph.edges path) current []
        (dropped.addEdges false path (arrived.graph.edges path) current).1
        (dropped.addEdges false path (arrived.graph.edges path) current).2 → Q dropped →
      Q ((dropped.addEdges false path (arrived.graph.edges path) current).1.setEdges path
        current)) :
    Processed resolve path file e next e' ∧ Sound slack e' ∧ Q e' := by
  rcases process_cases hs.apart h with
    ⟨hc, hl, hentry, rfl, rfl⟩ | ⟨hc, hl, hentry, hzero, rfl, rfl⟩ |
      ⟨current, arrived, hedges, harrived, hrest⟩
  · refine ⟨?_, hs, hunknown hc⟩
    exact
      { settings := rfl
        other := fun _ _ _ => rfl
        self := fun hc' => by rw [hc] at hc'; cases hc'
        loading := fun q hq => by
          refine .inr ⟨?_, hq⟩
          rintro rfl
          rw [hl] at hq
          cases hq
        awaited := nofun
        entries := fun _ _ hold => hold }
  · exact ⟨processed_forget hc hentry, hs.forget hc hzero, hforget hc hl hzero⟩
  · have hkeys := (Resolver.nodup_edges hedges).1
    have hsarrived := harrived.sound hs
    obtain ⟨hdropping, hsdropped, hq⟩ :=
      dropped path hsarrived (hremove hedges) (harrive harrived)
    rcases hrest with ⟨hgone, rfl, rfl⟩ | ⟨hstays, rfl, rfl⟩
    · exact ⟨hdropping.processed harrived hgone, hsdropped, hq⟩
    · have hadding := adding (hdropping.adding hsdropped hsarrived.wellFormed hstays hkeys)
        hstays hkeys
      exact ⟨hadding.processed harrived hdropping hstays hedges, hadding.sound_setEdges,
        hadd hedges hdropping hstays hadding hq⟩

theorem processed (old : String → Prop) (hs : Steady slack e)
    (h : e.process resolve false path file = (.ok next, e')) :
    Processed resolve path file e next e' ∧ Steady slack e' ∧
      (Marked (fun _ => False) e → Marked (fun _ => False) e') ∧
      (Reported old e → Reported old e') := by
  refine (process_spec
    (Q := fun d => Steady slack d ∧ (Marked (fun _ => False) e → Marked (fun _ => False) d) ∧
      (Reported old e → Reported old d)) hs.sound h ?_ ?_ ?_ ?_ ?_).imp_right And.right
  · exact fun _ => ⟨hs, id, id⟩
  · refine fun hc _ hzero => ⟨hs.forget hc hzero, fun hm => ?_, fun hr => hr.forget_claimed path⟩
    exact hm.of_same (fun q => by rw [graph_forget]) (by rw [graph_forget]) (by rw [graph_forget])
  · exact fun ha => ⟨ha.steady hs, ha.marked hs, ha.reported⟩
  · exact fun _ _ hmem _ hq => ⟨hq.1.removeEdge hmem,
      fun hm => (hq.2.1 hm).removeEdge hq.1 hmem, fun hr => (hq.2.2 hr).removeEdge _ _⟩
  · intro current arrived dropped hedges hdropping hstays hadding hq
    refine ⟨hadding.steady hq.1, fun hm => ?_, fun hr => ?_⟩
    · refine ((hq.2.1 hm).of_same hadding.content hadding.settings hadding.roots).setEdges
        (by rwa [hadding.contains]) ?_
      rw [Graph.targets_congr (hadding.content path)]
      exact hdropping.targets_current hstays (Resolver.nodup_edges hedges).1
    · exact (addEdges_preserves (fun edge h => h.addEdge path edge) (hq.2.2 hr)).of_same
        (fun q hq => .inl (by rwa [contains_setEdges])) (fun q hq => .inr hq) rfl rfl

end BundleGraph.Edit
