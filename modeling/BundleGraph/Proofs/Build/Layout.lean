import BundleGraph.Proofs.Build.Run
import BundleGraph.Proofs.Preorder

/-!
# The layout of a build result

What a build discovered, in whatever order, is laid out in depth-first pre-order,
and every module gets its referrers. `Complete.closure` is the result in terms
of the input alone; `Complete.collect_eq` says that the layout does not tell how
the modules came to be discovered.
-/

namespace BundleGraph

/-- How many edges the modules of a path have to a target. -/
def BuildResult.edgeCount (r : BuildResult) (origin target : String) : Nat :=
  ((r.modules.filter (·.path = origin)).flatMap Module.targets).count target

namespace Build

open Std (TreeMap)
open BundleGraph.Preorder (Descent)

variable {σ : Type} {i : Input} {s s' : State σ}

/-- Where a path leads to; a skipped one leads nowhere. -/
def Input.children (i : Input) (path : String) : Option (List String) :=
  if i.skips path then none else some (i.targets (some path))

/-- The modules that are reached, each with its edges in the order of its
dependencies and a count of the edges that lead to it, in the order in which a
recursive descent from the entries first visits them. The entries are among
them, each at its first occurrence. -/
structure Input.IsClosure (i : Input) (r : BuildResult) : Prop where
  order : Descent i.children (i.targets none) [] (r.modules.map (·.path))
  included : ∀ path, path ∈ r.modules.map (·.path) ↔ i.Included path
  nodup : (r.modules.map (·.path)).Nodup
  content : ∀ m ∈ r.modules,
    i.files m.path = .ok ⟨m.result, m.digest⟩ ∧ m.edges = i.edges (some m.path)
  inverse : ∀ m ∈ r.modules, ∀ origin, m.inverse.count origin = r.edgeCount origin m.path
  entries : r.entries.map (·.path) = (i.targets none).eraseDups.filter (!i.skips ·)
  mem_entries : ∀ m ∈ r.entries, m ∈ r.modules

-- ---------------------------------------------------------------------------
-- Referrers
-- ---------------------------------------------------------------------------

theorem filter_key {α : Type} {key : α → String} {l : List α} (hl : (l.map key).Nodup) {x : α}
    (hx : x ∈ l) : l.filter (key · = key x) = [x] := by
  induction l with
  | nil => cases hx
  | cons y l ih =>
    obtain ⟨hy, hl⟩ := List.nodup_cons.mp hl
    rcases List.mem_cons.mp hx with rfl | hx
    · rw [List.filter_cons_of_pos (by simp), List.filter_eq_nil_iff.mpr]
      intro z hz heq
      exact hy (List.mem_map.mpr ⟨z, hz, of_decide_eq_true heq⟩)
    · rw [List.filter_cons_of_neg, ih hl hx]
      simp only [decide_eq_true_eq]
      exact fun heq => hy (List.mem_map.mpr ⟨x, hx, heq.symm⟩)

theorem count_addEdges (edges : List Edge) (inverse : TreeMap String (CountingSet String))
    (origin other target : String) :
    ((edges.foldl (fun inverse e =>
      inverse.insert e.target ((inverse.getD e.target ∅).add origin)) inverse).getD target ∅).count
        other = (inverse.getD target ∅).count other +
          if origin = other then (edges.map (·.target)).count target else 0 := by
  induction edges generalizing inverse with
  | nil => simp
  | cons e edges ih =>
    rw [List.foldl_cons, ih, TreeMap.getD_insert, List.map_cons, List.count_cons]
    by_cases ht : e.target = target
    · subst ht
      simp only [Std.ReflCmp.compare_self, if_true, CountingSet.count_add, beq_self_eq_true]
      split <;> omega
    · simp [ht]

theorem count_referrers (modules : TreeMap String Discovered) (origin target : String) :
    ((referrers modules).getD target ∅).count origin =
      ((modules.toList.filter (·.1 = origin)).flatMap fun e =>
        (edges e.2).map (·.target)).count target := by
  rw [referrers, TreeMap.foldl_eq_foldl_toList]
  suffices h : ∀ (l : List (String × Discovered)) (inverse : TreeMap String (CountingSet String)),
      ((l.foldl (fun inverse e => (edges e.2).foldl (fun inverse edge =>
        inverse.insert edge.target ((inverse.getD edge.target ∅).add e.1)) inverse)
          inverse).getD target ∅).count origin = (inverse.getD target ∅).count origin +
            ((l.filter (·.1 = origin)).flatMap fun e => (edges e.2).map (·.target)).count target by
    rw [h]
    simp
  intro l
  induction l with
  | nil => simp
  | cons e l ih =>
    intro inverse
    rw [List.foldl_cons, ih, count_addEdges]
    by_cases he : e.1 = origin
    · simp [he, Nat.add_assoc]
    · simp [he]

-- ---------------------------------------------------------------------------
-- The layout
-- ---------------------------------------------------------------------------

def builtModule? (modules : TreeMap String Discovered) (path : String) : Option Module :=
  modules[path]?.map fun found =>
    { path
      edges := edges found
      inverse := (referrers modules).getD path ∅
      result := found.file.result
      digest := found.file.digest }

def adjacency (modules : TreeMap String Discovered) : Adjacency :=
  modules.map fun _ found => (edges found).map (·.target)

theorem collect_def (entries : List (Option Edge)) (modules : TreeMap String Discovered) :
    collect entries modules =
      { modules := (preorder (adjacency modules)
          ((entries.filterMap id).map (·.target))).filterMap (builtModule? modules)
        entries := (OrderedSet.ofList ((entries.filterMap id).map (·.target))).toList.filterMap
          (builtModule? modules) } := rfl

theorem map_path_filterMap (modules : TreeMap String Discovered) (paths : List String) :
    (paths.filterMap (builtModule? modules)).map (·.path) = paths.filter modules.contains := by
  have hguard : ∀ path, (builtModule? modules path).map (·.path) =
      Option.guard (fun p => modules.contains p) path := by
    intro path
    rw [builtModule?, Option.map_map, Option.guard, ← TreeMap.isSome_getElem?_eq_contains]
    cases modules[path]? <;> rfl
  rw [List.map_filterMap, List.filterMap_congr fun path _ => hguard path, List.filterMap_eq_filter]

namespace Complete

theorem filterMap_slots (h : Complete i s) {origin : Option String} (hknown : s.Known origin) :
    (s.slots origin).filterMap id = i.edges origin := by
  rw [h.slots origin hknown, List.filterMap_map]
  rfl

theorem starts (h : Complete i s) : (s.entries.filterMap id).map (·.target) = i.targets none := by
  have hslots : s.entries = s.slots none := rfl
  rw [hslots, h.filterMap_slots known_none]
  rfl

theorem found (h : Complete i s) {path : String} {found : Discovered}
    (hfound : s.modules[path]? = some found) :
    i.Included path ∧ i.files path = .ok found.file ∧ edges found = i.edges (some path) := by
  have hfile : s.file? path = some found.file := by rw [State.file?, hfound]; rfl
  obtain ⟨hpath, hok⟩ := (h.files path found.file).mp hfile
  have hknown : s.Known (some path) := ⟨found.file, hfile⟩
  have hslots : s.slots (some path) = found.slots := by rw [State.slots, hfound]
  exact ⟨hpath, hok, by rw [edges, ← hslots, h.filterMap_slots hknown]⟩

theorem contains_iff (h : Complete i s) (path : String) :
    s.modules.contains path ↔ i.Included path := by
  rw [← known_some]
  constructor
  · rintro ⟨file, hfile⟩
    exact ((h.files path file).mp hfile).1
  · intro hpath
    obtain ⟨file, hfile⟩ := h.buildable.loads path hpath
    exact ⟨file, (h.files path file).mpr ⟨hpath, hfile⟩⟩

theorem contains_eq (h : Complete i s) {path : String} (hreached : i.Reached path) :
    s.modules.contains path = !i.skips path := by
  rw [Bool.eq_iff_iff, h.contains_iff, Bool.not_eq_true']
  exact and_iff_right hreached

theorem children_eq (h : Complete i s) {path : String} (hreached : i.Reached path) :
    i.children path = (adjacency s.modules)[path]? := by
  rw [adjacency, TreeMap.getElem?_map, Input.children]
  cases hfound : s.modules[path]? with
  | none =>
    have hcontains := h.contains_eq hreached
    rw [← TreeMap.isSome_getElem?_eq_contains, hfound] at hcontains
    rw [if_pos (by simpa using hcontains)]
    rfl
  | some found =>
    obtain ⟨hpath, _, hedges⟩ := h.found hfound
    rw [hpath.2, if_neg Bool.false_ne_true, Option.map_some, hedges]
    rfl

theorem reached_of_child (h : Complete i s) {path : String} {below : List String}
    (hbelow : (adjacency s.modules)[path]? = some below) : ∀ c ∈ below, i.Reached c := by
  rw [adjacency, TreeMap.getElem?_map] at hbelow
  obtain ⟨found, hfound, rfl⟩ := Option.map_eq_some_iff.mp hbelow
  obtain ⟨hpath, _, hedges⟩ := h.found hfound
  rw [hedges]
  exact fun c hc => .dependency hpath.1 hpath.2 hc

theorem order (h : Complete i s) :
    Descent i.children (i.targets none) [] (preorder (adjacency s.modules) (i.targets none)) ∧
      (preorder (adjacency s.modules) (i.targets none)).Nodup ∧
      ∀ path ∈ preorder (adjacency s.modules) (i.targets none), i.Reached path := by
  have hclosed : ∀ path below, i.Reached path → (adjacency s.modules)[path]? = some below →
      ∀ c ∈ below, i.Reached c := fun _ _ _ hbelow => h.reached_of_child hbelow
  have hstarts : ∀ path ∈ i.targets none, i.Reached path := fun _ => .entry
  obtain ⟨visited, hwalk, horder⟩ := Preorder.preorder_spec (adjacency s.modules) (i.targets none)
  refine ⟨?_, horder ▸ visited.nodup_toList,
    (Preorder.preorder_congr (fun _ _ => rfl) hclosed hstarts).2⟩
  rw [horder]
  exact hwalk.descent (fun _ => h.children_eq) hclosed hstarts

theorem mem_order (h : Complete i s) (path : String) :
    path ∈ preorder (adjacency s.modules) (i.targets none) ↔ i.Included path := by
  obtain ⟨hdescent, _, hreached⟩ := h.order
  obtain ⟨_, hall, hclosed⟩ := hdescent.visits
  have hknown : ∀ p, i.skips p = false → (i.children p).isSome := by
    intro p hp
    rw [Input.children, hp]
    rfl
  constructor
  · intro hpath
    refine ⟨hreached path hpath, ?_⟩
    rcases hclosed path hpath with hnil | ⟨below, hbelow, _⟩
    · cases hnil
    · cases hskip : i.skips path with
      | false => rfl
      | true =>
        rw [Input.children, hskip] at hbelow
        cases hbelow
  · rintro ⟨hpath, hskip⟩
    induction hpath with
    | entry hpath => exact hall _ hpath (hknown _ hskip)
    | dependency _ hskip' hpath ih =>
      rcases hclosed _ (ih hskip') with hnil | ⟨below, hbelow, hin⟩
      · cases hnil
      · rw [Input.children, hskip', if_neg Bool.false_ne_true] at hbelow
        cases hbelow
        exact hin _ hpath (hknown _ hskip)

theorem map_path_modules (h : Complete i s) :
    (collect s.entries s.modules).modules.map (·.path) =
      preorder (adjacency s.modules) (i.targets none) := by
  rw [collect_def, h.starts, map_path_filterMap, List.filter_eq_self]
  exact fun path hpath => (h.contains_iff path).mpr ((h.mem_order path).mp hpath)

theorem mem_modules (h : Complete i s) {m : Module} :
    m ∈ (collect s.entries s.modules).modules ↔ builtModule? s.modules m.path = some m := by
  rw [collect_def, h.starts, List.mem_filterMap]
  constructor
  · rintro ⟨path, _, hm⟩
    obtain ⟨found, _, rfl⟩ := Option.map_eq_some_iff.mp hm
    exact hm
  · intro hm
    obtain ⟨found, hfound, _⟩ := Option.map_eq_some_iff.mp hm
    exact ⟨m.path, (h.mem_order m.path).mpr (h.found hfound).1, hm⟩

theorem edgeCount_eq (h : Complete i s) (origin target : String) :
    (collect s.entries s.modules).edgeCount origin target =
      ((referrers s.modules).getD target ∅).count origin := by
  have hkeys : (s.modules.toList.map (·.1)).Nodup := by
    rw [TreeMap.map_fst_toList_eq_keys]
    exact s.modules.nodup_keys
  rw [count_referrers, BuildResult.edgeCount]
  cases hfound : s.modules[origin]? with
  | some found =>
    have hm : builtModule? s.modules origin = some _ := congrArg (Option.map _) hfound
    have hmem := (h.mem_modules (m := ⟨origin, _, _, _, _⟩)).mpr hm
    have hnodup : ((collect s.entries s.modules).modules.map (·.path)).Nodup := by
      rw [h.map_path_modules]
      exact h.order.2.1
    have htoList := TreeMap.mem_toList_iff_getElem?_eq_some.mpr hfound
    rw [filter_key hnodup hmem, filter_key hkeys htoList]
    simp [Module.targets]
  | none =>
    rw [List.filter_eq_nil_iff.mpr, List.filter_eq_nil_iff.mpr]
    · rfl
    · rintro ⟨path, found⟩ hmem heq
      obtain rfl : path = origin := of_decide_eq_true heq
      rw [TreeMap.mem_toList_iff_getElem?_eq_some, hfound] at hmem
      cases hmem
    · intro m hm heq
      obtain rfl : m.path = origin := of_decide_eq_true heq
      obtain ⟨found, hsome, _⟩ := Option.map_eq_some_iff.mp (h.mem_modules.mp hm)
      rw [hfound] at hsome
      cases hsome

theorem closure (h : Complete i s) : i.IsClosure (collect s.entries s.modules) where
  order := by
    rw [h.map_path_modules]
    exact h.order.1
  included := by
    rw [h.map_path_modules]
    exact h.mem_order
  nodup := by
    rw [h.map_path_modules]
    exact h.order.2.1
  content := fun m hm => by
    obtain ⟨found, hfound, hm⟩ := Option.map_eq_some_iff.mp (h.mem_modules.mp hm)
    obtain ⟨_, hfile, hedges⟩ := h.found hfound
    rw [← hm]
    exact ⟨hfile, hedges⟩
  inverse := fun m hm origin => by
    rw [h.edgeCount_eq]
    obtain ⟨found, _, hm⟩ := Option.map_eq_some_iff.mp (h.mem_modules.mp hm)
    rw [← hm]
  entries := by
    rw [collect_def, h.starts, map_path_filterMap, OrderedSet.toList_ofList_eq_eraseDups]
    refine List.filter_congr fun path hpath => ?_
    exact h.contains_eq (.entry (List.mem_eraseDups.mp hpath))
  mem_entries := fun m hm => by
    rw [h.mem_modules]
    obtain ⟨path, _, hbuilt⟩ := List.mem_filterMap.mp hm
    obtain ⟨found, _, rfl⟩ := Option.map_eq_some_iff.mp hbuilt
    exact hbuilt

end Complete

end Build

end BundleGraph
