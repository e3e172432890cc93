import BundleGraph.Error

/-!
# Resolution

A resolver maps a reference to a path. The dependencies of a module become
edges, one for each key; optional ones that cannot be found are left out.
-/

namespace BundleGraph

/-- Maps a dependency of an origin, or of the root, to a path on a platform. -/
abbrev Resolver := Option String → Dependency → Option String → Except ResolutionError String

/-- The path of a dependency, or none for an optional one that is not found.
A failure is located where the dependency is first declared. -/
def Resolver.path? (resolve : Resolver) (origin : Option String) (d : Dependency)
    (platform : Option String) : Except ResolutionError (Option String) :=
  match resolve origin d platform with
  | .ok path => .ok (some path)
  | .error e =>
    if d.optional && e.isNotFound then .ok none else .error (e.withLocation d.firstLocation?)

/-- The edges of dependencies in their order. A key may not come again once it
has an edge. -/
def Resolver.edges (resolve : Resolver) (origin : String) (platform : Option String) :
    List Dependency → List String → Except BuildError (List Edge)
  | [], _ => .ok []
  | d :: ds, keys =>
    if d.key ∈ keys then .error (.duplicateKey origin d.key)
    else
      match resolve.path? (some origin) d platform with
      | .error e => .error (.resolution e)
      | .ok none => resolve.edges origin platform ds keys
      | .ok (some target) =>
        (resolve.edges origin platform ds (d.key :: keys)).map (⟨target, d⟩ :: ·)

variable {resolve : Resolver} {origin : String} {platform : Option String}
  {ds : List Dependency} {keys : List String} {es : List Edge}

theorem Resolver.path?_eq_some {origin : Option String} {d : Dependency} {target : String} :
    resolve.path? origin d platform = .ok (some target) ↔
      resolve origin d platform = .ok target := by
  unfold path?
  cases resolve origin d platform with
  | ok path => simp
  | error e =>
    dsimp only
    split <;> simp

theorem Resolver.path?_eq_none {origin : Option String} {d : Dependency} :
    resolve.path? origin d platform = .ok none ↔
      d.optional ∧ ∃ e, resolve origin d platform = .error e ∧ e.isNotFound := by
  unfold path?
  cases resolve origin d platform with
  | ok path => simp
  | error e =>
    dsimp only
    split
    · rename_i h
      simpa using h
    · rename_i h
      simpa using h

/-- The first of the dependencies has no edge when it is optional and not found;
otherwise its edge comes first and leads where the resolver says. -/
theorem Resolver.edges_cons {d : Dependency}
    (h : resolve.edges origin platform (d :: ds) keys = .ok es) :
    resolve.path? (some origin) d platform = .ok none ∧
        resolve.edges origin platform ds keys = .ok es ∨
      ∃ target rest, d.key ∉ keys ∧ resolve (some origin) d platform = .ok target ∧
        resolve.edges origin platform ds (d.key :: keys) = .ok rest ∧ es = ⟨target, d⟩ :: rest := by
  unfold edges at h
  split at h
  · cases h
  · rename_i hkey
    split at h
    · cases h
    · rename_i hpath
      exact .inl ⟨hpath, h⟩
    · rename_i target hpath
      cases hrest : resolve.edges origin platform ds (d.key :: keys) with
      | error e => simp [hrest, Except.map] at h
      | ok rest =>
        simp only [hrest, Except.map, Except.ok.injEq] at h
        exact .inr ⟨target, rest, hkey, path?_eq_some.mp hpath, rfl, h.symm⟩

theorem Resolver.edges_error {error : BuildError}
    (h : resolve.edges origin platform ds keys = .error error) :
    (∃ key, error = .duplicateKey origin key) ∨ ∃ e, error = .resolution e := by
  induction ds generalizing keys with
  | nil => cases h
  | cons d ds ih =>
    unfold edges at h
    split at h
    · cases h
      exact .inl ⟨d.key, rfl⟩
    · split at h
      · cases h
        exact .inr ⟨_, rfl⟩
      · exact ih h
      · cases hrest : resolve.edges origin platform ds (d.key :: keys) with
        | ok rest => simp [hrest, Except.map] at h
        | error e =>
          simp only [hrest, Except.map, Except.error.injEq] at h
          exact ih (h ▸ hrest)

theorem Resolver.nodup_edges (h : resolve.edges origin platform ds keys = .ok es) :
    (es.map Edge.key).Nodup ∧ ∀ edge ∈ es, edge.key ∉ keys := by
  induction ds generalizing keys es with
  | nil =>
    cases h
    exact ⟨List.nodup_nil, nofun⟩
  | cons d ds ih =>
    rcases edges_cons h with ⟨_, hrest⟩ | ⟨target, rest, hkey, _, hrest, rfl⟩
    · exact ih hrest
    · obtain ⟨hnodup, hnot⟩ := ih hrest
      refine ⟨List.nodup_cons.mpr ⟨?_, hnodup⟩, ?_⟩
      · rw [List.mem_map]
        rintro ⟨edge, hedge, heq⟩
        exact hnot edge hedge (List.mem_cons.mpr (.inl heq))
      · intro edge hedge
        rcases List.mem_cons.mp hedge with rfl | hedge
        · exact hkey
        · exact fun hmem => hnot edge hedge (List.mem_cons_of_mem _ hmem)

theorem Resolver.of_mem_edges (h : resolve.edges origin platform ds keys = .ok es) {edge : Edge}
    (hedge : edge ∈ es) : edge.dependency ∈ ds ∧
      resolve (some origin) edge.dependency platform = .ok edge.target := by
  induction ds generalizing keys es with
  | nil =>
    cases h
    cases hedge
  | cons d ds ih =>
    rcases edges_cons h with ⟨_, hrest⟩ | ⟨target, rest, _, hresolve, hrest, rfl⟩
    · exact (ih hrest hedge).imp_left (.tail _)
    · rcases List.mem_cons.mp hedge with rfl | hedge
      · exact ⟨.head _, hresolve⟩
      · exact (ih hrest hedge).imp_left (.tail _)

theorem Resolver.mem_targets_edges (h : resolve.edges origin platform ds keys = .ok es)
    {d : Dependency} (hd : d ∈ ds) {target : String}
    (hresolve : resolve (some origin) d platform = .ok target) : target ∈ es.map (·.target) := by
  induction ds generalizing keys es with
  | nil => cases hd
  | cons d' ds ih =>
    rcases edges_cons h with ⟨hnone, hrest⟩ | ⟨target', rest, _, hresolve', hrest, rfl⟩
    · rcases List.mem_cons.mp hd with rfl | hd
      · rw [path?_eq_some.mpr hresolve] at hnone
        cases hnone
      · exact ih hrest hd
    · rcases List.mem_cons.mp hd with rfl | hd
      · rw [hresolve', Except.ok.injEq] at hresolve
        exact List.mem_cons.mpr (.inl hresolve.symm)
      · exact List.mem_cons_of_mem _ (ih hrest hd)

theorem Resolver.edges_congr {resolve' : Resolver}
    (h : ∀ d ∈ ds, resolve (some origin) d platform = resolve' (some origin) d platform)
    (keys : List String) :
    resolve.edges origin platform ds keys = resolve'.edges origin platform ds keys := by
  induction ds generalizing keys with
  | nil => rfl
  | cons d ds ih =>
    have hrest := ih fun d' hd' => h d' (.tail _ hd')
    have hpath : resolve.path? (some origin) d platform =
        resolve'.path? (some origin) d platform := by
      rw [path?, path?, h d (.head _)]
    rw [edges, edges, hpath]
    simp only [hrest]

end BundleGraph
