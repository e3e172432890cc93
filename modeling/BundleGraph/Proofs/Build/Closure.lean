import BundleGraph.Proofs.Build.Layout

/-!
# Builds compute closures

`run_computes_closure` sums up what a build with fixed files comes to, in terms
of its input alone: when it succeeds, when it ends at all, and what it yields.
The order in which loads complete shows in none of this, except in which of
several failures is reported.
-/

namespace BundleGraph.Build

open Std (TreeMap)

variable {σ τ : Type} {i : Input}

-- ---------------------------------------------------------------------------
-- One result
-- ---------------------------------------------------------------------------

theorem toList_congr {β : Type} {t t' : TreeMap String β} (h : ∀ k : String, t[k]? = t'[k]?) :
    t.toList = t'.toList := by
  have hnodup : ∀ t : TreeMap String β, t.toList.Nodup := fun t => by
    have hkeys := t.nodup_keys
    rw [← TreeMap.map_fst_toList_eq_keys] at hkeys
    exact hkeys.of_map
  refine (TreeMap.Equiv.of_toList_perm ?_).toList_eq
  refine (List.perm_ext_iff_of_nodup (hnodup t) (hnodup t')).mpr fun ⟨k, v⟩ => ?_
  rw [TreeMap.mem_toList_iff_getElem?_eq_some, TreeMap.mem_toList_iff_getElem?_eq_some, h]

/-- The layout depends on what was discovered, not on the order. -/
theorem collect_congr (entries : List (Option Edge)) {modules modules' : TreeMap String Discovered}
    (h : ∀ path : String, modules[path]? = modules'[path]?) :
    collect entries modules = collect entries modules' := by
  have hreferrers : referrers modules = referrers modules' := by
    rw [referrers, referrers, TreeMap.foldl_eq_foldl_toList, TreeMap.foldl_eq_foldl_toList,
      toList_congr h]
  have hmodule : builtModule? modules = builtModule? modules' := by
    funext path
    rw [builtModule?, builtModule?, h, hreferrers]
  have horder : ∀ starts, preorder (adjacency modules) starts =
      preorder (adjacency modules') starts := fun starts => by
    refine (Preorder.preorder_congr (P := fun _ => True) (fun path _ => ?_)
      (fun _ _ _ _ _ _ => trivial) fun _ _ => trivial).1
    rw [adjacency, adjacency, TreeMap.getElem?_map, TreeMap.getElem?_map, h]
  rw [collect_def, collect_def, hmodule, horder]

namespace Complete

variable {s : State σ} {s' : State τ}

theorem getElem?_modules (h : Complete i s) (path : String) (found : Discovered) :
    s.modules[path]? = some found ↔ i.Included path ∧ i.files path = .ok found.file ∧
      found.slots = (i.dependencies (some path)).map (i.edge? (some path)) := by
  have hslots : ∀ {found}, s.modules[path]? = some found →
      found.slots = (i.dependencies (some path)).map (i.edge? (some path)) := by
    intro found hfound
    have hknown : s.Known (some path) := ⟨found.file, by rw [State.file?, hfound]; rfl⟩
    rw [← h.slots _ hknown, State.slots, hfound]
  constructor
  · intro hfound
    obtain ⟨hpath, hfile, _⟩ := h.found hfound
    exact ⟨hpath, hfile, hslots hfound⟩
  · rintro ⟨hpath, hfile, heq⟩
    obtain ⟨found', hfound, hsame⟩ :=
      Option.map_eq_some_iff.mp ((h.files path found.file).mpr ⟨hpath, hfile⟩)
    have := hslots hfound
    obtain ⟨file, slots⟩ := found
    obtain ⟨file', slots'⟩ := found'
    dsimp only at hsame heq this
    rw [hfound, hsame, heq, this]

theorem collect_eq (h : Complete i s) (h' : Complete i s') :
    collect s'.entries s'.modules = collect s.entries s.modules := by
  have hentries : s'.entries = s.entries :=
    (h'.slots none known_none).trans (h.slots none known_none).symm
  rw [hentries]
  refine collect_congr s.entries fun path => ?_
  ext found
  rw [h'.getElem?_modules, h.getElem?_modules]

end Complete

-- ---------------------------------------------------------------------------
-- Builds
-- ---------------------------------------------------------------------------

theorem exists_outcome_ok {loader : Loader σ} (hloads : i.Loads loader) (schedule : Schedule)
    (host : σ) :
    (∃ budget result, i.outcome loader ⟨schedule, budget⟩ host = .ok result) ↔
      i.Buildable ∧ {path | i.Included path}.Finite := by
  constructor
  · rintro ⟨budget, result, h⟩
    obtain ⟨s, hcomplete, _⟩ := outcome_ok hloads h
    exact ⟨hcomplete.buildable, hcomplete.finite⟩
  · rintro ⟨hbuildable, hfinite⟩
    obtain ⟨moves, hmoves⟩ := outcome_ends (σ := σ) hfinite
    have hends := hmoves loader ⟨schedule, moves + 1⟩ host hloads (Nat.lt_succ_self moves)
    refine ⟨moves + 1, ?_⟩
    cases h : i.outcome loader ⟨schedule, moves + 1⟩ host with
    | ok result => exact ⟨result, rfl⟩
    | error e =>
      refine absurd hbuildable (outcome_error hloads ?_ h)
      rintro rfl
      exact hends h

/-- Whatever the order in which loads complete, a build succeeds for some budget
exactly when everything that is needed resolves and loads and there are finitely
many paths to build. With finitely many it never runs on, so that otherwise it
fails. The result of a success is the closure of the input, and the same for
every order and every loader of the same files. -/
theorem run_computes_closure {loader : Loader σ} (hloads : i.Loads loader) (host : σ) :
    (∀ schedule, (∃ budget result, i.outcome loader ⟨schedule, budget⟩ host = .ok result) ↔
      i.Buildable ∧ {path | i.Included path}.Finite) ∧
    ({path | i.Included path}.Finite → ∃ moves, ∀ pace : Pace, moves < pace.budget →
      i.outcome loader pace host ≠ .error .budgetSpent) ∧
    ∀ pace result, i.outcome loader pace host = .ok result → i.IsClosure result ∧
      ∀ (loader' : Loader σ) (pace' : Pace) (host' : σ) (result' : BuildResult), i.Loads loader' →
        i.outcome loader' pace' host' = .ok result' → result' = result := by
  refine ⟨fun schedule => exists_outcome_ok hloads schedule host, fun hfinite => ?_,
    fun pace result h => ?_⟩
  · obtain ⟨moves, hmoves⟩ := outcome_ends (σ := σ) hfinite
    exact ⟨moves, fun pace hpace => hmoves loader pace host hloads hpace⟩
  · obtain ⟨s, hcomplete, rfl⟩ := outcome_ok hloads h
    refine ⟨hcomplete.closure, fun loader' pace' host' result' hloads' h' => ?_⟩
    obtain ⟨s', hcomplete', rfl⟩ := outcome_ok hloads' h'
    exact hcomplete.collect_eq hcomplete'

/-- A loader of the files without a state of its own. Longer paths take longer. -/
def Input.loader (i : Input) : Loader Unit where
  load path host := (⟨i.files path, path.length⟩, host)

theorem loads_loader (i : Input) : i.Loads i.loader := fun _ _ => rfl

/-- Two files that import each other, one of them under two keys. The other also
imports a file that is skipped, and one that is optional and missing. -/
def mutualImports : Input where
  resolve origin d _ :=
    if d.name = "/missing" then .error { origin, reference := d.name } else .ok d.name
  files path :=
    if path = "/e" then
      .ok ⟨⟨[⟨"/missing", "m", .sync, true, []⟩, .ofName "/s", .ofName "/a"], []⟩, "1"⟩
    else if path = "/a" then
      .ok ⟨⟨[.ofName "/e", ⟨"/e", "lazy:/e", .deferred, false, []⟩], []⟩, "2"⟩
    else .error (.io ⟨path, true⟩)
  options := { skip := .ofList ["/s"] }
  entries := ["/s", "/e", "/e"]

theorem mutualImports_closure : mutualImports.Loads mutualImports.loader ∧
    ∃ result, mutualImports.outcome mutualImports.loader { budget := 20 } () = .ok result ∧
      mutualImports.IsClosure result ∧ result.modules.map (·.path) = ["/e", "/a"] ∧
      result.edgeCount "/a" "/e" = 2 := by
  have hpaths : ((mutualImports.outcome mutualImports.loader { budget := 20 } ()).toOption.map
      fun r => (r.modules.map (·.path), r.edgeCount "/a" "/e")) = some (["/e", "/a"], 2) := by
    decide +kernel
  cases hrun : mutualImports.outcome mutualImports.loader { budget := 20 } () with
  | error e =>
    rw [hrun] at hpaths
    cases hpaths
  | ok result =>
    rw [hrun] at hpaths
    simp only [Except.toOption, Option.map_some, Option.some.injEq, Prod.mk.injEq] at hpaths
    have hclosure := (run_computes_closure (loads_loader mutualImports) ()).2.2 _ _ hrun
    exact ⟨loads_loader _, result, rfl, hclosure.1, hpaths⟩

/-- An entry that imports a skipped path, of which there is no file. -/
def skippedImport : Input where
  resolve _ d _ := .ok d.name
  files path :=
    if path = "/e" then .ok ⟨⟨[.ofName "/a"], []⟩, "1"⟩ else .error (.io ⟨path, true⟩)
  options := { skip := .ofList ["/a"] }
  entries := ["/e"]

/-- Files that import one another without end. -/
def endlessImports : Input where
  resolve _ d _ := .ok d.name
  files path := .ok ⟨⟨[.ofName (path ++ "a")], []⟩, path⟩
  entries := ["a"]

/-- The names of the files that import one another, in their order. -/
def endlessName : Nat → String
  | 0 => "a"
  | n + 1 => endlessName n ++ "a"

theorem included_endlessName (n : Nat) : endlessImports.Included (endlessName n) := by
  refine ⟨?_, rfl⟩
  induction n with
  | zero => exact .entry (.head _)
  | succ n ih => exact .dependency ih rfl (.head _)

theorem infinite_endlessImports : ¬ {path | endlessImports.Included path}.Finite := by
  have hlength : ∀ n, (endlessName n).length = n + 1 := by
    intro n
    induction n with
    | zero => rfl
    | succ n ih =>
      rw [endlessName, String.length_append, ih]
      rfl
  refine Set.infinite_of_injective_forall_mem (f := endlessName) (fun m n h => ?_)
    included_endlessName
  have := congrArg String.length h
  rw [hlength, hlength] at this
  omega

/-- A path that is reached need not load for a build to succeed, when it is
skipped. And where there is no end of paths to build, no build succeeds though
every one of them loads. -/
theorem reached_need_not_load :
    (∃ result, skippedImport.outcome skippedImport.loader { budget := 20 } () = .ok result ∧
      skippedImport.Reached "/a" ∧ ∀ file, skippedImport.files "/a" ≠ .ok file) ∧
    endlessImports.Buildable ∧ ∀ pace result,
      endlessImports.outcome endlessImports.loader pace () ≠ .ok result := by
  refine ⟨?_, ?_, fun pace result h => ?_⟩
  · have hok : (skippedImport.outcome skippedImport.loader { budget := 20 } ()).isOk := by
      decide +kernel
    have hreached : skippedImport.Reached "/a" :=
      .dependency (.entry (.head _)) (by decide +kernel) (.head _)
    cases hrun : skippedImport.outcome skippedImport.loader { budget := 20 } () with
    | error e =>
      rw [hrun] at hok
      cases hok
    | ok result => exact ⟨result, rfl, hreached, nofun⟩
  · exact
      { entries := fun entry _ => ⟨entry, rfl⟩
        loads := fun path _ => ⟨_, rfl⟩
        keys := fun path _ => List.nodup_singleton _
        resolves := fun path _ d _ => .inl ⟨d.name, rfl⟩ }
  · obtain ⟨s, hcomplete, _⟩ := outcome_ok (loads_loader endlessImports) h
    exact infinite_endlessImports hcomplete.finite

end BundleGraph.Build
