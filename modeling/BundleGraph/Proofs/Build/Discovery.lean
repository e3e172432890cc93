import BundleGraph.Proofs.Build.Input
import BundleGraph.Proofs.LoadMemo
import BundleGraph.Proofs.Queue

/-!
# What a build discovers

While a build works off its tasks, every slot is either filled as the resolver
says or waits for a task, and whatever a filled slot leads to is skipped or
discovered. `Discovering.complete` is what that comes to when no task is left:
all that is reached is discovered, and nothing else.
-/

namespace BundleGraph.Build

open Queue

variable {σ : Type} {i : Input} {s s' : State σ} {task : Task} {ts next : List Task}

-- ---------------------------------------------------------------------------
-- Tasks
-- ---------------------------------------------------------------------------

def Input.tasks (i : Input) (origin : Option String) : List Task :=
  (i.dependencies origin).zipIdx.map fun (d, index) => ⟨origin, index, d⟩

theorem Input.mem_tasks {origin : Option String} {task : Task} : task ∈ i.tasks origin ↔
    task.origin = origin ∧ (i.dependencies origin)[task.index]? = some task.dependency := by
  simp only [tasks, List.mem_map, Prod.exists, List.mem_zipIdx_iff_getElem?]
  constructor
  · rintro ⟨d, index, hd, rfl⟩
    exact ⟨rfl, hd⟩
  · rintro ⟨rfl, hd⟩
    exact ⟨_, _, hd, rfl⟩

theorem Input.task_unique {task other : Task} (h : task ∈ i.tasks task.origin)
    (h' : other ∈ i.tasks other.origin) (horigin : task.origin = other.origin)
    (hindex : task.index = other.index) : task = other := by
  have hget := (mem_tasks.mp h).2
  rw [horigin, hindex, (mem_tasks.mp h').2, Option.some.injEq] at hget
  cases task
  cases other
  cases horigin
  cases hindex
  cases hget
  rfl

theorem seeds_entries (i : Input) : seeds i.entries = i.tasks none := by
  unfold seeds Input.tasks Input.dependencies
  rw [List.zipIdx_map, List.map_map]
  rfl

theorem tasks_ok {path : String} {index : Nat} {keys : List String} {ds : List Dependency}
    (h : tasks path index keys ds = .ok next) :
    next = (ds.zipIdx index).map (fun (d, index) => ⟨some path, index, d⟩) ∧
      (ds.map (·.key)).Nodup := by
  suffices hkeys : next = (ds.zipIdx index).map (fun (d, index) => ⟨some path, index, d⟩) ∧
      (ds.map (·.key)).Nodup ∧ ∀ d ∈ ds, d.key ∉ keys from ⟨hkeys.1, hkeys.2.1⟩
  induction ds generalizing index keys next with
  | nil =>
    cases h
    exact ⟨rfl, List.nodup_nil, nofun⟩
  | cons d ds ih =>
    unfold tasks at h
    split at h
    · cases h
    · rename_i hkey
      cases hrest : tasks path (index + 1) (d.key :: keys) ds with
      | error e =>
        rw [hrest] at h
        cases h
      | ok rest =>
        rw [hrest] at h
        cases h
        obtain ⟨rfl, hnodup, hnot⟩ := ih hrest
        refine ⟨rfl, List.nodup_cons.mpr ⟨?_, hnodup⟩, fun d' hd' => ?_⟩
        · rw [List.mem_map]
          rintro ⟨d', hd', heq⟩
          exact hnot d' hd' (heq ▸ .head _)
        · rcases List.mem_cons.mp hd' with rfl | hd'
          · exact hkey
          · exact fun hmem => hnot d' hd' (.tail _ hmem)

theorem tasks_error {path : String} {index : Nat} {keys : List String} {ds : List Dependency}
    {e : BuildError} (h : tasks path index keys ds = .error e) :
    (∃ key, e = .duplicateKey path key) ∧
      ¬ ((ds.map (·.key)).Nodup ∧ ∀ d ∈ ds, d.key ∉ keys) := by
  induction ds generalizing index keys with
  | nil => cases h
  | cons d ds ih =>
    unfold tasks at h
    split at h
    · rename_i hkey
      cases h
      exact ⟨⟨_, rfl⟩, fun hall => hall.2 d (.head _) hkey⟩
    · cases hrest : tasks path (index + 1) (d.key :: keys) ds with
      | ok rest =>
        rw [hrest] at h
        cases h
      | error e' =>
        rw [hrest] at h
        cases h
        obtain ⟨hkey, hnot⟩ := ih hrest
        refine ⟨hkey, fun ⟨hnodup, hfresh⟩ => hnot ?_⟩
        obtain ⟨hd, hnodup⟩ := List.nodup_cons.mp hnodup
        refine ⟨hnodup, fun d' hd' hmem => ?_⟩
        rcases List.mem_cons.mp hmem with heq | hmem
        · exact hd (List.mem_map.mpr ⟨d', hd', heq⟩)
        · exact hfresh d' (.tail _ hd') hmem

-- ---------------------------------------------------------------------------
-- States
-- ---------------------------------------------------------------------------

def State.file? (s : State σ) (path : String) : Option LoadedFile := s.modules[path]?.map (·.file)

def State.slots (s : State σ) : Option String → List (Option Edge)
  | none => s.entries
  | some path =>
    match s.modules[path]? with
    | some found => found.slots
    | none => []

def State.Known (s : State σ) : Option String → Prop
  | none => True
  | some path => ∃ file, s.file? path = some file

/-- A filled slot leads to the path. -/
def State.LeadsTo (s : State σ) (path : String) : Prop :=
  ∃ origin edge, some edge ∈ s.slots origin ∧ edge.target = path

theorem contains_modules (s : State σ) (path : String) :
    s.modules.contains path = (s.file? path).isSome := by
  rw [State.file?, Option.isSome_map, Std.TreeMap.isSome_getElem?_eq_contains]

theorem file?_eq_none {path : String} (h : s.modules.contains path = false) :
    s.file? path = none := by
  rwa [contains_modules, Option.isSome_eq_false_iff, Option.isNone_iff_eq_none] at h

section RecordEdge

variable {edge : Edge}

theorem memo_recordEdge : (recordEdge s task edge).memo = s.memo := by
  unfold recordEdge
  split
  · rfl
  · split <;> rfl

theorem file?_recordEdge (path : String) :
    (recordEdge s task edge).file? path = s.file? path := by
  unfold recordEdge
  split
  · rfl
  · split
    · rename_i origin _ found hfound
      simp only [State.file?, Std.TreeMap.getElem?_insert, Std.LawfulEqOrd.compare_eq_iff_eq]
      split
      · rename_i heq
        rw [← heq, hfound]
        rfl
      · rfl
    · rfl

theorem known_recordEdge (origin : Option String) :
    (recordEdge s task edge).Known origin ↔ s.Known origin := by
  cases origin with
  | none => exact .rfl
  | some path => simp only [State.Known, file?_recordEdge]

theorem slots_recordEdge (h : s.Known task.origin) (origin : Option String) :
    (recordEdge s task edge).slots origin =
      if task.origin = origin then (s.slots origin).set task.index (some edge)
      else s.slots origin := by
  obtain ⟨from?, index, d⟩ := task
  cases from? with
  | none =>
    cases origin with
    | none => rfl
    | some path => rfl
  | some path =>
    obtain ⟨file, hfile⟩ := h
    obtain ⟨found, hfound, rfl⟩ := Option.map_eq_some_iff.mp hfile
    cases origin with
    | none => simp [recordEdge, hfound, State.slots]
    | some other =>
      simp only [recordEdge, hfound, State.slots, Std.TreeMap.getElem?_insert,
        Std.LawfulEqOrd.compare_eq_iff_eq, Option.some.injEq]
      by_cases heq : path = other
      · subst heq
        simp [hfound]
      · simp [heq]

theorem getElem?_recordEdge_self (h : s.Known task.origin)
    (hindex : task.index < (s.slots task.origin).length) :
    ((recordEdge s task edge).slots task.origin)[task.index]? = some (some edge) := by
  rw [slots_recordEdge h, if_pos rfl, List.getElem?_set_self hindex]

theorem getElem?_recordEdge_of_ne (h : s.Known task.origin) {origin : Option String} {index : Nat}
    (hne : task.origin = origin → task.index ≠ index) :
    ((recordEdge s task edge).slots origin)[index]? = (s.slots origin)[index]? := by
  rw [slots_recordEdge h]
  split
  · rename_i horigin
    exact List.getElem?_set_ne (hne horigin)
  · rfl

end RecordEdge

def discover (s : State σ) (path : String) (file : LoadedFile) : State σ :=
  { s with
    memo := s.memo.settle path file
    modules := s.modules.insert path ⟨file, file.result.dependencies.map fun _ => none⟩
    processed := s.processed + 1
    reports := (s.processed + 1, s.requested.size) :: s.reports }

theorem file?_discover (path : String) (file : LoadedFile) (p : String) :
    (discover s path file).file? p = if path = p then some file else s.file? p := by
  simp only [discover, State.file?, Std.TreeMap.getElem?_insert, Std.LawfulEqOrd.compare_eq_iff_eq]
  split <;> rfl

theorem known_discover (path : String) (file : LoadedFile) (origin : Option String) :
    (discover s path file).Known origin ↔ some path = origin ∨ s.Known origin := by
  cases origin with
  | none => simp [State.Known]
  | some p =>
    simp only [State.Known, file?_discover, Option.some.injEq]
    by_cases hp : path = p <;> simp [hp]

theorem slots_discover (path : String) (file : LoadedFile) (origin : Option String) :
    (discover s path file).slots origin =
      if some path = origin then file.result.dependencies.map fun _ => none
      else s.slots origin := by
  cases origin with
  | none => rfl
  | some p =>
    simp only [discover, State.slots, Std.TreeMap.getElem?_insert,
      Std.LawfulEqOrd.compare_eq_iff_eq, Option.some.injEq]
    by_cases hp : path = p <;> simp [hp]

theorem accumulate_ok {arrival : Option Arrival}
    (h : accumulate task arrival s = (.ok next, s')) :
    arrival = none ∧ next = [] ∧ s' = s ∨
      ∃ a, arrival = some a ∧
        ((a.file = none ∨ s.modules.contains a.path) ∧ next = [] ∧
            s' = recordEdge s task ⟨a.path, task.dependency⟩ ∨
          ∃ file, a.file = some file ∧ s.file? a.path = none ∧
            tasks a.path 0 [] file.result.dependencies = .ok next ∧
            s' = discover (recordEdge s task ⟨a.path, task.dependency⟩) a.path file) := by
  unfold accumulate at h
  cases arrival with
  | none =>
    cases h
    exact .inl ⟨rfl, rfl, rfl⟩
  | some a =>
    obtain ⟨path, file⟩ := a
    refine .inr ⟨_, rfl, ?_⟩
    cases file with
    | none =>
      cases h
      exact .inl ⟨.inl rfl, rfl, rfl⟩
    | some file =>
      dsimp only at h
      rw [contains_modules, file?_recordEdge, ← contains_modules] at h
      split at h
      · rename_i hcontains
        cases h
        exact .inl ⟨.inr hcontains, rfl, rfl⟩
      · rename_i hcontains
        split at h
        · cases h
        · rename_i htasks
          cases h
          rw [Bool.not_eq_true] at hcontains
          exact .inr ⟨file, rfl, file?_eq_none hcontains, htasks, rfl⟩

theorem accumulate_error {arrival : Option Arrival} {e : BuildError}
    (h : accumulate task arrival s = (.error e, s')) :
    ∃ path file, arrival = some ⟨path, some file⟩ ∧
      tasks path 0 [] file.result.dependencies = .error e := by
  unfold accumulate at h
  cases arrival with
  | none => cases h
  | some a =>
    obtain ⟨path, file⟩ := a
    cases file with
    | none => cases h
    | some file =>
      dsimp only at h
      split at h
      · cases h
      · split at h
        · rename_i htasks
          cases h
          exact ⟨path, file, rfl, htasks⟩
        · cases h

-- ---------------------------------------------------------------------------
-- Filling the slots
-- ---------------------------------------------------------------------------

/-- The slot of a task is as the resolver says. -/
def Input.Fills (i : Input) (s : State σ) (task : Task) : Prop :=
  ∃ target, i.path? task.origin task.dependency = .ok target ∧
    (s.slots task.origin)[task.index]? = some (target.map (⟨·, task.dependency⟩))

/-- Everything discovered belongs to the build, and has a slot for each of its
dependencies, which is filled or waits for a task. -/
structure Filling (i : Input) (tasks : List Task) (s : State σ) : Prop where
  memo : s.memo.Delivers fun path result => result = LoadMemo.sharedOutcome (i.files path)
  due : ∀ task ∈ tasks, s.Known task.origin ∧ task ∈ i.tasks task.origin
  files : ∀ path file, s.file? path = some file → i.Included path ∧ i.files path = .ok file ∧
    ((i.dependencies (some path)).map (·.key)).Nodup
  length : ∀ origin, s.Known origin → (s.slots origin).length = (i.dependencies origin).length
  slots : ∀ task, s.Known task.origin → task ∈ i.tasks task.origin →
    i.Fills s task ∨ task ∈ tasks ∧ (s.slots task.origin)[task.index]? = some none

namespace Filling

theorem origin (h : Filling i ts s) {origin : Option String} (hknown : s.Known origin) :
    i.Origin origin := by
  cases origin with
  | none => trivial
  | some path =>
    obtain ⟨file, hfile⟩ := hknown
    exact (h.files path file hfile).1

theorem absent (h : Filling i (task :: ts) s)
    (hpath : i.path? task.origin task.dependency = .ok none) : Filling i ts s where
  memo := h.memo
  due := fun other hother => h.due other (.tail _ hother)
  files := h.files
  length := h.length
  slots := fun other hknown hother => by
    rcases h.slots other hknown hother with hfills | ⟨hmem, hnone⟩
    · exact .inl hfills
    · rcases List.mem_cons.mp hmem with rfl | hmem
      · exact .inl ⟨none, hpath, hnone⟩
      · exact .inr ⟨hmem, hnone⟩

theorem record (h : Filling i (task :: ts) s) {path : String}
    (hpath : i.path? task.origin task.dependency = .ok (some path)) :
    Filling i ts (recordEdge s task ⟨path, task.dependency⟩) := by
  obtain ⟨hknown, hdue⟩ := h.due task (.head _)
  refine
    { memo := by rw [memo_recordEdge]; exact h.memo
      due := fun other hother => ?_
      files := fun p file hp => ?_
      length := fun origin horigin => ?_
      slots := fun other hother hmem => ?_ }
  · rw [known_recordEdge]
    exact h.due other (.tail _ hother)
  · rw [file?_recordEdge] at hp
    exact h.files p file hp
  · rw [known_recordEdge] at horigin
    rw [slots_recordEdge hknown, ← h.length origin horigin]
    split <;> simp
  · rw [known_recordEdge] at hother
    unfold Input.Fills
    by_cases heq : other = task
    · subst heq
      have hindex : other.index < (s.slots other.origin).length := by
        rw [h.length _ hknown]
        exact (List.getElem?_eq_some_iff.mp (Input.mem_tasks.mp hmem).2).1
      exact .inl ⟨some path, hpath, getElem?_recordEdge_self hknown hindex⟩
    · -- another task fills another slot
      rw [getElem?_recordEdge_of_ne hknown fun horigin hindex =>
        heq (Input.task_unique hdue hmem horigin hindex).symm]
      refine (h.slots other hother hmem).imp_right fun ⟨hmem, hnone⟩ => ⟨?_, hnone⟩
      exact (List.mem_cons.mp hmem).resolve_left heq

theorem discover (h : Filling i ts s) {path : String} {file : LoadedFile}
    (hincluded : i.Included path) (hfile : i.files path = .ok file)
    (hkeys : ((i.dependencies (some path)).map (·.key)).Nodup) :
    Filling i (ts ++ i.tasks (some path)) (discover s path file) := by
  have hdependencies : i.dependencies (some path) = file.result.dependencies := by
    rw [Input.dependencies, hfile]
  refine
    { memo := h.memo.settle (by rw [hfile]; rfl)
      due := fun other hother => ?_
      files := fun p found hp => ?_
      length := fun origin horigin => ?_
      slots := fun other hother hmem => ?_ }
  · rw [known_discover]
    rcases List.mem_append.mp hother with hother | hother
    · exact (h.due other hother).imp_left .inr
    · have horigin := (Input.mem_tasks.mp hother).1
      rw [horigin]
      exact ⟨.inl rfl, hother⟩
  · rw [file?_discover] at hp
    split at hp
    · rename_i heq
      cases hp
      subst heq
      exact ⟨hincluded, hfile, hkeys⟩
    · exact h.files p found hp
  · rw [slots_discover]
    split
    · rename_i heq
      rw [← heq, hdependencies, List.length_map]
    · rename_i hne
      exact h.length origin (((known_discover _ _ _).mp horigin).resolve_left hne)
  · unfold Input.Fills
    rw [slots_discover]
    split
    · rename_i heq
      refine .inr ⟨List.mem_append_right _ (heq ▸ hmem), ?_⟩
      obtain ⟨_, hget⟩ := Input.mem_tasks.mp hmem
      rw [← heq, hdependencies] at hget
      rw [List.getElem?_map, hget]
      rfl
    · rename_i hne
      have hknown := ((known_discover _ _ _).mp hother).resolve_left hne
      exact (h.slots other hknown hmem).imp_right (And.imp_left (List.mem_append_left _))

end Filling

theorem leadsTo_recordEdge {edge : Edge} {path : String} (hknown : s.Known task.origin)
    (h : (recordEdge s task edge).LeadsTo path) : path = edge.target ∨ s.LeadsTo path := by
  obtain ⟨origin, edge', hmem, rfl⟩ := h
  rw [slots_recordEdge hknown] at hmem
  split at hmem
  · rcases List.mem_or_eq_of_mem_set hmem with hmem | heq
    · exact .inr ⟨origin, edge', hmem, rfl⟩
    · cases heq
      exact .inl rfl
  · exact .inr ⟨origin, edge', hmem, rfl⟩

theorem leadsTo_discover {path p : String} {file : LoadedFile}
    (h : (discover s path file).LeadsTo p) : s.LeadsTo p := by
  obtain ⟨origin, edge, hmem, rfl⟩ := h
  rw [slots_discover] at hmem
  split at hmem
  · simp at hmem
  · exact ⟨origin, edge, hmem, rfl⟩

-- ---------------------------------------------------------------------------
-- One task
-- ---------------------------------------------------------------------------

/-- What a task delivers. -/
inductive Input.Delivers (i : Input) (s : State σ) (task : Task) :
    Except BuildError (Option Arrival) → Prop
  | absent (hpath : i.path? task.origin task.dependency = .ok none) : Delivers i s task (.ok none)
  | known {path} (hpath : i.path? task.origin task.dependency = .ok (some path))
      (hknown : i.skips path ∨ s.Known (some path)) : Delivers i s task (.ok (some ⟨path, none⟩))
  | loaded {path file} (hpath : i.path? task.origin task.dependency = .ok (some path))
      (hskip : i.skips path = false) (hfile : i.files path = .ok file) :
      Delivers i s task (.ok (some ⟨path, some file⟩))
  | failed {e} (he : e ≠ .budgetSpent) (hfails : ¬ i.Buildable) : Delivers i s task (.error e)

/-- What a filled slot leads to is skipped or discovered. -/
structure Discovering (i : Input) (tasks : List Task) (s : State σ) : Prop
    extends Filling i tasks s where
  leads : ∀ path, s.LeadsTo path → i.skips path ∨ s.Known (some path)

theorem known_some {path : String} : s.Known (some path) ↔ s.modules.contains path := by
  rw [contains_modules, Option.isSome_iff_exists]
  rfl

theorem Started.result_map {ε ρ ρ' : Type} (f : ρ → ρ') (started : Started ε ρ) :
    (started.map f).result = started.result.map f := by
  cases started <;> rfl

namespace Discovering

variable {loader : Loader σ}

theorem reached (h : Discovering i (task :: ts) s) {path : String}
    (hpath : i.path? task.origin task.dependency = .ok (some path)) : i.Reached path := by
  obtain ⟨hknown, hdue⟩ := h.due task (.head _)
  have hmem := List.mem_of_getElem? (Input.mem_tasks.mp hdue).2
  exact (h.origin hknown).reached (Input.mem_targets_of_path? hmem hpath)

theorem start_of_memo (h : Discovering i (task :: ts) s)
    (hmemo : (start i.resolve loader i.options task s).2.memo.Delivers fun path result =>
      result = LoadMemo.sharedOutcome (i.files path)) :
    Discovering i (task :: ts) (start i.resolve loader i.options task s).2 ∧
      i.Delivers (start i.resolve loader i.options task s).2 task
        (start i.resolve loader i.options task s).1.result := by
  revert hmemo
  unfold Build.start
  cases hpath : i.resolve.path? task.origin task.dependency i.options.platform with
  | error e =>
    refine fun _ => ⟨h, .failed (by simp) fun hb => ?_⟩
    obtain ⟨hknown, hdue⟩ := h.due task (.head _)
    have hmem := List.mem_of_getElem? (Input.mem_tasks.mp hdue).2
    obtain ⟨target, htarget⟩ := hb.path?_ok (h.origin hknown) hmem
    rw [Input.path?, hpath] at htarget
    cases htarget
  | ok target =>
    cases target with
    | none => exact fun _ => ⟨h, .absent hpath⟩
    | some path =>
      dsimp only
      by_cases hpass : (i.options.skip.contains path || s.modules.contains path) = true
      · rw [if_pos hpass]
        rw [Bool.or_eq_true, ← known_some] at hpass
        exact fun _ => ⟨h, .known hpath hpass⟩
      · rw [if_neg hpass]
        simp only [Bool.or_eq_true, not_or, Bool.not_eq_true] at hpass
        intro hmemo
        obtain ⟨st, hst, hresult⟩ := LoadMemo.holds_load loader s.memo path
        refine ⟨{ h with memo := hmemo }, ?_⟩
        rw [Started.result_map, ← hresult, hmemo path st hst]
        cases hfile : i.files path with
        | ok file => exact .loaded hpath hpass.1 hfile
        | error e =>
          refine .failed (by simp) fun hb => ?_
          obtain ⟨file, hok⟩ := hb.loads path ⟨h.reached hpath, hpass.1⟩
          rw [hfile] at hok
          cases hok

theorem start (h : Discovering i (task :: ts) s) (hloads : i.Loads loader) :
    Discovering i (task :: ts) (start i.resolve loader i.options task s).2 ∧
      i.Delivers (start i.resolve loader i.options task s).2 task
        (start i.resolve loader i.options task s).1.result := by
  refine h.start_of_memo ?_
  unfold Build.start
  split
  · exact h.memo
  · exact h.memo
  · split
    · exact h.memo
    · exact (h.memo.load _ fun p host => congrArg _ (hloads p host)).1

theorem record (h : Discovering i (task :: ts) s) {path : String}
    (hpath : i.path? task.origin task.dependency = .ok (some path))
    (hpass : i.skips path ∨ s.Known (some path)) :
    Discovering i ts (recordEdge s task ⟨path, task.dependency⟩) := by
  refine ⟨h.toFilling.record hpath, fun p hp => ?_⟩
  rw [known_recordEdge]
  rcases leadsTo_recordEdge (h.due task (.head _)).1 hp with rfl | hp
  · exact hpass
  · exact h.leads p hp

theorem discover (h : Discovering i (task :: ts) s) {path : String} {file : LoadedFile}
    (hpath : i.path? task.origin task.dependency = .ok (some path)) (hskip : i.skips path = false)
    (hfile : i.files path = .ok file)
    (hkeys : ((i.dependencies (some path)).map (·.key)).Nodup) :
    Discovering i (ts ++ i.tasks (some path))
      (discover (recordEdge s task ⟨path, task.dependency⟩) path file) := by
  refine ⟨(h.toFilling.record hpath).discover ⟨h.reached hpath, hskip⟩ hfile hkeys,
    fun p hp => ?_⟩
  rw [known_discover, known_recordEdge]
  rcases leadsTo_recordEdge (h.due task (.head _)).1 (leadsTo_discover hp) with rfl | hp
  · exact .inr (.inl rfl)
  · exact (h.leads p hp).imp_right .inr

theorem accumulate (h : Discovering i (task :: ts) s) {arrival : Option Arrival}
    (hdelivers : i.Delivers s task (.ok arrival))
    (hacc : accumulate task arrival s = (.ok next, s')) : Discovering i (ts ++ next) s' := by
  have hcases := accumulate_ok hacc
  clear hacc
  cases hdelivers with
  | absent hpath =>
    obtain ⟨_, rfl, rfl⟩ | ⟨a, ha, _⟩ := hcases
    · rw [List.append_nil]
      exact ⟨h.toFilling.absent hpath, h.leads⟩
    · cases ha
  | known hpath hpass =>
    obtain ⟨hnone, _⟩ | ⟨a, ha, ⟨_, rfl, rfl⟩ | ⟨_, hsome, _⟩⟩ := hcases
    · cases hnone
    · cases ha
      rw [List.append_nil]
      exact h.record hpath hpass
    · cases ha
      cases hsome
  | @loaded path file hpath hskip hfile =>
    obtain ⟨hnone, _⟩ | ⟨a, ha, ⟨hpass, rfl, rfl⟩ | ⟨_, hsome, _, htasks, rfl⟩⟩ := hcases
    · cases hnone
    · cases ha
      rw [List.append_nil]
      exact h.record hpath (.inr (known_some.mpr (hpass.resolve_left nofun)))
    · cases ha
      cases hsome
      have hdependencies : i.dependencies (some path) = file.result.dependencies := by
        rw [Input.dependencies, hfile]
      obtain ⟨rfl, hkeys⟩ := tasks_ok htasks
      rw [← hdependencies] at hkeys ⊢
      exact h.discover hpath hskip hfile hkeys

theorem accumulate_error (h : Discovering i (task :: ts) s) {arrival : Option Arrival}
    {e : BuildError} (hdelivers : i.Delivers s task (.ok arrival))
    (hacc : Build.accumulate task arrival s = (.error e, s')) :
    e ≠ .budgetSpent ∧ ¬ i.Buildable := by
  obtain ⟨path, file, rfl, htasks⟩ := Build.accumulate_error hacc
  obtain ⟨⟨key, rfl⟩, hkeys⟩ := tasks_error htasks
  refine ⟨nofun, fun hb => hkeys ?_⟩
  cases hdelivers with
  | loaded hpath hskip hfile =>
    have hnodup := hb.keys path ⟨h.reached hpath, hskip⟩
    rw [Input.dependencies, hfile] at hnodup
    exact ⟨hnodup, fun _ _ => List.not_mem_nil⟩

end Discovering

end BundleGraph.Build
