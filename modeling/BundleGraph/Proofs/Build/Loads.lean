import BundleGraph.Proofs.Build.Layout
import BundleGraph.Proofs.Loads.Calls

/-!
# What a build loads

A build passes a path to its loader once at most, however it ends, and when it
succeeds it has passed on exactly the paths of its modules. Its loader may deliver
anything, and something else the next time: the files that the build is about are
those of its own notes. While it runs these are foretold, and `Awaiting` holds as
far as the memo keeps to them.
-/

namespace BundleGraph

/-- What came of the load of a path. -/
def LoadLog.outcome (log : LoadLog) (path : String) : Except BuildError LoadedFile :=
  (log.lookup path).getD (.error (.invalidOperation "not loaded"))

theorem LoadLog.outcome_eq {log : LoadLog} (hlog : (log.map (·.1)).Nodup) {path : String}
    {outcome : Except BuildError LoadedFile} (h : (path, outcome) ∈ log) :
    log.outcome path = outcome := by
  obtain ⟨before, rest, rfl⟩ := List.append_of_mem h
  rw [LoadLog.outcome, List.lookup_eq_some_iff.mpr ⟨before, rest, rfl, fun p hp => ?_⟩]
  · rfl
  · rw [List.map_append, List.nodup_append] at hlog
    have hne := hlog.2.2 p.1 (List.mem_map_of_mem hp) path (.head _)
    simpa using Ne.symm hne

namespace Build

open Queue

variable {σ : Type} {resolve : Resolver} {loader : Loader σ} {options : Options} {i : Input}
  {s s' : State σ} {task : Task} {ts next : List Task} {host : σ}

-- ---------------------------------------------------------------------------
-- Recording
-- ---------------------------------------------------------------------------

/-- The state of a build whose loader is recorded, without the notes. -/
def State.unrecorded (s : State (σ × LoadLog)) : State σ :=
  { s with memo := s.memo.unrecorded }

theorem recordEdge_unrecorded (s : State (σ × LoadLog)) (task : Task) (edge : Edge) :
    recordEdge s.unrecorded task edge = (recordEdge s task edge).unrecorded := by
  unfold recordEdge
  split
  · rfl
  · dsimp only [State.unrecorded]
    split <;> rfl

theorem simulates_recording (resolve : Resolver) (loader : Loader σ) (options : Options) :
    Simulates (accumulator resolve loader options) (accumulator resolve loader.recording options)
      State.unrecorded where
  start := fun task s => by
    show start resolve loader options task s.unrecorded =
      ((start resolve loader.recording options task s).1,
        (start resolve loader.recording options task s).2.unrecorded)
    have hmodules : s.unrecorded.modules = s.modules := rfl
    have hmemo : s.unrecorded.memo = s.memo.unrecorded := rfl
    unfold start
    rw [hmodules, hmemo]
    split
    · rfl
    · rfl
    · rename_i path _
      rw [LoadMemo.load_recording]
      split <;> rfl
  accumulate := fun task arrival s => by
    show accumulate task arrival s.unrecorded =
      ((accumulate task arrival s).1, (accumulate task arrival s).2.unrecorded)
    unfold accumulate
    cases arrival with
    | none => rfl
    | some a =>
      obtain ⟨path, file⟩ := a
      cases file with
      | none =>
        dsimp only
        rw [recordEdge_unrecorded]
      | some file =>
        dsimp only
        rw [recordEdge_unrecorded]
        generalize recordEdge s task ⟨path, task.dependency⟩ = s
        have hmodules : s.unrecorded.modules = s.modules := rfl
        rw [hmodules]
        split
        · rfl
        · split <;> rfl

theorem run_recording (resolve : Resolver) (loader : Loader σ) (options : Options) (pace : Pace)
    (entries : List String) (host : σ) (log : LoadLog) :
    run resolve loader options pace entries host =
      ((run resolve loader.recording options pace entries (host, log)).1,
        (run resolve loader.recording options pace entries (host, log)).2.unrecorded) := by
  have hdrain := (simulates_recording resolve loader options).drain pace (.ofList (seeds entries))
    { memo := { host := (host, log) }, entries := entries.map fun _ => none }
  have hinitial : State.unrecorded (σ := σ)
      { memo := { host := (host, log) }, entries := entries.map fun _ => none } =
        { memo := { host }, entries := entries.map fun _ => none } := rfl
  rw [hinitial] at hdrain
  unfold run
  dsimp only
  rw [hdrain]
  generalize Queue.drain (accumulator resolve loader.recording options) pace _ _ = r
  obtain ⟨_ | _ | _, s⟩ := r <;> rfl

-- ---------------------------------------------------------------------------
-- The calls of a build
-- ---------------------------------------------------------------------------

theorem start_cases (resolve : Resolver) (loader : Loader σ) (options : Options) (task : Task)
    (s : State σ) :
    ((start resolve loader options task s).2 = s ∧
        ∀ a, (start resolve loader options task s).1.result = .ok (some a) → a.file = none) ∨
      ∃ path, resolve.path? task.origin task.dependency options.platform = .ok (some path) ∧
        options.skip.contains path = false ∧
        start resolve loader options task s =
          ((s.memo.load loader path).1.map fun file => some ⟨path, some file⟩,
            { s with
              memo := (s.memo.load loader path).2
              requested := s.requested.insert path }) := by
  unfold start
  split
  · exact .inl ⟨rfl, fun a ha => by cases ha⟩
  · exact .inl ⟨rfl, fun a ha => by cases ha⟩
  · rename_i path hpath
    split
    · refine .inl ⟨rfl, fun a ha => ?_⟩
      cases ha
      rfl
    · rename_i hpass
      simp only [Bool.or_eq_true, not_or, Bool.not_eq_true] at hpass
      exact .inr ⟨path, hpath, hpass.1, rfl⟩

theorem called_accumulate (h : s.memo.Called loader host) (arrival : Option Arrival) :
    (accumulate task arrival s).2.memo.Called loader host := by
  unfold accumulate
  split
  · exact h
  · rename_i path file
    have hrecorded : (recordEdge s task ⟨path, task.dependency⟩).memo.Called loader host := by
      rwa [memo_recordEdge]
    dsimp only
    split
    · exact hrecorded
    · split
      · exact hrecorded
      · split <;> exact hrecorded.settle path _

theorem called_run (resolve : Resolver) (loader : Loader σ) (options : Options) (pace : Pace)
    (entries : List String) (host : σ) :
    (run resolve loader options pace entries host).2.memo.Called loader host := by
  have hkeeps : Keeps (accumulator resolve loader options) fun s => s.memo.Called loader host :=
    { start := fun task s hs => by
        show (start resolve loader options task s).2.memo.Called loader host
        rcases start_cases resolve loader options task s with ⟨heq, _⟩ | ⟨path, _, _, heq⟩
        · rwa [heq]
        · rw [heq]
          exact hs.load path
      accumulate := fun task arrival s hs => called_accumulate hs arrival }
  have hcalled := hkeeps.drain pace (.ofList (seeds entries))
    (s := { memo := { host }, entries := entries.map fun _ => none })
    (LoadMemo.called_new loader host)
  unfold run
  dsimp only
  split
  all_goals
    rename_i heq
    rw [heq] at hcalled
    exact hcalled

-- ---------------------------------------------------------------------------
-- What is awaited
-- ---------------------------------------------------------------------------

/-- What the memo holds comes of the files of the input. -/
def Input.Tells (i : Input) (m : LoadMemo σ) : Prop :=
  m.Delivers fun path result => result = LoadMemo.sharedOutcome (i.files path)

theorem Input.Tells.of_holds {m m' : LoadMemo σ} (h : i.Tells m')
    (hholds : ∀ path result, m.Holds path result → m'.Holds path result) : i.Tells m := by
  intro path st hst
  obtain ⟨st', hst', hresult⟩ := hholds path st.result ⟨st, hst, rfl⟩
  rw [← hresult]
  exact h path st' hst'

/-- A file that a task delivers is held by the memo. -/
def Held (s : State σ) (_task : Task) (result : Except BuildError (Option Arrival)) : Prop :=
  ∀ path file, result = .ok (some ⟨path, some file⟩) → s.memo.Loaded path file

/-- As long as the memo is as the input says, so is what a task delivers. -/
structure Foretells (i : Input) (s : State σ) (task : Task)
    (result : Except BuildError (Option Arrival)) : Prop where
  held : Held s task result
  delivers : i.Tells s.memo → i.Delivers s task result

theorem Held.mono {result : Except BuildError (Option Arrival)} (h : Held s task result)
    (hholds : ∀ path result, s.memo.Holds path result → s'.memo.Holds path result) :
    Held s' task result :=
  fun path file heq => hholds path _ (h path file heq)

theorem Foretells.mono {result : Except BuildError (Option Arrival)} (h : Foretells i s task result)
    (hholds : ∀ path result, s.memo.Holds path result → s'.memo.Holds path result)
    (hknown : ∀ path, s.Known (some path) → s'.Known (some path)) :
    Foretells i s' task result where
  held := h.held.mono hholds
  delivers := fun htells => (h.delivers (htells.of_holds hholds)).mono hknown

/-- A path that is held is discovered, or a task for it is still to deliver. -/
structure Awaiting (i : Input) (tasks : List Task) (s : State σ) : Prop
    extends Discovering i tasks s where
  awaited : ∀ path result, s.memo.Holds path result → i.skips path = false ∧
    (s.Known (some path) ∨
      ∃ task ∈ tasks, i.path? task.origin task.dependency = .ok (some path))
  held : ∀ path, s.Known (some path) → ∃ result, s.memo.Holds path result

theorem holds_start {path : String} {result : Except BuildError LoadedFile}
    (h : s.memo.Holds path result) :
    (start resolve loader options task s).2.memo.Holds path result := by
  rcases start_cases resolve loader options task s with ⟨heq, _⟩ | ⟨p, _, _, heq⟩
  · rwa [heq]
  · rw [heq]
    exact h.load p

theorem held_start : Held (start resolve loader options task s).2 task
    (start resolve loader options task s).1.result := by
  intro path file h
  rcases start_cases resolve loader options task s with ⟨_, hnone⟩ | ⟨p, _, _, heq⟩
  · cases hnone _ h
  · have hheld := LoadMemo.holds_load loader s.memo p
    rw [heq, Started.result_map] at h
    rw [heq]
    cases hload : (s.memo.load loader p).1.result with
    | error e =>
      rw [hload] at h
      cases h
    | ok found =>
      rw [hload] at h hheld
      cases h
      exact hheld

theorem memo_accumulate {arrival : Option Arrival}
    (hacc : accumulate task arrival s = (.ok next, s')) : s'.memo = s.memo ∨
      ∃ path file, arrival = some ⟨path, some file⟩ ∧ s'.memo = s.memo.settle path file := by
  rcases accumulate_ok hacc with ⟨_, _, rfl⟩ | ⟨a, rfl, ⟨_, _, rfl⟩ | ⟨file, hfile, _, _, rfl⟩⟩
  · exact .inl rfl
  · exact .inl memo_recordEdge
  · refine .inr ⟨a.path, file, by rw [← hfile], ?_⟩
    rw [discover, memo_recordEdge]

theorem Held.holds_accumulate {arrival : Option Arrival}
    (h : Held s task (.ok arrival)) (hacc : accumulate task arrival s = (.ok next, s'))
    (path : String) (result : Except BuildError LoadedFile) :
    s'.memo.Holds path result ↔ s.memo.Holds path result := by
  rcases memo_accumulate hacc with heq | ⟨p, file, rfl, heq⟩
  · rw [heq]
  · rw [heq]
    exact LoadMemo.holds_settle (h p file rfl)

namespace Awaiting

theorem perm (h : Awaiting i ts s) {ts' : List Task} (hp : ts.Perm ts') : Awaiting i ts' s where
  toDiscovering := h.toDiscovering.perm hp
  awaited := fun path result hheld => by
    obtain ⟨hskip, hawaited⟩ := h.awaited path result hheld
    exact ⟨hskip, hawaited.imp_right fun ⟨task, hmem, hpath⟩ => ⟨task, hp.mem_iff.mp hmem, hpath⟩⟩
  held := h.held

theorem start (h : Awaiting i (task :: ts) s)
    (htells : i.Tells (start i.resolve loader i.options task s).2.memo) :
    Awaiting i (task :: ts) (Build.start i.resolve loader i.options task s).2 ∧
      i.Delivers (Build.start i.resolve loader i.options task s).2 task
        (Build.start i.resolve loader i.options task s).1.result := by
  obtain ⟨hdiscovering, hdelivers⟩ := h.toDiscovering.start_of_memo htells
  refine ⟨⟨hdiscovering, fun path result hheld => ?_, fun path hknown => ?_⟩, hdelivers⟩
  · rcases start_cases i.resolve loader i.options task s with ⟨heq, _⟩ | ⟨p, hpath, hskip, heq⟩
    · rw [heq] at hheld ⊢
      exact h.awaited path result hheld
    · rw [heq] at hheld ⊢
      rcases hheld.of_load with rfl | hheld
      · exact ⟨hskip, .inr ⟨task, .head _, hpath⟩⟩
      · exact h.awaited path result hheld
  · obtain ⟨file, hfile⟩ := hknown
    rw [file?_start] at hfile
    obtain ⟨result, hheld⟩ := h.held path ⟨file, hfile⟩
    exact ⟨result, holds_start hheld⟩

theorem known_of_delivers {arrival : Option Arrival} (hdelivers : i.Delivers s task (.ok arrival))
    (hacc : accumulate task arrival s = (.ok next, s')) {path : String}
    (hpath : i.path? task.origin task.dependency = .ok (some path)) (hskip : i.skips path = false) :
    s'.Known (some path) := by
  cases hdelivers with
  | absent hnone =>
    rw [hpath] at hnone
    cases hnone
  | known hsome hpass =>
    rw [hpath] at hsome
    cases hsome
    refine known_accumulate hacc (hpass.resolve_left ?_)
    rw [hskip]
    exact Bool.false_ne_true
  | loaded hsome _ _ =>
    rw [hpath] at hsome
    cases hsome
    obtain ⟨hnone, _⟩ | ⟨a, ha, ⟨hpass, _, rfl⟩ | ⟨file, _, _, _, rfl⟩⟩ := accumulate_ok hacc
    · cases hnone
    · cases ha
      exact (known_recordEdge _).mpr (known_some.mpr (hpass.resolve_left nofun))
    · cases ha
      exact (known_discover _ _ _).mpr (.inl rfl)

theorem accumulate (h : Awaiting i (task :: ts) s) {arrival : Option Arrival}
    (hforetells : Foretells i s task (.ok arrival)) (hdelivers : i.Delivers s task (.ok arrival))
    (hacc : accumulate task arrival s = (.ok next, s')) : Awaiting i (ts ++ next) s' where
  toDiscovering := h.toDiscovering.accumulate hdelivers hacc
  awaited := fun path result hheld => by
    rw [hforetells.held.holds_accumulate hacc] at hheld
    obtain ⟨hskip, hknown | ⟨other, hmem, hpath⟩⟩ := h.awaited path result hheld
    · exact ⟨hskip, .inl (known_accumulate hacc hknown)⟩
    · rcases List.mem_cons.mp hmem with rfl | hmem
      · exact ⟨hskip, .inl (known_of_delivers hdelivers hacc hpath hskip)⟩
      · exact ⟨hskip, .inr ⟨other, List.mem_append_left _ hmem, hpath⟩⟩
  held := fun path hknown => by
    simp only [hforetells.held.holds_accumulate hacc]
    have hcases := accumulate_ok hacc
    rcases hcases with ⟨_, _, rfl⟩ | ⟨a, rfl, ⟨_, _, rfl⟩ | ⟨file, hfile, _, _, rfl⟩⟩
    · exact h.held path hknown
    · exact h.held path ((known_recordEdge _).mp hknown)
    · rcases (known_discover _ _ _).mp hknown with heq | hknown
      · cases heq
        exact ⟨_, hforetells.held a.path file (by rw [← hfile])⟩
      · exact h.held path ((known_recordEdge _).mp hknown)

theorem initial (i : Input) (host : σ) :
    Awaiting i (i.tasks none) { memo := { host }, entries := i.entries.map fun _ => none } where
  toDiscovering := discovering_initial i host
  awaited := fun path result ⟨st, hst, _⟩ => by simp at hst
  held := fun path ⟨file, hfile⟩ => by simp [State.file?] at hfile

end Awaiting

theorem invariant_recording (i : Input) (loader : Loader σ) :
    Invariant (accumulator i.resolve loader.recording i.options) (Foretells i) fun ts s =>
      s.memo.Noted ∧ (i.Tells s.memo → Awaiting i ts s) where
  perm := fun hp h => ⟨h.1, fun htells => (h.2 htells).perm hp⟩
  start := fun {task ts s} h => by
    -- a memo that is right after the start was right before
    have hstart : i.Tells (start i.resolve loader.recording i.options task s).2.memo → _ :=
      fun htells => (h.2 (htells.of_holds fun _ _ => holds_start)).start htells
    refine ⟨⟨?_, fun htells => (hstart htells).1⟩, held_start,
      fun htells => (hstart htells).2⟩
    show (start i.resolve loader.recording i.options task s).2.memo.Noted
    rcases start_cases i.resolve loader.recording i.options task s with
      ⟨heq, _⟩ | ⟨path, _, _, heq⟩
    · rw [heq]
      exact h.1
    · rw [heq]
      exact h.1.load loader path
  accumulate := fun {task ts arrival s next s'} h hforetells hacc => by
    refine ⟨?_, fun htells => ?_⟩
    · rcases memo_accumulate hacc with heq | ⟨path, file, rfl, heq⟩
      · rw [heq]
        exact h.1
      · rw [heq]
        exact h.1.settle (hforetells.held path file rfl)
    · have hbefore := htells.of_holds fun p r => (hforetells.held.holds_accumulate hacc p r).mpr
      exact (h.2 hbefore).accumulate hforetells (hforetells.delivers hbefore) hacc
  started := fun h => h.mono (fun _ _ => holds_start) fun _ => known_start
  accumulated := fun hforetells hacc h =>
    h.mono (fun p r => (hforetells.held.holds_accumulate hacc p r).mpr) fun _ => known_accumulate hacc

-- ---------------------------------------------------------------------------
-- Builds that succeed
-- ---------------------------------------------------------------------------

theorem drain_of_run {pace : Pace} {entries : List String} {result : BuildResult}
    (h : run resolve loader options pace entries host = (.ok result, s)) :
    Queue.drain (accumulator resolve loader options) pace (.ofList (seeds entries))
        { memo := { host }, entries := entries.map fun _ => none } = (some (.ok ()), s) ∧
      result = collect s.entries s.modules := by
  unfold run at h
  dsimp only at h
  split at h
  · rename_i hdrain
    cases h
    exact ⟨hdrain, rfl⟩
  · cases h
  · cases h

/-- Whatever the files are said to be, a build that succeeds discovers them if its
notes turn out to tell of them. -/
theorem run_recording_ok {pace : Pace} {result : BuildResult} {s : State (σ × LoadLog)}
    (h : run i.resolve loader.recording i.options pace i.entries (host, []) = (.ok result, s)) :
    s.memo.Noted ∧ (i.Tells s.memo → Awaiting i [] s) ∧ result = collect s.entries s.modules := by
  obtain ⟨hdrain, hresult⟩ := drain_of_run h
  rw [seeds_entries] at hdrain
  have hinv := drain_invariant (invariant_recording i loader) pace _ _
    ⟨LoadMemo.noted_new host, fun _ => Awaiting.initial i (host, [])⟩ hdrain
  exact ⟨hinv.1, hinv.2, hresult⟩

theorem Awaiting.mem_passed {s : State (σ × LoadLog)} (h : Awaiting i [] s)
    (hnoted : s.memo.Noted) {path : String} : path ∈ s.memo.passed ↔ s.Known (some path) := by
  constructor
  · intro hmem
    obtain ⟨⟨path, outcome⟩, hlogged, rfl⟩ := List.mem_map.mp hmem
    obtain ⟨_, hknown | ⟨_, hnone, _⟩⟩ :=
      h.awaited path _ ((hnoted path _).mpr ⟨outcome, hlogged, rfl⟩)
    · exact hknown
    · cases hnone
  · intro hknown
    obtain ⟨result, hheld⟩ := h.held path hknown
    obtain ⟨outcome, hmem, _⟩ := (hnoted path result).mp hheld
    exact List.mem_map.mpr ⟨(path, outcome), hmem, rfl⟩

/-- A build that succeeds discovers what an input foretells: what the build was about
is read off its notes. -/
theorem exists_awaiting {pace : Pace} {entries : List String} {result : BuildResult}
    {s : State (σ × LoadLog)}
    (h : run resolve loader.recording options pace entries (host, []) = (.ok result, s)) :
    ∃ i : Input, Awaiting i [] s ∧ s.memo.passed.Nodup ∧ s.memo.Noted ∧
      result = collect s.entries s.modules := by
  have hnodup : s.memo.passed.Nodup := by
    have hcalled := called_run resolve loader.recording options pace entries (host, [])
    rw [h] at hcalled
    exact hcalled.nodup
  let i : Input := { resolve, files := s.memo.host.2.outcome, options, entries }
  obtain ⟨hnoted, hawaiting, hresult⟩ := run_recording_ok (i := i) h
  refine ⟨i, hawaiting fun path st hst => ?_, hnodup, hnoted, hresult⟩
  obtain ⟨outcome, hmem, hshared⟩ := (hnoted path st.result).mp ⟨st, hst, rfl⟩
  rw [← hshared, show i.files path = outcome from LoadLog.outcome_eq hnodup hmem]

theorem Awaiting.perm_modules {s : State σ} (h : Awaiting i [] s) :
    ((collect s.entries s.modules).modules.map (·.path)).Perm s.modules.keys := by
  have hcomplete := h.toDiscovering.complete
  rw [hcomplete.map_path_modules]
  refine (List.perm_ext_iff_of_nodup hcomplete.order.2.1 s.modules.nodup_keys).mpr fun path => ?_
  rw [hcomplete.mem_order, ← hcomplete.contains_iff, Std.TreeMap.mem_keys,
    Std.TreeMap.contains_iff_mem]

theorem passed_perm {pace : Pace} {entries : List String} {result : BuildResult}
    {s : State (σ × LoadLog)}
    (h : run resolve loader.recording options pace entries (host, []) = (.ok result, s)) :
    s.memo.passed.Perm (result.modules.map (·.path)) := by
  obtain ⟨i, hend, hnodup, hnoted, rfl⟩ := exists_awaiting h
  have hkeys : s.memo.passed.Perm s.modules.keys := by
    refine (List.perm_ext_iff_of_nodup hnodup s.modules.nodup_keys).mpr fun path => ?_
    rw [hend.mem_passed hnoted, known_some, Std.TreeMap.mem_keys, Std.TreeMap.contains_iff_mem]
  exact hkeys.trans hend.perm_modules.symm

end Build

-- ---------------------------------------------------------------------------
-- Each path is loaded once
-- ---------------------------------------------------------------------------

section

open LoadMemo

variable {σ : Type}

/-- Calls to a memo pass no path to its loader twice: they pass on the paths whose
first call is a load, and as many loads are counted. Requests for a path that is not
settled in between are answered alike, with a file that was settled, or with what
came of the one load of the path, where an error is shared. Hence builds and
traversals, which recording does not change, pass no path on twice in whatever way
they end, and a build that succeeds passes on the paths of its modules. -/
theorem each_path_loaded_once (loader : Loader σ) (host : σ) :
    (∀ calls, (after loader.recording (host, []) calls).passed.Nodup ∧
      (∀ path, path ∈ (after loader.recording (host, []) calls).passed ↔
        FirstLoaded calls path) ∧
      (after loader host calls).count = {path | FirstLoaded calls path}.ncard) ∧
    (∀ before between path, (∀ file, Call.settle path file ∉ between) →
      answer loader host (before ++ .load path :: between) path =
        answer loader host before path) ∧
    (∀ calls path,
      (∃ file, .settle path file ∈ calls ∧ answer loader host calls path = .ready (.ok file)) ∨
        ∃ outcome,
          (path, outcome) ∈ (after loader.recording (host, []) (calls ++ [.load path])).host.2 ∧
          (answer loader host calls path).result = sharedOutcome outcome) ∧
    (∀ resolve options pace entries, ∃ s,
      Build.run resolve loader.recording options pace entries (host, []) =
        ((Build.run resolve loader options pace entries host).1, s) ∧
      (Build.run resolve loader options pace entries host).2 = s.unrecorded ∧
      s.memo.passed.Nodup ∧
      ∀ result, (Build.run resolve loader options pace entries host).1 = .ok result →
        s.memo.passed.Perm (result.modules.map (·.path))) ∧
    ∀ (g : Graph) (ctx : Traversal.Context σ),
      (∃ t, g.initialTraverse ctx.recording (host, []) = ((g.initialTraverse ctx host).1, t) ∧
        (g.initialTraverse ctx host).2 = t.unrecorded ∧ t.memo.passed.Nodup) ∧
      ∀ modified deleted, ∃ t,
        g.traverse ctx.recording modified deleted (host, []) =
          ((g.traverse ctx modified deleted host).1, t) ∧
        (g.traverse ctx modified deleted host).2 = t.unrecorded ∧ t.memo.passed.Nodup := by
  refine ⟨fun calls => ?_, fun before between path => answer_between before,
    answer_cases loader host, fun resolve options pace entries => ?_, fun g ctx => ⟨?_, ?_⟩⟩
  · have htraced := traced loader host calls
    refine ⟨htraced.nodup, htraced.passed, ?_⟩
    rw [after_recording loader host [], unrecorded, htraced.count_eq]
  · have hcalled := Build.called_run resolve loader.recording options pace entries (host, [])
    rw [Build.run_recording resolve loader options pace entries host []]
    refine ⟨_, rfl, rfl, hcalled.nodup, fun result hok => ?_⟩
    exact Build.passed_perm (Prod.ext hok rfl)
  · have hcalled := g.called_initialTraverse ctx.recording (host, [])
    rw [g.initialTraverse_recording ctx host []]
    exact ⟨_, rfl, rfl, hcalled.nodup⟩
  · intro modified deleted
    have hcalled := g.called_traverse ctx.recording modified deleted (host, [])
    rw [g.traverse_recording ctx modified deleted host []]
    exact ⟨_, rfl, rfl, hcalled.nodup⟩

/-- Two files import a third one. No more than four loads are answered. -/
def Loader.fourTimes : Loader Nat where
  load path n :=
    let imports := if path = "/a" then ["/b", "/c"] else if path = "/d" then [] else ["/d"]
    (⟨if n < 4 then .ok ⟨⟨imports.map .ofName, []⟩, ""⟩ else .error (.invalidOperation "again"),
      path.length⟩, n + 1)

/-- A build asks for the entry and for the third file twice, and loads them once. Where
three loads were answered before, a path is answered alike after the load of another
one has failed. -/
theorem four_paths_loaded_once :
    (∃ result s, Build.run (fun _ d _ => .ok d.name) Loader.fourTimes.recording {} { budget := 30 }
        ["/a", "/a"] (0, []) = (.ok result, s) ∧
      s.memo.passed.Nodup ∧ s.memo.passed.Perm ["/a", "/b", "/d", "/c"]) ∧
    (∀ file, Call.settle "/a" file ∉ [.load "/b", .settle "/d" ⟨⟨[], []⟩, ""⟩]) ∧
      answer Loader.fourTimes 3 [.load "/a", .load "/b", .settle "/d" ⟨⟨[], []⟩, ""⟩] "/a" =
        answer Loader.fourTimes 3 [] "/a" := by
  obtain ⟨-, -, -, hbuilds, -⟩ := each_path_loaded_once Loader.fourTimes 0
  obtain ⟨-, hbetween, -⟩ := each_path_loaded_once Loader.fourTimes 3
  have hnone : ∀ file, Call.settle "/a" file ∉ [.load "/b", .settle "/d" ⟨⟨[], []⟩, ""⟩] := by
    simp
  refine ⟨?_, hnone, hbetween [] _ "/a" hnone⟩
  obtain ⟨s, hrun, -, hnodup, hperm⟩ :=
    hbuilds (fun _ d _ => .ok d.name) {} { budget := 30 } ["/a", "/a"]
  have hpaths : ((Build.run (fun _ d _ => .ok d.name) Loader.fourTimes {} { budget := 30 }
      ["/a", "/a"] 0).1.toOption.map fun r => r.modules.map (·.path)) =
        some ["/a", "/b", "/d", "/c"] := by
    decide +kernel
  cases hok : (Build.run (fun _ d _ => .ok d.name) Loader.fourTimes {} { budget := 30 }
      ["/a", "/a"] 0).1 with
  | error e =>
    rw [hok] at hpaths
    cases hpaths
  | ok result =>
    rw [hok] at hpaths hrun
    refine ⟨result, s, hrun, hnodup, ?_⟩
    rw [← Option.some.inj hpaths]
    exact hperm result hok

end

end BundleGraph
