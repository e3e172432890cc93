import BundleGraph.Farm

/-!
# What a farm answers

A unit is idle between requests: its queue is empty and every answer it has
sent belongs to a job of the past. So the answer that a request finds is the one
to its own job, and a file that a farm transforms is what its worker makes of
the bytes it reads.
-/

namespace BundleGraph

namespace WorkerUnit

/-- Nothing is queued or at work, and no answer belongs to a job to come. -/
structure Idle (u : WorkerUnit) : Prop where
  reserved : u.reserved = none
  queue : u.queue = []
  stage : u.stage = .waiting
  answers : ∀ a ∈ u.answers, a.number < u.accepted.length

theorem idle_new (id : Nat) : ({ id := id } : WorkerUnit).Idle :=
  ⟨rfl, rfl, rfl, by simp⟩

theorem dispatch_closed {u : WorkerUnit} (hopen : u.isOpen = false) (job : Job) :
    u.dispatch job = (.error .shutDown, u) := by
  simp [dispatch, run, step, hopen]

def withJob (u : WorkerUnit) (job : Job) : WorkerUnit :=
  { u with
    pending := u.pending + 1
    queue := [(u.accepted.length, job)]
    accepted := u.accepted ++ [job] }

theorem Idle.dispatch {u : WorkerUnit} (hu : u.Idle) (hopen : u.isOpen) (job : Job) :
    u.dispatch job = (.ok (), u.withJob job) := by
  obtain ⟨hreserved, hqueue, hstage, -⟩ := hu
  cases u
  simp_all [WorkerUnit.dispatch, run, step, withJob]

def afterJob (u : WorkerUnit) (work : Work) (job : Job) : WorkerUnit :=
  { u with
    completed := u.completed + 1
    accepted := u.accepted ++ [job]
    answers := u.answers ++
      [⟨u.accepted.length, u.answer work job, !u.left.contains u.accepted.length⟩] }

theorem Idle.serve {u : WorkerUnit} (hu : u.Idle) (work : Work) (job : Job) :
    (u.withJob job).serve work = u.afterJob work job := by
  obtain ⟨hreserved, hqueue, hstage, -⟩ := hu
  cases u
  simp_all [WorkerUnit.serve, withJob, serveOne, run, step, WorkerUnit.afterJob, answer]

theorem Idle.afterJob {u : WorkerUnit} (hu : u.Idle) (work : Work) (job : Job) :
    (u.afterJob work job).Idle := by
  refine ⟨hu.reserved, hu.queue, hu.stage, fun a ha => ?_⟩
  simp only [WorkerUnit.afterJob, List.mem_append, List.mem_singleton] at ha ⊢
  rw [List.length_append]
  rcases ha with ha | rfl
  · exact Nat.lt_add_right _ (hu.answers a ha)
  · simp

theorem Idle.find?_afterJob {u : WorkerUnit} (hu : u.Idle) (work : Work) (job : Job) :
    ((u.afterJob work job).answers.find? (·.number = u.accepted.length)).map (·.reply) =
      some (u.answer work job) := by
  have hpast : u.answers.find? (·.number = u.accepted.length) = none := by
    refine List.find?_eq_none.mpr fun a ha => ?_
    simpa using Nat.ne_of_lt (hu.answers a ha)
  simp [WorkerUnit.afterJob, hpast]

theorem Idle.request {α : Type} {u : WorkerUnit} (hu : u.Idle) (work : Work) (job : Job)
    (kind? : Reply → Option α) : (u.request work job kind?).2.Idle ∧
      ∀ a, (u.request work job kind?).1 = .ok a → kind? (u.answer work job) = some a := by
  cases hopen : u.isOpen with
  | false =>
    rw [WorkerUnit.request, dispatch_closed hopen]
    exact ⟨hu, fun a ha => by cases ha⟩
  | true =>
    have hnumber : (u.withJob job).accepted.length - 1 = u.accepted.length := by simp [withJob]
    have hfound := hu.find?_afterJob work job
    have hidle := hu.afterJob work job
    obtain ⟨answer, hanswer, hreply⟩ := Option.map_eq_some_iff.mp hfound
    rw [WorkerUnit.request, hu.dispatch hopen]
    simp only [hu.serve, hnumber, hanswer, Option.bind_some, hreply]
    split
    case h_1 a ha => exact ⟨hidle, fun b hb => by cases hb; exact ha⟩
    case h_2 => exact ⟨hidle, fun b hb => by cases hb⟩

end WorkerUnit

namespace Farm

def Idle (f : Farm) : Prop := ∀ u ∈ f.units, u.Idle

theorem idle_start (worker : Worker) (workers : Nat) : (Farm.start worker workers).Idle := by
  intro u hu
  rw [Farm.start] at hu
  split at hu
  · obtain ⟨id, -, rfl⟩ := List.mem_map.mp hu
    exact WorkerUnit.idle_new id
  · cases hu

theorem Idle.setUnit {f : Farm} (hf : f.Idle) {u : WorkerUnit} (hu : u.Idle) :
    (f.setUnit u).Idle := by
  intro v hv
  obtain ⟨w, hw, rfl⟩ := List.mem_map.mp hv
  split
  · exact hu
  · exact hf w hw

theorem logCall_units (tree : FileTree) (path : String) (unit : Option Nat) (f : Farm) :
    (f.logCall tree path unit).units = f.units ∧ (f.logCall tree path unit).worker = f.worker := by
  rw [logCall]
  split <;> exact ⟨rfl, rfl⟩

theorem Idle.request {α : Type} {f : Farm} (hf : f.Idle) {u : WorkerUnit} (hu : u.Idle)
    (tree : FileTree) (job : Job) (kind? : Reply → Option α) :
    (f.request tree job kind? u).2.Idle ∧ (f.request tree job kind? u).2.worker = f.worker ∧
      ∀ a, (f.request tree job kind? u).1 = .ok a →
        kind? (u.answer (f.worker.work tree) job) = some a := by
  obtain ⟨hidle, hanswer⟩ := hu.request (f.worker.work tree) job kind?
  rw [Farm.request]
  generalize u.request (f.worker.work tree) job kind? = r at hidle hanswer
  obtain ⟨result, v⟩ := r
  refine ⟨hf.setUnit hidle, rfl, fun a h => hanswer a ?_⟩
  cases result with
  | error e => cases h
  | ok b =>
    cases h
    rfl

theorem Idle.perform {f : Farm} (hf : f.Idle) (tree : FileTree) (path : String)
    (options : Transform.Options) : (f.perform tree path options).2.Idle ∧
      (f.perform tree path options).2.worker = f.worker ∧
      ∀ outcome, (f.perform tree path options).1 = .ok outcome →
        outcome = (f.worker.work tree path options).settled := by
  rw [Farm.perform]
  split
  case h_1 =>
    obtain ⟨hunits, hworker⟩ := logCall_units tree path none f
    refine ⟨fun u hu => hf u (hunits ▸ hu), hworker, ?_⟩
    rintro outcome ⟨⟩
    rfl
  case h_2 u hpick =>
    obtain ⟨hunits, hworker⟩ := logCall_units tree path (some u.id) f
    have hlogged : (f.logCall tree path (some u.id)).Idle := fun v hv => hf v (hunits ▸ hv)
    obtain ⟨hidle, hkept, hanswer⟩ := hlogged.request (hf u (Routing.firstMax_mem hpick)) tree
      (.transform path options) Reply.outcome?
    rw [hworker] at hkept hanswer
    exact ⟨hidle, hkept, fun outcome h => (Option.some.inj (hanswer outcome h)).symm⟩

theorem Idle.transform {f : Farm} (hf : f.Idle) (tree : FileTree) (path : String)
    (options : Transform.Options) : (f.transform tree path options).2.Idle ∧
      (f.transform tree path options).2.worker = f.worker ∧
      ∀ file, (f.transform tree path options).1 = .ok file →
        f.worker.work tree path options = .value file := by
  rw [Farm.transform]
  split
  case isTrue => exact ⟨hf, rfl, fun file h => by cases h⟩
  case isFalse =>
    obtain ⟨hidle, hworker, houtcome⟩ :=
      Idle.perform (f := { f with dispatched := f.dispatched + 1 }) hf tree path options
    generalize Farm.perform tree path options { f with dispatched := f.dispatched + 1 } = r at *
    rcases r with ⟨e | e | file, farm⟩
    case error => exact ⟨hidle, hworker, fun file h => by cases h⟩
    case ok.error => exact ⟨hidle, hworker, fun file h => by cases h⟩
    case ok.ok =>
      refine ⟨hidle, hworker, fun _ h => ?_⟩
      cases h
      exact Transform.Ending.eq_value_of_settled (houtcome _ rfl).symm

/-- The result of a file belongs to the bytes that the worker read. -/
theorem Idle.transform_ok {f : Farm} (hf : f.Idle) {tree : FileTree} {path : String}
    {options : Transform.Options} {file : LoadedFile}
    (h : (f.transform tree path options).1 = .ok file) : ∃ source,
      tree.read path = .ok source ∧ file.digest = contentDigest source ∧
      f.worker.transformer source ⟨path, Path.localPath f.worker.root path, options⟩ =
        .value file.result := by
  have hwork := (hf.transform tree path options).2.2 file h
  rw [Worker.work] at hwork
  split at hwork
  case h_1 => cases hwork
  case h_2 source hread =>
    obtain ⟨result, hresult, rfl⟩ := Transform.Ending.map_eq_value hwork
    exact ⟨source, hread, rfl, hresult⟩

end Farm

end BundleGraph
