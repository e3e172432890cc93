import BundleGraph.Error

/-!
# Worker units

A unit answers jobs from its own queue, one after the other. Its loop and its
callers run side by side, so a run is a list of small events in any order:
`step` says when each of them can happen and what it changes. A caller that
hands over a job keeps other callers and the shutdown waiting until the job is
in the queue.
-/

namespace BundleGraph

inductive Job where
  | transform (path : String) (options : Transform.Options)
  | ping

inductive Reply where
  | transformed (outcome : Except Transform.Failure LoadedFile)
  | pong (unit : Nat)

namespace Reply

def outcome? : Reply → Option (Except Transform.Failure LoadedFile)
  | transformed outcome => some outcome
  | pong _ => none

def unit? : Reply → Option Nat
  | pong unit => some unit
  | transformed _ => none

end Reply

/-- How the transform of a file ends. -/
abbrev Work := String → Transform.Options → Transform.Ending LoadedFile

namespace WorkerUnit

inductive Stage where
  | waiting
  | working (number : Nat) (job : Job)
  | replied
  | lowered
  | ended

/-- An answer that was sent, whether or not its caller was still there. -/
structure Answer where
  number : Nat
  reply : Reply
  received : Bool

inductive Event where
  /-- A caller finds the queue open and counts its job as pending. -/
  | reserve (job : Job)
  /-- It puts the job into the queue. -/
  | send
  /-- The caller of an accepted job stops waiting for the answer. -/
  | leave (number : Nat)
  | shutdown
  | take
  | reply (work : Work)
  | lower
  | count
  | finish

end WorkerUnit

structure WorkerUnit where
  id : Nat
  /-- Whether the queue takes jobs. -/
  isOpen : Bool := true
  reserved : Option Job := none
  /-- Accepted jobs with their numbers. -/
  queue : List (Nat × Job) := []
  stage : WorkerUnit.Stage := .waiting
  pending : Int := 0
  completed : Nat := 0
  /-- All jobs that were accepted and all answers that were sent, in order. -/
  accepted : List Job := []
  answers : List WorkerUnit.Answer := []
  /-- The jobs whose callers have left. -/
  left : List Nat := []

namespace WorkerUnit

/-- A panicking transform is answered like one that fails. -/
def answer (u : WorkerUnit) (work : Work) : Job → Reply
  | .transform path options => .transformed (work path options).settled
  | .ping => .pong u.id

/-- The unit after an event, if the event can happen. -/
def step (u : WorkerUnit) : Event → Option WorkerUnit
  | .reserve job =>
    if u.isOpen && u.reserved.isNone then
      some { u with reserved := some job, pending := u.pending + 1 }
    else none
  | .send =>
    match u.reserved, u.stage with
    | none, _ => none
    | some _, .ended => some { u with reserved := none, pending := u.pending - 1 }
    | some job, _ =>
      some { u with
        reserved := none
        queue := u.queue ++ [(u.accepted.length, job)]
        accepted := u.accepted ++ [job] }
  | .leave number => some { u with left := number :: u.left }
  | .shutdown => if u.reserved.isNone then some { u with isOpen := false } else none
  | .take =>
    match u.stage, u.queue with
    | .waiting, (number, job) :: queue => some { u with stage := .working number job, queue }
    | _, _ => none
  | .reply work =>
    match u.stage with
    | .working number job =>
      some { u with
        stage := .replied
        answers := u.answers ++ [⟨number, u.answer work job, !u.left.contains number⟩] }
    | _ => none
  | .lower =>
    match u.stage with
    | .replied => some { u with stage := .lowered, pending := u.pending - 1 }
    | _ => none
  | .count =>
    match u.stage with
    | .lowered => some { u with stage := .waiting, completed := u.completed + 1 }
    | _ => none
  | .finish =>
    match u.stage, u.queue with
    | .waiting, [] => if u.isOpen then none else some { u with stage := .ended }
    | _, _ => none

def run (u : WorkerUnit) : List Event → Option WorkerUnit
  | [] => some u
  | e :: es => (u.step e).bind (·.run es)

inductive Refusal where
  | shutDown
  | gone
  | dropped
  deriving DecidableEq, Repr

def Refusal.message (id : Nat) : Refusal → String
  | shutDown => "worker unit " ++ toString id ++ " is shut down"
  | gone => "worker unit " ++ toString id ++ " is gone"
  | dropped => "worker unit " ++ toString id ++ " dropped the request"

/-- Hands over a job without any event in between. -/
def dispatch (job : Job) (u : WorkerUnit) : Except Refusal Unit × WorkerUnit :=
  match u.run [.reserve job, .send] with
  | none => (.error .shutDown, u)
  | some v => (if u.accepted.length < v.accepted.length then .ok () else .error .gone, v)

/-- The events of the loop that serve one job. -/
def serveOne (work : Work) : List Event := [.take, .reply work, .lower, .count]

def serve (work : Work) (u : WorkerUnit) : WorkerUnit :=
  (u.run (u.queue.flatMap fun _ => serveOne work)).getD u

/-- Hands over a job and waits for the reply of the kind that belongs to it. -/
def request (work : Work) (job : Job) (kind? : Reply → Option α) (u : WorkerUnit) :
    Except Refusal α × WorkerUnit :=
  match u.dispatch job with
  | (.error e, u) => (.error e, u)
  | (.ok (), u) =>
    let number := u.accepted.length - 1
    let u := u.serve work
    match (u.answers.find? (·.number = number)).bind fun a => kind? a.reply with
    | some a => (.ok a, u)
    | none => (.error .dropped, u)

end WorkerUnit

end BundleGraph
