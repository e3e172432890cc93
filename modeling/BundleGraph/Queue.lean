import Std.Data.TreeMap.Lemmas

/-!
# Task queues

A queue starts tasks that either finish at once or stay in flight. Results are
folded into a state, and may ask for follow-up tasks. All queued tasks are
started before a task in flight is waited for, and the first error ends the
drain.

What a task in flight will deliver is settled when it starts; when it delivers
is the schedule's affair. Every order of completion is that of some schedule.
`Schedule.polling` is the one in which tasks in flight are polled in turn, and
each stays pending for as many polls as its clock has left.
-/

namespace BundleGraph

/-- A result that is delivered later. Futures on one clock become ready
together; `polls` is what a new clock starts from. -/
structure Future (ε ρ : Type) where
  result : Except ε ρ
  clock : Nat
  polls : Nat

inductive Started (ε ρ : Type) where
  | ready (result : Except ε ρ)
  | pending (future : Future ε ρ)

namespace Started

def map (f : ρ → ρ') : Started ε ρ → Started ε ρ'
  | ready result => ready (result.map f)
  | pending future => pending ⟨future.result.map f, future.clock, future.polls⟩

def isReady : Started ε ρ → Bool
  | ready _ => true
  | pending _ => false

def result : Started ε ρ → Except ε ρ
  | ready result => result
  | pending future => future.result

end Started

/-- Starts tasks, and folds one result at a time into a state. -/
structure Accumulator (σ τ ρ ε : Type) where
  start : τ → σ → Started ε ρ × σ
  accumulate : τ → ρ → σ → Except ε (List τ) × σ

/-- Polls left on each clock. -/
abbrev Clocks := Std.TreeMap Nat Nat

/-- Chooses the task in flight that completes next, from the number of
completions before, the clocks, and the clocks of the tasks in flight in their
order: its place in that order, and the clocks from then on. -/
abbrev Schedule := Nat → Clocks → List Nat → Nat × Clocks

namespace Schedule

/-- Polls each waiting task once, in order, until one is ready: the place of
that task, the first having place `place`. -/
def pollRound (clocks : Clocks) (place : Nat) : List Nat → Option Nat × Clocks
  | [] => (none, clocks)
  | clock :: waiting =>
    match clocks.getD clock 0 with
    | 0 => (some place, clocks)
    | n + 1 => pollRound (clocks.insert clock n) (place + 1) waiting

/-- Polls in rounds until a task is ready. -/
def pollRounds : Nat → Clocks → List Nat → Nat × Clocks
  | 0, clocks, _ => (0, clocks)
  | rounds + 1, clocks, waiting =>
    match pollRound clocks 0 waiting with
    | (some place, clocks) => (place, clocks)
    | (none, clocks) => pollRounds rounds clocks waiting

/-- The front task is ready when its clock has run out, so as many rounds as it
has polls left are enough. -/
def polling : Schedule := fun _ clocks waiting =>
  match waiting with
  | [] => (0, clocks)
  | front :: _ => pollRounds (clocks.getD front 0 + 1) clocks waiting

end Schedule

/-- How a queue is worked off: in which order tasks complete, and in how many
moves at most. -/
structure Pace where
  schedule : Schedule := Schedule.polling
  budget : Nat

structure Queue (τ ρ ε : Type) where
  queued : List τ
  inFlight : List (τ × Future ε ρ) := []
  clocks : Clocks := ∅
  completed : Nat := 0

namespace Queue

variable {σ τ ρ ε : Type}

def ofList (seeds : List τ) : Queue τ ρ ε := { queued := seeds }

def push (q : Queue τ ρ ε) (task : τ) : Queue τ ρ ε := { q with queued := q.queued ++ [task] }

/-- A drain goes on, or stops with its result. -/
inductive Progress (σ τ ρ ε : Type) where
  | go (queue : Queue τ ρ ε) (state : σ)
  | stop (result : Except ε Unit) (state : σ)

def fold (acc : Accumulator σ τ ρ ε) (q : Queue τ ρ ε) (task : τ) (result : Except ε ρ) (s : σ) :
    Progress σ τ ρ ε :=
  match result with
  | .error e => .stop (.error e) s
  | .ok r =>
    match acc.accumulate task r s with
    | (.ok next, s) => .go { q with queued := q.queued ++ next } s
    | (.error e, s) => .stop (.error e) s

def launch (acc : Accumulator σ τ ρ ε) (q : Queue τ ρ ε) (task : τ) (s : σ) : Progress σ τ ρ ε :=
  match acc.start task s with
  | (.ready result, s) => fold acc q task result s
  | (.pending future, s) =>
    .go { q with
      inFlight := q.inFlight ++ [(task, future)]
      clocks := q.clocks.insertIfNew future.clock future.polls } s

/-- Completes the task that the schedule chooses; those behind it come to the
front. -/
def complete (acc : Accumulator σ τ ρ ε) (schedule : Schedule) (q : Queue τ ρ ε) (s : σ) :
    Progress σ τ ρ ε :=
  let (place, clocks) := schedule q.completed q.clocks (q.inFlight.map (·.2.clock))
  let place := place % q.inFlight.length
  match q.inFlight.drop place with
  | [] => .stop (.ok ()) s
  | (task, future) :: behind =>
    let inFlight := behind ++ q.inFlight.take place
    fold acc { q with inFlight, clocks, completed := q.completed + 1 } task future.result s

/-- One move. No task in flight is waited for while another one is queued. -/
def next (acc : Accumulator σ τ ρ ε) (schedule : Schedule) (q : Queue τ ρ ε) (s : σ) :
    Progress σ τ ρ ε :=
  match q.queued with
  | task :: rest => launch acc { q with queued := rest } task s
  | [] => complete acc schedule q s

/-- Makes moves until one stops; none when the budget is spent before. -/
def drainWithin (acc : Accumulator σ τ ρ ε) (schedule : Schedule) :
    Nat → Queue τ ρ ε → σ → Option (Except ε Unit) × σ
  | 0, _, s => (none, s)
  | budget + 1, q, s =>
    match next acc schedule q s with
    | .go q s => drainWithin acc schedule budget q s
    | .stop result s => (some result, s)

/-- Runs until nothing is queued or in flight, or to the first error. -/
def drain (acc : Accumulator σ τ ρ ε) (pace : Pace) (q : Queue τ ρ ε) (s : σ) :
    Option (Except ε Unit) × σ :=
  drainWithin acc pace.schedule pace.budget q s

end Queue

end BundleGraph
