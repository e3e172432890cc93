import BundleGraph.Change
import BundleGraph.Channel
import BundleGraph.Graph.Traversal

/-!
# Delta sessions

A session keeps the graph of its entry points up to date. It listens to file
changes, and each delta turns those that came since the last one into what
changed in the graph. A delta takes the pending changes when it begins; one
that fails leaves the graph as it was and puts its changes back.
-/

namespace BundleGraph

abbrev ChangeChannel := Channel (List ChangeEvent)

structure Delta where
  added : List (String × Module) := []
  modified : List (String × Module) := []
  deleted : List String := []
  /-- The delta describes the whole graph. -/
  reset : Bool := false

def Delta.isEmpty (d : Delta) : Bool := d.added.isEmpty && d.modified.isEmpty && d.deleted.isEmpty

structure DeltaSession where
  graph : Graph
  built : Bool := false
  changes : ChangeSets := {}
  subscription : Option Subscription
  ended : Bool := false

namespace DeltaSession

/-- Nothing is built before the first delta. -/
def start (entries : List String) (options : Transform.Options) (channel : ChangeChannel) :
    DeltaSession × ChangeChannel :=
  let (subscription, channel) := channel.subscribe
  ({ graph := .ofEntries entries options, subscription := some subscription }, channel)

/-- Records everything a subscriber can receive; the answer is its subscription
unless the channel was closed. Every step but the last receives a value or
skips the lost ones, so two more than the values sent are enough. -/
def drainFrom (channel : ChangeChannel) :
    Nat → Subscription → ChangeSets → Option Subscription × ChangeSets
  | 0, subscription, changes => (some subscription, changes)
  | fuel + 1, subscription, changes =>
    match channel.receive subscription with
    | (.value batch, subscription) =>
      drainFrom channel fuel subscription (changes.recordAll batch)
    | (.lagged _, subscription) =>
      drainFrom channel fuel subscription { changes with overflowed := true }
    | (.empty, subscription) => (some subscription, changes)
    | (.closed, _) => (none, changes)

def drain (s : DeltaSession) (channel : ChangeChannel) : DeltaSession × ChangeChannel :=
  match s.subscription with
  | none => (s, channel)
  | some subscription =>
    match drainFrom channel (channel.sent.size + 2) subscription s.changes with
    | (some subscription, changes) =>
      ({ s with changes, subscription := some subscription }, channel)
    | (none, changes) => ({ s with changes, subscription := none }, channel.unsubscribe)

def finish (s : DeltaSession) (channel : ChangeChannel) : DeltaSession × ChangeChannel :=
  if s.ended then (s, channel)
  else
    ({ s with ended := true, subscription := none },
      if s.subscription.isSome then channel.unsubscribe else channel)

inductive Plan where
  | rebuild
  | update (modified deleted : List String)
  | nothing
  deriving DecidableEq

def plan (s : DeltaSession) (reset : Bool) (taken : ChangeSets) : Plan :=
  if reset || !s.built || taken.overflowed then .rebuild
  else
    let modified := (taken.modified.toList ++ taken.added.toList).filter s.graph.contains
    let deleted := taken.deleted.toList.filter s.graph.contains
    if modified.isEmpty && deleted.isEmpty then .nothing else .update modified deleted

/-- What a delta came to: its result with the new graph, the state of the
loader, and the progress reports, the latest first. -/
structure Attempt (σ : Type) where
  outcome : Except BuildError (Delta × Graph)
  host : σ
  reports : List (Nat × Nat)

variable {σ : Type}

def Attempt.ofTraversal (describe : GraphDelta → Delta) :
    Except BuildError GraphDelta × Traversal σ → Attempt σ
  | (result, t) => ⟨result.map fun d => (describe d, t.edit.graph), t.memo.host, t.reports⟩

def Plan.attempt (ctx : Traversal.Context σ) (g : Graph) (host : σ) : Plan → Attempt σ
  | rebuild =>
    .ofTraversal (fun d => { added := d.added, reset := true })
      ((Graph.ofEntries g.entryPoints.toList g.options).initialTraverse ctx host)
  | update modified deleted =>
    .ofTraversal (fun d => { added := d.added, modified := d.modified, deleted := d.deleted })
      (g.traverse ctx modified deleted host)
  | nothing => ⟨.ok ({}, g), host, []⟩

def take (s : DeltaSession) (channel : ChangeChannel) :
    ChangeSets × DeltaSession × ChangeChannel :=
  let (s, channel) := s.drain channel
  (s.changes, { s with changes := {} }, channel)

def settle (s : DeltaSession) (taken : ChangeSets) :
    Except BuildError (Delta × Graph) → Except BuildError Delta × DeltaSession
  | .ok (delta, graph) => (.ok delta, { s with graph, built := true })
  | .error e => (.error e, { s with changes := s.changes.restore taken })

def delta (ctx : Traversal.Context σ) (reset : Bool) (s : DeltaSession) (channel : ChangeChannel)
    (host : σ) : Attempt σ × DeltaSession × ChangeChannel :=
  if s.ended then
    (⟨.error (.invalidOperation "delta calculator has ended"), host, []⟩, s, channel)
  else
    let (taken, s, channel) := s.take channel
    let attempt := (s.plan reset taken).attempt ctx s.graph host
    (attempt, (s.settle taken attempt.outcome).2, channel)

end DeltaSession

end BundleGraph
