import BundleGraph.Graph

/-!
# Editing the graph

An edit changes the graph edge by edge and keeps account of what it changed.
Modules that are discovered but not loaded yet have their referrers in
`loading`; all others have them in the graph.
-/

namespace BundleGraph

structure Edit where
  graph : Graph
  added : OrderedSet String := ∅
  modified : OrderedSet String := ∅
  deleted : OrderedSet String := ∅
  /-- Referrers of the modules that are being loaded. -/
  loading : Std.TreeMap String (CountingSet String) := ∅

namespace Edit

def setColor (e : Edit) (path : String) (color : Color) : Edit :=
  { e with graph := e.graph.setColor path color }

def addReferrer (e : Edit) (path referrer : String) : Edit :=
  { e with graph := e.graph.addReferrer path referrer }

def deleteReferrer (e : Edit) (path referrer : String) : Edit :=
  { e with graph := e.graph.deleteReferrer path referrer }

/-- Registers a module that is about to be loaded. One that was freed before in
the same edit comes back as modified. -/
def enqueue (e : Edit) (path : String) (referrer : Option String) : Edit :=
  let e :=
    if e.deleted.contains path then
      { e with deleted := e.deleted.erase path, modified := e.modified.insert path }
    else { e with added := e.added.insert path }
  { e with loading := e.loading.insert path (.ofList referrer.toList) }

/-- Counts a new edge. Its target is enqueued, and reported, unless it is in
the graph or being loaded. -/
def addEdge (e : Edit) (parent : String) (edge : Edge) : Edit × Option String :=
  let target := edge.target
  if e.graph.contains target then
    ((e.addReferrer target parent).setColor target .black, none)
  else
    match e.loading[target]? with
    | some inverse => ({ e with loading := e.loading.insert target (inverse.add parent) }, none)
    | none => (e.enqueue target (some parent), some target)

def markPossibleRoot (e : Edit) (path : String) : Edit :=
  if e.graph.color path = .purple then e
  else
    let g := e.graph.setColor path .purple
    { e with graph := { g with possibleRoots := g.possibleRoots.insert path } }

def eraseEdge (e : Edit) (parent key : String) : Edit :=
  { e with graph := e.graph.modify parent fun m =>
      { m with edges := Module.eraseEdge m.edges key } }

/-- Takes an edge away. The answer is whether its target lost its last referrer
and has to be released. -/
def detach (e : Edit) (parent : String) (edge : Edge) : Bool × Edit :=
  let target := edge.target
  let e := e.eraseEdge parent edge.key
  match e.loading[target]? with
  | some inverse => (false, { e with loading := e.loading.insert target (inverse.delete parent) })
  | none =>
    if e.graph.contains target then
      let e := e.deleteReferrer target parent
      if e.graph.isUnreferenced target && !e.graph.isEntry target then (true, e)
      else (false, e.markPossibleRoot target)
    else (false, e)

/-- A module that leaves the graph is deleted, or was never added. -/
def forget (e : Edit) (path : String) : Edit :=
  let e :=
    if e.added.contains path then { e with added := e.added.erase path }
    else { e with deleted := e.deleted.insert path }
  { e with loading := e.loading.erase path }

def free (e : Edit) (path : String) : Edit :=
  let e := e.forget path
  { e with graph := { e.graph with
    modules := e.graph.modules.erase path
    possibleRoots := e.graph.possibleRoots.erase path
    colors := e.graph.colors.erase path } }

/-- Works off a stack of modules and the edges they still have to drop. A
target that has to be released goes on top; a module without edges left is
freed. -/
def releaseAll : Nat → List (String × List Edge) → Edit → Edit
  | 0, _, e => e
  | _ + 1, [], e => e
  | fuel + 1, (path, []) :: stack, e => releaseAll fuel stack (e.free path)
  | fuel + 1, (path, edge :: edges) :: stack, e =>
    match e.detach path edge with
    | (false, e) => releaseAll fuel ((path, edges) :: stack) e
    | (true, e) =>
      releaseAll fuel ((edge.target, e.graph.edges edge.target) :: (path, edges) :: stack) e

/-- Steps that are enough to release from a graph: every module that goes on
the stack takes an edge or a module out of the graph, and drops at most all
edges. -/
def releaseFuel (g : Graph) : Nat := 2 * ((g.weight + 2) * (g.weight + 2))

/-- Drops all edges of a module, then the module. Targets left without
referrers are released in the same way, children first. -/
def release (e : Edit) (path : String) : Edit :=
  if e.graph.contains path then
    releaseAll (releaseFuel e.graph) [(path, e.graph.edges path)] e
  else e

def removeEdge (e : Edit) (parent : String) (edge : Edge) : Edit :=
  match e.detach parent edge with
  | (true, e) => e.release edge.target
  | (false, e) => e

end Edit

end BundleGraph
