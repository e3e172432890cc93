import BundleGraph.Graph.Cycles
import BundleGraph.Loader
import BundleGraph.Resolution

/-!
# Traversals

A traversal loads modules and edits the graph as their contents arrive. The
initial one builds the graph from its entry points; an incremental one
processes the modified modules again, drops the deleted ones and frees what is
left without referrers.
-/

namespace BundleGraph

/-- An edge is kept by edges that have its target under its key. -/
def Module.keeps (edges : List Edge) (edge : Edge) : Bool :=
  (Module.edge? edges edge.key).any (·.target = edge.target)

namespace Edit

/-- The referrers of a module whose content arrived; while it was being loaded,
they were kept apart. A module that left the graph meanwhile has none. -/
def claim (e : Edit) (path : String) : Option (CountingSet String × Edit) :=
  match e.graph.modules.get? path with
  | some m => some (m.inverse, e)
  | none =>
    match e.loading[path]? with
    | some inverse => some (inverse, { e with loading := e.loading.erase path })
    | none => if e.graph.isEntry path then some (∅, e) else none

/-- Puts a module into the graph. A new one is black. -/
def place (e : Edit) (m : Module) : Edit :=
  let g := { e.graph with modules := e.graph.modules.insert m.path m }
  { e with graph := if e.graph.contains m.path then g else g.setColor m.path .black }

/-- Removes the edges of a module that its new ones do not keep. -/
def dropEdges (e : Edit) (path : String) (previous current : List Edge) : Edit :=
  previous.foldl (fun e edge =>
    if Module.keeps current edge then e else e.removeEdge path edge) e

/-- Counts an edge of a module unless it was counted before, and then only when
its target is neither in the graph nor being loaded. The targets to load are
gathered. -/
def addNewEdge (shallow : Bool) (path : String) (previous : List Edge)
    (state : Edit × List String) (edge : Edge) : Edit × List String :=
  let (e, next) := state
  let missing := !e.graph.contains edge.target && !e.loading.contains edge.target
  if shallow || (Module.keeps previous edge && !missing) then (e, next)
  else
    match e.addEdge path edge with
    | (e, some target) => (e, next ++ [target])
    | (e, none) => (e, next)

def addEdges (shallow : Bool) (e : Edit) (path : String) (previous current : List Edge) :
    Edit × List String :=
  current.foldl (addNewEdge shallow path previous) (e, [])

def setEdges (e : Edit) (path : String) (edges : List Edge) : Edit :=
  { e with graph := e.graph.modify path fun m => { m with edges } }

/-- Processes a loaded module: the edges that changed are removed and added.
The answer is the modules to load next. A module that nothing refers to any
more is dropped. -/
def process (resolve : Resolver) (shallow : Bool) (e : Edit) (path : String)
    (file : LoadedFile) : Except BuildError (List String) × Edit :=
  match e.claim path with
  | none => (.ok [], e)
  | some (inverse, claimed) =>
    if !e.graph.contains path && inverse.isEmpty && !e.graph.isEntry path then
      (.ok [], claimed.forget path)
    else
      match resolve.edges path e.graph.options.platform file.result.dependencies [] with
      | .error error => (.error error, claimed)
      | .ok current =>
        let previous := e.graph.edges path
        let placed := claimed.place ⟨path, previous, inverse, file.result, file.digest⟩
        let dropped := placed.dropEdges path previous current
        -- removing edges may have released the module through a cycle
        if !dropped.graph.contains path then (.ok [], dropped)
        else
          let (added, next) := dropped.addEdges shallow path previous current
          (.ok next, added.setEdges path current)

end Edit

/-- What a traversal works with. A shallow one does not add the dependencies of
the modules it processes, and does not count its new edges. -/
structure Traversal.Context (σ : Type) where
  resolve : Resolver
  loader : Loader σ
  shallow : Bool := false
  pace : Pace

structure Traversal (σ : Type) where
  edit : Edit
  memo : LoadMemo σ
  done : Nat := 0
  total : Nat := 0
  /-- Reports of processed and discovered modules, the latest first. -/
  reports : List (Nat × Nat) := []

namespace Traversal

variable {σ : Type}

def ofEdit (edit : Edit) (host : σ) (total : Nat) : Traversal σ := { edit, memo := { host }, total }

def start (ctx : Context σ) (path : String) (t : Traversal σ) :
    Started BuildError LoadedFile × Traversal σ :=
  let (started, memo) := t.memo.load ctx.loader path
  (started, { t with memo })

def accumulate (ctx : Context σ) (path : String) (file : LoadedFile) (t : Traversal σ) :
    Except BuildError (List String) × Traversal σ :=
  let t := { t with memo := t.memo.settle path file }
  match t.edit.process ctx.resolve ctx.shallow path file with
  | (.error e, edit) => (.error e, { t with edit })
  | (.ok next, edit) =>
    let done := t.done + 1
    let total := t.total + next.length
    (.ok next, { t with edit, done, total, reports := (done, total) :: t.reports })

def accumulator (ctx : Context σ) : Accumulator (Traversal σ) String LoadedFile BuildError where
  start := start ctx
  accumulate := accumulate ctx

def drain (ctx : Context σ) (seeds : List String) (t : Traversal σ) :
    Except BuildError Unit × Traversal σ :=
  match Queue.drain (accumulator ctx) ctx.pace (.ofList seeds) t with
  | (some result, t) => (result, t)
  | (none, t) => (.error .budgetSpent, t)

end Traversal

namespace Graph

variable {σ : Type}

/-- Drops a deleted module. Those that referred to it are to be processed
again, and so is the module itself when it is an entry point. -/
def dropDeleted (state : OrderedSet String × Edit) (path : String) : OrderedSet String × Edit :=
  let (seeds, e) := state
  match e.graph.modules.get? path with
  | none => (seeds, e)
  | some m =>
    let e := e.release path
    let seeds := (seeds.erase path).insertMany m.inverse.toList
    if e.graph.isEntry path then (seeds.insert path, e.enqueue path none) else (seeds, e)

/-- The modules an incremental traversal starts from, and the edit that drops
the deleted ones. -/
def incrementalSeeds (g : Graph) (modified deleted : List String) : List String × Edit :=
  let seeds := OrderedSet.ofList (modified.filter g.contains)
  let (seeds, e) := deleted.foldl dropDeleted (seeds, { graph := g })
  let seeds := seeds.toList.filter fun path => e.graph.contains path || e.loading.contains path
  (seeds, { e with modified := e.modified.insertMany (seeds.filter e.graph.contains) })

def withModules (g : Graph) (paths : List String) : List (String × Module) :=
  paths.filterMap fun path => (g.modules.get? path).map (path, ·)

/-- What an edit changed in all. -/
def deltaOf (e : Edit) : GraphDelta where
  added := e.graph.withModules e.added.toList
  modified := e.graph.withModules
    (e.modified.toList.filter fun path => !e.added.contains path && !e.deleted.contains path)
  deleted := e.deleted.toList

/-- Builds an empty graph from its entry points. Every module counts as added. -/
def initialTraverse (g : Graph) (ctx : Traversal.Context σ) (host : σ) :
    Except BuildError GraphDelta × Traversal σ :=
  let unchanged := Traversal.ofEdit { graph := g } host 0
  if !g.modules.isEmpty then
    (.error (.invalidOperation "initial traversal requires an empty graph"), unchanged)
  else
    let seeds := g.entryPoints.toList
    let colors : Std.TreeMap String Color := seeds.foldl (fun t entry => t.insert entry .black) ∅
    let g := { g with colors, possibleRoots := ∅ }
    let edit := seeds.foldl (fun e entry => e.enqueue entry none) { graph := g }
    match (Traversal.ofEdit edit host seeds.length).drain ctx seeds with
    | (.error e, t) => (.error e, t)
    | (.ok (), t) =>
      let g := t.edit.graph
      let reached := g.order.length
      if !ctx.shallow && reached ≠ g.modules.size then
        let lost := toString (max reached g.modules.size - min reached g.modules.size)
        (.error (.invalidOperation (lost ++ " modules are not reachable from the entry points")), t)
      else
        let g := g.reorder
        (.ok ⟨g.modules.toList, [], []⟩, { t with edit := { t.edit with graph := g } })

/-- Processes modified modules again, drops deleted ones, and frees what cannot
be reached any more. -/
def traverse (g : Graph) (ctx : Traversal.Context σ) (modified deleted : List String) (host : σ) :
    Except BuildError GraphDelta × Traversal σ :=
  let (seeds, edit) := g.incrementalSeeds modified deleted
  match (Traversal.ofEdit edit host seeds.length).drain ctx seeds with
  | (.error e, t) => (.error e, t)
  | (.ok (), t) =>
    let edit := t.edit.collectCycles
    (.ok (deltaOf edit), { t with edit })

end Graph

end BundleGraph
