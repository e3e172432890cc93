import BundleGraph.Module
import BundleGraph.OrderedMap
import BundleGraph.Preorder

/-!
# The dependency graph

The graph that is kept between builds. Modules are counted references: a
module is released once no edge leads to it, and modules that lost an edge but
not the last one are remembered as possible roots of a garbage cycle.
-/

namespace BundleGraph

/-- `gray` modules may belong to a garbage cycle, `white` ones do, `purple`
ones may be the root of one; all others are `black`. -/
inductive Color where
  | black
  | gray
  | white
  | purple
  deriving DecidableEq, Repr

structure Graph where
  entryPoints : OrderedSet String
  options : Transform.Options
  modules : OrderedMap String Module := ∅
  colors : Std.TreeMap String Color := ∅
  possibleRoots : OrderedSet String := ∅
  deriving Inhabited

structure GraphDelta where
  added : List (String × Module)
  modified : List (String × Module)
  deleted : List String

namespace Graph

def ofEntries (entries : List String) (options : Transform.Options) : Graph :=
  { entryPoints := .ofList entries, options }

def isEntry (g : Graph) (path : String) : Bool := g.entryPoints.contains path

def contains (g : Graph) (path : String) : Bool := g.modules.contains path

def color (g : Graph) (path : String) : Color := g.colors.getD path .black

def setColor (g : Graph) (path : String) (color : Color) : Graph :=
  { g with colors := g.colors.insert path color }

def modify (g : Graph) (path : String) (f : Module → Module) : Graph :=
  { g with modules := g.modules.modify path f }

def addReferrer (g : Graph) (path referrer : String) : Graph :=
  g.modify path fun m => { m with inverse := m.inverse.add referrer }

def deleteReferrer (g : Graph) (path referrer : String) : Graph :=
  g.modify path fun m => { m with inverse := m.inverse.delete referrer }

/-- No edge is counted that leads to the module. -/
def isUnreferenced (g : Graph) (path : String) : Bool :=
  match g.modules.get? path with
  | some m => m.inverse.isEmpty
  | none => true

/-- The edges of a module; a path without a module has none. -/
def edges (g : Graph) (path : String) : List Edge :=
  match g.modules.get? path with
  | some m => m.edges
  | none => []

def targets (g : Graph) (path : String) : List String := (g.edges path).map (·.target)

def adjacency (g : Graph) : Adjacency :=
  g.modules.foldAny (fun t path m => t.insert path m.targets) ∅

/-- The modules that can be reached from the entry points, in depth-first
pre-order. -/
def order (g : Graph) : List String := preorder g.adjacency g.entryPoints.toList

def buildResult (g : Graph) : BuildResult where
  modules := g.order.filterMap g.modules.get?
  entries := g.entryPoints.toList.filterMap g.modules.get?

/-- Edges whose target is not in the graph, as origin and target. -/
def danglingEdges (g : Graph) : List (String × String) :=
  g.modules.values.flatMap fun m =>
    (m.targets.filter fun target => !g.contains target).map (m.path, ·)

/-- The referrers of every path, counted from the edges. -/
def referrers (g : Graph) : Std.TreeMap String (CountingSet String) :=
  g.modules.values.foldl (fun counted m =>
    m.targets.foldl (fun counted target =>
      counted.insert target ((counted.getD target ∅).add m.path)) counted) ∅

/-- The stored referrers of every module are those counted from the edges. -/
def isConsistent (g : Graph) : Bool :=
  let counted := g.referrers
  g.modules.values.all fun m => (counted.getD m.path ∅).sameCounts m.inverse

/-- Modules and edges together. -/
def weight (g : Graph) : Nat := g.modules.foldAny (fun n _ m => n + 1 + m.edges.length) 0

/-- Puts the modules in depth-first pre-order; those that cannot be reached
follow in their old order. -/
def reorder (g : Graph) : Graph :=
  let order := g.order
  let front := order.filterMap fun path => (g.modules.get? path).map (path, ·)
  let placed := OrderedSet.ofList order
  let rest := g.modules.toList.filter fun (path, _) => !placed.contains path
  { g with modules := .ofList (front ++ rest) }

end Graph

end BundleGraph
