import BundleGraph.OrderedMap

/-!
# Depth-first pre-order

The nodes of a finite graph in the order in which a depth-first walk first
visits them. Nodes without an entry in the graph are left out.
-/

namespace BundleGraph

/-- The children of every node. -/
abbrev Adjacency := Std.TreeMap String (List String)

namespace Preorder

/-- Takes nodes from a stack, and puts the children of a new one in front.
Every step takes one node off, and a node's children are put on it once. -/
def walk (graph : Adjacency) : Nat → List String → OrderedSet String → OrderedSet String
  | 0, _, visited => visited
  | _ + 1, [], visited => visited
  | fuel + 1, node :: stack, visited =>
    if visited.contains node then walk graph fuel stack visited
    else
      match graph[node]? with
      | none => walk graph fuel stack visited
      | some children => walk graph fuel (children ++ stack) (visited.insert node)

def edgeCount (graph : Adjacency) : Nat := graph.foldl (fun n _ children => n + children.length) 0

end Preorder

/-- The nodes reached from the starts, in depth-first pre-order. -/
def preorder (graph : Adjacency) (starts : List String) : List String :=
  (Preorder.walk graph (starts.length + Preorder.edgeCount graph + 1) starts ∅).toList

end BundleGraph
