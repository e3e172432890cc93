import BundleGraph.CountingSet
import BundleGraph.Sha256
import BundleGraph.Text.Utf8
import BundleGraph.Transform

/-!
# Modules

A module is a node of the dependency graph: its edges in source order, and its
referrers, counted once for each edge.
-/

namespace BundleGraph

structure Module where
  path : String
  edges : List Edge
  inverse : CountingSet String
  result : Transform.Result
  digest : String
  deriving Inhabited

namespace Module

/-- The targets of the edges, in edge order. -/
def targets (m : Module) : List String := m.edges.map (·.target)

def edge? (edges : List Edge) (key : String) : Option Edge := edges.find? (·.key = key)

/-- Edges without the one of a key. -/
def eraseEdge (edges : List Edge) (key : String) : List Edge := edges.eraseP (·.key = key)

/-- A module that exists in the bundle only. Its line count is at least one. -/
def script (path code : String) : Module where
  path := path
  edges := []
  inverse := ∅
  result := {
    dependencies := []
    output := [⟨"js/script/virtual", .ofFields [("code", .string code),
      ("lineCount", .ofNat (max (Text.lines code.toList).length 1)), ("map", .array [])]⟩] }
  digest := contentDigest (Utf8.ofString code)

end Module

/-- What a build yields: the reachable modules in depth-first pre-order, and
those that the entry points resolved to. -/
structure BuildResult where
  modules : List Module
  entries : List Module
  deriving Inhabited

def BuildResult.get? (r : BuildResult) (path : String) : Option Module :=
  r.modules.find? (·.path = path)

end BundleGraph
