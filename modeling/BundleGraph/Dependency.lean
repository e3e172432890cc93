import BundleGraph.Json.Codec

/-!
# Dependencies

What a module declares about another one, before and after the reference is
resolved to a path.
-/

namespace BundleGraph

open Json (Encode Decode encode decode?)

structure SourceLocation where
  line : UInt32
  column : UInt32
  deriving DecidableEq, Repr

namespace SourceLocation

instance : Encode SourceLocation where
  encode l := .object [("line", encode l.line), ("column", encode l.column)]

instance : Decode SourceLocation where
  decode? t := do
    let r ← t.record? ["line", "column"]
    return ⟨← r.required? "line", ← r.required? "column"⟩

end SourceLocation

/-- How the referring module waits for a dependency when it runs. -/
inductive DependencyKind where
  | sync
  | deferred
  | weak
  | prefetch
  deriving DecidableEq, Repr

namespace DependencyKind

def isAsync (kind : DependencyKind) : Bool := kind ≠ sync

def text : DependencyKind → String
  | sync => "sync"
  | deferred => "deferred"
  | weak => "weak"
  | prefetch => "prefetch"

def ofText? : String → Option DependencyKind
  | "sync" => some sync
  | "deferred" => some deferred
  | "weak" => some weak
  | "prefetch" => some prefetch
  | _ => none

/-- Reads a name in any case; `async` is another name for deferred. -/
def parse (name : String) : Except String DependencyKind :=
  let lowered := String.ofList (name.toList.map Text.toLowerAscii)
  match if lowered = "async" then some deferred else ofText? lowered with
  | some kind => .ok kind
  | none => .error ("Unknown async kind: " ++ name)

instance : Encode DependencyKind := ⟨fun kind => .string kind.text⟩

instance : Decode DependencyKind := ⟨fun t => t.unitChoice?.bind ofText?⟩

end DependencyKind

/-- A dependency as declared, before resolution. The key is unique within the
declaring module and identifies the edge from one transform to the next. An
optional dependency that cannot be found is left out. -/
structure Dependency where
  name : String
  key : String
  kind : DependencyKind := .sync
  optional : Bool := false
  locations : List SourceLocation := []
  deriving DecidableEq, Repr

namespace Dependency

/-- A plain dependency, with its name for a key. -/
def ofName (name : String) : Dependency := { name, key := name }

def firstLocation? (d : Dependency) : Option SourceLocation := d.locations.head?

instance : Encode Dependency where
  encode d := .object [("name", encode d.name), ("key", encode d.key),
    ("async_kind", encode d.kind), ("optional", encode d.optional),
    ("locations", encode d.locations)]

instance : Decode Dependency where
  decode? t := do
    let r ← t.record? ["name", "key", "async_kind", "optional", "locations"]
    return {
      name := ← r.required? "name"
      key := ← r.required? "key"
      kind := ← r.default? "async_kind" .sync
      optional := ← r.default? "optional" false
      locations := ← r.default? "locations" [] }

end Dependency

/-- A dependency together with the path it resolved to. -/
structure Edge where
  target : String
  dependency : Dependency
  deriving DecidableEq, Repr

namespace Edge

def key (e : Edge) : String := e.dependency.key

instance : Encode Edge where
  encode e := .object [("absolute_path", encode e.target), ("data", encode e.dependency)]

instance : Decode Edge where
  decode? t := do
    let r ← t.record? ["absolute_path", "data"]
    return ⟨← r.required? "absolute_path", ← r.required? "data"⟩

end Edge

end BundleGraph
