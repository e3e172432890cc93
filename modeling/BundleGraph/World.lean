import BundleGraph.ImportLines
import BundleGraph.Loader
import BundleGraph.Resolution
import BundleGraph.Sha256

/-!
# In-memory projects

A project held in memory: sources by path, aliases of names, names that are
rejected, and paths that resolve without being files. It provides a resolver
and a loader; the loader logs the paths it is asked for.
-/

namespace BundleGraph

/-- Why a name is rejected, and where. -/
structure Rejection where
  reason : String
  location : Option SourceLocation := none

structure World where
  files : Std.TreeMap String String := ∅
  aliases : Std.TreeMap String String := ∅
  rejected : Std.TreeMap String Rejection := ∅
  phantom : List String := []
  delays : Std.TreeMap String Nat := ∅

namespace World

/-- A file of the platform wins over the plain one. -/
def resolver (w : World) : Resolver := fun origin d platform =>
  match w.rejected[d.name]? with
  | some rejection =>
    .error { origin, reference := d.name, location := rejection.location,
             reason := some rejection.reason }
  | none =>
    let target := w.aliases.getD d.name d.name
    let plain :=
      if w.files.contains target || w.phantom.contains target then .ok target
      else .error { origin, reference := d.name }
    match platform with
    | none => plain
    | some p =>
      let special := target ++ "." ++ p
      if w.files.contains special then .ok special else plain

def outcome (w : World) (path : String) : Except BuildError LoadedFile :=
  match w.files[path]? with
  | none => .error (.io ⟨path, true⟩)
  | some source =>
    let bytes := Utf8.ofString source
    match ImportLines.read bytes with
    | .declares dependencies => .ok ⟨⟨dependencies, []⟩, contentDigest bytes⟩
    | .fails failure => .error (.transform (failure.normalize path))
    | .panics text => .error (.transform (Transform.Failure.normalize path (.other text none)))

/-- The loader's state is the log of loads, the latest first. -/
def loader (w : World) : Loader (List String) where
  load path log := (⟨w.outcome path, w.delays.getD path 0⟩, path :: log)

/-- A chain of `length` files, each of which imports the next. -/
def chain (length : Nat) (last : String) : List (String × String) :=
  (List.range length).map fun i =>
    ("/chain/" ++ toString i,
      if i + 1 < length then "import /chain/" ++ toString (i + 1) else last)

end World

end BundleGraph
