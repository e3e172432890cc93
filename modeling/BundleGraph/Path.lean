import BundleGraph.Text

/-!
# Paths

Slash-separated paths as text, and their components: repeated slashes vanish,
and so does a single dot except at the start of a relative path; two dots
stay.
-/

namespace BundleGraph

inductive Component where
  | root
  | current
  | parent
  | name (text : List Char)
  deriving DecidableEq, Repr

namespace Component

def text : Component → List Char
  | root => ['/']
  | current => ['.']
  | parent => ['.', '.']
  | name text => text

/-- A piece between slashes, as it counts behind the first component. -/
def ofPiece? : List Char → Option Component
  | [] | ['.'] => none
  | ['.', '.'] => some parent
  | piece => some (name piece)

end Component

namespace Path

def isAbsolute (path : String) : Bool := path.toList.head? = some '/'

def components (path : String) : List Component :=
  let pieces := Text.splitOn '/' path.toList
  let body := pieces.filterMap Component.ofPiece?
  match pieces with
  | [] :: _ :: _ => .root :: body
  | ['.'] :: _ => .current :: body
  | _ => body

/-- What follows `front` in a list that starts with it. -/
def dropFront? [DecidableEq α] : List α → List α → Option (List α)
  | [], rest => some rest
  | _ :: _, [] => none
  | x :: front, y :: rest => if x = y then dropFront? front rest else none

theorem dropFront?_eq_some_iff [DecidableEq α] {front xs rest : List α} :
    dropFront? front xs = some rest ↔ xs = front ++ rest := by
  induction front generalizing xs with
  | nil => simp [dropFront?]
  | cons x front ih =>
    cases xs with
    | nil => simp [dropFront?]
    | cons y ys =>
      by_cases h : x = y
      · simp [dropFront?, ih, h]
      · simp [dropFront?, h, Ne.symm h]

/-- The components of a path below a root. -/
def below? (root path : String) : Option (List Component) :=
  dropFront? (components root) (components path)

/-- The path relative to the root with single slashes between its components;
a path that is not below the root is kept, with slashes for backslashes. -/
def localPath (root path : String) : String :=
  match below? root path with
  | some rest => String.ofList (Text.join '/' (rest.map Component.text))
  | none => String.ofList (path.toList.map fun c => if c = '\\' then '/' else c)

/-- An absolute path replaces the base, and a slash is put between when the
base has none at its end. -/
def join (base path : String) : String :=
  if isAbsolute path then path
  else
    let cs := base.toList
    if cs.isEmpty || cs.getLast? = some '/' then base ++ path else base ++ "/" ++ path

def ofComponents : List Component → String
  | .root :: rest => "/" ++ String.ofList (Text.join '/' (rest.map Component.text))
  | components => String.ofList (Text.join '/' (components.map Component.text))

/-- The path without its last component; none for the root and the empty
path. -/
def parent? (path : String) : Option String :=
  match (components path).reverse with
  | [] | .root :: _ => none
  | _ :: parents => some (ofComponents parents.reverse)

end Path

end BundleGraph
