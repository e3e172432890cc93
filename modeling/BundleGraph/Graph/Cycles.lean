import BundleGraph.Graph.Edit

/-!
# Collecting garbage cycles

Groups of modules that keep only each other alive are found from the possible
roots. First the counts of edges inside what the roots reach are taken away,
which leaves the references from outside. Modules that still have one, and all
they reach, get their counts back; the others are freed.
-/

namespace BundleGraph.Edit

/-- Modules of a walk with the targets they still have to visit. -/
abbrev Trail := List (String × List String)

/-- Steps enough for a walk that enters no module twice. -/
def walkFuel (g : Graph) : Nat := 2 * (g.weight + 1)

/-- Walks along a trail. What happens at an edge may change the edit, and tells
whether the walk goes on from the target; a module without targets left is
left behind. -/
def follow (visit : String → String → Edit → Bool × Edit) (leave : String → Edit → Edit) :
    Nat → Trail → Edit → Edit
  | 0, _, e => e
  | _ + 1, [], e => e
  | fuel + 1, (path, []) :: trail, e => follow visit leave fuel trail (leave path e)
  | fuel + 1, (path, child :: rest) :: trail, e =>
    if e.graph.contains child then
      match visit path child e with
      | (true, e) =>
        follow visit leave fuel ((child, e.graph.targets child) :: (path, rest) :: trail) e
      | (false, e) => follow visit leave fuel ((path, rest) :: trail) e
    else follow visit leave fuel ((path, rest) :: trail) e

def followFrom (visit : String → String → Edit → Bool × Edit) (leave : String → Edit → Edit)
    (path : String) (e : Edit) : Edit :=
  follow visit leave (walkFuel e.graph) [(path, e.graph.targets path)] e

/-- Takes away the count of an edge, and goes on from a target that is not gray
yet. -/
def visitGray (path child : String) (e : Edit) : Bool × Edit :=
  let e := e.deleteReferrer child path
  if e.graph.color child = .gray then (false, e) else (true, e.setColor child .gray)

def markGray (e : Edit) (path : String) : Edit :=
  if e.graph.color path = .gray then e
  else (e.setColor path .gray).followFrom visitGray (fun _ => id) path

/-- Gives the count of an edge back, and goes on from a target that is not black
yet. -/
def visitBlack (path child : String) (e : Edit) : Bool × Edit :=
  let e := e.addReferrer child path
  if e.graph.color child = .black then (false, e) else (true, e.setColor child .black)

def markBlack (e : Edit) (path : String) : Edit :=
  (e.setColor path .black).followFrom visitBlack (fun _ => id) path

/-- A gray module that is referenced or an entry point turns black with all it
reaches; another one turns white, and its targets are to be visited. -/
def judge (e : Edit) (path : String) : Bool × Edit :=
  if e.graph.color path = .gray then
    if !e.graph.isUnreferenced path || e.graph.isEntry path then (false, e.markBlack path)
    else (true, e.setColor path .white)
  else (false, e)

def scan (e : Edit) (path : String) : Edit :=
  match e.judge path with
  | (true, e) => e.followFrom (fun _ child e => e.judge child) (fun _ => id) path
  | (false, e) => e

/-- White modules are freed, but not before their turn when they are roots. -/
def isCollectable (e : Edit) (path : String) : Bool :=
  e.graph.color path = .white && !e.graph.possibleRoots.contains path

def visitWhite (_ child : String) (e : Edit) : Bool × Edit :=
  if e.isCollectable child then (true, e.setColor child .black) else (false, e)

def collectWhite (e : Edit) (path : String) : Edit :=
  if e.isCollectable path then
    (e.setColor path .black).followFrom visitWhite (fun path e => e.free path) path
  else e

def dropRoot (e : Edit) (path : String) : Edit :=
  { e with graph := { e.graph with possibleRoots := e.graph.possibleRoots.erase path } }

/-- A purple root is marked gray with all it reaches. A root of another color is
dropped, and freed when it is black and unreferenced. -/
def markRoot (e : Edit) (path : String) : Edit :=
  if e.graph.contains path then
    match e.graph.color path with
    | .purple => e.markGray path
    | color =>
      let unreferenced := e.graph.isUnreferenced path
      let e := e.dropRoot path
      if color = .black && unreferenced && !e.graph.isEntry path then e.free path else e
  else e.dropRoot path

def collectRoot (e : Edit) (path : String) : Edit :=
  let e := e.dropRoot path
  if e.graph.contains path then e.collectWhite path else e

def collectCycles (e : Edit) : Edit :=
  let e := e.graph.possibleRoots.toList.foldl markRoot e
  let e := e.graph.possibleRoots.toList.foldl scan e
  e.graph.possibleRoots.toList.foldl collectRoot e

end BundleGraph.Edit
