import BundleGraph.Farm.Unit
import BundleGraph.FileTree
import BundleGraph.Routing

/-!
# Worker farms

A farm transforms files on its units, a path always on the same one, or in
place when it has no units. It counts the transforms it was asked for and logs
the calls of the transformer.
-/

namespace BundleGraph

/-- The code of every unit: read a file, digest it, transform it. -/
structure Worker where
  transformer : Transformer
  root : String

def Worker.work (w : Worker) (tree : FileTree) : Work := fun path options =>
  match tree.read path with
  | .error e => .failure (.other e.message none)
  | .ok source =>
    (w.transformer source ⟨path, Path.localPath w.root path, options⟩).map
      (⟨·, contentDigest source⟩)

structure Farm where
  worker : Worker
  units : List WorkerUnit := []
  killed : Bool := false
  dispatched : Nat := 0
  /-- Calls of the transformer by local path and unit, the latest first. -/
  calls : List (String × Option Nat) := []

namespace Farm

/-- One worker needs no unit of its own. -/
def start (worker : Worker) (workers : Nat) : Farm where
  worker := worker
  units := if 1 < workers then (List.range workers).map ({ id := · }) else []

def routeId (u : WorkerUnit) : UInt64 := .ofNat u.id

def unitFor (f : Farm) (path : String) : Option WorkerUnit :=
  Routing.pickByKey routeId f.units (Utf8.ofString path)

def leastBusy (f : Farm) : Option WorkerUnit :=
  Routing.leastPending (fun u => .ofNat u.pending.toNat) f.units

def setUnit (f : Farm) (u : WorkerUnit) : Farm :=
  { f with units := f.units.map fun v => if v.id = u.id then u else v }

def request (tree : FileTree) (job : Job) (kind? : Reply → Option α) (u : WorkerUnit) (f : Farm) :
    Except BuildError α × Farm :=
  let (result, u) := u.request (f.worker.work tree) job kind?
  (result.mapError fun e => .worker (e.message u.id), f.setUnit u)

def deadFarm : BuildError := .worker "worker farm has been killed"

/-- Logs a call, which is made for every file that can be read. -/
def logCall (tree : FileTree) (path : String) (unit : Option Nat) (f : Farm) : Farm :=
  match tree.read path with
  | .ok _ => { f with calls := (Path.localPath f.worker.root path, unit) :: f.calls }
  | .error _ => f

/-- The outcome of a transform by the unit of the path, or in place. -/
def perform (tree : FileTree) (path : String) (options : Transform.Options) (f : Farm) :
    Except BuildError (Except Transform.Failure LoadedFile) × Farm :=
  match f.unitFor path with
  | none => (.ok (f.worker.work tree path options).settled, f.logCall tree path none)
  | some u =>
    (f.logCall tree path (some u.id)).request tree (.transform path options) Reply.outcome? u

/-- Transforms a file as it is when the worker reads it. -/
def transform (tree : FileTree) (path : String) (options : Transform.Options) (f : Farm) :
    Except BuildError LoadedFile × Farm :=
  if f.killed then (.error deadFarm, f)
  else
    match perform tree path options { f with dispatched := f.dispatched + 1 } with
    | (.ok (.ok file), f) => (.ok file, f)
    | (.ok (.error e), f) => (.error (.transform (e.normalize path)), f)
    | (.error e, f) => (.error e, f)

/-- Asks the unit with the fewest jobs for its number. -/
def ping (tree : FileTree) (f : Farm) : Except BuildError Nat × Farm :=
  if f.killed then (.error deadFarm, f)
  else
    match f.leastBusy with
    | none => (.ok 0, f)
    | some u => f.request tree .ping Reply.unit? u

/-- No unit takes jobs any more; queued ones are still answered. -/
def kill (f : Farm) : Farm :=
  { f with killed := true, units := f.units.map fun u => (u.step .shutdown).getD u }

end Farm

end BundleGraph
