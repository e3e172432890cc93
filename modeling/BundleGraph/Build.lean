import BundleGraph.Loader
import BundleGraph.Module
import BundleGraph.Preorder
import BundleGraph.Resolution

/-!
# One-shot builds

Discovers every module that is reachable from the entry points. Each
dependency is a task that resolves to a path and loads it; the edge of a
dependency goes into the slot of its index, so that the order of completion
does not show. The modules are laid out at the end.
-/

namespace BundleGraph.Build

structure Options where
  platform : Option String := none
  /-- Paths that are targets of edges, but are never loaded. -/
  skip : OrderedSet String := ∅

/-- A dependency of a module, or of the root, by its index. -/
structure Task where
  origin : Option String
  index : Nat
  dependency : Dependency

/-- Where a dependency leads; without a file when the module is skipped or
known. -/
structure Arrival where
  path : String
  file : Option LoadedFile

/-- A loaded module, and a slot for the edge of each of its dependencies. -/
structure Discovered where
  file : LoadedFile
  slots : List (Option Edge)

structure State (σ : Type) where
  memo : LoadMemo σ
  modules : Std.TreeMap String Discovered := ∅
  entries : List (Option Edge)
  requested : OrderedSet String := ∅
  processed : Nat := 0
  /-- Reports of processed and requested modules, the latest first. -/
  reports : List (Nat × Nat) := []

variable {σ : Type}

def start (resolve : Resolver) (loader : Loader σ) (options : Options) (task : Task) (s : State σ) :
    Started BuildError (Option Arrival) × State σ :=
  match resolve.path? task.origin task.dependency options.platform with
  | .error e => (.ready (.error (.resolution e)), s)
  | .ok none => (.ready (.ok none), s)
  | .ok (some path) =>
    if options.skip.contains path || s.modules.contains path then
      (.ready (.ok (some ⟨path, none⟩)), s)
    else
      let (started, memo) := s.memo.load loader path
      (started.map fun file => some ⟨path, some file⟩,
        { s with memo, requested := s.requested.insert path })

def recordEdge (s : State σ) (task : Task) (edge : Edge) : State σ :=
  match task.origin with
  | none => { s with entries := s.entries.set task.index (some edge) }
  | some origin =>
    match s.modules[origin]? with
    | some found =>
      let slots := found.slots.set task.index (some edge)
      { s with modules := s.modules.insert origin { found with slots } }
    | none => s

/-- A task for every dependency, up to the first whose key came before. -/
def tasks (path : String) : Nat → List String → List Dependency → Except BuildError (List Task)
  | _, _, [] => .ok []
  | index, keys, d :: ds =>
    if d.key ∈ keys then .error (.duplicateKey path d.key)
    else (tasks path (index + 1) (d.key :: keys) ds).map (⟨some path, index, d⟩ :: ·)

def accumulate (task : Task) (arrival : Option Arrival) (s : State σ) :
    Except BuildError (List Task) × State σ :=
  match arrival with
  | none => (.ok [], s)
  | some ⟨path, file⟩ =>
    let s := recordEdge s task ⟨path, task.dependency⟩
    match file with
    | none => (.ok [], s)
    | some file =>
      if s.modules.contains path then (.ok [], s)
      else
        let s := { s with memo := s.memo.settle path file }
        let dependencies := file.result.dependencies
        match tasks path 0 [] dependencies with
        | .error e => (.error e, s)
        | .ok next =>
          let processed := s.processed + 1
          (.ok next, { s with
            processed
            reports := (processed, s.requested.size) :: s.reports
            modules := s.modules.insert path ⟨file, dependencies.map fun _ => none⟩ })

def accumulator (resolve : Resolver) (loader : Loader σ) (options : Options) :
    Accumulator (State σ) Task (Option Arrival) BuildError where
  start := start resolve loader options
  accumulate := accumulate

def edges (found : Discovered) : List Edge := found.slots.filterMap id

def referrers (modules : Std.TreeMap String Discovered) : Std.TreeMap String (CountingSet String) :=
  modules.foldl (fun inverse origin found =>
    (edges found).foldl (fun inverse e =>
      inverse.insert e.target ((inverse.getD e.target ∅).add origin)) inverse) ∅

/-- Lays out the modules in depth-first pre-order from the entries. -/
def collect (entries : List (Option Edge)) (modules : Std.TreeMap String Discovered) :
    BuildResult :=
  let starts := (entries.filterMap id).map (·.target)
  let inverse := referrers modules
  let order := preorder (modules.map fun _ found => (edges found).map (·.target)) starts
  let module? (path : String) : Option Module := (modules[path]?).map fun found =>
    { path
      edges := edges found
      inverse := inverse.getD path ∅
      result := found.file.result
      digest := found.file.digest }
  { modules := order.filterMap module?
    entries := (OrderedSet.ofList starts).toList.filterMap module? }

def seeds (entries : List String) : List Task :=
  entries.zipIdx.map fun (entry, index) => ⟨none, index, .ofName entry⟩

/-- Builds from entry points. The first failure to resolve or load ends the
build; the state tells what was loaded. -/
def run (resolve : Resolver) (loader : Loader σ) (options : Options) (pace : Pace)
    (entries : List String) (host : σ) : Except BuildError BuildResult × State σ :=
  let initial : State σ := { memo := { host }, entries := entries.map fun _ => none }
  let queue := Queue.ofList (seeds entries)
  match Queue.drain (accumulator resolve loader options) pace queue initial with
  | (some (.ok ()), s) => (.ok (collect s.entries s.modules), s)
  | (some (.error e), s) => (.error e, s)
  | (none, s) => (.error .budgetSpent, s)

end BundleGraph.Build
