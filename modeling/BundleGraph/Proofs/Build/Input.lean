import BundleGraph.Build

/-!
# What a build is about

A build is about its entries, a resolver, and a file for every path that can be
loaded. From these alone `Input.Reached` tells which paths a build comes to,
`Input.edges` where their dependencies lead, and `Input.Buildable` whether
everything that is needed resolves and loads. Skipped paths are come to, but
nothing is asked of them: neither a load nor what they depend on.
-/

namespace BundleGraph

namespace Build

structure Input where
  resolve : Resolver
  /-- What comes of a load, whenever it is made. -/
  files : String → Except BuildError LoadedFile
  options : Options := {}
  entries : List String

namespace Input

variable {σ : Type} (i : Input)

/-- A loader that delivers the files, in whatever state it is. -/
def Loads (loader : Loader σ) : Prop :=
  ∀ path host, (loader.load path host).1.outcome = i.files path

def skips (path : String) : Bool := i.options.skip.contains path

/-- The dependencies of the root are the entries, those of a path are what its
file declares. -/
def dependencies : Option String → List Dependency
  | none => i.entries.map .ofName
  | some path =>
    match i.files path with
    | .ok file => file.result.dependencies
    | .error _ => []

def path? (origin : Option String) (d : Dependency) : Except ResolutionError (Option String) :=
  i.resolve.path? origin d i.options.platform

def edge? (origin : Option String) (d : Dependency) : Option Edge :=
  match i.resolve origin d i.options.platform with
  | .ok target => some ⟨target, d⟩
  | .error _ => none

def edges (origin : Option String) : List Edge := (i.dependencies origin).filterMap (i.edge? origin)

def targets (origin : Option String) : List String := (i.edges origin).map (·.target)

/-- The paths that the entries lead to, and from there the dependencies of
paths that are not skipped. -/
inductive Reached : String → Prop
  | entry {path} (h : path ∈ i.targets none) : Reached path
  | dependency {origin path} (h : Reached origin) (hskip : i.skips origin = false)
      (hpath : path ∈ i.targets (some origin)) : Reached path

/-- The paths of the modules that are built. -/
def Included (path : String) : Prop := i.Reached path ∧ i.skips path = false

/-- Everything that is needed resolves and loads. -/
structure Buildable : Prop where
  entries : ∀ entry ∈ i.entries,
    ∃ path, i.resolve none (.ofName entry) i.options.platform = .ok path
  loads : ∀ path, i.Included path → ∃ file, i.files path = .ok file
  keys : ∀ path, i.Included path → ((i.dependencies (some path)).map (·.key)).Nodup
  resolves : ∀ path, i.Included path → ∀ d ∈ i.dependencies (some path),
    (∃ target, i.resolve (some path) d i.options.platform = .ok target) ∨
      d.optional ∧ ∃ e, i.resolve (some path) d i.options.platform = .error e ∧ e.isNotFound

variable {i : Input} {origin : Option String} {path : String} {d : Dependency}

theorem path?_eq_some : i.path? origin d = .ok (some path) ↔
    i.resolve origin d i.options.platform = .ok path :=
  Resolver.path?_eq_some

theorem edge?_of_path? {target : Option String} (h : i.path? origin d = .ok target) :
    i.edge? origin d = target.map (⟨·, d⟩) := by
  unfold edge?
  cases target with
  | some path => rw [path?_eq_some.mp h]; rfl
  | none =>
    obtain ⟨_, e, he, _⟩ := Resolver.path?_eq_none.mp h
    rw [he]
    rfl

/-- Where edges start from: the root, and the paths that are built. -/
def Origin (i : Input) : Option String → Prop
  | none => True
  | some path => i.Included path

theorem Origin.reached (h : i.Origin origin) (hpath : path ∈ i.targets origin) :
    i.Reached path := by
  cases origin with
  | none => exact .entry hpath
  | some origin => exact .dependency h.1 h.2 hpath

theorem Buildable.path?_ok (h : i.Buildable) (horigin : i.Origin origin)
    (hd : d ∈ i.dependencies origin) : ∃ target, i.path? origin d = .ok target := by
  cases origin with
  | none =>
    obtain ⟨entry, hentry, rfl⟩ := List.mem_map.mp hd
    obtain ⟨path, hpath⟩ := h.entries entry hentry
    exact ⟨some path, path?_eq_some.mpr hpath⟩
  | some origin =>
    rcases h.resolves origin horigin d hd with ⟨path, hpath⟩ | hnone
    · exact ⟨some path, path?_eq_some.mpr hpath⟩
    · exact ⟨none, Resolver.path?_eq_none.mpr hnone⟩

theorem mem_targets_of_path? (hd : d ∈ i.dependencies origin)
    (hpath : i.path? origin d = .ok (some path)) : path ∈ i.targets origin :=
  List.mem_map.mpr ⟨⟨path, d⟩, List.mem_filterMap.mpr ⟨d, hd, edge?_of_path? hpath⟩, rfl⟩

end Input

end Build

end BundleGraph
