import BundleGraph.Build
import BundleGraph.Cache.Depot
import BundleGraph.DeltaSession
import BundleGraph.TransformCache

/-!
# Bundlers

A bundler loads modules through a transform cache. It builds once, or keeps
graphs that follow the changes of their files. Graphs are numbered in the
order in which they are created.
-/

namespace BundleGraph

/-- A reference is a path itself; the file of the platform wins over it. -/
def FileTree.resolver (t : FileTree) : Resolver := fun origin d platform =>
  let plain := if t.contains d.name then .ok d.name else .error { origin, reference := d.name }
  match platform with
  | none => plain
  | some p =>
    let special := d.name ++ "." ++ p
    if t.contains special then .ok special else plain

def Depot.ofConfig (tree : FileTree) (stores : List StoreConfig) : Depot where
  tree := tree
  shelves := stores.map fun
    | .memory => .memory []
    | .file root gzip => .files root gzip

/-- Files are read where the stores are. -/
abbrev DepotCache := TransformCache Depot

namespace DepotCache

/-- Transforms a file that does not change meanwhile. -/
def transformFile (path : String) (options : Transform.Options) (c : DepotCache) :
    Except BuildError LoadedFile × DepotCache :=
  TransformCache.transformFile c.host.tree c.host.tree path options c

def loader (options : Transform.Options) : Loader DepotCache where
  load path c :=
    let (outcome, c) := DepotCache.transformFile path options c
    (⟨outcome, 0⟩, c)

end DepotCache

structure Bundler where
  cache : DepotCache
  sessions : List (Nat × DeltaSession) := []
  created : Nat := 0

namespace Bundler

def ofConfig (transformer : Transformer) (config : Config) (tree : FileTree) : Bundler :=
  let depot := Depot.ofConfig tree config.stores
  let farm := Farm.start ⟨transformer, config.projectRoot⟩ config.maxWorkers.toNat
  { cache :=
      .start config.cacheVersion config.projectRoot config.transformer depot.stores farm depot }

def resolver (b : Bundler) : Resolver := b.cache.host.tree.resolver

/-- Everything reachable from entry points. -/
def build (entries : List String) (options : Transform.Options) (pace : Pace) (b : Bundler) :
    Except BuildError BuildResult × Bundler :=
  let (result, s) := Build.run b.resolver (DepotCache.loader options)
    { platform := options.platform } pace entries b.cache
  (result, { b with cache := s.memo.host })

/-- Nothing is built before the first delta. -/
def create (entries : List String) (options : Transform.Options) (b : Bundler)
    (channel : ChangeChannel) : Nat × Bundler × ChangeChannel :=
  let (session, channel) := DeltaSession.start entries options channel
  (b.created,
    { b with sessions := b.sessions ++ [(b.created, session)], created := b.created + 1 }, channel)

def session? (b : Bundler) (graph : Nat) : Option DeltaSession := b.sessions.lookup graph

def unknownGraph (graph : Nat) : BuildError := .graphNotFound ("#" ++ toString graph)

def setSession (b : Bundler) (graph : Nat) (session : DeltaSession) : Bundler :=
  { b with sessions := b.sessions.map fun (n, s) => (n, if n = graph then session else s) }

def delta (graph : Nat) (reset shallow : Bool) (pace : Pace) (b : Bundler)
    (channel : ChangeChannel) : Except BuildError Delta × Bundler × ChangeChannel :=
  match b.session? graph with
  | none => (.error (unknownGraph graph), b, channel)
  | some session =>
    let ctx : Traversal.Context DepotCache :=
      { resolve := b.resolver, loader := DepotCache.loader session.graph.options, shallow, pace }
    let (attempt, session, channel) := session.delta ctx reset channel b.cache
    (attempt.outcome.map (·.1), { b with cache := attempt.host }.setSession graph session, channel)

/-- Forgets a graph, which stops listening. -/
def endGraph (graph : Nat) (b : Bundler) (channel : ChangeChannel) :
    Except BuildError Unit × Bundler × ChangeChannel :=
  match b.session? graph with
  | none => (.error (unknownGraph graph), b, channel)
  | some session =>
    (.ok (), { b with sessions := b.sessions.filter (·.1 ≠ graph) }, (session.finish channel).2)

def flush (b : Bundler) : Bundler := { b with cache := b.cache.flush }

/-- Forgets all graphs, performs the pending writes and stops the farm. -/
def finish (b : Bundler) (channel : ChangeChannel) : Bundler × ChangeChannel :=
  let cache := b.cache.flush
  ({ b with sessions := [], cache := { cache with farm := cache.farm.kill } },
    b.sessions.foldl (fun channel (_, session) => (session.finish channel).2) channel)

end Bundler

end BundleGraph
