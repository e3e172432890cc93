import BundleGraph.Cache
import BundleGraph.Cache.Metrics
import BundleGraph.Config
import BundleGraph.Farm
import BundleGraph.Fingerprint

/-!
# Transform caches

A transform cache answers from its stores what the farm has transformed
before. The stem of a key stands for everything but the content of the file:
version, root, transformer, options and local path. Caller and worker read the
file on their own, so a result is kept under the digest of the bytes that the
worker saw.
-/

namespace BundleGraph

/-- A cache over a farm, with a host on which its stores live. -/
structure TransformCache (σ : Type) where
  root : String
  /-- Stands for the version, the root and the transformer. -/
  baseHash : String
  stores : List (Store σ)
  farm : Farm
  host : σ
  layers : Cache := {}
  metrics : CacheMetrics := {}
  /-- The failures of stores, in order. -/
  failures : List StoreFailure := []

namespace TransformCache

variable {σ : Type}

def baseHashOf (version root : String) (transformer : TransformerConfig) : String :=
  (fingerprint (Json.object [("cache_version", .string version), ("project_root", .string root),
    ("transformer", Json.encode transformer)])).toHex

/-- Opens a cache over stores that may be in use already. -/
def start (version root : String) (transformer : TransformerConfig) (stores : List (Store σ))
    (farm : Farm) (host : σ) : TransformCache σ where
  root := root
  baseHash := baseHashOf version root transformer
  stores := stores
  farm := farm
  host := host

/-- What the stem of a key is the fingerprint of. -/
def stemValue (baseHash : String) (options : Transform.Options) (localPath : String) : Json :=
  .array [.string baseHash, Json.encode options, .string localPath]

/-- The part of a key that is known before the file is read. -/
def stem (c : TransformCache σ) (path : String) (options : Transform.Options) : Bytes :=
  fingerprint (stemValue c.baseHash options (Path.localPath c.root path))

def record (c : TransformCache σ) (e : CacheEvent) : TransformCache σ :=
  { c with metrics := c.metrics.record e }

def report (c : TransformCache σ) (f : StoreFailure) : TransformCache σ :=
  { c.record (if f.isRead then .readFailure else .writeFailure) with failures := c.failures ++ [f] }

def put (c : TransformCache σ) (key : CacheKey) (result : Transform.Result) : TransformCache σ :=
  { c with layers := c.layers.set c.stores key result }

/-- Has the farm transform the file, and keeps the result under the digest of
what the worker read in `tree`. -/
def refill (tree : FileTree) (path : String) (options : Transform.Options) (key : CacheKey)
    (c : TransformCache σ) : Except BuildError LoadedFile × TransformCache σ :=
  match c.farm.transform tree path options with
  | (.error e, farm) => (.error e, { c with farm })
  | (.ok file, farm) =>
    (.ok file, { c with farm }.put (key.withDigest file.digest) file.result)

/-- The result for content that the caller has read. -/
def get (tree : FileTree) (path : String) (content : Bytes) (options : Transform.Options)
    (c : TransformCache σ) : Except BuildError LoadedFile × TransformCache σ :=
  let key : CacheKey := ⟨c.stem path options, contentDigest content⟩
  let (found, layers, host) := c.layers.get c.stores key c.host
  let c := { c with layers, host }
  match found with
  | .value _ result => (.ok ⟨result, key.digest⟩, (c.record .hit).put key result)
  | .failure f => (.error f.error, c.report f)
  | .nothing => (c.record .miss).refill tree path options key

/-- Reads a file in `seen` and gets its result, while the worker reads in
`tree`. -/
def transformFile (seen tree : FileTree) (path : String) (options : Transform.Options)
    (c : TransformCache σ) : Except BuildError LoadedFile × TransformCache σ :=
  match seen.read path with
  | .error e => (.error (.io e.toIo), c)
  | .ok content => c.get tree path content options

def complete (index : Nat) (c : TransformCache σ) : TransformCache σ :=
  let (failures, layers, host) := c.layers.complete c.stores index c.host
  failures.foldl report { c with layers, host }

def flush (c : TransformCache σ) : TransformCache σ :=
  let (failures, layers, host) := c.layers.flush c.stores c.host
  failures.foldl report { c with layers, host }

end TransformCache

end BundleGraph
