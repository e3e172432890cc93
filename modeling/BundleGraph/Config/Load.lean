import BundleGraph.Config
import BundleGraph.FileTree
import BundleGraph.Toml

/-!
# Loading configurations

A configuration comes from the project's file, else from the user's, else from
defaults. Environment variables override it, and only then is it validated.
-/

namespace BundleGraph

abbrev Environment := String → Option String

namespace Environment

/-- One processor is assumed. -/
def machine (env : Environment) : Machine := { temporary := (env "TMPDIR").getD "/tmp" }

def home? (env : Environment) : Option String := (env "HOME").filter (!·.isEmpty)

end Environment

namespace Config

structure Loaded where
  config : Config
  source : Option String

/-- A number of workers that cannot be read is passed over. -/
def override (env : Environment) (c : Config) : Config where
  projectRoot := (env "MODGRAPH_PROJECT_ROOT").getD c.projectRoot
  cacheVersion := c.cacheVersion
  transformer := c.transformer
  maxWorkers :=
    match (env "MODGRAPH_MAX_WORKERS").bind fun n => Text.word? 64 n.toList with
    | some n => .ofNat n
    | none => c.maxWorkers
  stores :=
    match env "MODGRAPH_CACHE_DIR" with
    | some root => [.file root false]
    | none => c.stores
  watcher := c.watcher
  logging := { c.logging with level := (env "MODGRAPH_LOG_LEVEL").getD c.logging.level }

def settle (env : Environment) (source : Option String) (c : Config) : Except Error Loaded :=
  let c := c.override env
  match c.fault? with
  | some fault => .error (.invalid fault.message)
  | none => .ok ⟨c, source⟩

def readFile (env : Environment) (tree : FileTree) (path : String) : Except Error Config :=
  match tree.readText path with
  | .error e => .error (.unreadable e.message)
  | .ok text =>
    match (Toml.ofText? text).bind (read? ⟨env.machine, true⟩) with
    | some c => .ok c
    | none => .error (.malformed path)

def ofFile (env : Environment) (tree : FileTree) (path : String) : Except Error Loaded :=
  if tree.contains path then readFile env tree path >>= settle env (some path)
  else .error (.notFound path)

/-- The files that may hold the configuration of a project, the first that
exists being the one. -/
def candidates (env : Environment) (project : String) : List String :=
  Path.join project ".modgraph.toml" ::
    (env.home?.map fun home => Path.join (Path.join home ".modgraph") "config.toml").toList

def load (env : Environment) (tree : FileTree) (project : String) : Except Error Loaded :=
  match (candidates env project).find? tree.contains with
  | some path => readFile env tree path >>= settle env (some path)
  | none => settle env none (standard env.machine)

/-! ## Writing the defaults -/

def storeLines : StoreConfig → List String
  | .memory => ["[[cache.stores]]", "type = \"memory\""]
  | .file root gzip =>
    ["[[cache.stores]]", "type = \"file\"", "root = " ++ Toml.quote root,
      "gzip = " ++ if gzip then "true" else "false"]

/-- The lines of a configuration whose transformer has no options. -/
def lines (c : Config) : List String :=
  ["project_root = " ++ Toml.quote c.projectRoot, "cache_version = " ++ Toml.quote c.cacheVersion,
    "[transformer]", "name = " ++ Toml.quote c.transformer.name,
    "[workers]", "max_workers = " ++ toString c.maxWorkers.toNat] ++
  c.stores.flatMap storeLines ++
  ["[watcher]", "debounce_ms = " ++ toString c.watcher.debounceMillis.toNat,
    "extensions = [" ++
      String.intercalate ", " (c.watcher.extensions.map Toml.quote) ++ "]",
    "channel_capacity = " ++ toString c.watcher.channelCapacity.toNat,
    "[logging]", "level = " ++ Toml.quote c.logging.level, "format = " ++ Toml.quote c.logging.format]

/-- Writes a file with the defaults, after the directories it lacks. -/
def create (env : Environment) (path : String) (tree : FileTree) : Except Error Unit × FileTree :=
  let text := (standard env.machine).lines.map (· ++ "\n")
  let (made, tree) := match Path.parent? path with
    | some parent => tree.createDirectories parent
    | none => (.ok (), tree)
  match made with
  | .error e => (.error (.unreadable e.message), tree)
  | .ok () =>
    match tree.write path (Utf8.ofString (String.join text)) with
    | .error e => (.error (.unreadable e.message), tree)
    | .ok tree => (.ok (), tree)

end Config

end BundleGraph
