import BundleGraph.Error
import BundleGraph.Json.Codec

/-!
# Configuration

What a build session can be told: roots, the identity of the transformer, how
many workers, which stores and how changes are buffered. Every field has a
default, and some values that can be read are refused by `Config.fault?`.
-/

namespace BundleGraph

open Json (Encode Decode encode decode? Tree)

/-- The parts of the machine that defaults depend on. -/
structure Machine where
  temporary : String := "/tmp"
  processors : UInt64 := 1

/-- Which transformer makes the results; all of it takes part in cache keys. -/
structure TransformerConfig where
  name : String := "default"
  options : Json.Fields := []
  deriving Inhabited

inductive StoreConfig where
  | memory
  | file (root : String) (gzip : Bool)
  deriving DecidableEq, Repr

structure WatcherConfig where
  debounceMillis : UInt64 := 35
  extensions : List String := ["js", "jsx", "mjs", "cjs", "ts", "tsx", "json"]
  channelCapacity : UInt64 := 1024

structure LoggingConfig where
  level : String := "info"
  format : String := "compact"

structure Config where
  projectRoot : String := "."
  cacheVersion : String := "1"
  transformer : TransformerConfig := {}
  maxWorkers : UInt64
  /-- In look-up order. -/
  stores : List StoreConfig
  watcher : WatcherConfig := {}
  logging : LoggingConfig := {}

/-- How configurations are read: on which machine, and whether a list may hold
more items than the record it stands for has fields. -/
structure ConfigFormat where
  machine : Machine := {}
  longLists : Bool := false

def ConfigFormat.record? (f : ConfigFormat) (names : List String) (t : Tree) : Option Json.Record :=
  (if f.longLists then t.clip names.length else t).record? names

namespace TransformerConfig

instance : Encode TransformerConfig where
  encode c := .object [("name", encode c.name), ("options", .object c.options)]

def read? (f : ConfigFormat) (t : Tree) : Option TransformerConfig := do
  let r ← f.record? ["name", "options"] t
  return ⟨← r.default? "name" "default", ← r.orDefault? Json.decodeFields? "options" []⟩

instance : Decode TransformerConfig := ⟨read? {}⟩

end TransformerConfig

namespace StoreConfig

instance : Encode StoreConfig where
  encode
    | memory => .object [("type", .string "memory")]
    | file root gzip =>
      .object [("type", .string "file"), ("root", encode root), ("gzip", encode gzip)]

def file? (t : Tree) : Option StoreConfig := do
  let r ← t.record? ["root", "gzip"]
  return file (← r.required? "root") (← r.default? "gzip" false)

/-- The kind stands among the fields, once, or in front of a list. -/
instance : Decode StoreConfig where
  decode?
    | .array (.string kind :: items) =>
      match kind with
      | "memory" => if items.isEmpty then some memory else none
      | "file" => file? (.array items)
      | _ => none
    | t@(.object fields) => do
      let _ ← t.toJson?
      match fields.filter (·.1 = some "type") with
      | [(_, .string "memory")] => some memory
      | [(_, .string "file")] => file? t
      | _ => none
    | _ => none

/-- The store of a session that names none. -/
def standard (m : Machine) : List StoreConfig :=
  [file (Path.join m.temporary "modgraph-cache") false]

end StoreConfig

namespace WatcherConfig

instance : Encode WatcherConfig where
  encode c := .object [("debounce_ms", encode c.debounceMillis),
    ("extensions", encode c.extensions), ("channel_capacity", encode c.channelCapacity)]

def read? (f : ConfigFormat) (t : Tree) : Option WatcherConfig := do
  let r ← f.record? ["debounce_ms", "extensions", "channel_capacity"] t
  let c : WatcherConfig := {}
  return ⟨← r.default? "debounce_ms" c.debounceMillis, ← r.default? "extensions" c.extensions,
    ← r.default? "channel_capacity" c.channelCapacity⟩

instance : Decode WatcherConfig := ⟨read? {}⟩

end WatcherConfig

namespace LoggingConfig

instance : Encode LoggingConfig where
  encode c := .object [("level", encode c.level), ("format", encode c.format)]

def read? (f : ConfigFormat) (t : Tree) : Option LoggingConfig := do
  let r ← f.record? ["level", "format"] t
  let c : LoggingConfig := {}
  return ⟨← r.default? "level" c.level, ← r.default? "format" c.format⟩

end LoggingConfig

namespace Config

def standard (m : Machine) : Config where
  maxWorkers := max m.processors 1
  stores := StoreConfig.standard m

instance : Encode Config where
  encode c := .object [("project_root", encode c.projectRoot),
    ("cache_version", encode c.cacheVersion), ("transformer", encode c.transformer),
    ("workers", .object [("max_workers", encode c.maxWorkers)]),
    ("cache", .object [("stores", encode c.stores)]), ("watcher", encode c.watcher),
    ("logging", encode c.logging)]

/-- A record of one field. -/
def readField? [Decode α] (f : ConfigFormat) (name : String) (default : α) (t : Tree) :
    Option α := do
  (← f.record? [name] t).default? name default

def read? (f : ConfigFormat) (t : Tree) : Option Config := do
  let r ← f.record? ["project_root", "cache_version", "transformer", "workers", "cache", "watcher",
    "logging"] t
  let c := standard f.machine
  return {
    projectRoot := ← r.default? "project_root" c.projectRoot
    cacheVersion := ← r.default? "cache_version" c.cacheVersion
    transformer := ← r.orDefault? (TransformerConfig.read? f) "transformer" c.transformer
    maxWorkers := ← r.orDefault? (readField? f "max_workers" c.maxWorkers) "workers" c.maxWorkers
    stores := ← r.orDefault? (readField? f "stores" c.stores) "cache" c.stores
    watcher := ← r.orDefault? (WatcherConfig.read? f) "watcher" c.watcher
    logging := ← r.orDefault? (LoggingConfig.read? f) "logging" c.logging }

instance : Decode Config := ⟨read? {}⟩

/-! ## Validation -/

inductive Fault where
  | noWorkers
  | blankVersion
  | storeWithoutRoot
  | noCapacity
  | unknownLevel (level : String)
  | unknownFormat (format : String)
  deriving DecidableEq, Repr

def levels : List String := ["trace", "debug", "info", "warn", "error"]

def formats : List String := ["pretty", "compact"]

namespace Fault

def message : Fault → String
  | noWorkers => "workers.max_workers must be at least 1"
  | blankVersion => "cache_version must not be empty"
  | storeWithoutRoot => "file cache store requires a root directory"
  | noCapacity => "watcher.channel_capacity must be at least 1"
  | unknownLevel level =>
    "Invalid log level: " ++ level ++ ". Must be one of: " ++ String.intercalate ", " levels
  | unknownFormat format =>
    "Invalid log format: " ++ format ++ ". Must be one of: " ++ String.intercalate ", " formats

end Fault

def fault? (c : Config) : Option Fault :=
  if c.maxWorkers = 0 then some .noWorkers
  else if c.cacheVersion.toList.all Text.isBlank then some .blankVersion
  else if c.stores.any fun
      | .file root _ => root.isEmpty
      | .memory => false then some .storeWithoutRoot
  else if c.watcher.channelCapacity = 0 then some .noCapacity
  else if !levels.contains c.logging.level then some (.unknownLevel c.logging.level)
  else if !formats.contains c.logging.format then some (.unknownFormat c.logging.format)
  else none

theorem fault?_standard : (standard {}).fault? = none := by decide

inductive Error where
  | notFound (path : String)
  | unreadable (reason : String)
  | malformed (reason : String)
  | invalid (reason : String)
  deriving DecidableEq, Repr

namespace Error

def message : Error → String
  | notFound path => "Config file not found: " ++ path
  | unreadable reason => "Failed to read config: " ++ reason
  | malformed reason => "Failed to parse config: " ++ reason
  | invalid reason => "Invalid configuration: " ++ reason

def toBuild (e : Error) : BuildError := .config e.message

end Error

end Config

end BundleGraph
