import BundleGraph.Cache
import BundleGraph.FileTree
import BundleGraph.Gzip.Stored

/-!
# Stores in memory and on disk

A depot holds the contents of several stores. A memory store keeps the first
value of a key; a store of files keeps one file for a key, compressed by a given
codec if that is wanted, and replaces it as a whole. A faulty store is a memory
store that fails on demand and counts its calls.
-/

namespace BundleGraph

abbrev Entries := List (Bytes × Transform.Result)

inductive Shelf where
  | memory (entries : Entries)
  | files (root : String) (gzip : Bool)
  | faulty (entries : Entries) (gets sets : Nat) (failGet failSet : Option String)
  deriving Inhabited

namespace Shelf

def name : Shelf → String
  | memory _ => "memory"
  | files .. => "file"
  | faulty .. => "store"

/-- Keeps the first value of a key. -/
def addEntry (entries : Entries) (key : CacheKey) (value : Transform.Result) : Entries :=
  if (entries.lookup key.toBytes).isSome then entries else entries ++ [(key.toBytes, value)]

/-- The content of the file of an entry. -/
def encodeEntry (gzip : Bool) (codec : Gzip.Codec) (value : Transform.Result) : Bytes :=
  let text := Utf8.ofString (Json.encode value).text
  if gzip then codec.compress text else text

def decodeText (bytes : Bytes) : Except BuildError Transform.Result :=
  match (Utf8.decode? bytes).bind Json.decodeText? with
  | some value => .ok value
  | none => .error .malformedEntry

def decodeEntry (gzip : Bool) (codec : Gzip.Codec) (bytes : Bytes) :
    Except BuildError Transform.Result :=
  if gzip then
    match codec.decompress bytes with
    | .ok text => decodeText text
    | .error e => .error (.io ⟨e.message, false⟩)
  else decodeText bytes

def get (codec : Gzip.Codec) (tree : FileTree) (key : CacheKey) :
    Shelf → Except BuildError (Option Transform.Result) × Shelf
  | memory entries => (.ok (entries.lookup key.toBytes), memory entries)
  | files root gzip =>
    (match tree.read (key.path root) with
      | .ok bytes => (decodeEntry gzip codec bytes).map some
      | .error .notFound => .ok none
      | .error e => .error (.io e.toIo),
      files root gzip)
  | faulty entries gets sets failGet failSet =>
    (match failGet with
      | some reason => .error (.cacheRead reason)
      | none => .ok (entries.lookup key.toBytes),
      faulty entries (gets + 1) sets failGet failSet)

def writeEntry (path : String) (content : Bytes) (tree : FileTree) :
    Except BuildError Unit × FileTree :=
  match Path.parent? path with
  | none => (.error (.cacheWrite ("no parent for " ++ path)), tree)
  | some parent =>
    match tree.createDirectories parent with
    | (.error e, tree) => (.error (.io e.toIo), tree)
    | (.ok (), tree) =>
      match tree.replace path content with
      | .ok tree => (.ok (), tree)
      | .error e => (.error (.io e.toIo), tree)

def set (codec : Gzip.Codec) (tree : FileTree) (key : CacheKey) (value : Transform.Result) :
    Shelf → Except BuildError Unit × FileTree × Shelf
  | memory entries => (.ok (), tree, memory (addEntry entries key value))
  | files root gzip =>
    let (result, tree) := writeEntry (key.path root) (encodeEntry gzip codec value) tree
    (result, tree, files root gzip)
  | faulty entries gets sets failGet failSet =>
    match failSet with
    | some reason =>
      (.error (.cacheWrite reason), tree, faulty entries gets (sets + 1) failGet failSet)
    | none => (.ok (), tree, faulty (addEntry entries key value) gets (sets + 1) failGet failSet)

/-- Sets with what a faulty store fails. -/
def withFailures (failGet failSet : Option String) : Shelf → Shelf
  | faulty entries gets sets _ _ => faulty entries gets sets failGet failSet
  | shelf => shelf

end Shelf

structure Depot where
  tree : FileTree := .empty
  shelves : List Shelf := []

namespace Depot

def store (index : Nat) (name : String) (codec : Gzip.Codec := .stored) : Store Depot where
  name := name
  get key d :=
    match d.shelves[index]? with
    | none => (.ok none, d)
    | some shelf =>
      let (result, shelf) := shelf.get codec d.tree key
      (result, { d with shelves := d.shelves.set index shelf })
  set key value d :=
    match d.shelves[index]? with
    | none => (.ok (), d)
    | some shelf =>
      let (result, tree, shelf) := shelf.set codec d.tree key value
      (result, { tree, shelves := d.shelves.set index shelf })

def setFailures (index : Nat) (failGet failSet : Option String) (d : Depot) : Depot :=
  { d with shelves := d.shelves.modify index (Shelf.withFailures failGet failSet) }

/-- The stores in look-up order. -/
def stores (d : Depot) (codec : Gzip.Codec := .stored) : List (Store Depot) :=
  d.shelves.zipIdx.map fun (shelf, index) => store index shelf.name codec

end Depot

end BundleGraph
