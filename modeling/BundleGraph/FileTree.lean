import BundleGraph.Error
import BundleGraph.Text.Utf8
import Std.Data.TreeSet

/-!
# File trees

Files and directories in memory. A path is followed piece by piece from the
working directory, or from the root when it is absolute: every piece must be
looked up in a directory, and two dots lead to the parent.
-/

namespace BundleGraph

inductive FileError where
  | notFound
  | busy
  | exists
  | notDirectory
  | isDirectory
  | nameTooLong
  | nulInName
  deriving DecidableEq, Repr

namespace FileError

def message : FileError → String
  | notFound => "No such file or directory (os error 2)"
  | busy => "Device or resource busy (os error 16)"
  | «exists» => "File exists (os error 17)"
  | notDirectory => "Not a directory (os error 20)"
  | isDirectory => "Is a directory (os error 21)"
  | nameTooLong => "File name too long (os error 36)"
  | nulInName => "file name contained an unexpected NUL byte"

def toIo (e : FileError) : IoError := ⟨e.message, e = notFound⟩

end FileError

inductive FileNode where
  | file (content : Bytes)
  | directory (entries : List (String × FileNode))
  deriving Inhabited

namespace FileNode

abbrev Entries := List (String × FileNode)

def setEntry (name : String) (node : FileNode) : Entries → Entries
  | [] => [(name, node)]
  | (n, old) :: entries =>
    if n = name then (n, node) :: entries else (n, old) :: setEntry name node entries

def find? : FileNode → List String → Option FileNode
  | node, [] => some node
  | file _, _ :: _ => none
  | directory entries, name :: names =>
    match entries.lookup name with
    | some node => node.find? names
    | none => none

def insert : FileNode → List String → FileNode → FileNode
  | _, [], new => new
  | file content, _ :: _, _ => file content
  | directory entries, name :: names, new =>
    match entries.lookup name with
    | some node => directory (setEntry name (node.insert names new) entries)
    | none => if names.isEmpty then directory (setEntry name new entries) else directory entries

def remove : FileNode → List String → FileNode
  | node, [] => node
  | file content, _ :: _ => file content
  | directory entries, name :: names =>
    if names.isEmpty then directory (entries.filter (·.1 ≠ name))
    else
      match entries.lookup name with
      | some node => directory (setEntry name (node.remove names) entries)
      | none => directory entries

mutual
def files : FileNode → List (List String)
  | file _ => [[]]
  | directory entries => filesIn entries
def filesIn : Entries → List (List String)
  | [] => []
  | (name, node) :: entries => (files node).map (name :: ·) ++ filesIn entries
end

end FileNode

structure FileTree where
  root : FileNode
  /-- Where relative paths start. -/
  working : List String

namespace FileTree

/-- An empty working directory. -/
def empty : FileTree where
  root := .directory [("tmp", .directory []), ("work", .directory [])]
  working := ["work"]

/-- Where a path leads: to a node, or to a name that is free in a directory. -/
inductive Spot where
  | present (names : List String) (node : FileNode)
  | absent (names : List String)

/-- The longest name and the longest path, in bytes. -/
def longestName : Nat := 255

def longestPath : Nat := 4095

def byteLength (s : String) : Nat := (Utf8.ofString s).length

/-- Follows pieces from a place. Behind a free name only slashes may follow. -/
def follow (root : FileNode) (names : List String) : List String → Except FileError Spot
  | [] =>
    match root.find? names with
    | some node => .ok (.present names node)
    | none => .error .notFound
  | piece :: pieces =>
    match root.find? names with
    | none => .error .notFound
    | some (.file _) => .error .notDirectory
    | some (.directory _) =>
      if piece = "" ∨ piece = "." then follow root names pieces
      else if piece = ".." then follow root names.dropLast pieces
      else if longestName < byteLength piece then .error .nameTooLong
      else if (root.find? (names ++ [piece])).isSome then follow root (names ++ [piece]) pieces
      else if pieces.all (· = "") then .ok (.absent (names ++ [piece]))
      else .error .notFound

def pieces (path : String) : List String := (Text.splitOn '/' path.toList).map String.ofList

def spot (t : FileTree) (path : String) : Except FileError Spot :=
  if path.isEmpty then .error .notFound
  else if path.toList.contains '\x00' then .error .nulInName
  else if longestPath < byteLength path then .error .nameTooLong
  else follow t.root (if Path.isAbsolute path then [] else t.working) (pieces path)

/-- A path that cannot be followed exists as little as a missing one. -/
def contains (t : FileTree) (path : String) : Bool :=
  match t.spot path with
  | .ok (.present ..) => true
  | _ => false

def isDirectory (t : FileTree) (path : String) : Bool :=
  match t.spot path with
  | .ok (.present _ (.directory _)) => true
  | _ => false

def read (t : FileTree) (path : String) : Except FileError Bytes :=
  match t.spot path with
  | .ok (.present _ (.file content)) => .ok content
  | .ok (.present _ (.directory _)) => .error .isDirectory
  | .ok (.absent _) => .error .notFound
  | .error e => .error e

/-- The text of a file, which has to be well-formed. -/
def readText (t : FileTree) (path : String) : Except IoError (List Char) :=
  match t.read path with
  | .error e => .error e.toIo
  | .ok content =>
    match Utf8.decode? content with
    | some text => .ok text
    | none => .error ⟨"stream did not contain valid UTF-8", false⟩

def createDirectory (t : FileTree) (path : String) : Except FileError FileTree :=
  match t.spot path with
  | .ok (.present ..) => .error .exists
  | .ok (.absent names) => .ok { t with root := t.root.insert names (.directory []) }
  | .error e => .error e

/-- Creates a directory and the parents it lacks, the path being given by its
components in reverse. What was created stays when a later step fails. -/
def createReversed : List Component → FileTree → Except FileError Unit × FileTree
  | [], t => (.ok (), t)
  | last :: parents, t =>
    let path := Path.ofComponents (last :: parents).reverse
    let settle (t : FileTree) : Except FileError Unit × FileTree :=
      match t.createDirectory path with
      | .ok t => (.ok (), t)
      | .error e => (if t.isDirectory path then .ok () else .error e, t)
    match t.createDirectory path with
    | .error .notFound =>
      match createReversed parents t with
      | (.ok (), t) => settle t
      | (.error e, t) => (.error e, t)
    | _ => settle t

def createDirectories (t : FileTree) (path : String) : Except FileError Unit × FileTree :=
  createReversed (Path.components path).reverse t

def endsInSlash (path : String) : Bool := path.toList.getLast? = some '/'

/-- Puts a file in place of another one or of none. A path that ends in a slash
names no file, which fails with `slashed`. -/
def place (t : FileTree) (path : String) (content : Bytes) (slashed : FileError) :
    Except FileError FileTree :=
  let name := String.ofList (path.toList.reverse.dropWhile (· = '/')).reverse
  let name := if name.isEmpty && Path.isAbsolute path then "/" else name
  match t.spot name with
  | .error e => .error e
  | .ok (.present names node) =>
    if endsInSlash path then .error slashed
    else
      match node with
      | .directory _ => .error .isDirectory
      | .file _ => .ok { t with root := t.root.insert names (.file content) }
  | .ok (.absent names) =>
    if endsInSlash path then .error slashed
    else .ok { t with root := t.root.insert names (.file content) }

def write (t : FileTree) (path : String) (content : Bytes) : Except FileError FileTree :=
  t.place path content .isDirectory

/-- Moves a complete file to its place, so that no reader sees a part of it. -/
def replace (t : FileTree) (path : String) (content : Bytes) : Except FileError FileTree :=
  match (pieces path).getLast? with
  | some "." | some ".." => if t.isDirectory path then .error .busy else .error .notFound
  | _ => t.place path content .notDirectory

def remove (t : FileTree) (path : String) : FileTree :=
  match t.spot path with
  | .ok (.present names _) => { t with root := t.root.remove names }
  | _ => t

/-- The paths of the files below a directory, in order. -/
def filesBelow (t : FileTree) (path : String) : List String :=
  match t.spot path with
  | .ok (.present _ (.directory entries)) =>
    let paths := (FileNode.filesIn entries).map fun names =>
      Path.join path (String.intercalate "/" names)
    (Std.TreeSet.ofList paths compare).toList
  | _ => []

end FileTree

end BundleGraph
