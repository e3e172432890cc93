import BundleGraph.Json.Tree
import BundleGraph.Text.Utf8
import BundleGraph.Transform

/-!
# Sources made of import lines

A small source language. A line whose first word is `import`, `lazy`, `weak`
or `prefetch` declares the dependency named by its second word; a line that
starts with an exclamation mark makes the transform fail. All other lines mean
nothing.
-/

namespace BundleGraph.ImportLines

open Json (encode)

inductive Verdict where
  | declares (dependencies : List Dependency)
  | fails (failure : Transform.Failure)
  | panics (text : String)

def kindOf? : String → Option DependencyKind
  | "import" => some .sync
  | "lazy" => some .deferred
  | "weak" => some .weak
  | "prefetch" => some .prefetch
  | _ => none

/-- What follows a directive: nothing, or the text behind one space. -/
def argument? (directive : String) (line : List Char) : Option (List Char) :=
  match Path.dropFront? directive.toList line with
  | some [] => some []
  | some (' ' :: rest) => some rest
  | _ => none

def fieldText? (v : Json) (key : String) : Option String :=
  match v.get? key with
  | some (.string s) => some s
  | _ => none

def fieldWord? (v : Json) (key : String) : Option UInt32 :=
  match v.get? key with
  | some (.int n) => if 0 ≤ n ∧ n < UInt32.size then some (UInt32.ofNat n.toNat) else none
  | _ => none

/-- The object behind a directive; text that is no JSON counts as empty. -/
def details (text : List Char) : Json := (Json.ofText? text).getD (.object [])

def syntaxFailure (text : List Char) : Transform.Failure :=
  let v := details text
  .syntaxError ((fieldText? v "message").getD "") (fieldText? v "type") (fieldWord? v "line")
    (fieldWord? v "column") (fieldText? v "frame")

def otherFailure (text : List Char) : Transform.Failure :=
  let v := details text
  .other ((fieldText? v "message").getD "") (fieldText? v "stack")

/-- A location written as line and column with a colon between. -/
def location? (text : List Char) : Option SourceLocation :=
  match Text.splitOn ':' text with
  | line :: column@(_ :: _) => do
    let l ← Text.word? 32 line
    let c ← Text.word? 32 (Text.join ':' column)
    return ⟨UInt32.ofNat l, UInt32.ofNat c⟩
  | _ => none

/-- Further words make a dependency optional, set its key or add a location. -/
def refine (d : Dependency) (word : List Char) : Dependency :=
  match word with
  | ['?'] => { d with optional := true }
  | 'k' :: 'e' :: 'y' :: '=' :: key => { d with key := String.ofList key }
  | '@' :: place =>
    match location? place with
    | some l => { d with locations := d.locations ++ [l] }
    | none => d
  | _ => d

def dependency? (line : List Char) : Option Dependency :=
  match (Text.splitOn ' ' line).filter (!·.isEmpty) with
  | first :: name :: more => do
    let kind ← kindOf? (String.ofList first)
    let key := if kind.isAsync then first ++ ':' :: name else name
    return more.foldl refine { name := String.ofList name, key := String.ofList key, kind }
  | _ => none

def readLines : List (List Char) → List Dependency → Verdict
  | [], found => .declares found.reverse
  | line :: lines, found =>
    match argument? "!syntax" line, argument? "!other" line, argument? "!panic" line with
    | some text, _, _ => .fails (syntaxFailure text)
    | _, some text, _ => .fails (otherFailure text)
    | _, _, some text => .panics (String.ofList text)
    | _, _, _ =>
      match dependency? line with
      | some d => readLines lines (d :: found)
      | none => readLines lines found

def read (source : Bytes) : Verdict :=
  readLines (Text.splitOn '\n' (Utf8.decodeLenient source)) []

/-- The message of a panic; one word stands for a panic without any. -/
def panicMessage? : String → Option String
  | "static" => some "static panic"
  | "any" => none
  | text => some text

/-- The transformer of the language. Its one artifact tells what it was given. -/
def transform : Transformer := fun source context =>
  match read source with
  | .declares dependencies =>
    .value ⟨dependencies, [⟨"js/module", Json.canonical (.object [("path", encode context.path),
      ("local", encode context.localPath), ("bytes", encode source.length),
      ("options", encode context.options)])⟩]⟩
  | .fails failure => .failure failure
  | .panics text => .panic (panicMessage? text)

end BundleGraph.ImportLines
