import BundleGraph.Dependency
import BundleGraph.Path

/-!
# Transforms

A transformer turns the bytes of one file into the dependencies it declares
and the artifacts it contributes to the bundle. Its failures are normalised to
errors that name the file.
-/

namespace BundleGraph

open Json (Encode Decode encode decode?)

/-- One opaque result of a transform. -/
structure Artifact where
  type : String
  data : Json
  deriving Inhabited

namespace Artifact

instance : Encode Artifact where
  encode a := .object [("type", encode a.type), ("data", encode a.data)]

instance : Decode Artifact where
  decode? t := do
    let r ← t.record? ["type", "data"]
    return ⟨← r.required? "type", ← r.required? "data"⟩

end Artifact

namespace Transform

structure Result where
  dependencies : List Dependency
  output : List Artifact
  deriving Inhabited

namespace Result

instance : Encode Result where
  encode r := .object [("dependencies", encode r.dependencies), ("output", encode r.output)]

instance : Decode Result where
  decode? t := do
    let r ← t.record? ["dependencies", "output"]
    return ⟨← r.required? "dependencies", ← r.required? "output"⟩

end Result

inductive Target where
  | module
  | script
  | asset
  deriving DecidableEq, Repr

namespace Target

def text : Target → String
  | module => "module"
  | script => "script"
  | asset => "asset"

def ofText? : String → Option Target
  | "module" => some module
  | "script" => some script
  | "asset" => some asset
  | _ => none

instance : Encode Target := ⟨fun target => .string target.text⟩

instance : Decode Target := ⟨fun t => t.unitChoice?.bind ofText?⟩

end Target

/-- Options of a transform; all of them take part in the cache key. -/
structure Options where
  dev : Bool := false
  hot : Bool := false
  minify : Bool := false
  platform : Option String := none
  target : Target := .module
  inlineRequires : Bool := false
  custom : Json.Fields := []
  deriving Inhabited

namespace Options

instance : Encode Options where
  encode o := .object [("dev", encode o.dev), ("hot", encode o.hot), ("minify", encode o.minify),
    ("platform", encode o.platform), ("module_type", encode o.target),
    ("inline_requires", encode o.inlineRequires), ("custom", .object o.custom)]

instance : Decode Options where
  decode? t := do
    let r ← t.record?
      ["dev", "hot", "minify", "platform", "module_type", "inline_requires", "custom"]
    return {
      dev := ← r.default? "dev" false
      hot := ← r.default? "hot" false
      minify := ← r.default? "minify" false
      platform := ← r.default? "platform" none
      target := ← r.default? "module_type" .module
      inlineRequires := ← r.default? "inline_requires" false
      custom := ← r.orDefault? Json.decodeFields? "custom" [] }

end Options

/-- What a transformer sees besides the bytes. -/
structure Context where
  path : String
  localPath : String
  options : Options

/-- A failure as a transformer raises it. -/
inductive Failure where
  | syntaxError (message : String) (label : Option String) (line column : Option UInt32)
      (frame : Option String)
  | other (message : String) (stack : Option String)
  deriving DecidableEq, Repr

/-- A failure that names its file. -/
inductive Error where
  | syntaxError (file message : String) (line column : Option UInt32) (frame : Option String)
      (tag : String)
  | generic (file message : String) (stack : Option String)
  deriving DecidableEq, Repr

/-- The tag of every normalised syntax error. -/
def syntaxTag : String := "TransformError"

/-- Drops the last line, which is the frame that every worker's stack ends in. -/
def trimLastFrame (stack : String) : String :=
  String.ofList (Text.join '\n' (Text.lines stack.toList).dropLast)

/-- A syntax error is introduced by its label, and by the path unless its
message holds the path already; any other message follows the path. -/
def Failure.normalize (path : String) : Failure → Error
  | .syntaxError message label line column frame =>
    let label := label.getD "SyntaxError"
    let message :=
      if Text.containsText path.toList message.toList then label ++ ": " ++ message
      else label ++ " in " ++ path ++ ": " ++ message
    .syntaxError path message line column frame syntaxTag
  | .other message stack => .generic path (path ++ ": " ++ message) (stack.map trimLastFrame)

namespace Error

def file : Error → String
  | syntaxError file .. | generic file .. => file

def message : Error → String
  | syntaxError _ message .. | generic _ message _ => message

def isSyntax : Error → Bool
  | syntaxError .. => true
  | generic .. => false

theorem file_normalize (path : String) (f : Failure) : (f.normalize path).file = path := by
  cases f <;> rfl

instance : Encode Error where
  encode
    | syntaxError file message line column frame tag =>
      .object [("Syntax", .object [("file_path", encode file), ("message", encode message),
        ("line", encode line), ("column", encode column), ("code_frame", encode frame),
        ("type_tag", encode tag)])]
    | generic file message stack =>
      .object [("Generic", .object [("file_path", encode file), ("message", encode message),
        ("stack", encode stack)])]

/-- Reads an error whose content is an object, or a list if `lists` is set. -/
def read? (lists : Bool) (t : Json.Tree) : Option Error := do
  let (name, content) ← t.choice?
  let content ← content
  if !lists && content.isList then none
  match name with
  | "Syntax" => do
    let r ← content.record? ["file_path", "message", "line", "column", "code_frame", "type_tag"]
    return .syntaxError (← r.required? "file_path") (← r.required? "message")
      (← r.nullable? "line") (← r.nullable? "column") (← r.nullable? "code_frame")
      (← r.required? "type_tag")
  | "Generic" => do
    let r ← content.record? ["file_path", "message", "stack"]
    return .generic (← r.required? "file_path") (← r.required? "message") (← r.nullable? "stack")
  | _ => none

instance : Decode Error := ⟨read? true⟩

end Error

end Transform

namespace Transform

/-- How a call of a transformer ends. A panic may come without a message. -/
inductive Ending (α : Type) where
  | value (a : α)
  | failure (f : Failure)
  | panic (message : Option String)

namespace Ending

def map (f : α → β) : Ending α → Ending β
  | value a => value (f a)
  | failure e => failure e
  | panic message => panic message

/-- A panic counts as a failure. -/
def settled : Ending α → Except Failure α
  | value a => .ok a
  | failure f => .error f
  | panic message =>
    .error (.other ("transformer panicked: " ++ message.getD "unknown panic") none)

theorem eq_value_of_settled {e : Ending α} {a : α} (h : e.settled = .ok a) : e = .value a := by
  cases e <;> cases h
  rfl

theorem map_eq_value {f : α → β} {e : Ending α} {b : β} (h : e.map f = .value b) :
    ∃ a, e = .value a ∧ f a = b := by
  cases e with
  | value a =>
    cases h
    exact ⟨a, rfl, rfl⟩
  | failure => cases h
  | panic => cases h

end Ending

end Transform

/-- The content a transformer may read besides the bytes is its context, so its
result is a function of both. -/
abbrev Transformer := Bytes → Transform.Context → Transform.Ending Transform.Result

/-- A transform result with the digest of the bytes it was computed from. -/
structure LoadedFile where
  result : Transform.Result
  digest : String
  deriving Inhabited

end BundleGraph
