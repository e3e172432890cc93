import BundleGraph.Toml.Scalar

/-!
# TOML documents

A document is a sequence of headers and assignments. Their order builds nested
tables: a table may be opened once, keys with dots make tables on the way, and
a table between doubled brackets is a new item of a list.
-/

namespace BundleGraph.Toml

open Json (Tree)

/-! ## Characters and lines -/

/-- Control characters other than the tab are not allowed anywhere. -/
def isPlain (c : Char) : Bool := c = '\t' || (0x20 ≤ c.toNat && c.toNat ≠ 0x7F)

def skipSpace (cs : List Char) : List Char := cs.dropWhile fun c => c = ' ' || c = '\t'

/-- What follows a line end. -/
def newline? : List Char → Option (List Char)
  | '\n' :: cs => some cs
  | '\r' :: '\n' :: cs => some cs
  | _ => none

def skipComment : List Char → List Char
  | '#' :: cs => cs.dropWhile isPlain
  | cs => cs

/-- What follows the rest of a line, which must be blank or a comment. -/
def endOfLine? (cs : List Char) : Option (List Char) :=
  match skipComment (skipSpace cs) with
  | [] => some []
  | cs => newline? cs

/-- Skips blanks, comments and line ends. -/
def skipLines : Nat → List Char → List Char
  | 0, cs => cs
  | fuel + 1, cs =>
    match newline? (skipComment (skipSpace cs)) with
    | some rest => skipLines fuel rest
    | none => skipComment (skipSpace cs)

/-! ## Strings and keys -/

def scalarChar? (digits : List Char) : Option Char :=
  if digits.all fun c => (Bytes.hexValue? c).isSome then
    let n := natOf 16 digits
    if n.isValidChar then some (Char.ofNat n) else none
  else none

/-- The character of an escape, behind the backslash. -/
def escape? : List Char → Option (Char × List Char)
  | 'b' :: cs => some ('\x08', cs)
  | 't' :: cs => some ('\t', cs)
  | 'n' :: cs => some ('\n', cs)
  | 'f' :: cs => some ('\x0C', cs)
  | 'r' :: cs => some ('\r', cs)
  | '"' :: cs => some ('"', cs)
  | '\\' :: cs => some ('\\', cs)
  | 'u' :: cs =>
    if cs.length < 4 then none else (scalarChar? (cs.take 4)).map (·, cs.drop 4)
  | 'U' :: cs =>
    if cs.length < 8 then none else (scalarChar? (cs.take 8)).map (·, cs.drop 8)
  | _ => none

def basic? : Nat → List Char → Option (List Char × List Char)
  | 0, _ | _, [] => none
  | _ + 1, '"' :: cs => some ([], cs)
  | fuel + 1, '\\' :: cs => do
    let (c, cs) ← escape? cs
    let (text, cs) ← basic? fuel cs
    return (c :: text, cs)
  | fuel + 1, c :: cs =>
    if isPlain c then (basic? fuel cs).map fun (text, cs) => (c :: text, cs) else none

def literal? (cs : List Char) : Option (List Char × List Char) :=
  let text := cs.takeWhile (· ≠ '\'')
  match cs.dropWhile (· ≠ '\'') with
  | _ :: cs => if text.all isPlain then some (text, cs) else none
  | [] => none

/-- The end of a text between three quotes: up to two more belong to the text. -/
def closing? (quote : Char) (cs : List Char) : Option (List Char × List Char) :=
  let count := (cs.takeWhile (· = quote)).length
  if count < 3 then none
  else
    let kept := min (count - 3) 2
    some (List.replicate kept quote, cs.drop (kept + 3))

def skipBlankLines (cs : List Char) : List Char :=
  cs.dropWhile fun c => c = ' ' || c = '\t' || c = '\n' || c = '\r'

def longBasic? : Nat → List Char → Option (List Char × List Char)
  | 0, _ => none
  | fuel + 1, cs =>
    match closing? '"' cs with
    | some closed => some closed
    | none =>
      match cs with
      | [] => none
      | '\\' :: rest =>
        match newline? (skipSpace rest) with
        | some rest => longBasic? fuel (skipBlankLines rest)
        | none => do
          let (c, rest) ← escape? rest
          let (text, rest) ← longBasic? fuel rest
          return (c :: text, rest)
      | c :: rest =>
        match newline? (c :: rest) with
        | some rest => (longBasic? fuel rest).map fun (text, cs) => ('\n' :: text, cs)
        | none =>
          if isPlain c then (longBasic? fuel rest).map fun (text, cs) => (c :: text, cs) else none

def longLiteral? : Nat → List Char → Option (List Char × List Char)
  | 0, _ => none
  | fuel + 1, cs =>
    match closing? '\'' cs with
    | some closed => some closed
    | none =>
      match newline? cs, cs with
      | some rest, _ => (longLiteral? fuel rest).map fun (text, cs) => ('\n' :: text, cs)
      | none, c :: rest =>
        if isPlain c then (longLiteral? fuel rest).map fun (text, cs) => (c :: text, cs) else none
      | none, [] => none

/-- A line end directly behind the opening quotes does not count. -/
def afterOpening (cs : List Char) : List Char := (newline? cs).getD cs

def string? : List Char → Option (List Char × List Char)
  | '"' :: '"' :: '"' :: cs => longBasic? (cs.length + 1) (afterOpening cs)
  | '"' :: cs => basic? (cs.length + 1) cs
  | '\'' :: '\'' :: '\'' :: cs => longLiteral? (cs.length + 1) (afterOpening cs)
  | '\'' :: cs => literal? cs
  | _ => none

def isBare (c : Char) : Bool := c.isAlphanum || c = '_' || c = '-'

def simpleKey? : List Char → Option (String × List Char)
  | '"' :: cs => (basic? (cs.length + 1) cs).map fun (text, cs) => (String.ofList text, cs)
  | '\'' :: cs => (literal? cs).map fun (text, cs) => (String.ofList text, cs)
  | cs =>
    let text := cs.takeWhile isBare
    if text.isEmpty then none else some (String.ofList text, cs.dropWhile isBare)

/-- Simple keys with dots between, as the path to a last key. -/
def key? : Nat → List Char → Option ((List String × String) × List Char)
  | 0, _ => none
  | fuel + 1, cs => do
    let (first, cs) ← simpleKey? (skipSpace cs)
    match skipSpace cs with
    | '.' :: cs => do
      let ((path, last), cs) ← key? fuel cs
      return ((first :: path, last), cs)
    | cs => return (([], first), cs)

/-! ## Tables -/

/-- How a table came about: on the way to another header, on the way to a key,
or by its own header. -/
inductive Origin where
  | passed
  | dotted
  | opened
  deriving DecidableEq, Repr

inductive Item where
  | value (tree : Tree)
  | table (origin : Origin) (entries : List (String × Item))
  /-- A list of tables in front of its last one. -/
  | tables (front : List (List (String × Item))) (last : List (String × Item))

abbrev Items := List (String × Item)

namespace Items

def set (key : String) (item : Item) : Items → Items
  | [] => [(key, item)]
  | (k, old) :: items =>
    if k = key then (k, item) :: items else (k, old) :: set key item items

/-- Assigns a value below a path of keys. The table it goes to was made by
such a path, and none on the way was opened by a header. -/
def assign (value : Tree) (key : String) : List String → Items → Option Items
  | [], items => if (items.lookup key).isSome then none else some (set key (.value value) items)
  | first :: path, items =>
    match items.lookup first with
    | none => (assign value key path []).map fun sub => set first (.table .dotted sub) items
    | some (.table origin sub) =>
      if origin = .dotted ∨ (origin = .passed ∧ path ≠ []) then
        (assign value key path sub).map fun sub => set first (.table origin sub) items
      else none
    | some (.tables front last) =>
      if path = [] then none
      else (assign value key path last).map fun last => set first (.tables front last) items
    | some (.value _) => none

/-- Changes the table at a path of headers; a list of tables stands for its
last one. -/
def descend (change : Items → Option Items) : List String → Items → Option Items
  | [], items => change items
  | first :: path, items =>
    match items.lookup first with
    | none => (descend change path []).map fun sub => set first (.table .passed sub) items
    | some (.table origin sub) =>
      (descend change path sub).map fun sub => set first (.table origin sub) items
    | some (.tables front last) =>
      (descend change path last).map fun last => set first (.tables front last) items
    | some (.value _) => none

/-- Opens a table that is absent, or was only passed so far. -/
def openTable (key : String) (items : Items) : Option Items :=
  match items.lookup key with
  | none => some (set key (.table .opened []) items)
  | some (.table .passed sub) => some (set key (.table .opened sub) items)
  | _ => none

/-- Adds an empty table to a list of tables. -/
def addTable (key : String) (items : Items) : Option Items :=
  match items.lookup key with
  | none => some (set key (.tables [] []) items)
  | some (.tables front last) => some (set key (.tables (front ++ [last]) []) items)
  | _ => none

end Items

mutual
def Item.tree : Item → Tree
  | .value tree => tree
  | .table _ items => .object (Item.fields items)
  | .tables front last => .array (Item.objects front ++ [.object (Item.fields last)])
def Item.fields : List (String × Item) → List (Option String × Tree)
  | [] => []
  | (key, item) :: items => (some key, item.tree) :: Item.fields items
def Item.objects : List (List (String × Item)) → List Tree
  | [] => []
  | items :: rest => .object (Item.fields items) :: Item.objects rest
end

/-! ## Values -/

/-- How deep lists and inline tables may be nested. -/
def depthLimit : Nat := 80

def endsScalar (c : Char) : Bool :=
  c = ' ' || c = '\t' || c = '\n' || c = '\r' || c = ',' || c = ']' || c = '\x7d' || c = '#' ||
    c = '[' || c = '\x7b' || c = '=' || c = '"' || c = '\''

/-- The text of a scalar; a date may go on behind one space with a time. -/
def scalarText (cs : List Char) : List Char × List Char :=
  let text := cs.takeWhile (!endsScalar ·)
  let rest := cs.dropWhile (!endsScalar ·)
  match date? text, rest with
  | some (_, []), ' ' :: c :: more =>
    if isDigit c then
      (text ++ ' ' :: (c :: more).takeWhile (!endsScalar ·), (c :: more).dropWhile (!endsScalar ·))
    else (text, rest)
  | _, _ => (text, rest)

mutual
/-- Reads a value with so many levels of nesting left. -/
def value? : Nat → Nat → List Char → Option (Tree × List Char)
  | 0, _, _ => none
  | fuel + 1, room, cs =>
    match cs with
    | '"' :: _ | '\'' :: _ => (string? cs).map fun (text, cs) => (.string (String.ofList text), cs)
    | '[' :: cs =>
      if room = 0 then none
      else (list? fuel (room - 1) cs).map fun (items, cs) => (.array items, cs)
    | '\x7b' :: cs =>
      if room = 0 then none
      else
        match skipSpace cs with
        | '\x7d' :: cs => some (.object [], cs)
        | cs => (inline? fuel (room - 1) [] cs).map fun (items, cs) =>
          (.object (Item.fields items), cs)
    | cs => do
      let (text, cs) := scalarText cs
      return (← scalar? text, cs)
/-- Items up to the closing bracket; a comma may stand in front of it. -/
def list? : Nat → Nat → List Char → Option (List Tree × List Char)
  | 0, _, _ => none
  | fuel + 1, room, cs =>
    match skipLines (cs.length + 1) cs with
    | ']' :: cs => some ([], cs)
    | cs => do
      let (item, cs) ← value? fuel room cs
      match skipLines (cs.length + 1) cs with
      | ',' :: cs => do
        let (items, cs) ← list? fuel room cs
        return (item :: items, cs)
      | ']' :: cs => return ([item], cs)
      | _ => none
/-- Assignments on one line up to the closing brace, at least one. -/
def inline? : Nat → Nat → Items → List Char → Option (Items × List Char)
  | 0, _, _, _ => none
  | fuel + 1, room, items, cs => do
    let ((path, key), cs) ← key? (cs.length + 1) cs
    let '=' :: cs := cs | none
    let (value, cs) ← value? fuel room (skipSpace cs)
    let items ← Items.assign value key path items
    match skipSpace cs with
    | ',' :: cs => inline? fuel room items cs
    | '\x7d' :: cs => return (items, cs)
    | _ => none
end

/-! ## Documents -/

structure State where
  items : Items := []
  /-- The header whose table the assignments go to. -/
  header : List String := []

def header? (cs : List Char) (s : State) : Option (State × List Char) := do
  match cs with
  | '[' :: cs => do
    let ((path, key), cs) ← key? (cs.length + 1) cs
    let ']' :: ']' :: cs := cs | none
    return ({ items := ← s.items.descend (Items.addTable key) path, header := path ++ [key] }, cs)
  | cs => do
    let ((path, key), cs) ← key? (cs.length + 1) cs
    let ']' :: cs := cs | none
    return ({ items := ← s.items.descend (Items.openTable key) path, header := path ++ [key] }, cs)

def assignment? (cs : List Char) (s : State) : Option (State × List Char) := do
  let ((path, key), cs) ← key? (cs.length + 1) cs
  let '=' :: cs := cs | none
  let (value, cs) ← value? (cs.length + 1) depthLimit (skipSpace cs)
  return ({ s with items := ← s.items.descend (Items.assign value key path) s.header }, cs)

def document? : Nat → List Char → State → Option State
  | 0, _, _ => none
  | fuel + 1, cs, s =>
    match skipLines (cs.length + 1) cs with
    | [] => some s
    | '[' :: cs => do
      let (s, cs) ← header? cs s
      document? fuel (← endOfLine? cs) s
    | cs => do
      let (s, cs) ← assignment? cs s
      document? fuel (← endOfLine? cs) s

/-- The tree of a document, which may begin with a byte order mark. -/
def ofText? (text : List Char) : Option Tree :=
  let cs := match text with
    | '\uFEFF' :: cs => cs
    | cs => cs
  (document? (cs.length + 1) cs {}).map fun s => .object (Item.fields s.items)

end BundleGraph.Toml
