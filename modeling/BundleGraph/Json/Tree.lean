import BundleGraph.Json
import BundleGraph.Text

/-!
# Reading JSON text

A text is read into a tree that keeps the order and the repetition of fields.
Text that is well-formed but has no value becomes `unreadable`: a number too
large for 64-bit floating point, a string with an unpaired surrogate escape, or
a list or object more than 127 levels deep. A reader that passes such a part
over does not fail.
-/

namespace BundleGraph.Json

inductive Tree where
  | null
  | bool (b : Bool)
  | int (n : Int)
  | float (x : Binary64)
  | string (s : String)
  | array (items : List Tree)
  | object (fields : List (Option String × Tree))
  | unreadable
  deriving Inhabited

namespace Tree

def isBlank (c : Char) : Bool := c = ' ' || c = '\n' || c = '\t' || c = '\r'

def skipBlanks (cs : List Char) : List Char := cs.dropWhile isBlank

def isDigit (c : Char) : Bool := '0' ≤ c && c ≤ '9'

def digit (c : Char) : Nat := c.toNat - '0'.toNat

/-- Appends decimal digits to a significand as long as it fits 64 bits, and
gives back the digits that did not fit. -/
def appendDigits (significand : Nat) : List Char → Nat × List Char
  | [] => (significand, [])
  | c :: cs =>
    let next := 10 * significand + digit c
    if next < UInt64.size then appendDigits next cs else (significand, c :: cs)

/-- Multiplies by a power of ten up to `10 ^ 308` in one step, and takes larger
divisors in portions; none when the result is too large. -/
def scaleByTen : Nat → Binary64 → Int → Option Binary64
  | 0, x, _ => some x
  | portions + 1, x, exponent =>
    if exponent.natAbs ≤ 308 then
      let power := Binary64.ofNat (Nat.pow 10 exponent.natAbs)
      if 0 ≤ exponent then
        let product := x.mul power
        if product.isInfinite then none else some product
      else some (x.div power)
    else if x.isZero then some x
    else if 0 ≤ exponent then none
    else scaleByTen portions (x.div (Binary64.ofNat (Nat.pow 10 308))) (exponent + 308)

/-- Digits and a power of ten as floating point: the digits are rounded first
and scaled then. Four portions take any 64-bit number to zero. -/
def scaled (negative : Bool) (significand : Nat) (exponent : Int) : Tree :=
  match scaleByTen 4 (Binary64.ofNat significand) exponent with
  | some x => float (if negative then x.neg else x)
  | none => unreadable

/-- A number written without point and exponent is an integer when it fits 64
bits, signed or unsigned; minus zero is floating point. -/
def whole (negative : Bool) (digits : List Char) : Tree :=
  match appendDigits 0 digits with
  | (n, []) =>
    if !negative then int n
    else if 0 < n ∧ n ≤ Nat.pow 2 63 then int (-n)
    else float (Binary64.ofNat n).neg
  | (n, dropped) => scaled negative n dropped.length

def fractional (negative : Bool) (digits decimals : List Char) (exponent : Int) : Tree :=
  let (n, dropped) := appendDigits 0 digits
  let (m, ignored) := appendDigits n decimals
  scaled negative m (exponent + dropped.length - (decimals.length - ignored.length))

/-- Digits behind a point, at least one. -/
def decimals? : List Char → Option (List Char × List Char)
  | '.' :: cs => if (cs.takeWhile isDigit).isEmpty then none else some (cs.span isDigit)
  | cs => some ([], cs)

def exponentDigits? (negative : Bool) (cs : List Char) : Option (Option Int × List Char) :=
  let (ds, rest) := cs.span isDigit
  if ds.isEmpty then none
  else
    let n : Int := ds.foldl (fun n c => 10 * n + digit c) (0 : Nat)
    some (some (if negative then -n else n), rest)

def exponent? : List Char → Option (Option Int × List Char)
  | c :: cs =>
    if c = 'e' ∨ c = 'E' then
      match cs with
      | '+' :: rest => exponentDigits? false rest
      | '-' :: rest => exponentDigits? true rest
      | rest => exponentDigits? false rest
    else some (none, c :: cs)
  | [] => some (none, [])

def number? (text : List Char) : Option (Tree × List Char) :=
  let (negative, cs) := match text with
    | '-' :: rest => (true, rest)
    | rest => (false, rest)
  let (digits, cs) := cs.span isDigit
  if digits.isEmpty || (digits.head? = some '0' && 1 < digits.length) then none
  else do
    let (decimals, cs) ← decimals? cs
    let (exponent, cs) ← exponent? cs
    if decimals.isEmpty && exponent.isNone then some (whole negative digits, cs)
    else some (fractional negative digits decimals (exponent.getD 0), cs)

def hexDigit? (c : Char) : Option Nat := Bytes.hexValue? c

def hex4? (a b c d : Char) : Option Nat := do
  return ((← hexDigit? a) * 16 + (← hexDigit? b)) * 256 + (← hexDigit? c) * 16 + (← hexDigit? d)

def shortEscape? : Char → Option Char
  | '"' => some '"'
  | '\\' => some '\\'
  | '/' => some '/'
  | 'b' => some '\x08'
  | 'f' => some '\x0C'
  | 'n' => some '\n'
  | 'r' => some '\r'
  | 't' => some '\t'
  | _ => none

def isHighSurrogate (n : Nat) : Bool := 0xD800 ≤ n && n < 0xDC00

def isLowSurrogate (n : Nat) : Bool := 0xDC00 ≤ n && n < 0xE000

/-- The units of a quoted text up to its end, one number a character or a
`\u` escape; none when the text is no string. -/
def units? : List Char → Option (List (Nat × Bool) × List Char)
  | [] => none
  | '"' :: rest => some ([], rest)
  | '\\' :: 'u' :: a :: b :: c :: d :: rest => do
    let n ← hex4? a b c d
    let (us, rest) ← units? rest
    return ((n, true) :: us, rest)
  | '\\' :: c :: rest => do
    let e ← shortEscape? c
    let (us, rest) ← units? rest
    return ((e.toNat, false) :: us, rest)
  | c :: rest =>
    if c = '\\' ∨ c.toNat < 0x20 then none
    else do
      let (us, rest) ← units? rest
      return ((c.toNat, false) :: us, rest)

/-- Pairs the surrogates among the escaped units; none when one stands alone. -/
def pairSurrogates? : List (Nat × Bool) → Option (List Char)
  | [] => some []
  | (n, true) :: (m, true) :: us =>
    if isHighSurrogate n then
      if isLowSurrogate m then
        (pairSurrogates? us).map (Char.ofNat (0x10000 + (n - 0xD800) * 0x400 + (m - 0xDC00)) :: ·)
      else none
    else if isLowSurrogate n then none
    else (pairSurrogates? ((m, true) :: us)).map (Char.ofNat n :: ·)
  | (n, escaped) :: us =>
    if escaped && (isHighSurrogate n || isLowSurrogate n) then none
    else (pairSurrogates? us).map (Char.ofNat n :: ·)

def string? (cs : List Char) : Option (Option String × List Char) := do
  let (us, rest) ← units? cs
  return ((pairSurrogates? us).map String.ofList, rest)

/-- The tree of a list or object that is `room` levels from the limit. -/
def nested (room : Nat) (tree : Tree) : Tree := if room = 0 then unreadable else tree

mutual
/-- Reads a value of which at most `room` levels have a value of their own.
Every step takes a character, so the length of the text is enough fuel. -/
def value? : Nat → Nat → List Char → Option (Tree × List Char)
  | 0, _, _ => none
  | fuel + 1, room, cs =>
    match skipBlanks cs with
    | 'n' :: 'u' :: 'l' :: 'l' :: rest => some (null, rest)
    | 't' :: 'r' :: 'u' :: 'e' :: rest => some (bool true, rest)
    | 'f' :: 'a' :: 'l' :: 's' :: 'e' :: rest => some (bool false, rest)
    | '"' :: rest => do
      let (s, rest) ← string? rest
      return (s.elim unreadable string, rest)
    | '[' :: rest =>
      match skipBlanks rest with
      | ']' :: rest => some (nested room (array []), rest)
      | rest => do
        let (items, rest) ← items? fuel (room - 1) rest
        return (nested room (array items), rest)
    | '\x7b' :: rest =>
      match skipBlanks rest with
      | '\x7d' :: rest => some (nested room (object []), rest)
      | rest => do
        let (fields, rest) ← fields? fuel (room - 1) rest
        return (nested room (object fields), rest)
    | cs => number? cs
/-- Items up to the closing bracket, at least one. -/
def items? : Nat → Nat → List Char → Option (List Tree × List Char)
  | 0, _, _ => none
  | fuel + 1, room, cs => do
    let (v, rest) ← value? fuel room cs
    match skipBlanks rest with
    | ']' :: rest => return ([v], rest)
    | ',' :: rest => do
      let (vs, rest) ← items? fuel room rest
      return (v :: vs, rest)
    | _ => none
/-- Fields up to the closing brace, at least one. -/
def fields? : Nat → Nat → List Char → Option (List (Option String × Tree) × List Char)
  | 0, _, _ => none
  | fuel + 1, room, cs =>
    match skipBlanks cs with
    | '"' :: rest => do
      let (k, rest) ← string? rest
      match skipBlanks rest with
      | ':' :: rest => do
        let (v, rest) ← value? fuel room rest
        match skipBlanks rest with
        | '\x7d' :: rest => return ([(k, v)], rest)
        | ',' :: rest => do
          let (fs, rest) ← fields? fuel room rest
          return ((k, v) :: fs, rest)
        | _ => none
      | _ => none
    | _ => none
end

def levelLimit : Nat := 127

def ofText? (cs : List Char) : Option Tree := do
  let (tree, rest) ← value? (cs.length + 1) levelLimit cs
  if (skipBlanks rest).isEmpty then some tree else none

mutual
def toJson? : Tree → Option Json
  | null => some .null
  | bool b => some (.bool b)
  | int n => some (.int n)
  | float x => some (.float x)
  | string s => some (.string s)
  | array items => (itemValues? items).map .array
  | object fields => (fieldValues? fields).map .ofFields
  | unreadable => none
def itemValues? : List Tree → Option (List Json)
  | [] => some []
  | t :: ts => do
    let v ← toJson? t
    let vs ← itemValues? ts
    return v :: vs
def fieldValues? : List (Option String × Tree) → Option Fields
  | [] => some []
  | (k, t) :: fs => do
    let k ← k
    let v ← toJson? t
    let vs ← fieldValues? fs
    return (k, v) :: vs
end

mutual
def ofJson : Json → Tree
  | .null => null
  | .bool b => bool b
  | .int n => int n
  | .float x => float x
  | .string s => string s
  | .array items => array (ofItems items)
  | .object fields => object (ofFields fields)
def ofItems : List Json → List Tree
  | [] => []
  | v :: vs => ofJson v :: ofItems vs
def ofFields : Fields → List (Option String × Tree)
  | [] => []
  | (k, v) :: fs => (some k, ofJson v) :: ofFields fs
end

end Tree

def ofText? (cs : List Char) : Option Json := do
  let tree ← Tree.ofText? cs
  tree.toJson?

end BundleGraph.Json
