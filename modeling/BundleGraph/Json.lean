import BundleGraph.Binary64.Shortest
import Std.Data.TreeMap.Lemmas

/-!
# JSON values and their canonical text

Objects are lists of fields. `canonical` sorts the fields of every object by
key, the last of equal keys counting; `text` writes a value without blanks and
escapes only quotes, backslashes and control characters.
-/

namespace BundleGraph

inductive Json where
  | null
  | bool (b : Bool)
  | int (n : Int)
  | float (x : Binary64)
  | string (s : String)
  | array (items : List Json)
  | object (fields : List (String × Json))
  deriving Inhabited

namespace Json

abbrev Fields := List (String × Json)

/-- Fields by key, which orders them by code points; the last of equal keys
counts. -/
def sortFields (fields : Fields) : Fields := (Std.TreeMap.ofList fields compare).toList

mutual
def canonical : Json → Json
  | array items => array (canonicalItems items)
  | object fields => object (sortFields (canonicalFields fields))
  | v => v
def canonicalItems : List Json → List Json
  | [] => []
  | v :: vs => canonical v :: canonicalItems vs
def canonicalFields : Fields → Fields
  | [] => []
  | (k, v) :: fs => (k, canonical v) :: canonicalFields fs
end

/-- An object with its fields in canonical order. -/
def ofFields (fields : Fields) : Json := object (sortFields fields)

def field? (fields : Fields) (key : String) : Option Json := fields.lookup key

def get? (v : Json) (key : String) : Option Json :=
  match v with
  | object fields => field? fields key
  | _ => none

def ofNat (n : Nat) : Json := int n

def ofOption (encode : α → Json) : Option α → Json
  | none => null
  | some a => encode a

def strings (ss : List String) : Json := array (ss.map string)

def escapeChar (c : Char) : List Char :=
  if c = '"' then ['\\', '"']
  else if c = '\\' then ['\\', '\\']
  else if c = '\x08' then ['\\', 'b']
  else if c = '\x0C' then ['\\', 'f']
  else if c = '\n' then ['\\', 'n']
  else if c = '\r' then ['\\', 'r']
  else if c = '\t' then ['\\', 't']
  else if c.toNat < 0x20 then
    ['\\', 'u', '0', '0', Nat.digitChar (c.toNat / 16), Nat.digitChar (c.toNat % 16)]
  else [c]

/-- Writes a quoted text in front of `rest`. -/
def writeString (s : String) (rest : List Char) : List Char :=
  '"' :: s.toList.flatMap escapeChar ++ '"' :: rest

mutual
def write : Json → List Char → List Char
  | null, rest => 'n' :: 'u' :: 'l' :: 'l' :: rest
  | bool true, rest => 't' :: 'r' :: 'u' :: 'e' :: rest
  | bool false, rest => 'f' :: 'a' :: 'l' :: 's' :: 'e' :: rest
  | int n, rest => (toString n).toList ++ rest
  | float x, rest => x.text.toList ++ rest
  | string s, rest => writeString s rest
  | array [], rest => '[' :: ']' :: rest
  | array (v :: vs), rest => '[' :: write v (writeItems vs rest)
  | object [], rest => '\x7b' :: '\x7d' :: rest
  | object ((k, v) :: fs), rest => '\x7b' :: writeString k (':' :: write v (writeFields fs rest))
/-- Writes the items behind the first, and the closing bracket. -/
def writeItems : List Json → List Char → List Char
  | [], rest => ']' :: rest
  | v :: vs, rest => ',' :: write v (writeItems vs rest)
def writeFields : Fields → List Char → List Char
  | [], rest => '\x7d' :: rest
  | (k, v) :: fs, rest => ',' :: writeString k (':' :: write v (writeFields fs rest))
end

def text (v : Json) : String := String.ofList (v.write [])

/-- The text that identifies a value up to the order of fields. -/
def canonicalText (v : Json) : String := v.canonical.text

end Json

end BundleGraph
