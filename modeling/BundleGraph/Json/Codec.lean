import BundleGraph.Json.Tree

/-!
# Typed values as JSON

`Encode` writes a value and `Decode` reads one from a tree. A record is an
object, of which unknown fields are passed over and no known field may be
repeated, or a list of the fields in their order, of which only fields with a
default may be missing at the end. A choice is a bare name, or an object with
the name as its only field.
-/

namespace BundleGraph.Json

class Encode (α : Type) where
  encode : α → Json

class Decode (α : Type) where
  decode? : Tree → Option α

export Encode (encode)
export Decode (decode?)

instance : Encode String := ⟨.string⟩
instance : Encode Bool := ⟨.bool⟩
instance : Encode Nat := ⟨.ofNat⟩
instance : Encode UInt32 := ⟨fun n => .ofNat n.toNat⟩
instance : Encode UInt64 := ⟨fun n => .ofNat n.toNat⟩
instance : Encode Json := ⟨id⟩
instance [Encode α] : Encode (List α) := ⟨fun as => .array (as.map encode)⟩
instance [Encode α] : Encode (Option α) := ⟨.ofOption encode⟩

/-- An integer below `limit`. -/
def natBelow? (limit : Nat) : Tree → Option Nat
  | .int n => if 0 ≤ n ∧ n < limit then some n.toNat else none
  | _ => none

instance : Decode Bool := ⟨fun
  | .bool b => some b
  | _ => none⟩
instance : Decode String := ⟨fun
  | .string s => some s
  | _ => none⟩
instance : Decode UInt32 := ⟨fun t => (natBelow? UInt32.size t).map UInt32.ofNat⟩
instance : Decode UInt64 := ⟨fun t => (natBelow? UInt64.size t).map UInt64.ofNat⟩
instance : Decode Json := ⟨Tree.toJson?⟩
instance [Decode α] : Decode (Option α) := ⟨fun
  | .null => some none
  | t => (decode? t).map some⟩
instance [Decode α] : Decode (List α) := ⟨fun
  | .array items => items.mapM decode?
  | _ => none⟩

/-- A map from text to values; the last of equal keys counts. -/
def decodeFields? : Tree → Option Fields
  | .object fields => (Tree.fieldValues? fields).map sortFields
  | _ => none

structure Record where
  fields : List (String × Tree)
  positional : Bool

def Tree.record? (names : List String) : Tree → Option Record
  | .object fields => do
    let named ← fields.mapM fun (k, t) => k.map (·, t)
    let known := named.filter fun (k, _) => names.contains k
    if (known.map (·.1)).eraseDups.length = known.length then some ⟨known, false⟩ else none
  | .array items => if items.length ≤ names.length then some ⟨names.zip items, true⟩ else none
  | _ => none

def Tree.isList : Tree → Bool
  | .array _ => true
  | _ => false

/-- A list without the items behind a number of them. -/
def Tree.clip (length : Nat) : Tree → Tree
  | .array items => .array (items.take length)
  | t => t

namespace Record

def required? [Decode α] (r : Record) (name : String) : Option α :=
  (r.fields.lookup name).bind decode?

/-- A field that may be absent from an object, but not from a list. -/
def nullable? [Decode α] (r : Record) (name : String) : Option (Option α) :=
  match r.fields.lookup name with
  | some t => decode? t
  | none => if r.positional then none else some none

def orDefault? (decode : Tree → Option α) (r : Record) (name : String) (default : α) : Option α :=
  match r.fields.lookup name with
  | some t => decode t
  | none => some default

def default? [Decode α] (r : Record) (name : String) (default : α) : Option α :=
  r.orDefault? decode? name default

end Record

/-- The name and the content of a choice. -/
def Tree.choice? : Tree → Option (String × Option Tree)
  | .string name => some (name, none)
  | .object [(some name, content)] => some (name, some content)
  | _ => none

/-- A choice without content, which may be written as null. -/
def Tree.unitChoice? (tree : Tree) : Option String :=
  match tree.choice? with
  | some (name, none) | some (name, some .null) => some name
  | _ => none

def decodeText? [Decode α] (text : List Char) : Option α := (Tree.ofText? text).bind decode?

def decodeValue? [Decode α] (v : Json) : Option α := decode? (Tree.ofJson v)

end BundleGraph.Json
