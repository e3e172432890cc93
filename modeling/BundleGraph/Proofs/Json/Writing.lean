import BundleGraph.Json

/-!
# Written values

What a writer puts out for a value does not depend on what follows, and its
length bounds the steps of a reader. Values are told apart by what a reader can
restore: how deep they are nested, and whether their numbers are integers.
-/

namespace BundleGraph.Json

mutual
/-- How deep lists and objects are nested. -/
def levels : Json → Nat
  | array items => levelsOfItems items + 1
  | object fields => levelsOfFields fields + 1
  | _ => 0
def levelsOfItems : List Json → Nat
  | [] => 0
  | v :: vs => max (levels v) (levelsOfItems vs)
def levelsOfFields : Fields → Nat
  | [] => 0
  | (_, v) :: fs => max (levels v) (levelsOfFields fs)
end

/-- An integer of 64 bits, signed or unsigned. -/
def Fits (n : Int) : Prop := -(Nat.pow 2 63 : Nat) ≤ n ∧ n < UInt64.size

mutual
/-- Every number of a value is an integer that fits 64 bits, signed or unsigned. -/
def IsIntegral : Json → Prop
  | .int n => Fits n
  | .float _ => False
  | .array items => AreIntegral items
  | .object fields => FieldsIntegral fields
  | _ => True
def AreIntegral : List Json → Prop
  | [] => True
  | v :: vs => IsIntegral v ∧ AreIntegral vs
def FieldsIntegral : Fields → Prop
  | [] => True
  | (_, v) :: fs => IsIntegral v ∧ FieldsIntegral fs
end

-- ---------------------------------------------------------------------------
-- Texts in front of others
-- ---------------------------------------------------------------------------

mutual
theorem write_eq_append : ∀ (v : Json) (rest : List Char), v.write rest = v.write [] ++ rest
  | .null, _ | .bool true, _ | .bool false, _ | .array [], _ | .object [], _ => by simp [write]
  | .int _, _ | .float _, _ => by simp [write]
  | .string s, _ => by simp [write, writeString]
  | .array (v :: vs), rest => by
    rw [write, write, write_eq_append v, write_eq_append v (writeItems vs []),
      writeItems_eq_append vs rest]
    simp
  | .object ((k, v) :: fs), rest => by
    rw [write, write, write_eq_append v, write_eq_append v (writeFields fs []),
      writeFields_eq_append fs rest]
    simp [writeString]
theorem writeItems_eq_append : ∀ (vs : List Json) (rest : List Char),
    writeItems vs rest = writeItems vs [] ++ rest
  | [], _ => by simp [writeItems]
  | v :: vs, rest => by
    rw [writeItems, writeItems, write_eq_append v, write_eq_append v (writeItems vs []),
      writeItems_eq_append vs rest]
    simp
theorem writeFields_eq_append : ∀ (fs : Fields) (rest : List Char),
    writeFields fs rest = writeFields fs [] ++ rest
  | [], _ => by simp [writeFields]
  | (k, v) :: fs, rest => by
    rw [writeFields, writeFields, write_eq_append v, write_eq_append v (writeFields fs []),
      writeFields_eq_append fs rest]
    simp [writeString]
end

/-- What may stand behind a value: nothing, or a character that no number has. -/
def Closes (rest : List Char) : Prop := ∀ c ∈ rest.head?, c = ',' ∨ c = ']' ∨ c = '\x7d'

theorem closes_writeItems (vs : List Json) (rest : List Char) : Closes (writeItems vs rest) := by
  cases vs <;> simp [writeItems, Closes]

theorem closes_writeFields (fs : Fields) (rest : List Char) : Closes (writeFields fs rest) := by
  rcases fs with _ | ⟨⟨k, v⟩, fs⟩ <;> simp [writeFields, Closes]

theorem length_writeItems (v : Json) (vs : List Json) : (writeItems (v :: vs) []).length =
    (v.write []).length + (writeItems vs []).length + 1 := by
  rw [writeItems, write_eq_append]
  simp

theorem length_writeItems_pos (vs : List Json) : 0 < (writeItems vs []).length := by
  cases vs <;> simp [writeItems]

theorem length_writeFields (k : String) (v : Json) (fs : Fields) :
    (v.write []).length + (writeFields fs []).length + 3 ≤
      (writeFields ((k, v) :: fs) []).length := by
  rw [writeFields, write_eq_append v (writeFields fs [])]
  simp only [writeString, List.length_cons, List.length_append]
  omega

theorem length_writeFields_pos (fs : Fields) : 0 < (writeFields fs []).length := by
  rcases fs with _ | ⟨⟨k, v⟩, fs⟩ <;> simp [writeFields]

end BundleGraph.Json
