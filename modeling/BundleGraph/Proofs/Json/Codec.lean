import BundleGraph.Json.Codec
import BundleGraph.Proofs.Json.Reading

/-!
# Reading typed values back
-/

namespace BundleGraph.Json

theorem eraseDups_of_nodup [BEq α] [LawfulBEq α] {as : List α} (h : as.Nodup) :
    as.eraseDups = as := by
  induction as with
  | nil => rfl
  | cons a as ih =>
    obtain ⟨ha, has⟩ := List.nodup_cons.mp h
    have hkeep : as.filter (fun b => !b == a) = as :=
      List.filter_eq_self.mpr fun b hb => by
        simp only [Bool.not_eq_true', beq_eq_false_iff_ne]
        rintro rfl
        exact ha hb
    rw [List.eraseDups_cons, hkeep, ih has]

namespace Tree

theorem limitedItems_eq_map (room : Nat) (vs : List Json) :
    limitedItems room vs = vs.map (limited room) := by
  induction vs with
  | nil => rfl
  | cons v vs ih => rw [limitedItems, ih, List.map_cons]

/-- Fields as a reader with `room` levels below their object makes them. -/
def namedFields (room : Nat) (fields : Fields) : List (String × Tree) :=
  fields.map fun field => (field.1, limited room field.2)

theorem mapM_limitedFields (room : Nat) (fields : Fields)
    {f : Option String × Tree → Option (String × Tree)} (hf : ∀ k t, f (some k, t) = some (k, t)) :
    (limitedFields room fields).mapM f = some (namedFields room fields) := by
  induction fields with
  | nil => rfl
  | cons field fields ih =>
    obtain ⟨k, v⟩ := field
    rw [limitedFields, List.mapM_cons, hf, ih]
    rfl

theorem record?_limited {names : List String} (fields : Fields) (room : Nat)
    (hnames : fields.map (·.1) = names) (hdistinct : names.Nodup) :
    (limited (room + 1) (.object fields)).record? names =
      some ⟨namedFields room fields, false⟩ := by
  have hkeys : (namedFields room fields).map (·.1) = names := by
    rw [← hnames, namedFields, List.map_map]
    rfl
  have hlimited : limited (room + 1) (.object fields) = object (limitedFields room fields) := rfl
  have hknown (p : String × Tree → Bool) (hp : ∀ k t, k ∈ names → p (k, t)) :
      (namedFields room fields).filter p = namedFields room fields :=
    List.filter_eq_self.mpr fun (k, t) hk => hp k t (hkeys ▸ List.mem_map_of_mem hk)
  rw [hlimited, record?, mapM_limitedFields room fields fun _ _ => rfl]
  simp only [bind, Option.bind_some]
  rw [hknown _ fun k t hk => by simpa using hk, hkeys, eraseDups_of_nodup hdistinct,
    if_pos (by rw [← hkeys, List.length_map])]

end Tree

open BundleGraph.Json.Tree

namespace Record

variable [Decode α] (fields : Fields) (room : Nat) {name : String} {v : Json}

theorem lookup_namedFields (h : fields.lookup name = some v) :
    (namedFields room fields).lookup name = some (limited room v) := by
  induction fields with
  | nil => cases h
  | cons field fields ih =>
    obtain ⟨k, w⟩ := field
    by_cases hk : name = k
    · subst hk
      rw [List.lookup_cons_self] at h
      cases h
      exact List.lookup_cons_self
    · have hk : (name == k) = false := beq_eq_false_iff_ne.mpr hk
      rw [List.lookup_cons, hk] at h
      rw [namedFields, List.map_cons, List.lookup_cons, hk]
      exact ih h

theorem required?_named (h : fields.lookup name = some v) :
    (required? ⟨namedFields room fields, false⟩ name : Option α) = decode? (limited room v) := by
  rw [required?, lookup_namedFields fields room h, Option.bind_some]

theorem default?_named (h : fields.lookup name = some v) (default : α) :
    default? ⟨namedFields room fields, false⟩ name default = decode? (limited room v) := by
  rw [default?, orDefault?, lookup_namedFields fields room h]

end Record

section
variable [Encode α] [Decode α] {as : List α} {room : Nat}

theorem decode?_list (as : List α) (room : Nat) :
    decode? (limited (room + 1) (encode as)) =
      as.mapM fun a => (decode? (limited room (encode a)) : Option α) := by
  have hlimited : limited (room + 1) (encode as) = .array (as.map (limited room ∘ encode)) := by
    simp [Encode.encode, limited, nested, limitedItems_eq_map]
  rw [hlimited]
  exact List.mapM_map

theorem decode?_list_some (h : ∀ a ∈ as, decode? (limited room (encode a)) = some a) :
    decode? (limited (room + 1) (encode as)) = some as := by
  rw [decode?_list]
  induction as with
  | nil => rfl
  | cons a as ih =>
    rw [List.mapM_cons, h a (.head _), ih fun b hb => h b (.tail _ hb)]
    rfl

theorem decode?_list_none {a : α} (ha : a ∈ as)
    (h : (decode? (limited room (encode a)) : Option α) = none) :
    (decode? (limited (room + 1) (encode as)) : Option (List α)) = none := by
  rw [decode?_list]
  induction as with
  | nil => cases ha
  | cons b as ih =>
    rw [List.mapM_cons]
    rcases List.mem_cons.mp ha with rfl | ha
    · rw [h]
      rfl
    · rw [ih ha]
      cases (decode? (limited room (encode b)) : Option α) <;> rfl

end

theorem isIntegral_list [Encode α] {as : List α} (h : ∀ a ∈ as, IsIntegral (encode a)) :
    IsIntegral (encode as) := by
  suffices AreIntegral (as.map encode) by simpa [Encode.encode, IsIntegral] using this
  induction as with
  | nil => trivial
  | cons a as ih => exact ⟨h a (.head _), ih fun b hb => h b (.tail _ hb)⟩

theorem decode?_string (s : String) (room : Nat) :
    decode? (limited room (encode s)) = some s := rfl

theorem decode?_bool (b : Bool) (room : Nat) : decode? (limited room (encode b)) = some b := rfl

theorem decode?_uint32 (n : UInt32) (room : Nat) :
    decode? (limited room (encode n)) = some n := by
  have hn : natBelow? UInt32.size (.int n.toNat) = some n.toNat := by
    have := n.toNat_lt
    have hsize : UInt32.size = 2 ^ 32 := rfl
    simp only [natBelow?]
    rw [if_pos (by omega)]
    rfl
  exact (congrArg (Option.map UInt32.ofNat) hn).trans (congrArg some UInt32.ofNat_toNat)

theorem isIntegral_uint32 (n : UInt32) : IsIntegral (encode n) := by
  have hn := n.toNat_lt
  have hsize : 2 ^ 32 < UInt64.size := by decide
  show Fits n.toNat
  constructor <;> omega

theorem decode?_json (v : Json) (room : Nat) :
    decode? (limited room v) = if v.levels ≤ room then some v.canonical else none :=
  toJson?_limited v room

end BundleGraph.Json
