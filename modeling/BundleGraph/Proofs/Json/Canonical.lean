import BundleGraph.Proofs.Binary64.Text
import BundleGraph.Proofs.Json.Reading
import Std.Data.String.ToInt

/-!
# Texts identify values

What a writer puts out is unambiguous, also in front of other text: the first
character tells what kind of value follows, and a number ends where the closing
character begins. So a canonical text determines the canonical value, if every
floating point number in it is finite.
-/

namespace BundleGraph.Json

open Binary64 (IsNumeral IsNumber)

mutual
/-- Every floating point number of a value is finite. -/
def IsFinite : Json → Prop
  | .float x => x.isFinite
  | .array items => AreFinite items
  | .object fields => FieldsFinite fields
  | _ => True
def AreFinite : List Json → Prop
  | [] => True
  | v :: vs => IsFinite v ∧ AreFinite vs
def FieldsFinite : Fields → Prop
  | [] => True
  | (_, v) :: fs => IsFinite v ∧ FieldsFinite fs
end

-- ---------------------------------------------------------------------------
-- Numbers in front of other text
-- ---------------------------------------------------------------------------

theorem Closes.not_numeral {c : Char} {cs : List Char} (h : Closes (c :: cs)) : ¬ IsNumeral c := by
  obtain rfl | rfl | rfl := h c rfl <;> simp [IsNumeral, Char.isDigit]

theorem append_numerals {as bs rest rest' : List Char} (ha : ∀ c ∈ as, IsNumeral c)
    (hb : ∀ c ∈ bs, IsNumeral c) (hr : Closes rest) (hr' : Closes rest')
    (h : as ++ rest = bs ++ rest') : as = bs ∧ rest = rest' := by
  induction as generalizing bs with
  | nil =>
    cases bs with
    | nil => exact ⟨rfl, h⟩
    | cons b bs =>
      rw [List.nil_append, List.cons_append] at h
      exact absurd (hb b (by simp)) (h ▸ hr).not_numeral
  | cons a as ih =>
    cases bs with
    | nil =>
      rw [List.nil_append, List.cons_append] at h
      exact absurd (ha a (by simp)) (h ▸ hr').not_numeral
    | cons b bs =>
      obtain ⟨rfl, htail⟩ := List.cons.inj h
      obtain ⟨rfl, hrest⟩ := ih (fun c hc => ha c (by simp [hc])) (fun c hc => hb c (by simp [hc]))
        htail
      exact ⟨rfl, hrest⟩

theorem mem_int {n : Int} {c : Char} (h : c ∈ (toString n).toList) : c.isDigit ∨ c = '-' := by
  rw [Int.toString_eq_repr, Int.repr_eq_if] at h
  have hdigits {m : Nat} (hc : c ∈ m.repr.toList) : c.isDigit := Binary64.isDigit_toString hc
  split at h
  · exact .inl (hdigits h)
  · rw [String.toList_append, List.mem_append] at h
    rcases h with h | h
    · exact .inr (by simpa using h)
    · exact .inl (hdigits h)

theorem isNumeral_int {n : Int} : ∀ c ∈ (toString n).toList, IsNumeral c := fun _ hc =>
  (mem_int hc).elim .inl fun h => .inr (.inr (.inr (.inl h)))

theorem isNumeral_float {x : Binary64} : ∀ c ∈ x.text.toList, IsNumeral c := by
  rw [Binary64.toList_text]
  refine List.forall_mem_append.mpr ⟨?_, x.isNumber_body.numerals⟩
  split <;> simp [IsNumeral]

theorem int_ne_float (n : Int) (x : Binary64) : (toString n).toList ≠ x.text.toList := by
  intro h
  have hmem {c : Char} (hc : c ∈ x.body) : c.isDigit ∨ c = '-' := by
    refine mem_int (n := n) ?_
    rw [h, Binary64.toList_text]
    exact List.mem_append_right _ hc
  rcases x.isNumber_body.marked with hc | hc <;> simpa [Char.isDigit] using hmem hc

-- ---------------------------------------------------------------------------
-- First characters
-- ---------------------------------------------------------------------------

instance : DecidablePred IsNumeral := fun c =>
  inferInstanceAs (Decidable (c.isDigit ∨ c = '.' ∨ c = 'e' ∨ c = '-' ∨ c = '+'))

/-- The character that a value starts with, unless it is a number. -/
def lead : Json → Option Char
  | .null => some 'n'
  | .bool b => some (if b then 't' else 'f')
  | .int _ | .float _ => none
  | .string _ => some '"'
  | .array _ => some '['
  | .object _ => some '\x7b'

theorem filter_head? {cs rest : List Char} (hne : cs ≠ []) (h : ∀ c ∈ cs, IsNumeral c) :
    (cs ++ rest).head?.filter (fun c => !decide (IsNumeral c)) = none := by
  obtain ⟨c, cs, rfl⟩ := List.exists_cons_of_ne_nil hne
  simp [h c (by simp)]

/-- The first character tells what kind of value follows. -/
theorem lead_eq (v : Json) (rest : List Char) :
    (v.write rest).head?.filter (fun c => !decide (IsNumeral c)) = v.lead := by
  cases v with
  | null => rfl
  | bool b => cases b <;> rfl
  | int n =>
    refine filter_head? (fun hnil => ?_) isNumeral_int
    obtain ⟨c, cs, hcs, -⟩ := Tree.toList_toString n
    rw [hnil] at hcs
    cases hcs
  | float x =>
    refine filter_head? (fun hnil => ?_) isNumeral_float
    obtain ⟨c, hc, -⟩ := x.isNumber_body.head
    rw [Binary64.toList_text, List.append_eq_nil_iff] at hnil
    rw [hnil.2] at hc
    cases hc
  | string s => rfl
  | array items => cases items <;> rfl
  | object fields => rcases fields with _ | ⟨⟨k, v⟩, fs⟩ <;> rfl

theorem lead_congr {v w : Json} {rest rest' : List Char} (h : v.write rest = w.write rest') :
    v.lead = w.lead := by
  rw [← lead_eq v rest, ← lead_eq w rest', h]

theorem write_ne_bracket (v : Json) (rest cs : List Char) : v.write rest ≠ ']' :: cs := by
  intro h
  have hlead := lead_eq v rest
  rw [h] at hlead
  cases v <;> simp [lead, IsNumeral, Char.isDigit] at hlead
  case bool b => cases b <;> simp at hlead

theorem writeString_inj {s t : String} {rest rest' : List Char}
    (h : writeString s rest = writeString t rest') : s = t ∧ rest = rest' := by
  have hs := Tree.string?_escaped s rest
  have htail : s.toList.flatMap escapeChar ++ '"' :: rest =
      t.toList.flatMap escapeChar ++ '"' :: rest' := (List.cons.inj h).2
  rw [htail, Tree.string?_escaped t rest'] at hs
  simpa [eq_comm] using hs

-- ---------------------------------------------------------------------------
-- Values
-- ---------------------------------------------------------------------------

mutual
theorem write_inj : ∀ (v w : Json), v.IsFinite → w.IsFinite → ∀ (rest rest' : List Char),
    Closes rest → Closes rest' → v.write rest = w.write rest' → v = w ∧ rest = rest'
  | .null, w, _, _, rest, rest', _, _, h => by
    have hlead := lead_congr h
    cases w with
    | null => simpa [write] using h
    | _ => grind [lead]
  | .bool a, w, _, _, rest, rest', _, _, h => by
    have hlead := lead_congr h
    cases w with
    | bool b => cases a <;> cases b <;> simp_all [lead, write]
    | _ => grind [lead]
  | .int n, w, _, _, rest, rest', hr, hr', h => by
    have hlead := lead_congr h
    cases w with
    | int m =>
      obtain ⟨htext, hrest⟩ := append_numerals isNumeral_int isNumeral_int hr hr' h
      exact ⟨congrArg int (Int.repr_injective (String.toList_inj.mp htext)), hrest⟩
    | float x =>
      exact absurd (append_numerals isNumeral_int isNumeral_float hr hr' h).1 (int_ne_float n x)
    | _ => grind [lead]
  | .float x, w, hx, hw, rest, rest', hr, hr', h => by
    have hlead := lead_congr h
    cases w with
    | int n =>
      exact absurd (append_numerals isNumeral_float isNumeral_int hr hr' h).1.symm
        (int_ne_float n x)
    | float y =>
      obtain ⟨htext, hrest⟩ := append_numerals isNumeral_float isNumeral_float hr hr' h
      exact ⟨congrArg float (Binary64.text_injective hx hw (String.toList_inj.mp htext)), hrest⟩
    | _ => grind [lead]
  | .string s, w, _, _, rest, rest', _, _, h => by
    have hlead := lead_congr h
    cases w with
    | string t =>
      obtain ⟨rfl, hrest⟩ := writeString_inj h
      exact ⟨rfl, hrest⟩
    | _ => grind [lead]
  | .array vs, w, hvs, hw, rest, rest', _, _, h => by
    have hlead := lead_congr h
    cases w with
    | array ws =>
      match vs, ws with
      | [], [] => simpa [write] using h
      | [], w :: ws => exact absurd (List.cons.inj h).2.symm (write_ne_bracket w _ _)
      | v :: vs, [] => exact absurd (List.cons.inj h).2 (write_ne_bracket v _ _)
      | v :: vs, w :: ws =>
        obtain ⟨hitems, hrest⟩ := writeItems_inj (v :: vs) (w :: ws) hvs hw rest rest'
          (congrArg (',' :: ·) (List.cons.inj h).2)
        exact ⟨congrArg array hitems, hrest⟩
    | _ => grind [lead]
  | .object fs, w, hfs, hw, rest, rest', _, _, h => by
    have hlead := lead_congr h
    cases w with
    | object gs =>
      match fs, gs with
      | [], [] => simpa [write] using h
      | [], (k, v) :: gs => simp [write, writeString] at h
      | (k, v) :: fs, [] => simp [write, writeString] at h
      | (k, v) :: fs, (k', v') :: gs =>
        obtain ⟨hfields, hrest⟩ := writeFields_inj ((k, v) :: fs) ((k', v') :: gs) hfs hw rest
          rest' (congrArg (',' :: ·) (List.cons.inj h).2)
        exact ⟨congrArg object hfields, hrest⟩
    | _ => grind [lead]
theorem writeItems_inj : ∀ (vs ws : List Json), AreFinite vs → AreFinite ws →
    ∀ (rest rest' : List Char), writeItems vs rest = writeItems ws rest' → vs = ws ∧ rest = rest'
  | [], [], _, _, rest, rest', h => by simpa [writeItems] using h
  | [], w :: ws, _, _, rest, rest', h => by simp [writeItems] at h
  | v :: vs, [], _, _, rest, rest', h => by simp [writeItems] at h
  | v :: vs, w :: ws, hv, hw, rest, rest', h => by
    rw [writeItems, writeItems] at h
    obtain ⟨rfl, hitems⟩ := write_inj v w hv.1 hw.1 _ _ (closes_writeItems vs rest)
      (closes_writeItems ws rest') (List.cons.inj h).2
    obtain ⟨rfl, hrest⟩ := writeItems_inj vs ws hv.2 hw.2 rest rest' hitems
    exact ⟨rfl, hrest⟩
theorem writeFields_inj : ∀ (fs gs : Fields), FieldsFinite fs → FieldsFinite gs →
    ∀ (rest rest' : List Char), writeFields fs rest = writeFields gs rest' →
      fs = gs ∧ rest = rest'
  | [], [], _, _, rest, rest', h => by simpa [writeFields] using h
  | [], (k, v) :: gs, _, _, rest, rest', h => by simp [writeFields] at h
  | (k, v) :: fs, [], _, _, rest, rest', h => by simp [writeFields] at h
  | (k, v) :: fs, (k', v') :: gs, hv, hw, rest, rest', h => by
    rw [writeFields, writeFields] at h
    obtain ⟨rfl, hvalue⟩ := writeString_inj (List.cons.inj h).2
    obtain ⟨rfl, hfields⟩ := write_inj v v' hv.1 hw.1 _ _ (closes_writeFields fs rest)
      (closes_writeFields gs rest') (List.cons.inj hvalue).2
    obtain ⟨rfl, hrest⟩ := writeFields_inj fs gs hv.2 hw.2 rest rest' hfields
    exact ⟨rfl, hrest⟩
end

-- ---------------------------------------------------------------------------
-- Canonical values
-- ---------------------------------------------------------------------------

theorem mem_of_mem_insertMany {t : Std.TreeMap String Json compare} {fs : Fields} {k : String}
    {v : Json} (h : (k, v) ∈ (t.insertMany fs).toList) : (k, v) ∈ t.toList ∨ (k, v) ∈ fs := by
  induction fs generalizing t with
  | nil => exact .inl h
  | cons f fs ih =>
    obtain ⟨key, value⟩ := f
    rw [Std.TreeMap.insertMany_cons] at h
    rcases ih h with h | h
    · rw [Std.TreeMap.mem_toList_iff_getElem?_eq_some, Std.TreeMap.getElem?_insert] at h
      split at h
      case isTrue heq =>
        cases h
        rw [Std.LawfulEqCmp.eq_of_compare heq]
        exact .inr (by simp)
      case isFalse => exact .inl (Std.TreeMap.mem_toList_iff_getElem?_eq_some.mpr h)
    · exact .inr (by simp [h])

theorem mem_of_mem_sortFields {fs : Fields} {k : String} {v : Json} (h : (k, v) ∈ sortFields fs) :
    (k, v) ∈ fs := by
  rw [sortFields, Std.TreeMap.ofList_eq_insertMany_empty] at h
  simpa using mem_of_mem_insertMany h

theorem mem_sortFields {fs : Fields} (hnodup : (fs.map Prod.fst).Nodup) {k : String} {v : Json} :
    (k, v) ∈ sortFields fs ↔ (k, v) ∈ fs := by
  refine ⟨mem_of_mem_sortFields, fun h => ?_⟩
  rw [sortFields, Std.TreeMap.mem_toList_iff_getElem?_eq_some]
  refine Std.TreeMap.getElem?_ofList_of_mem Std.ReflCmp.compare_self ?_ h
  rw [List.Nodup, List.pairwise_map] at hnodup
  exact hnodup.imp fun hne heq => hne (Std.LawfulEqCmp.eq_of_compare heq)

theorem fieldsFinite_iff {fs : Fields} : FieldsFinite fs ↔ ∀ k v, (k, v) ∈ fs → IsFinite v := by
  induction fs with
  | nil => simp [FieldsFinite]
  | cons f fs ih =>
    obtain ⟨key, value⟩ := f
    rw [FieldsFinite, ih]
    constructor
    · rintro ⟨hvalue, hfs⟩ k v hmem
      rcases List.mem_cons.mp hmem with heq | hmem
      · cases heq
        exact hvalue
      · exact hfs k v hmem
    · intro h
      exact ⟨h key value (by simp), fun k v hmem => h k v (by simp [hmem])⟩

mutual
theorem isFinite_canonical : ∀ (v : Json), v.IsFinite → v.canonical.IsFinite
  | .null, h | .bool _, h | .int _, h | .float _, h | .string _, h => h
  | .array vs, h => areFinite_canonical vs h
  | .object fs, h => fieldsFinite_iff.mpr fun k v hmem =>
    fieldsFinite_iff.mp (fieldsFinite_canonical fs h) k v (mem_of_mem_sortFields hmem)
theorem areFinite_canonical : ∀ (vs : List Json), AreFinite vs → AreFinite (canonicalItems vs)
  | [], h => h
  | v :: vs, h => ⟨isFinite_canonical v h.1, areFinite_canonical vs h.2⟩
theorem fieldsFinite_canonical : ∀ (fs : Fields), FieldsFinite fs →
    FieldsFinite (canonicalFields fs)
  | [], h => h
  | (_, v) :: fs, h => ⟨isFinite_canonical v h.1, fieldsFinite_canonical fs h.2⟩
end

theorem canonicalText_inj {v w : Json} (hv : v.IsFinite) (hw : w.IsFinite)
    (h : v.canonicalText = w.canonicalText) : v.canonical = w.canonical := by
  have htext := congrArg String.toList h
  rw [canonicalText, canonicalText, text, text, String.toList_ofList, String.toList_ofList] at htext
  exact (write_inj _ _ (isFinite_canonical v hv) (isFinite_canonical w hw) [] []
    (by simp [Closes]) (by simp [Closes]) htext).1

end BundleGraph.Json
