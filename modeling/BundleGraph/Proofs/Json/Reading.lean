import BundleGraph.Json.Tree
import BundleGraph.Proofs.Json.Writing
import Mathlib.Data.List.Basic
import Mathlib.Data.List.TakeDrop

/-!
# Reading what was written

A reader restores a written value, whatever follows it, if its numbers are
integers of 64 bits: strings through their escapes, integers through their
digits, lists and objects by induction. The writer has no limit and the reader
has one: `limited` is the tree that comes back, and it has a value exactly when
the value written is not nested too deep.
-/

namespace BundleGraph.Json.Tree

-- ---------------------------------------------------------------------------
-- Strings
-- ---------------------------------------------------------------------------

theorem hexDigit?_digitChar {n : Nat} (h : n < 16) : hexDigit? (Nat.digitChar n) = some n := by
  have hall : ∀ m < 16, hexDigit? (Nat.digitChar m) = some m := by decide
  exact hall n h

def consUnit (u : Nat × Bool) :
    List (Nat × Bool) × List Char → List (Nat × Bool) × List Char :=
  fun (us, rest) => (u :: us, rest)

theorem units?_short {e c : Char} (he : shortEscape? e = some c) (hu : e ≠ 'u')
    (rest : List Char) :
    units? ('\\' :: e :: rest) = (units? rest).map (consUnit (c.toNat, false)) := by
  rw [units?]
  · simp only [he, bind, Option.bind_some]
    cases units? rest <;> rfl
  · rintro _ _ _ _ _ rfl
    exact absurd rfl hu

theorem units?_control {n : Nat} (h : n < 0x20) (rest : List Char) :
    units? ('\\' :: 'u' :: '0' :: '0' :: Nat.digitChar (n / 16) :: Nat.digitChar (n % 16) :: rest) =
      (units? rest).map (consUnit (n, true)) := by
  have hhex : hex4? '0' '0' (Nat.digitChar (n / 16)) (Nat.digitChar (n % 16)) = some n := by
    have hzero : hexDigit? '0' = some 0 := rfl
    simp only [hex4?, hzero, hexDigit?_digitChar (n := n / 16) (by omega),
      hexDigit?_digitChar (n := n % 16) (by omega), bind, Option.bind_some, pure]
    exact congrArg some (by omega)
  rw [units?]
  simp only [hhex, bind, Option.bind_some]
  cases units? rest <;> rfl

theorem units?_plain {c : Char} (hquote : c ≠ '"') (hslash : c ≠ '\\') (h : ¬ c.toNat < 0x20)
    (rest : List Char) : units? (c :: rest) = (units? rest).map (consUnit (c.toNat, false)) := by
  rw [units?]
  · rw [if_neg (by simp [hslash]; omega)]
    cases units? rest <;> rfl
  · exact hquote
  · rintro _ _ _ _ _ rfl
    exact absurd rfl hslash
  · rintro _ _ rfl
    exact absurd rfl hslash

theorem units?_escapeChar (c : Char) (rest : List Char) : ∃ escaped : Bool,
    units? (escapeChar c ++ rest) = (units? rest).map (consUnit (c.toNat, escaped)) ∧
      (escaped → c.toNat < 0x20) := by
  unfold escapeChar
  -- Seven characters have a short escape.
  iterate 7
    split
    · rename_i h
      subst h
      exact ⟨false, units?_short rfl (by decide) rest, by simp⟩
  split
  · exact ⟨true, units?_control ‹_› rest, fun _ => ‹_›⟩
  · exact ⟨false, units?_plain ‹_› ‹_› ‹_› rest, by simp⟩

theorem pairSurrogates?_cons {c : Char} {escaped : Bool} (h : escaped → c.toNat < 0x20)
    (us : List (Nat × Bool)) :
    pairSurrogates? ((c.toNat, escaped) :: us) = (pairSurrogates? us).map (c :: ·) := by
  cases escaped with
  | false => cases us <;> simp [pairSurrogates?, Char.ofNat_toNat]
  | true =>
    have hlt := h rfl
    have hno : isHighSurrogate c.toNat = false ∧ isLowSurrogate c.toNat = false := by
      simp [isHighSurrogate, isLowSurrogate]
      omega
    rcases us with _ | ⟨⟨m, _ | _⟩, us⟩ <;> simp [pairSurrogates?, hno, Char.ofNat_toNat]

theorem units?_escaped (cs rest : List Char) : ∃ us,
    units? (cs.flatMap escapeChar ++ '"' :: rest) = some (us, rest) ∧
      pairSurrogates? us = some cs := by
  induction cs with
  | nil => exact ⟨[], by simp [units?], by simp [pairSurrogates?]⟩
  | cons c cs ih =>
    obtain ⟨us, hus, hpair⟩ := ih
    obtain ⟨escaped, hc, hlow⟩ := units?_escapeChar c (cs.flatMap escapeChar ++ '"' :: rest)
    refine ⟨(c.toNat, escaped) :: us, ?_, ?_⟩
    · rw [List.flatMap_cons, List.append_assoc, hc, hus]
      rfl
    · rw [pairSurrogates?_cons hlow, hpair]
      rfl

theorem string?_escaped (s : String) (rest : List Char) :
    string? (s.toList.flatMap escapeChar ++ '"' :: rest) = some (some s, rest) := by
  obtain ⟨us, hus, hpair⟩ := units?_escaped s.toList rest
  simp [string?, hus, hpair]

-- ---------------------------------------------------------------------------
-- Integers
-- ---------------------------------------------------------------------------

theorem span_digits (ds : List Char) {rest : List Char} (hds : ∀ c ∈ ds, isDigit c)
    (hrest : Closes rest) : (ds ++ rest).span isDigit = (ds, rest) := by
  have hstop : rest.takeWhile isDigit = [] ∧ rest.dropWhile isDigit = rest := by
    cases rest with
    | nil => exact ⟨rfl, rfl⟩
    | cons c rest =>
      have hc : isDigit c = false := by
        obtain rfl | rfl | rfl := hrest c (by simp) <;> rfl
      exact ⟨List.takeWhile_cons_of_neg (by simp [hc]),
        List.dropWhile_cons_of_neg (by simp [hc])⟩
  rw [List.span_eq_takeWhile_dropWhile, List.takeWhile_append_of_pos hds,
    List.dropWhile_append_of_pos hds, hstop.1, hstop.2, List.append_nil]

theorem isDigit_digits {n : Nat} {c : Char} (h : c ∈ Nat.toDigits 10 n) : isDigit c := by
  have hd := Nat.isDigit_of_mem_toDigits (by decide) (by decide) h
  simp only [Char.isDigit, Bool.and_eq_true, decide_eq_true_eq] at hd
  simp only [isDigit, Bool.and_eq_true, decide_eq_true_eq]
  exact hd

theorem appendDigits_fits {ds : List Char} {n : Nat}
    (h : Nat.ofDigitChars 10 ds n < UInt64.size) :
    appendDigits n ds = (Nat.ofDigitChars 10 ds n, []) := by
  induction ds generalizing n with
  | nil => rfl
  | cons c ds ih =>
    rw [Nat.ofDigitChars_cons] at h ⊢
    have hnext : 10 * n + digit c < UInt64.size := by
      have hle : 10 * n + digit c ≤ 10 ^ ds.length * (10 * n + digit c) :=
        Nat.le_mul_of_pos_left _ (Nat.pow_pos (by decide))
      have hall : Nat.ofDigitChars 10 ds (10 * n + digit c) =
          10 ^ ds.length * (10 * n + digit c) + Nat.ofDigitChars 10 ds 0 :=
        Nat.ofDigitChars_eq_ofDigitChars_zero
      exact Nat.lt_of_le_of_lt (hall ▸ Nat.le_add_right_of_le hle) h
    rw [appendDigits, if_pos hnext]
    exact ih h

theorem head?_digits {n : Nat} (h : 0 < n) : (Nat.toDigits 10 n).head? ≠ some '0' := by
  induction n using Nat.strongRecOn with
  | ind n ih =>
    by_cases hn : n < 10
    · rw [Nat.toDigits_of_lt_base hn]
      have hall : ∀ m < 10, 0 < m → [Nat.digitChar m].head? ≠ some '0' := by decide
      exact hall n hn h
    · rw [Nat.toDigits_of_base_le (by decide) (by omega),
        List.head?_append_of_ne_nil _ Nat.toDigits_ne_nil]
      exact ih (n / 10) (by omega) (by omega)

theorem decimals?_closes {rest : List Char} (h : Closes rest) :
    decimals? rest = some ([], rest) ∧ exponent? rest = some (none, rest) := by
  cases rest with
  | nil => exact ⟨rfl, rfl⟩
  | cons c rest => obtain rfl | rfl | rfl := h c (by simp) <;> exact ⟨rfl, rfl⟩

theorem number?_digits (negative : Bool) (n : Nat) {rest : List Char} (hrest : Closes rest) :
    number? ((if negative then ['-'] else []) ++ Nat.toDigits 10 n ++ rest) =
      some (whole negative (Nat.toDigits 10 n), rest) := by
  have hspan := span_digits (Nat.toDigits 10 n) (fun _ => isDigit_digits) hrest
  have hplain : ((Nat.toDigits 10 n).isEmpty ||
      (Nat.toDigits 10 n).head? = some '0' && 1 < (Nat.toDigits 10 n).length) = false := by
    rcases Nat.eq_zero_or_pos n with rfl | hn
    · rfl
    · simp [Nat.toDigits_ne_nil, head?_digits hn]
  obtain ⟨hdec, hexp⟩ := decimals?_closes hrest
  cases hds : Nat.toDigits 10 n with
  | nil => exact absurd hds Nat.toDigits_ne_nil
  | cons d ds =>
    have hd : d ≠ '-' := by
      rintro rfl
      have := isDigit_digits (n := n) (c := '-') (by simp [hds])
      exact absurd this (by decide)
    rw [hds] at hspan hplain
    cases negative with
    | true =>
      simp only [number?, if_true, List.cons_append, List.nil_append] at hspan hplain ⊢
      simp only [hspan, hplain]
      simp [hdec, hexp]
    | false =>
      simp only [number?, Bool.false_eq_true, if_false, List.cons_append, List.nil_append]
        at hspan hplain ⊢
      split
      case h_1 heq => exact absurd (List.cons.inj heq).1 hd
      case h_2 =>
        simp only [hspan, hplain]
        simp [hdec, hexp]

theorem number?_int {n : Int} (hn : Fits n) {rest : List Char} (hrest : Closes rest) :
    number? ((toString n).toList ++ rest) = some (int n, rest) := by
  have hread (m : Nat) (hm : m < UInt64.size) :
      appendDigits 0 (Nat.toDigits 10 m) = (m, []) := by
    rw [appendDigits_fits (by rwa [Nat.ofDigitChars_ten_toDigits]), Nat.ofDigitChars_ten_toDigits]
  obtain ⟨hlow, hhigh⟩ := hn
  rw [Int.toString_eq_repr, Int.repr_eq_if]
  split
  · have h := number?_digits false n.toNat hrest
    have hwhole : whole false (Nat.toDigits 10 n.toNat) = int n := by
      rw [whole, hread n.toNat (by omega)]
      simp
      omega
    rw [hwhole] at h
    simpa [Nat.repr_eq_ofList_toDigits] using h
  · have h := number?_digits true (-n).toNat hrest
    have hwhole : whole true (Nat.toDigits 10 (-n).toNat) = int n := by
      have hsize : Nat.pow 2 63 < UInt64.size := by decide
      rw [whole, hread (-n).toNat (by omega)]
      simp only [Bool.not_true, Bool.false_eq_true, if_false]
      rw [if_pos (by omega)]
      exact congrArg int (by omega)
    rw [hwhole] at h
    simpa [Nat.repr_eq_ofList_toDigits] using h

-- ---------------------------------------------------------------------------
-- Values
-- ---------------------------------------------------------------------------

mutual
/-- The tree that a reader with `room` levels makes of a value. -/
def limited : Nat → Json → Tree
  | _, .null => null
  | _, .bool b => bool b
  | _, .int n => int n
  | _, .float x => float x
  | _, .string s => string s
  | room, .array items => nested room (array (limitedItems (room - 1) items))
  | room, .object fields => nested room (object (limitedFields (room - 1) fields))
def limitedItems : Nat → List Json → List Tree
  | _, [] => []
  | room, v :: vs => limited room v :: limitedItems room vs
def limitedFields : Nat → Fields → List (Option String × Tree)
  | _, [] => []
  | room, (k, v) :: fs => (some k, limited room v) :: limitedFields room fs
end

theorem skipBlanks_closes {rest : List Char} (h : Closes rest) : skipBlanks rest = rest := by
  cases rest with
  | nil => rfl
  | cons c rest => obtain rfl | rfl | rfl := h c (by simp) <;> rfl

def StartsNumber (c : Char) : Prop := c = '-' ∨ isDigit c

theorem StartsNumber.ne {c d : Char} (hc : StartsNumber c) (hd : ¬ (d = '-' ∨ isDigit d)) :
    c ≠ d := fun h => hd (h ▸ hc)

theorem StartsNumber.skipBlanks {c : Char} (hc : StartsNumber c) (cs : List Char) :
    skipBlanks (c :: cs) = c :: cs := by
  refine List.dropWhile_cons_of_neg ?_
  simp [isBlank, hc.ne (d := ' ') (by decide), hc.ne (d := '\n') (by decide),
    hc.ne (d := '\t') (by decide), hc.ne (d := '\r') (by decide)]

/-- A text that starts with a sign or a digit can only be a number. -/
theorem value?_number {c : Char} (hc : StartsNumber c) (fuel room : Nat) (cs : List Char) :
    value? (fuel + 1) room (c :: cs) = number? (c :: cs) := by
  rw [value?, hc.skipBlanks]
  split
  case h_1 heq => exact absurd (List.cons.inj heq).1 (hc.ne (by decide))
  case h_2 heq => exact absurd (List.cons.inj heq).1 (hc.ne (by decide))
  case h_3 heq => exact absurd (List.cons.inj heq).1 (hc.ne (by decide))
  case h_4 heq => exact absurd (List.cons.inj heq).1 (hc.ne (by decide))
  case h_5 heq => exact absurd (List.cons.inj heq).1 (hc.ne (by decide))
  case h_6 heq => exact absurd (List.cons.inj heq).1 (hc.ne (by decide))
  case h_7 => rfl

theorem toList_toString (n : Int) : ∃ c cs, (toString n).toList = c :: cs ∧ StartsNumber c := by
  rw [Int.toString_eq_repr, Int.repr_eq_if]
  split
  · rw [Nat.repr_eq_ofList_toDigits, String.toList_ofList]
    cases hds : Nat.toDigits 10 n.toNat with
    | nil => exact absurd hds Nat.toDigits_ne_nil
    | cons d ds => exact ⟨d, ds, rfl, .inr (isDigit_digits (n := n.toNat) (by simp [hds]))⟩
  · exact ⟨'-', (-n).toNat.repr.toList, by simp, .inl rfl⟩

theorem write_head {v : Json} (hv : IsIntegral v) (rest : List Char) :
    ∃ c cs, v.write rest = c :: cs ∧ skipBlanks (c :: cs) = c :: cs ∧ c ≠ ']' := by
  cases v with
  | null => exact ⟨_, _, rfl, rfl, by decide⟩
  | bool b => cases b <;> exact ⟨_, _, rfl, rfl, by decide⟩
  | int n =>
    obtain ⟨c, cs, hcs, hc⟩ := toList_toString n
    exact ⟨c, cs ++ rest, by rw [write, hcs]; rfl, hc.skipBlanks _, hc.ne (by decide)⟩
  | float x => exact hv.elim
  | string s => exact ⟨_, _, by rw [write, writeString]; rfl, rfl, by decide⟩
  | array items => cases items <;> exact ⟨_, _, by rw [write], rfl, by decide⟩
  | object fields =>
    rcases fields with _ | ⟨⟨k, v⟩, fs⟩ <;> exact ⟨_, _, by rw [write], rfl, by decide⟩

theorem length_write_pos {v : Json} (hv : IsIntegral v) : 0 < (v.write []).length := by
  obtain ⟨c, cs, hcs, -⟩ := write_head hv []
  simp [hcs]

mutual
/-- A written value is read back, apart from what lies below the limit. -/
theorem value?_write : ∀ (v : Json), IsIntegral v → ∀ (fuel room : Nat) (rest : List Char),
    Closes rest → (v.write []).length ≤ fuel + 1 →
      value? (fuel + 1) room (v.write rest) = some (limited room v, rest)
  | .null, _, fuel, room, rest, _, _ => by simp [write, value?, skipBlanks, isBlank, limited]
  | .bool true, _, fuel, room, rest, _, _ => by simp [write, value?, skipBlanks, isBlank, limited]
  | .bool false, _, fuel, room, rest, _, _ => by simp [write, value?, skipBlanks, isBlank, limited]
  | .int n, hv, fuel, room, rest, hrest, _ => by
    obtain ⟨c, cs, hcs, hc⟩ := toList_toString n
    have hn := number?_int hv hrest
    rw [write, hcs, List.cons_append, value?_number hc]
    rw [hcs, List.cons_append] at hn
    rw [hn, limited]
  | .string s, _, fuel, room, rest, _, _ => by
    have hs := string?_escaped s rest
    simp [write, writeString, value?, skipBlanks, isBlank, limited, hs]
  | .array [], _, fuel, room, rest, _, _ => by
    simp [write, value?, skipBlanks, isBlank, limited, limitedItems]
  | .array (v :: vs), hv, fuel, room, rest, hrest, hfuel => by
    have hitems := items?_write (v :: vs) hv (by simp) fuel (room - 1) rest
      (by simpa [writeItems, write] using hfuel)
    obtain ⟨c, cs, hcs, hskip, hc⟩ := write_head hv.1 (writeItems vs rest)
    rw [writeItems, List.tail_cons, hcs] at hitems
    have hopen : skipBlanks ('[' :: c :: cs) = '[' :: c :: cs := rfl
    rw [write, value?, hcs, hopen]
    simp only [hskip]
    split
    case h_1 heq => exact absurd (List.cons.inj heq).1 hc
    case h_2 => simp [hitems, limited]
  | .object [], _, fuel, room, rest, _, _ => by
    simp [write, value?, skipBlanks, isBlank, limited, limitedFields]
  | .object ((k, v) :: fs), hv, fuel, room, rest, hrest, hfuel => by
    have hfields := fields?_write ((k, v) :: fs) hv (by simp) fuel (room - 1) rest
      (by simpa [writeFields, write] using hfuel)
    rw [writeFields, List.tail_cons, writeString, List.cons_append] at hfields
    rw [write, value?, writeString, List.cons_append]
    simp [skipBlanks, isBlank, hfields, limited]
theorem items?_write : ∀ (vs : List Json), AreIntegral vs → vs ≠ [] →
    ∀ (fuel room : Nat) (rest : List Char), (writeItems vs []).length ≤ fuel + 1 →
      items? fuel room (writeItems vs rest).tail = some (limitedItems room vs, rest)
  | v :: vs, hv, _, fuel, room, rest, hfuel => by
    have hlength := length_writeItems v vs
    have hpos := length_write_pos hv.1
    have hposItems := length_writeItems_pos vs
    obtain ⟨fuel, rfl⟩ : ∃ n, fuel = n + 2 := ⟨fuel - 2, by omega⟩
    have hvalue := value?_write v hv.1 fuel room (writeItems vs rest) (closes_writeItems vs rest)
      (by omega)
    rw [writeItems, List.tail_cons, items?, hvalue]
    simp only [bind, Option.bind_some, skipBlanks_closes (closes_writeItems vs rest)]
    cases hvs : vs with
    | nil => simp [writeItems, limitedItems]
    | cons w ws =>
      have hitems := items?_write vs hv.2 (by simp [hvs]) (fuel + 1) room rest (by omega)
      rw [hvs, writeItems, List.tail_cons] at hitems
      simp [writeItems, limitedItems, hitems]
  | [], _, h, _, _, _, _ => absurd rfl h
theorem fields?_write : ∀ (fs : Fields), FieldsIntegral fs → fs ≠ [] →
    ∀ (fuel room : Nat) (rest : List Char), (writeFields fs []).length ≤ fuel + 1 →
      fields? fuel room (writeFields fs rest).tail = some (limitedFields room fs, rest)
  | (k, v) :: fs, hv, _, fuel, room, rest, hfuel => by
    have hlength := length_writeFields k v fs
    have hpos := length_writeFields_pos fs
    obtain ⟨fuel, rfl⟩ : ∃ n, fuel = n + 2 := ⟨fuel - 2, by omega⟩
    have hvalue := value?_write v hv.1 fuel room (writeFields fs rest) (closes_writeFields fs rest)
      (by omega)
    have hkey := string?_escaped k (':' :: v.write (writeFields fs rest))
    rw [writeFields, List.tail_cons, fields?, writeString]
    have hquote (cs : List Char) : skipBlanks ('"' :: cs) = '"' :: cs := rfl
    have hcolon (cs : List Char) : skipBlanks (':' :: cs) = ':' :: cs := rfl
    simp only [List.cons_append, hquote, hkey, bind, Option.bind_some, hcolon, hvalue,
      skipBlanks_closes (closes_writeFields fs rest)]
    rcases hfs : fs with _ | ⟨⟨k', v'⟩, fs'⟩
    · simp [writeFields, limitedFields]
    · have hfields := fields?_write fs hv.2 (by simp [hfs]) (fuel + 1) room rest (by omega)
      rw [hfs, writeFields, List.tail_cons] at hfields
      simp [writeFields, limitedFields, hfields]
  | [], _, h, _, _, _, _ => absurd rfl h
end

theorem ofText?_write {v : Json} (hv : IsIntegral v) :
    ofText? (v.write []) = some (limited levelLimit v) := by
  have h := value?_write v hv (v.write []).length levelLimit [] (by simp [Closes]) (by omega)
  rw [ofText?, h]
  rfl

mutual
/-- A value that is not too deep is read back with its fields in order; of a
deeper one there is none. -/
theorem toJson?_limited : ∀ (v : Json) (room : Nat),
    toJson? (limited room v) = if v.levels ≤ room then some v.canonical else none
  | .null, _ | .bool _, _ | .int _, _ | .float _, _ | .string _, _ => by
    simp [limited, toJson?, levels, canonical]
  | .array items, room => by
    have h := itemValues?_limited items (room - 1)
    cases room with
    | zero => simp [limited, nested, toJson?, levels]
    | succ room =>
      rw [Nat.add_sub_cancel] at h
      by_cases hl : levelsOfItems items ≤ room <;>
        simp [limited, nested, toJson?, levels, canonical, h, hl]
  | .object fields, room => by
    have h := fieldValues?_limited fields (room - 1)
    cases room with
    | zero => simp [limited, nested, toJson?, levels]
    | succ room =>
      rw [Nat.add_sub_cancel] at h
      by_cases hl : levelsOfFields fields ≤ room <;>
        simp [limited, nested, toJson?, levels, canonical, h, hl, Json.ofFields]
theorem itemValues?_limited : ∀ (vs : List Json) (room : Nat),
    itemValues? (limitedItems room vs) =
      if levelsOfItems vs ≤ room then some (canonicalItems vs) else none
  | [], _ => by simp [limitedItems, itemValues?, levelsOfItems, canonicalItems]
  | v :: vs, room => by
    have hv := toJson?_limited v room
    have hvs := itemValues?_limited vs room
    simp only [limitedItems, itemValues?, levelsOfItems, canonicalItems, hv, hvs, Nat.max_le]
    by_cases h : v.levels ≤ room <;> by_cases hs : levelsOfItems vs ≤ room <;> simp [h, hs]
theorem fieldValues?_limited : ∀ (fs : Fields) (room : Nat),
    fieldValues? (limitedFields room fs) =
      if levelsOfFields fs ≤ room then some (canonicalFields fs) else none
  | [], _ => by simp [limitedFields, fieldValues?, levelsOfFields, canonicalFields]
  | (k, v) :: fs, room => by
    have hv := toJson?_limited v room
    have hfs := fieldValues?_limited fs room
    simp only [limitedFields, fieldValues?, levelsOfFields, canonicalFields, hv, hfs, Nat.max_le]
    by_cases h : v.levels ≤ room <;> by_cases hs : levelsOfFields fs ≤ room <;> simp [h, hs]
end

end BundleGraph.Json.Tree
