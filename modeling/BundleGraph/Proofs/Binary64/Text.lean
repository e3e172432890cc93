import BundleGraph.Proofs.Binary64.Shortest
import Mathlib.Data.List.TakeWhile

/-!
# Texts of values

A text has one sign and one number that it stands for, whichever way its digits
are laid out. So two finite values with one text are the same value.
-/

namespace BundleGraph.Binary64

-- ---------------------------------------------------------------------------
-- The number of a text
-- ---------------------------------------------------------------------------

/-- The number of digits around a point. -/
def pointValue (cs : List Char) : ℚ :=
  let decimals := (cs.dropWhile (· != '.')).drop 1
  Nat.ofDigitChars 10 (cs.takeWhile (· != '.') ++ decimals) 0 / 10 ^ decimals.length

def exponentValue : List Char → Int
  | '-' :: ds => -(Nat.ofDigitChars 10 ds 0)
  | '+' :: ds => Nat.ofDigitChars 10 ds 0
  | _ => 0

/-- The number that a text without a sign stands for. -/
def decimalValue (cs : List Char) : ℚ :=
  pointValue (cs.takeWhile (· != 'e')) * 10 ^ exponentValue ((cs.dropWhile (· != 'e')).drop 1)

/-- A text of digits and points. -/
def Positional (cs : List Char) : Prop := ∀ c ∈ cs, c.isDigit ∨ c = '.'

theorem isDigit_bne {c d : Char} (hc : c.isDigit) (hd : d.isDigit = false) : (c != d) = true := by
  refine bne_iff_ne.mpr ?_
  rintro rfl
  rw [hc] at hd
  cases hd

theorem pointValue_append (whole decimals : List Char) (hwhole : ∀ c ∈ whole, c.isDigit) :
    pointValue (whole ++ '.' :: decimals) =
      Nat.ofDigitChars 10 (whole ++ decimals) 0 / 10 ^ decimals.length := by
  have hfront : ∀ c ∈ whole, (c != '.') = true := fun c hc => isDigit_bne (hwhole c hc) rfl
  simp [pointValue, List.takeWhile_append_of_pos hfront, List.dropWhile_append_of_pos hfront]

theorem pointValue_digits {ds : List Char} (hds : ∀ c ∈ ds, c.isDigit) :
    pointValue ds = Nat.ofDigitChars 10 ds 0 := by
  have hall : ∀ c ∈ ds, (c != '.') = true := fun c hc => isDigit_bne (hds c hc) rfl
  simp [pointValue, List.takeWhile_eq_self_iff.mpr hall, List.dropWhile_eq_nil_iff.mpr hall]

theorem Positional.bne_e {cs : List Char} (h : Positional cs) : ∀ c ∈ cs, (c != 'e') = true := by
  intro c hc
  rcases h c hc with hd | rfl
  · exact isDigit_bne hd rfl
  · rfl

theorem decimalValue_positional {cs : List Char} (h : Positional cs) :
    decimalValue cs = pointValue cs := by
  simp [decimalValue, List.takeWhile_eq_self_iff.mpr h.bne_e,
    List.dropWhile_eq_nil_iff.mpr h.bne_e, exponentValue]

theorem decimalValue_scientific {cs : List Char} (h : Positional cs) (e : List Char) :
    decimalValue (cs ++ 'e' :: e) = pointValue cs * 10 ^ exponentValue e := by
  simp [decimalValue, List.takeWhile_append_of_pos h.bne_e, List.dropWhile_append_of_pos h.bne_e]

-- ---------------------------------------------------------------------------
-- Layouts
-- ---------------------------------------------------------------------------

theorem isDigit_zeros {n : Nat} {c : Char} (h : c ∈ zeros n) : c.isDigit := by
  rw [List.eq_of_mem_replicate h]
  rfl

theorem ofDigitChars_zeros (n init : Nat) :
    Nat.ofDigitChars 10 (zeros n) init = 10 ^ n * init := Nat.ofDigitChars_replicate_zero

theorem exponentValue_signed (e : Int) :
    exponentValue ((if e < 0 then '-' else '+') :: (toString e.natAbs).toList) = e := by
  split
  case isTrue h => simp [exponentValue, Nat.repr_eq_ofList_toDigits, abs_of_neg h]
  case isFalse h =>
    simp [exponentValue, Nat.repr_eq_ofList_toDigits, abs_of_nonneg (Int.not_lt.mp h)]

theorem decimalValue_layout_scientific {ds : List Char} (hds : ∀ c ∈ ds, c.isDigit) (hne : ds ≠ [])
    {lead : Int} (h : lead < -5 ∨ 15 < lead) : decimalValue (layout ds lead) =
      Nat.ofDigitChars 10 ds 0 / 10 ^ (ds.length - 1) * 10 ^ lead := by
  rw [layout, if_pos h]
  obtain ⟨d, ds, rfl⟩ := List.exists_cons_of_ne_nil hne
  cases ds with
  | nil =>
    have hd : Positional [d] := fun c hc => .inl (hds c hc)
    have hvalue := decimalValue_scientific hd
      ((if lead < 0 then '-' else '+') :: (toString lead.natAbs).toList)
    rw [exponentValue_signed, pointValue_digits hds] at hvalue
    simpa using hvalue
  | cons c ds =>
    have hpos : Positional (d :: '.' :: c :: ds) := by
      simp_all [Positional]
    have hvalue := decimalValue_scientific hpos
      ((if lead < 0 then '-' else '+') :: (toString lead.natAbs).toList)
    have hpoint := pointValue_append [d] (c :: ds) (by simp_all)
    rw [List.singleton_append, List.singleton_append] at hpoint
    rw [exponentValue_signed, hpoint] at hvalue
    simpa using hvalue

theorem decimalValue_layout_fraction {ds : List Char} (hds : ∀ c ∈ ds, c.isDigit) (n : Nat) :
    decimalValue ('0' :: '.' :: zeros n ++ ds) =
      Nat.ofDigitChars 10 ds 0 / 10 ^ (n + ds.length) := by
  have hpos : Positional ('0' :: '.' :: zeros n ++ ds) := by
    intro c hc
    simp only [List.cons_append, List.mem_cons, List.mem_append] at hc
    obtain rfl | rfl | hc | hc := hc
    · exact .inl rfl
    · exact .inr rfl
    · exact .inl (isDigit_zeros hc)
    · exact .inl (hds c hc)
  have hvalue := pointValue_append ['0'] (zeros n ++ ds) (by simp)
  rw [List.singleton_append, ← List.cons_append, ← List.cons_append] at hvalue
  rw [decimalValue_positional hpos, hvalue, List.singleton_append, Nat.ofDigitChars_cons,
    Nat.ofDigitChars_append, ofDigitChars_zeros]
  simp [zeros]

theorem decimalValue_layout_pointed {ds : List Char} (hds : ∀ c ∈ ds, c.isDigit) (n : Nat) :
    decimalValue (ds.take n ++ '.' :: ds.drop n) =
      Nat.ofDigitChars 10 ds 0 / 10 ^ (ds.length - n) := by
  have htake : ∀ c ∈ ds.take n, c.isDigit := fun c hc => hds c (List.mem_of_mem_take hc)
  have hpos : Positional (ds.take n ++ '.' :: ds.drop n) := by
    intro c hc
    simp only [List.mem_append, List.mem_cons] at hc
    obtain hc | rfl | hc := hc
    · exact .inl (htake c hc)
    · exact .inr rfl
    · exact .inl (hds c (List.mem_of_mem_drop hc))
  rw [decimalValue_positional hpos, pointValue_append _ _ htake, List.take_append_drop,
    List.length_drop]

theorem decimalValue_layout_whole {ds : List Char} (hds : ∀ c ∈ ds, c.isDigit) (n : Nat) :
    decimalValue (ds ++ zeros n ++ ['.', '0']) = Nat.ofDigitChars 10 ds 0 * 10 ^ n := by
  have hwhole : ∀ c ∈ ds ++ zeros n, c.isDigit := by
    intro c hc
    rcases List.mem_append.mp hc with hc | hc
    · exact hds c hc
    · exact isDigit_zeros hc
  have hpos : Positional (ds ++ zeros n ++ ['.', '0']) := by
    intro c hc
    simp only [List.mem_append (t := ['.', '0']), List.mem_cons, List.not_mem_nil, or_false] at hc
    obtain hc | rfl | rfl := hc
    · exact .inl (hwhole c hc)
    · exact .inr rfl
    · exact .inl rfl
  rw [decimalValue_positional hpos, pointValue_append _ _ hwhole, Nat.ofDigitChars_append,
    Nat.ofDigitChars_append, ofDigitChars_zeros]
  simp [Nat.ofDigitChars_cons]
  ring

theorem decimalValue_layout {ds : List Char} (hds : ∀ c ∈ ds, c.isDigit) (hne : ds ≠ [])
    (lead : Int) : decimalValue (layout ds lead) =
      Nat.ofDigitChars 10 ds 0 * 10 ^ (lead + 1 - ds.length) := by
  have hten : (10 : ℚ) ≠ 0 := by norm_num
  have hlength := List.length_pos_iff.mpr hne
  by_cases h : lead < -5 ∨ 15 < lead
  · have hexp : lead + 1 - ds.length = -(ds.length - 1 : Nat) + lead := by omega
    rw [decimalValue_layout_scientific hds hne h, hexp, zpow_add₀ hten, zpow_neg, zpow_natCast]
    ring
  rw [layout, if_neg h]
  split
  case isTrue hneg =>
    obtain ⟨n, rfl⟩ : ∃ n : Nat, lead = -(n + 1 : Nat) := ⟨(-lead - 1).toNat, by omega⟩
    have habs : (-((n + 1 : Nat) : Int)).natAbs - 1 = n := by omega
    have hexp : -((n + 1 : Nat) : Int) + 1 - ds.length = -((n + ds.length : Nat) : Int) := by omega
    rw [habs, decimalValue_layout_fraction hds, hexp, zpow_neg, zpow_natCast, div_eq_mul_inv]
  case isFalse hpos =>
    obtain ⟨n, rfl⟩ := Int.eq_ofNat_of_zero_le (Int.not_lt.mp hpos)
    rw [Int.toNat_natCast]
    rcases Nat.lt_or_ge (n + 1) ds.length with hlt | hge
    · have hdrop : (ds.drop (n + 1)).isEmpty = false := by simp [hlt]
      have hzeros : n + 1 - (ds.take (n + 1)).length = 0 := by simp; omega
      have hexp : (n : Int) + 1 - ds.length = -((ds.length - (n + 1) : Nat) : Int) := by omega
      have hvalue := decimalValue_layout_pointed hds (n + 1)
      simp only [hdrop, hzeros, zeros, List.replicate_zero, List.append_nil,
        Bool.false_eq_true, if_false]
      rw [hvalue, hexp, zpow_neg, zpow_natCast, div_eq_mul_inv]
    · obtain ⟨k, hk⟩ := Nat.exists_eq_add_of_le hge
      have hexp : (n : Int) + 1 - ds.length = k := by omega
      have hvalue := decimalValue_layout_whole hds k
      rw [List.take_of_length_le hge, List.drop_of_length_le hge, hk, hexp, zpow_natCast]
      simp only [Nat.add_sub_cancel_left]
      exact hvalue

-- ---------------------------------------------------------------------------
-- Characters
-- ---------------------------------------------------------------------------

def IsNumeral (c : Char) : Prop := c.isDigit ∨ c = '.' ∨ c = 'e' ∨ c = '-' ∨ c = '+'

/-- A text of numerals that starts with a digit and has a point or an exponent. -/
structure IsNumber (cs : List Char) : Prop where
  numerals : ∀ c ∈ cs, IsNumeral c
  marked : '.' ∈ cs ∨ 'e' ∈ cs
  head : ∃ c, cs.head? = some c ∧ c.isDigit

theorem isDigit_toString {n : Nat} {c : Char} (h : c ∈ (toString n).toList) : c.isDigit := by
  refine Nat.isDigit_of_mem_toDigits (b := 10) (n := n) (by decide) (by decide) ?_
  simpa [Nat.repr_eq_ofList_toDigits] using h

theorem isNumeral_digits {ds : List Char} (hds : ∀ c ∈ ds, c.isDigit) : ∀ c ∈ ds, IsNumeral c :=
  fun c hc => .inl (hds c hc)

theorem isNumber_layout {ds : List Char} (hds : ∀ c ∈ ds, c.isDigit) (hne : ds ≠ [])
    (lead : Int) : IsNumber (layout ds lead) := by
  have htake (n : Nat) : ∀ c ∈ ds.take n, IsNumeral c := fun c hc =>
    .inl (hds c (List.mem_of_mem_take hc))
  have hdrop (n : Nat) : ∀ c ∈ ds.drop n, IsNumeral c := fun c hc =>
    .inl (hds c (List.mem_of_mem_drop hc))
  have hzeros (n : Nat) : ∀ c ∈ zeros n, IsNumeral c := fun c hc => .inl (isDigit_zeros hc)
  have hhead (n : Nat) : ∃ c, (ds.take (n + 1)).head? = some c ∧ c.isDigit := by
    obtain ⟨d, ds, rfl⟩ := List.exists_cons_of_ne_nil hne
    exact ⟨d, rfl, hds d (by simp)⟩
  have hzero : IsNumeral '0' := .inl rfl
  have hpoint : IsNumeral '.' := .inr (.inl rfl)
  rw [layout]
  split
  case isTrue h =>
    have he : ∀ c ∈ 'e' :: (if lead < 0 then '-' else '+') :: (toString lead.natAbs).toList,
        IsNumeral c := by
      refine List.forall_mem_cons.mpr ⟨by simp [IsNumeral], List.forall_mem_cons.mpr ⟨?_, ?_⟩⟩
      · split <;> simp [IsNumeral]
      · exact isNumeral_digits fun c => isDigit_toString
    refine ⟨?_, .inr (by simp), ?_⟩
    · refine List.forall_mem_append.mpr ⟨List.forall_mem_append.mpr ⟨htake 1, ?_⟩, he⟩
      split
      · simp
      · exact List.forall_mem_cons.mpr ⟨hpoint, hdrop 1⟩
    · obtain ⟨c, hc, hd⟩ := hhead 0
      exact ⟨c, by simp [List.head?_append, hc], hd⟩
  case isFalse h =>
    split
    case isTrue hneg =>
      refine ⟨?_, .inl (by simp), '0', rfl, rfl⟩
      exact List.forall_mem_append.mpr ⟨List.forall_mem_cons.mpr ⟨hzero,
        List.forall_mem_cons.mpr ⟨hpoint, hzeros _⟩⟩, isNumeral_digits hds⟩
    case isFalse hpos =>
      refine ⟨?_, .inl (by simp), ?_⟩
      · refine List.forall_mem_append.mpr ⟨List.forall_mem_append.mpr ⟨htake _, hzeros _⟩,
          List.forall_mem_cons.mpr ⟨hpoint, ?_⟩⟩
        split
        · simp [hzero]
        · exact hdrop _
      · obtain ⟨c, hc, hd⟩ := hhead lead.toNat
        exact ⟨c, by simp only [List.head?_append, hc]; rfl, hd⟩

-- ---------------------------------------------------------------------------
-- Sign and number
-- ---------------------------------------------------------------------------

/-- The text without the sign. -/
def body (x : Binary64) : List Char :=
  if x.isZero then ['0', '.', '0']
  else
    layout (toString x.shortest.digits).toList
      (x.shortest.exponent + (toString x.shortest.digits).toList.length - 1)

theorem toList_text (x : Binary64) :
    x.text.toList = (if x.isNegative then ['-'] else []) ++ x.body := by
  rw [text, String.toList_ofList]
  rfl

theorem isNumber_body (x : Binary64) : IsNumber x.body := by
  rw [body]
  split
  case isTrue h => exact ⟨by simp [IsNumeral, Char.isDigit], .inl (by simp), '0', rfl, rfl⟩
  case isFalse h =>
    refine isNumber_layout (fun c => isDigit_toString) ?_ _
    simp [Nat.repr_eq_ofList_toDigits, Nat.toDigits_ne_nil]

theorem isZero_iff (x : Binary64) : x.isZero ↔ x.magnitude = 0 := by
  have hpow : Nat.pow 2 52 = 4503599627370496 := rfl
  simp only [isZero, significand_eq, significandOf, hpow, decide_eq_true_eq]
  split <;> omega

theorem decimalValue_body_zero {x : Binary64} (h : x.magnitude = 0) : decimalValue x.body = 0 := by
  have hvalue := decimalValue_layout_whole (by simp : ∀ c ∈ ['0'], c.isDigit) 0
  rw [body, if_pos ((isZero_iff x).mpr h)]
  simpa [zeros, Nat.ofDigitChars_cons] using hvalue

theorem decimalValue_body {x : Binary64} (h : 0 < x.magnitude) :
    decimalValue x.body = x.shortest.value := by
  have hzero : ¬ x.isZero := fun hz => h.ne' ((isZero_iff x).mp hz)
  rw [body, if_neg hzero, decimalValue_layout (fun c => isDigit_toString)]
  · have hexp (n : Nat) : x.shortest.exponent + n - 1 + 1 - n = x.shortest.exponent := by omega
    rw [hexp, Decimal.value]
    simp [Nat.repr_eq_ofList_toDigits]
  · simp [Nat.repr_eq_ofList_toDigits, Nat.toDigits_ne_nil]

theorem magnitude_of_body {x y : Binary64} (hx : x.isFinite) (hy : y.isFinite)
    (h : x.body = y.body) : x.magnitude = y.magnitude := by
  have hvalue := congrArg decimalValue h
  have hpos {z : Binary64} (hz : z.isFinite) (hm : 0 < z.magnitude) : 0 < decimalValue z.body := by
    rw [decimalValue_body hm, Decimal.value]
    have hd : (0 : ℚ) < z.shortest.digits := by exact_mod_cast (roundsTo_shortest hz hm).1
    positivity
  rcases Nat.eq_zero_or_pos x.magnitude with hx0 | hx0 <;>
    rcases Nat.eq_zero_or_pos y.magnitude with hy0 | hy0
  · rw [hx0, hy0]
  · exact absurd ((decimalValue_body_zero hx0).symm.trans hvalue) (hpos hy hy0).ne
  · exact absurd (hvalue.trans (decimalValue_body_zero hy0)) (hpos hx hx0).ne'
  · rw [decimalValue_body hx0, decimalValue_body hy0] at hvalue
    exact (hvalue ▸ (roundsTo_shortest hx hx0).2).unique (roundsTo_shortest hy hy0).2

theorem text_injective {x y : Binary64} (hx : x.isFinite) (hy : y.isFinite)
    (h : x.text = y.text) : x = y := by
  have hlist := congrArg String.toList h
  rw [toList_text, toList_text] at hlist
  have hhead (z : Binary64) : z.body.head? ≠ some '-' := by
    obtain ⟨c, hc, hd⟩ := (isNumber_body z).head
    rw [hc]
    rintro ⟨⟩
    cases hd
  cases hxs : x.isNegative <;> cases hys : y.isNegative <;> rw [hxs, hys] at hlist
  case false.false => exact eq_of_magnitude (hxs.trans hys.symm) (magnitude_of_body hx hy hlist)
  case false.true => exact absurd (congrArg List.head? hlist) (hhead x)
  case true.false => exact absurd (congrArg List.head? hlist).symm (hhead y)
  case true.true =>
    exact eq_of_magnitude (hxs.trans hys.symm) (magnitude_of_body hx hy (List.cons.inj hlist).2)

end BundleGraph.Binary64
