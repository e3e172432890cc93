import BundleGraph.Proofs.Binary64.Interval
import Mathlib.Algebra.Order.Field.Power

/-!
# Shortest digits stay in the interval

The search ends on one of its grids: the grid of seventeen digits is finer than
the gap between a value and the end of its interval. So the decimal that is
found rounds to the value it was made from.
-/

namespace BundleGraph.Binary64

def Decimal.value (d : Decimal) : ℚ := d.digits * 10 ^ d.exponent

-- ---------------------------------------------------------------------------
-- Grids
-- ---------------------------------------------------------------------------

/-- `10 ^ e` as a fraction. -/
def step (e : Int) : Nat × Nat :=
  if 0 ≤ e then (Nat.pow 10 e.toNat, 1) else (1, Nat.pow 10 (-e).toNat)

theorem step_pos (e : Int) : 0 < (step e).1 ∧ 0 < (step e).2 := by
  rw [step]
  split
  · exact ⟨Nat.pow_pos (by decide), Nat.one_pos⟩
  · exact ⟨Nat.one_pos, Nat.pow_pos (by decide)⟩

theorem step_eq (e : Int) : ((step e).1 : ℚ) / (step e).2 = 10 ^ e := by
  rw [step]
  split
  case isTrue h =>
    obtain ⟨n, rfl⟩ := Int.eq_ofNat_of_zero_le h
    simp [Nat.pow_eq]
  case isFalse h =>
    obtain ⟨n, hn⟩ : ∃ n : Nat, e = -n := ⟨(-e).toNat, by omega⟩
    subst hn
    simp [Nat.pow_eq]

/-- The multiple of a step that is a number of digits on a grid. -/
def Interval.Holds (i : Interval) (d : Decimal) : Prop :=
  0 < d.digits ∧ i.contains (d.digits * (step d.exponent).1) (step d.exponent).2

/-- What is found on a grid fits: it is one of the two neighbours of the value. -/
theorem onGrid?_holds {i : Interval} {e : Int} {digits : Nat} (h : onGrid? i e = some digits) :
    i.Holds ⟨digits, e⟩ := by
  have hstep : (if 0 ≤ e then (Nat.pow 10 e.toNat, 1) else (1, Nat.pow 10 (-e).toNat)) = step e :=
    rfl
  rw [onGrid?, hstep] at h
  dsimp only at h
  split at h
  case h_1 hbelow habove =>
    split at h <;> cases h
    · simpa [Interval.Holds] using hbelow
    · simpa [Interval.Holds] using habove
  case h_2 hbelow _ =>
    cases h
    simpa [Interval.Holds] using hbelow
  case h_3 _ habove =>
    cases h
    simpa [Interval.Holds] using habove
  case h_4 => cases h

/-- A grid whose step fits into the gap below the value has a hit. -/
theorem onGrid?_hit {i : Interval} {e : Int} (gap : Nat) (hlow : i.low + gap ≤ i.value)
    (hhigh : i.value < i.high) (hden : 0 < i.den)
    (hstep : i.den * (step e).1 ≤ gap * (step e).2) : ∃ digits, onGrid? i e = some digits := by
  have hif : (if 0 ≤ e then (Nat.pow 10 e.toNat, 1) else (1, Nat.pow 10 (-e).toNat)) = step e :=
    rfl
  obtain ⟨hnum, hsd⟩ := step_pos e
  rw [onGrid?, hif]
  clear hif
  generalize step e = fraction at *
  obtain ⟨num, den⟩ := fraction
  dsimp only at *
  have hunit : 0 < i.den * num := Nat.mul_pos hden hnum
  have hvalue : i.low * den + gap * den ≤ i.value * den := by
    rw [← Nat.add_mul]
    exact Nat.mul_le_mul_right den hlow
  have hover : i.value * den < i.high * den := Nat.mul_lt_mul_of_pos_right hhigh hsd
  have hdiv := Nat.div_add_mod (i.value * den) (i.den * num)
  have hmod := Nat.mod_lt (i.value * den) hunit
  have hbelow : 0 < i.value * den / (i.den * num) := Nat.div_pos (by omega) hunit
  have hends : i.low * den < i.value * den / (i.den * num) * num * i.den ∧
      i.value * den / (i.den * num) * num * i.den < i.high * den := by
    have hcomm : i.value * den / (i.den * num) * num * i.den =
        i.den * num * (i.value * den / (i.den * num)) := by ring
    rw [hcomm]
    omega
  have hfits : i.contains (i.value * den / (i.den * num) * num) den := by
    rw [Interval.contains]
    split
    · simp [hends.1.le, hends.2.le]
    · simp [hends.1, hends.2]
  simp only [hbelow, hfits, decide_true, Bool.and_self]
  split
  case h_1 => exact ⟨_, rfl⟩
  case h_2 => exact ⟨_, rfl⟩
  case h_3 hno _ => cases hno
  case h_4 hno _ => cases hno

theorem searchGrid_holds {i : Interval} {count : Nat} {e : Int}
    (h : ∃ k < count, ∃ digits, onGrid? i (e - k) = some digits) :
    i.Holds (searchGrid i count e) := by
  induction count generalizing e with
  | zero => obtain ⟨k, hk, -⟩ := h; omega
  | succ count ih =>
    rw [searchGrid]
    cases hg : onGrid? i e with
    | some digits => exact onGrid?_holds hg
    | none =>
      obtain ⟨k, hk, digits, hd⟩ := h
      cases k with
      | zero => simp [hg] at hd
      | succ k =>
        have he : e - 1 - k = e - (k + 1 : Nat) := by omega
        exact ih ⟨k, by omega, digits, he ▸ hd⟩

theorem value_stripZeros (fuel digits : Nat) (e : Int) :
    (stripZeros fuel digits e).value = digits * 10 ^ e ∧
      (0 < digits → 0 < (stripZeros fuel digits e).digits) := by
  induction fuel generalizing digits e with
  | zero => exact ⟨rfl, id⟩
  | succ fuel ih =>
    rw [stripZeros]
    split
    case isTrue h =>
      obtain ⟨hvalue, hpos⟩ := ih (digits / 10) (e + 1)
      refine ⟨?_, fun _ => hpos (by omega)⟩
      have hten : (digits : ℚ) = 10 * (digits / 10 : Nat) := by
        exact_mod_cast (Nat.mul_div_cancel' (Nat.dvd_of_mod_eq_zero h.1)).symm
      rw [hvalue, hten, zpow_add_one₀ (by norm_num)]
      ring
    case isFalse h => exact ⟨rfl, id⟩

-- ---------------------------------------------------------------------------
-- Powers of ten below a number
-- ---------------------------------------------------------------------------

theorem scale_eq (num den : Nat) (shift : Int) (hden : 0 < den) :
    0 < (scale num den shift).2 ∧
    ((scale num den shift).1 : ℚ) / (scale num den shift).2 = num / den * 2 ^ shift := by
  rw [scale]
  split
  case isTrue h =>
    obtain ⟨n, rfl⟩ := Int.eq_ofNat_of_zero_le h
    refine ⟨hden, ?_⟩
    simp [Nat.pow_eq]
    ring
  case isFalse h =>
    obtain ⟨n, hn⟩ : ∃ n : Nat, shift = -n := ⟨(-shift).toNat, by omega⟩
    subst hn
    refine ⟨Nat.mul_pos hden (Nat.two_pow_pos _), ?_⟩
    simp [Nat.pow_eq]
    field_simp

theorem two_zpow_binaryExponent_le {num den : Nat} (hnum : 0 < num) (hden : 0 < den) :
    (2 : ℚ) ^ binaryExponent num den ≤ num / den := by
  have hden' : (0 : ℚ) < den := by exact_mod_cast hden
  rw [binaryExponent]
  obtain ⟨hpos, hscale⟩ := scale_eq num den (-((Nat.log2 num : Int) - Nat.log2 den)) hden
  generalize hs : scale num den (-((Nat.log2 num : Int) - Nat.log2 den)) = s at *
  obtain ⟨n, d⟩ := s
  dsimp only at *
  split
  case isTrue h =>
    have hlog : (2 : ℚ) ^ Nat.log2 num ≤ num := by exact_mod_cast Nat.log2_self_le hnum.ne'
    have hlt : (den : ℚ) ≤ 2 ^ (Nat.log2 den + 1) := by exact_mod_cast (Nat.lt_log2_self).le
    rw [le_div_iff₀ hden']
    calc (2 : ℚ) ^ ((Nat.log2 num : Int) - Nat.log2 den - 1) * den
        ≤ 2 ^ ((Nat.log2 num : Int) - Nat.log2 den - 1) * 2 ^ (Nat.log2 den + 1) :=
          mul_le_mul_of_nonneg_left hlt (by positivity)
      _ = 2 ^ Nat.log2 num := by
          rw [← zpow_natCast, ← zpow_natCast, ← zpow_add₀ (by norm_num)]
          congr 1
          push_cast
          ring
      _ ≤ num := hlog
  case isFalse h =>
    have hone : (1 : ℚ) ≤ n / d := by
      rw [one_le_div (by exact_mod_cast hpos)]
      exact_mod_cast Nat.le_of_not_lt h
    rw [hscale, zpow_neg, ← div_eq_mul_inv, one_le_div (by positivity)] at hone
    exact hone

theorem ten_zpow_estimate_le {b : Int} (hlow : -1200 < b) (hhigh : b < 1200) :
    (10 : ℚ) ^ (b * 1233 / 4096 - 1) ≤ 2 ^ b := by
  have hpos : ∀ n < 1200, Nat.pow 10 (n * 1233 / 4096) ≤ Nat.pow 2 n := by decide +kernel
  have hneg : ∀ n < 1200, Nat.pow 2 n ≤ Nat.pow 10 ((n * 1233 + 4095) / 4096 + 1) := by
    decide +kernel
  rcases Int.le_total 0 b with hb | hb
  · obtain ⟨n, rfl⟩ := Int.eq_ofNat_of_zero_le hb
    calc (10 : ℚ) ^ ((n : Int) * 1233 / 4096 - 1) ≤ 10 ^ ((n * 1233 / 4096 : Nat) : Int) :=
          zpow_le_zpow_right₀ (by norm_num) (by push_cast; omega)
      _ ≤ 2 ^ (n : Int) := by
          rw [zpow_natCast, zpow_natCast]
          exact_mod_cast hpos n (by omega)
  · obtain ⟨n, hn⟩ : ∃ n : Nat, b = -n := ⟨(-b).toNat, by omega⟩
    subst hn
    have he : -(n : Int) * 1233 / 4096 - 1 = -(((n * 1233 + 4095) / 4096 + 1 : Nat) : Int) := by
      push_cast
      omega
    rw [he, zpow_neg, zpow_neg, zpow_natCast, zpow_natCast]
    refine inv_anti₀ (by positivity) ?_
    exact_mod_cast hneg n (by omega)

theorem ten_zpow_le_of_step {num den : Nat} (hden : 0 < den) {e : Int}
    (h : den * (step e).1 ≤ num * (step e).2) : (10 : ℚ) ^ e ≤ num / den := by
  obtain ⟨-, hpos⟩ := step_pos e
  rw [← step_eq, div_le_div_iff₀ (by exact_mod_cast hpos) (by exact_mod_cast hden)]
  exact_mod_cast (Nat.mul_comm _ _).trans_le h

theorem step_of_ten_zpow_le {num den : Nat} (hden : 0 < den) {e : Int}
    (h : (10 : ℚ) ^ e ≤ num / den) : den * (step e).1 ≤ num * (step e).2 := by
  obtain ⟨-, hpos⟩ := step_pos e
  rw [← step_eq, div_le_div_iff₀ (by exact_mod_cast hpos) (by exact_mod_cast hden)] at h
  exact (Nat.mul_comm _ _).trans_le (by exact_mod_cast h)

theorem ten_zpow_decimalExponent_le {num den : Nat} (hnum : 0 < num) (hden : 0 < den)
    (hlow : -1200 < binaryExponent num den) (hhigh : binaryExponent num den < 1200) :
    (10 : ℚ) ^ decimalExponent num den ≤ num / den := by
  have hreach (e : Int) (h : (if 0 ≤ e then decide (den * Nat.pow 10 e.toNat ≤ num)
      else decide (den ≤ num * Nat.pow 10 (-e).toNat)) = true) :
      (10 : ℚ) ^ e ≤ num / den := by
    refine ten_zpow_le_of_step hden ?_
    by_cases he : 0 ≤ e
    · simpa [step, he] using h
    · simpa [step, he] using h
  exact iteInduction (motive := fun e => (10 : ℚ) ^ e ≤ num / den) (hreach _) fun _ =>
    iteInduction (motive := fun e => (10 : ℚ) ^ e ≤ num / den) (hreach _) fun _ =>
      (ten_zpow_estimate_le hlow hhigh).trans (two_zpow_binaryExponent_le hnum hden)

-- ---------------------------------------------------------------------------
-- The decimal of a value
-- ---------------------------------------------------------------------------

def isFinite (x : Binary64) : Bool := x.exponentField ≠ 2047

theorem significand_bounds (x : Binary64) (hx : 0 < x.magnitude) :
    0 < x.significand ∧ x.significand < 2 ^ 53 := by
  have hpow : Nat.pow 2 52 = 4503599627370496 := rfl
  rw [significand_eq, significandOf, hpow]
  split <;> omega

theorem exponent_bounds {x : Binary64} (h : x.isFinite) :
    -1074 ≤ x.exponent ∧ x.exponent ≤ 971 := by
  have hfield : x.exponentField < 2048 := Nat.mod_lt _ (by decide)
  have hne : x.exponentField ≠ 2047 := by simpa [isFinite] using h
  rw [exponent]
  split <;> omega

theorem binaryExponent_ge (num den : Nat) :
    (Nat.log2 num : Int) - Nat.log2 den - 1 ≤ binaryExponent num den := by
  rw [binaryExponent]
  dsimp only
  split <;> omega

theorem log2_scale_quarter_le {e : Int} {bias : Nat} (h : -bias ≤ e) :
    Nat.log2 (scale 1 4 e).2 ≤ bias + 2 := by
  rw [scale]
  split
  case isTrue he =>
    have hfour : Nat.log2 4 = 2 := by decide
    rw [hfour]
    exact Nat.le_add_left 2 bias
  case isFalse he =>
    have hpow : 4 * Nat.pow 2 (-e).toNat = 2 ^ ((-e).toNat + 2) := by
      rw [Nat.pow_eq, pow_add]
      ring
    rw [hpow, Nat.log2_two_pow]
    omega

theorem interval_value (x : Binary64) : 0 < x.interval.den ∧
    (x.interval.value : ℚ) / x.interval.den = x.significand * 2 ^ x.exponent := by
  obtain ⟨hd, hscale⟩ := scale_eq 1 4 x.exponent (by decide)
  have hd' : (0 : ℚ) < (scale 1 4 x.exponent).2 := by exact_mod_cast hd
  refine ⟨hd, ?_⟩
  simp only [interval]
  push_cast
  rw [mul_div_assoc, hscale]
  push_cast
  ring

theorem interval_value_pos {x : Binary64} (hx : 0 < x.magnitude) : 0 < x.interval.value := by
  obtain ⟨hden, hvalue⟩ := x.interval_value
  have hpos : (0 : ℚ) < x.significand := by exact_mod_cast (significand_bounds x hx).1
  have hquot : (0 : ℚ) < x.interval.value / x.interval.den := by
    rw [hvalue]
    positivity
  have hden' : (0 : ℚ) < x.interval.den := by exact_mod_cast hden
  exact_mod_cast (div_pos_iff_of_pos_right hden').mp hquot

theorem interval_value_lt {x : Binary64} (hx : 0 < x.magnitude) :
    (x.interval.value : ℚ) / x.interval.den < 2 ^ (53 + x.exponent) := by
  have hlt : (x.significand : ℚ) < 2 ^ 53 := by exact_mod_cast (significand_bounds x hx).2
  rw [x.interval_value.2, zpow_add₀ (by norm_num)]
  exact mul_lt_mul_of_pos_right hlt (by positivity)

theorem interval_binaryExponent {x : Binary64} (hf : x.isFinite) (hx : 0 < x.magnitude) :
    -1200 < binaryExponent x.interval.value x.interval.den ∧
      binaryExponent x.interval.value x.interval.den < 1200 := by
  obtain ⟨hlow, hhigh⟩ := exponent_bounds hf
  constructor
  · have hge := binaryExponent_ge x.interval.value x.interval.den
    have hlog : Nat.log2 x.interval.den ≤ 1074 + 2 := log2_scale_quarter_le hlow
    omega
  · have hlt := (two_zpow_binaryExponent_le (interval_value_pos hx) x.interval_value.1).trans_lt
      (interval_value_lt hx)
    have := (zpow_lt_zpow_iff_right₀ (by norm_num)).mp hlt
    omega

/-- Seventeen digits suffice: their grid is finer than the gap below the value. -/
theorem shortest_holds {x : Binary64} (hf : x.isFinite) (hx : 0 < x.magnitude) :
    x.interval.Holds (searchGrid x.interval 18
      (decimalExponent x.interval.value x.interval.den)) := by
  obtain ⟨hlow, hhigh⟩ := interval_binaryExponent hf hx
  obtain ⟨hd, hscale⟩ := scale_eq 1 4 x.exponent (by decide)
  have hfinest : (10 : ℚ) ^ (decimalExponent x.interval.value x.interval.den - 17) ≤
      (scale 1 4 x.exponent).1 / x.interval.den := by
    have hlead := (ten_zpow_decimalExponent_le (interval_value_pos hx) x.interval_value.1 hlow
      hhigh).trans (interval_value_lt hx).le
    calc (10 : ℚ) ^ (decimalExponent x.interval.value x.interval.den - 17)
        = 10 ^ decimalExponent x.interval.value x.interval.den / 10 ^ 17 := by
          rw [zpow_sub₀ (by norm_num)]
          norm_num
      _ ≤ 2 ^ (53 + x.exponent) / 10 ^ 17 := div_le_div_of_nonneg_right hlead (by positivity)
      _ = 2 ^ 53 / 10 ^ 17 * 2 ^ x.exponent := by
          rw [zpow_add₀ (by norm_num)]
          ring
      _ ≤ 1 / 4 * 2 ^ x.exponent := by
          refine mul_le_mul_of_nonneg_right (by norm_num) (by positivity)
      _ = _ := by
          rw [show x.interval.den = (scale 1 4 x.exponent).2 from rfl, hscale]
          push_cast
          ring
  have hpos : 0 < (scale 1 4 x.exponent).1 := by
    have hquot : (0 : ℚ) < (scale 1 4 x.exponent).1 / x.interval.den :=
      lt_of_lt_of_le (by positivity) hfinest
    have hden' : (0 : ℚ) < x.interval.den := by exact_mod_cast x.interval_value.1
    exact_mod_cast (div_pos_iff_of_pos_right hden').mp hquot
  have hsig := (significand_bounds x hx).1
  refine searchGrid_holds ⟨17, by decide, onGrid?_hit (scale 1 4 x.exponent).1 ?_ ?_
    x.interval_value.1 (step_of_ten_zpow_le x.interval_value.1 hfinest)⟩
  · simp only [interval]
    rw [← Nat.succ_mul]
    refine Nat.mul_le_mul_right _ ?_
    split <;> omega
  · exact Nat.mul_lt_mul_of_pos_right (by simp) hpos

theorem roundsTo_shortest {x : Binary64} (hf : x.isFinite) (hx : 0 < x.magnitude) :
    0 < x.shortest.digits ∧ RoundsTo x.shortest.value x.magnitude := by
  obtain ⟨hpos, hcontains⟩ := shortest_holds hf hx
  obtain ⟨hvalue, hdigits⟩ := value_stripZeros 20
    (searchGrid x.interval 18 (decimalExponent x.interval.value x.interval.den)).digits
    (searchGrid x.interval 18 (decimalExponent x.interval.value x.interval.den)).exponent
  refine ⟨hdigits hpos, ?_⟩
  have h := roundsTo_of_contains hx (step_pos _).2 hcontains
  rw [shortest, hvalue, ← step_eq]
  convert h using 1
  push_cast
  ring

end BundleGraph.Binary64
