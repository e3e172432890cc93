import BundleGraph.Binary64.Shortest
import Mathlib.Data.Rat.Lemmas
import Mathlib.Tactic.Positivity
import Mathlib.Tactic.Linarith
import Mathlib.Tactic.FieldSimp
import Mathlib.Tactic.LinearCombination
import Mathlib.Tactic.Ring

/-!
# Values apart

The positive finite values are numbered by their magnitude bits. The interval
of numbers that round to one of them begins where the interval of the one
before ends, and of two neighbours only the one with the even significand owns
the end that they share. So no number lies in two intervals.
-/

namespace BundleGraph.Binary64

/-- The bits without the sign. -/
def magnitude (x : Binary64) : Nat := x.bits.toNat % Nat.pow 2 63

theorem toNat_bits (x : Binary64) :
    x.bits.toNat = (if x.isNegative then Nat.pow 2 63 else 0) + x.magnitude := by
  have hx := x.bits.toNat_lt
  have hpow : Nat.pow 2 63 = 9223372036854775808 := rfl
  rw [magnitude, isNegative, hpow]
  simp only [decide_eq_true_eq]
  split <;> omega

theorem eq_of_magnitude {x y : Binary64} (hsign : x.isNegative = y.isNegative)
    (h : x.magnitude = y.magnitude) : x = y := by
  have hbits : x.bits.toNat = y.bits.toNat := by rw [toNat_bits x, toNat_bits y, hsign, h]
  cases x
  cases y
  exact congrArg mk (UInt64.toNat_inj.mp hbits)

def significandOf (m : Nat) : Nat :=
  if m / Nat.pow 2 52 = 0 then m % Nat.pow 2 52 else Nat.pow 2 52 + m % Nat.pow 2 52

/-- How far the exponent is above the least one. -/
def exponentOf (m : Nat) : Nat := m / Nat.pow 2 52 - 1

theorem exponentField_eq (x : Binary64) : x.exponentField = x.magnitude / Nat.pow 2 52 := by
  have hpow : Nat.pow 2 63 = 9223372036854775808 ∧ Nat.pow 2 52 = 4503599627370496 ∧
    Nat.pow 2 11 = 2048 := ⟨rfl, rfl, rfl⟩
  simp only [exponentField, magnitude, hpow]
  omega

theorem fraction_eq (x : Binary64) : x.fraction = x.magnitude % Nat.pow 2 52 := by
  have hpow : Nat.pow 2 63 = 9223372036854775808 ∧ Nat.pow 2 52 = 4503599627370496 :=
    ⟨rfl, rfl⟩
  simp only [fraction, magnitude, hpow]
  omega

theorem significand_eq (x : Binary64) : x.significand = significandOf x.magnitude := by
  simp only [significand, significandOf, exponentField_eq, fraction_eq]

theorem exponent_eq (x : Binary64) : x.exponent = exponentOf x.magnitude - 1074 := by
  simp only [exponent, exponentOf, exponentField_eq]
  generalize x.magnitude / Nat.pow 2 52 = field
  split <;> omega

/-- The value with magnitude `m`, in units of the least positive one. -/
def units (m : Nat) : Nat := significandOf m * 2 ^ exponentOf m

theorem units_succ (m : Nat) : units (m + 1) = units m + 2 ^ exponentOf m := by
  have hpow : Nat.pow 2 52 = 4503599627370496 := rfl
  simp only [units, significandOf, exponentOf, hpow]
  by_cases hwrap : m % 4503599627370496 + 1 = 4503599627370496
  · -- The significand is full: the next one starts over with a greater exponent.
    have hdiv : (m + 1) / 4503599627370496 = m / 4503599627370496 + 1 := by omega
    have hmod : (m + 1) % 4503599627370496 = 0 := by omega
    by_cases hzero : m / 4503599627370496 = 0
    · simp only [hdiv, hmod, hzero, if_true, Nat.zero_add, Nat.one_ne_zero, if_false]
      simp
      omega
    · have hexp : m / 4503599627370496 + 1 - 1 = m / 4503599627370496 - 1 + 1 := by omega
      simp only [hdiv, hmod, hzero, Nat.succ_ne_zero, if_false, hexp, pow_succ]
      have hfull : 4503599627370496 + m % 4503599627370496 + 1 = 2 * 4503599627370496 := by omega
      calc (4503599627370496 + 0) * (2 ^ (m / 4503599627370496 - 1) * 2)
          = (4503599627370496 + m % 4503599627370496 + 1) * 2 ^ (m / 4503599627370496 - 1) := by
            rw [hfull]
            ring
        _ = _ := by ring
  · have hdiv : (m + 1) / 4503599627370496 = m / 4503599627370496 := by omega
    have hmod : (m + 1) % 4503599627370496 = m % 4503599627370496 + 1 := by omega
    simp only [hdiv, hmod]
    split <;> ring

/-- Four times the middle between the values with magnitudes `m` and `m + 1`. -/
def boundary (m : Nat) : Nat := 4 * units m + 2 * 2 ^ exponentOf m

theorem boundary_lt_succ (m : Nat) : boundary m < boundary (m + 1) := by
  have hpos : 0 < 2 ^ exponentOf m := Nat.two_pow_pos _
  simp only [boundary, units_succ]
  omega

theorem boundary_strictMono : StrictMono boundary := strictMono_nat_of_lt_succ boundary_lt_succ

theorem significandOf_mod_two (m : Nat) : significandOf m % 2 = m % 2 := by
  have hpow : Nat.pow 2 52 = 4503599627370496 := rfl
  simp only [significandOf, hpow]
  split <;> omega

/-- How many quarters of `2 ^ -bias` make one. -/
def quartersOf (bias : Nat) : Nat := Nat.pow 2 (bias + 2)

/-- How many quarters of the least positive value make one. -/
@[irreducible] def quarters : Nat := quartersOf 1074

theorem quarters_pos : 0 < quarters := by
  have h (bias : Nat) : 0 < quartersOf bias := Nat.two_pow_pos _
  unfold quarters
  exact h 1074

/-- The number `r` is between the ends of the interval of the values with
magnitude `m`; the ends belong to it when the significand is even. -/
structure RoundsTo (r : ℚ) (m : Nat) : Prop where
  low : (boundary (m - 1) : ℚ) ≤ r * quarters
  high : r * quarters ≤ boundary m
  strict : m % 2 = 1 → (boundary (m - 1) : ℚ) < r * quarters ∧ r * quarters < boundary m

theorem RoundsTo.not_lt {r : ℚ} {m n : Nat} (hm : RoundsTo r m) (hn : RoundsTo r n) : ¬ m < n := by
  intro hlt
  have hle : (boundary (n - 1) : ℚ) ≤ boundary m := hn.low.trans hm.high
  have hends : n - 1 ≤ m := boundary_strictMono.le_iff_le.mp (by exact_mod_cast hle)
  obtain rfl : n = m + 1 := by omega
  -- Neighbours share one end, which the one with the even significand owns.
  rcases Nat.mod_two_eq_zero_or_one m with heven | hodd
  · exact absurd ((hn.strict (by omega)).1.trans_le hm.high) (lt_irrefl _)
  · exact absurd (hn.low.trans_lt (hm.strict hodd).2) (lt_irrefl _)

theorem RoundsTo.unique {r : ℚ} {m n : Nat} (hm : RoundsTo r m) (hn : RoundsTo r n) : m = n :=
  Nat.le_antisymm (Nat.le_of_not_lt (hn.not_lt hm)) (Nat.le_of_not_lt (hm.not_lt hn))

-- ---------------------------------------------------------------------------
-- The interval of a value
-- ---------------------------------------------------------------------------

/-- The gap below a value is half the gap above it. -/
def isNarrow (m : Nat) : Bool := m % Nat.pow 2 52 = 0 && 1 < m / Nat.pow 2 52

theorem exponentOf_succ (m : Nat) :
    exponentOf (m + 1) = exponentOf m + (if isNarrow (m + 1) then 1 else 0) := by
  have hpow : Nat.pow 2 52 = 4503599627370496 := rfl
  simp only [exponentOf, isNarrow, hpow, Bool.and_eq_true, decide_eq_true_eq]
  split <;> omega

theorem low_eq_boundary {m : Nat} (h : 0 < m) :
    (4 * significandOf m - if isNarrow m then 1 else 2) * 2 ^ exponentOf m = boundary (m - 1) := by
  obtain ⟨m, rfl⟩ : ∃ k, m = k + 1 := ⟨m - 1, by omega⟩
  have hunits := units_succ m
  have hexp := exponentOf_succ m
  rw [Nat.sub_mul, Nat.mul_assoc, Nat.add_sub_cancel]
  simp only [boundary]
  change 4 * units (m + 1) - _ = _
  cases hn : isNarrow (m + 1) with
  | true =>
    simp only [hn, if_true] at hexp ⊢
    rw [hexp, pow_succ]
    omega
  | false =>
    simp only [hn, Bool.false_eq_true, if_false, Nat.add_zero] at hexp ⊢
    rw [hexp]
    omega

theorem high_eq_boundary (m : Nat) :
    (4 * significandOf m + 2) * 2 ^ exponentOf m = boundary m := by
  simp only [boundary, units]
  ring

theorem scale_quarter (e bias : Nat) : 0 < (scale 1 4 (e - bias)).2 ∧
    (scale 1 4 (e - bias)).1 * quartersOf bias = (scale 1 4 (e - bias)).2 * 2 ^ e := by
  rw [scale, quartersOf]
  split
  case isTrue h =>
    obtain ⟨k, rfl⟩ : ∃ k, e = bias + k := ⟨e - bias, by omega⟩
    have hk : ((bias + k : Nat) - bias : Int).toNat = k := by omega
    rw [hk]
    simp only [Nat.pow_eq]
    exact ⟨by decide, by ring⟩
  case isFalse h =>
    obtain ⟨k, rfl⟩ : ∃ k, bias = k + e := ⟨bias - e, by omega⟩
    have hk : (-((e : Int) - (k + e : Nat))).toNat = k := by omega
    rw [hk]
    simp only [Nat.pow_eq]
    exact ⟨by positivity, by ring⟩

theorem interval_eq (x : Binary64) : x.interval =
    { low := (4 * significandOf x.magnitude - if isNarrow x.magnitude then 1 else 2) *
        (scale 1 4 x.exponent).1
      value := 4 * significandOf x.magnitude * (scale 1 4 x.exponent).1
      high := (4 * significandOf x.magnitude + 2) * (scale 1 4 x.exponent).1
      den := (scale 1 4 x.exponent).2
      closed := x.magnitude % 2 = 0 } := by
  simp only [interval, significand_eq, fraction_eq, exponentField_eq, significandOf_mod_two,
    isNarrow]
  rfl

theorem roundsTo_of_contains {x : Binary64} (hx : 0 < x.magnitude) {num den : Nat}
    (hden : 0 < den) (h : x.interval.contains num den) :
    RoundsTo (num / den) x.magnitude := by
  obtain ⟨hd, hscale⟩ : 0 < (scale 1 4 x.exponent).2 ∧
      (scale 1 4 x.exponent).1 * quarters =
        (scale 1 4 x.exponent).2 * 2 ^ exponentOf x.magnitude := by
    unfold quarters
    rw [exponent_eq]
    exact scale_quarter (exponentOf x.magnitude) 1074
  have hlow := low_eq_boundary hx
  have hhigh := high_eq_boundary x.magnitude
  rw [interval_eq] at h
  generalize (scale 1 4 x.exponent).1 = n at hd hscale h
  generalize (scale 1 4 x.exponent).2 = d at hd hscale h
  have hd' : (d : ℚ) ≠ 0 := by exact_mod_cast hd.ne'
  have hden' : (den : ℚ) ≠ 0 := by exact_mod_cast hden.ne'
  have hscale' : (n : ℚ) * quarters = d * 2 ^ exponentOf x.magnitude := by exact_mod_cast hscale
  -- Both sides of the bounds are multiplied by the same positive number.
  obtain ⟨c, hc, hcdef⟩ : ∃ c : ℚ, 0 < c ∧ c = quarters / (d * den) :=
    ⟨_, div_pos (by exact_mod_cast quarters_pos) (by positivity), rfl⟩
  have hend (a : Nat) : (↑(a * n * den) : ℚ) * c = ↑(a * 2 ^ exponentOf x.magnitude) := by
    push_cast
    rw [hcdef, mul_div_assoc', div_eq_iff (by positivity)]
    linear_combination (a : ℚ) * den * hscale'
  have hvalue : (↑(num * d) : ℚ) * c = num / den * quarters := by
    push_cast
    rw [hcdef]
    field_simp
  have hle {a b : Nat} (hab : a ≤ b) : (a : ℚ) * c ≤ b * c :=
    mul_le_mul_of_nonneg_right (by exact_mod_cast hab) hc.le
  have hlt {a b : Nat} (hab : a < b) : (a : ℚ) * c < b * c :=
    mul_lt_mul_of_pos_right (by exact_mod_cast hab) hc
  simp only [Interval.contains, decide_eq_true_eq] at h
  split at h
  case isTrue heven =>
    simp only [Bool.and_eq_true, decide_eq_true_eq] at h
    have hl := hle h.1
    have hh := hle h.2
    rw [hend, hvalue] at hl hh
    rw [hlow] at hl
    rw [hhigh] at hh
    exact ⟨hl, hh, fun hodd => absurd hodd (by omega)⟩
  case isFalse hodd =>
    simp only [Bool.and_eq_true, decide_eq_true_eq] at h
    have hl := hlt h.1
    have hh := hlt h.2
    rw [hend, hvalue] at hl hh
    rw [hlow] at hl
    rw [hhigh] at hh
    exact ⟨hl.le, hh.le, fun _ => ⟨hl, hh⟩⟩

end BundleGraph.Binary64
