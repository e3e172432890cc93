/-!
# Binary floating point of 64 bits

A value is its bit pattern. Arithmetic goes through exact ratios of natural
numbers and one rounding to nearest, ties to even, so that every operation is
its mathematical result rounded once.
-/

namespace BundleGraph

structure Binary64 where
  bits : UInt64
  deriving DecidableEq, Inhabited

namespace Binary64

def exponentField (x : Binary64) : Nat := x.bits.toNat / Nat.pow 2 52 % Nat.pow 2 11

def fraction (x : Binary64) : Nat := x.bits.toNat % Nat.pow 2 52

def isNegative (x : Binary64) : Bool := Nat.pow 2 63 ≤ x.bits.toNat

def isInfinite (x : Binary64) : Bool := x.exponentField = 2047 && x.fraction = 0

/-- The significand: a finite value is `significand * 2 ^ exponent`. -/
def significand (x : Binary64) : Nat :=
  if x.exponentField = 0 then x.fraction else Nat.pow 2 52 + x.fraction

def exponent (x : Binary64) : Int :=
  if x.exponentField = 0 then -1074 else x.exponentField - 1075

def isZero (x : Binary64) : Bool := x.significand = 0

def infinityMagnitude : Nat := 2047 * Nat.pow 2 52

def ofMagnitude (negative : Bool) (magnitude : Nat) : Binary64 :=
  ⟨UInt64.ofNat ((if negative then Nat.pow 2 63 else 0) + min magnitude infinityMagnitude)⟩

def neg (x : Binary64) : Binary64 := ⟨x.bits ^^^ 0x8000000000000000⟩

/-- `num / den` to the nearest natural number, ties to even. -/
def roundQuotient (num den : Nat) : Nat :=
  let q := num / den
  let twice := 2 * (num % den)
  if twice < den then q
  else if den < twice then q + 1
  else q + q % 2

/-- `num / den` times `2 ^ shift` as a quotient of natural numbers. -/
def scale (num den : Nat) (shift : Int) : Nat × Nat :=
  if 0 ≤ shift then (num * Nat.pow 2 shift.toNat, den) else (num, den * Nat.pow 2 (-shift).toNat)

/-- The largest `e` with `2 ^ e ≤ num / den`. -/
def binaryExponent (num den : Nat) : Int :=
  let e : Int := (Nat.log2 num : Int) - Nat.log2 den
  let (n, d) := scale num den (-e)
  if n < d then e - 1 else e

/-- The value nearest to `num / den`, ties to even, infinite when too large. -/
def ofRatio (negative : Bool) (num den : Nat) : Binary64 :=
  if num = 0 then ofMagnitude negative 0
  else
    let exponent := max (binaryExponent num den - 52) (-1074)
    let (n, d) := scale num den (-exponent)
    ofMagnitude negative ((exponent + 1074).toNat * Nat.pow 2 52 + roundQuotient n d)

def ofNat (n : Nat) : Binary64 := ofRatio false n 1

def ratio (x : Binary64) : Nat × Nat := scale x.significand 1 x.exponent

def mul (x y : Binary64) : Binary64 :=
  let (a, b) := x.ratio
  let (c, d) := y.ratio
  ofRatio (x.isNegative != y.isNegative) (a * c) (b * d)

/-- Quotient of finite values, the second of them not zero. -/
def div (x y : Binary64) : Binary64 :=
  let (a, b) := x.ratio
  let (c, d) := y.ratio
  ofRatio (x.isNegative != y.isNegative) (a * d) (b * c)

/-- `digits * 10 ^ exponent`, rounded once. -/
def ofDecimal (negative : Bool) (digits : Nat) (exponent : Int) : Binary64 :=
  if 0 ≤ exponent then ofRatio negative (digits * Nat.pow 10 exponent.toNat) 1
  else ofRatio negative digits (Nat.pow 10 (-exponent).toNat)

/-- The absolute value with the given number of decimal places. -/
def toFixed (x : Binary64) (places : Nat) : String :=
  let (n, d) := x.ratio
  let units := roundQuotient (n * Nat.pow 10 places) d
  let digits := toString (units % Nat.pow 10 places)
  let padding := String.ofList (List.replicate (places - digits.length) '0')
  let sign := if x.isNegative then "-" else ""
  sign ++ toString (units / Nat.pow 10 places) ++ "." ++ padding ++ digits

end Binary64

end BundleGraph
