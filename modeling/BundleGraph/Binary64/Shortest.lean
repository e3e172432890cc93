import BundleGraph.Binary64

/-!
# Shortest decimal digits

`shortest` finds the fewest decimal digits that read back as the same value,
and of those the nearest to it. `text` lays them out: positional notation with
at least one decimal from `10 ^ -5` up to below `10 ^ 16`, else scientific
notation with a signed exponent.
-/

namespace BundleGraph.Binary64

/-- `digits * 10 ^ exponent`. -/
structure Decimal where
  digits : Nat
  exponent : Int
  deriving DecidableEq, Repr

/-- The ends of the interval of numbers that round to a positive value, as
numerators over a common denominator, and the value between them. -/
structure Interval where
  low : Nat
  value : Nat
  high : Nat
  den : Nat
  closed : Bool

/-- The gap below a power of two is half the gap above it. -/
def interval (x : Binary64) : Interval :=
  let m := x.significand
  let (n, d) := scale 1 4 x.exponent
  let narrow := x.fraction = 0 && 1 < x.exponentField
  { low := (4 * m - (if narrow then 1 else 2)) * n
    value := 4 * m * n
    high := (4 * m + 2) * n
    den := d
    closed := m % 2 = 0 }

def Interval.contains (i : Interval) (num den : Nat) : Bool :=
  if i.closed then i.low * den ≤ num * i.den && num * i.den ≤ i.high * den
  else i.low * den < num * i.den && num * i.den < i.high * den

/-- The largest `e` with `10 ^ e ≤ num / den`, found from an estimate that is
never too large and at most two too small. -/
def decimalExponent (num den : Nat) : Int :=
  let estimate : Int := (binaryExponent num den * 1233) / 4096 - 1
  let reaches (e : Int) : Bool :=
    if 0 ≤ e then den * Nat.pow 10 e.toNat ≤ num else den ≤ num * Nat.pow 10 (-e).toNat
  if reaches (estimate + 2) then estimate + 2
  else if reaches (estimate + 1) then estimate + 1
  else estimate

/-- The neighbour of the value on the grid of multiples of `10 ^ exponent`
that lies in the interval; of two the nearer, and the even one of a tie. -/
def onGrid? (i : Interval) (exponent : Int) : Option Nat :=
  let (stepNum, stepDen) :=
    if 0 ≤ exponent then (Nat.pow 10 exponent.toNat, 1) else (1, Nat.pow 10 (-exponent).toNat)
  let unit := i.den * stepNum
  let scaled := i.value * stepDen
  let below := scaled / unit
  let above := below + 1
  let fits (n : Nat) : Bool := 0 < n && i.contains (n * stepNum) stepDen
  let twice := 2 * (scaled % unit)
  let preferBelow := twice < unit || (twice = unit && below % 2 = 0)
  match fits below, fits above with
  | true, true => some (if preferBelow then below else above)
  | true, false => some below
  | false, true => some above
  | false, false => none

/-- The first hit on grids that grow finer by a digit, down to `count` digits;
the finest is taken as it is. -/
def searchGrid (i : Interval) : Nat → Int → Decimal
  | 0, exponent => ⟨i.value / i.den, exponent⟩
  | count + 1, exponent =>
    match onGrid? i exponent with
    | some digits => ⟨digits, exponent⟩
    | none => searchGrid i count (exponent - 1)

def stripZeros : Nat → Nat → Int → Decimal
  | 0, digits, exponent => ⟨digits, exponent⟩
  | fuel + 1, digits, exponent =>
    if digits % 10 = 0 ∧ digits ≠ 0 then stripZeros fuel (digits / 10) (exponent + 1)
    else ⟨digits, exponent⟩

/-- Seventeen digits always suffice. -/
def shortest (x : Binary64) : Decimal :=
  let i := x.interval
  let found := searchGrid i 18 (decimalExponent i.value i.den)
  stripZeros 20 found.digits found.exponent

def zeros (n : Nat) : List Char := List.replicate n '0'

/-- Layout of digits whose first stands for `10 ^ lead`. -/
def layout (digits : List Char) (lead : Int) : List Char :=
  if lead < -5 ∨ 15 < lead then
    let tail := match digits.drop 1 with
      | [] => []
      | rest => '.' :: rest
    let sign := if lead < 0 then '-' else '+'
    digits.take 1 ++ tail ++ 'e' :: sign :: (toString lead.natAbs).toList
  else if lead < 0 then '0' :: '.' :: zeros (lead.natAbs - 1) ++ digits
  else
    let whole := digits.take (lead.toNat + 1)
    let rest := digits.drop (lead.toNat + 1)
    whole ++ zeros (lead.toNat + 1 - whole.length) ++ '.' :: (if rest.isEmpty then ['0'] else rest)

def text (x : Binary64) : String :=
  let sign := if x.isNegative then ['-'] else []
  let body :=
    if x.isZero then ['0', '.', '0']
    else
      let d := x.shortest
      let digits := (toString d.digits).toList
      layout digits (d.exponent + digits.length - 1)
  String.ofList (sign ++ body)

end BundleGraph.Binary64
