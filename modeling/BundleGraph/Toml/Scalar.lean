import BundleGraph.Json.Tree

/-!
# TOML scalars

Numbers, truth values, dates and times. A date or time becomes an object with
its text under a reserved key. Infinities and the result of no number have no
place in JSON and become null.
-/

namespace BundleGraph.Toml

open Json (Tree)

def isDigit (c : Char) : Bool := '0' ≤ c && c ≤ '9'

def digitValue (c : Char) : Nat := (Bytes.hexValue? c).getD 0

/-- Digits of a radix, with single underscores between them. -/
def digits? (radix : Nat) (cs : List Char) : Option (List Char) :=
  let groups := Text.splitOn '_' cs
  let isRadixDigit (c : Char) : Bool := (Bytes.hexValue? c).any (· < radix)
  if groups.all fun g => !g.isEmpty && g.all isRadixDigit then some groups.flatten else none

def natOf (radix : Nat) (digits : List Char) : Nat :=
  digits.foldl (fun n c => radix * n + digitValue c) 0

/-- Decimal digits without a superfluous zero in front. -/
def decimal? (cs : List Char) : Option (List Char) := do
  let digits ← digits? 10 cs
  if digits.head? = some '0' && 1 < digits.length then none else some digits

def signed : List Char → Bool × List Char
  | '-' :: cs => (true, cs)
  | '+' :: cs => (false, cs)
  | cs => (false, cs)

def integer? (cs : List Char) : Option Int :=
  match cs with
  | '0' :: 'x' :: cs => (digits? 16 cs).map fun ds => (natOf 16 ds : Int)
  | '0' :: 'o' :: cs => (digits? 8 cs).map fun ds => (natOf 8 ds : Int)
  | '0' :: 'b' :: cs => (digits? 2 cs).map fun ds => (natOf 2 ds : Int)
  | cs =>
    let (negative, cs) := signed cs
    (decimal? cs).map fun ds => if negative then -(natOf 10 ds : Int) else natOf 10 ds

/-- Integers of up to 128 bits are well-formed, those of 64 bits have a value. -/
def integerTree? (n : Int) : Option Tree :=
  if -(Nat.pow 2 63) ≤ n ∧ n < Nat.pow 2 64 then some (.int n)
  else if -(Nat.pow 2 127) ≤ n ∧ n < Nat.pow 2 128 then some .unreadable
  else none

/-- An exponent behind its letter. -/
def exponent? (cs : List Char) : Option Int :=
  let (negative, cs) := signed cs
  (digits? 10 cs).map fun ds => if negative then -(natOf 10 ds : Int) else natOf 10 ds

def isExponentLetter (c : Char) : Bool := c = 'e' || c = 'E'

/-- A number with a point or an exponent, or both. -/
def float? (cs : List Char) : Option Tree := do
  let (negative, cs) := signed cs
  if cs = ['i', 'n', 'f'] ∨ cs = ['n', 'a', 'n'] then return .null
  let whole := cs.takeWhile fun c => c ≠ '.' && !isExponentLetter c
  let rest := cs.dropWhile fun c => c ≠ '.' && !isExponentLetter c
  let digits ← decimal? whole
  let (decimals, rest) ← match rest with
    | '.' :: rest => do
      let decimals ← digits? 10 (rest.takeWhile (!isExponentLetter ·))
      pure (decimals, rest.dropWhile (!isExponentLetter ·))
    | rest => pure ([], rest)
  let exponent ← match rest with
    | [] => if decimals.isEmpty then none else some 0
    | _ :: rest => exponent? rest
  let x := Binary64.ofDecimal negative (natOf 10 (digits ++ decimals)) (exponent - decimals.length)
  if x.isInfinite then none else return .float x

/-- Digits at the start, exactly so many. -/
def fixed? (width : Nat) (cs : List Char) : Option (Nat × List Char) :=
  let ds := cs.take width
  if ds.length = width && ds.all isDigit then some (natOf 10 ds, cs.drop width) else none

def isLeap (year : Nat) : Bool := (year % 4 = 0 && year % 100 ≠ 0) || year % 400 = 0

def daysIn (year month : Nat) : Nat :=
  if month = 2 then if isLeap year then 29 else 28
  else if month = 4 ∨ month = 6 ∨ month = 9 ∨ month = 11 then 30
  else 31

def padded (width n : Nat) : List Char :=
  let ds := (toString n).toList
  List.replicate (width - ds.length) '0' ++ ds

def date? (cs : List Char) : Option (List Char × List Char) := do
  let (year, cs) ← fixed? 4 cs
  let '-' :: cs := cs | none
  let (month, cs) ← fixed? 2 cs
  let '-' :: cs := cs | none
  let (day, cs) ← fixed? 2 cs
  if month < 1 ∨ 12 < month ∨ day < 1 ∨ daysIn year month < day then none
  else some (padded 4 year ++ '-' :: padded 2 month ++ '-' :: padded 2 day, cs)

/-- A fraction of a second: nine places count, and zeros at the end are not
written. -/
def fraction? : List Char → Option (List Char × List Char)
  | '.' :: cs =>
    let ds := cs.takeWhile isDigit
    if ds.isEmpty then none
    else
      let kept := ((ds.take 9).reverse.dropWhile (· = '0')).reverse
      some (if kept.isEmpty then [] else '.' :: kept, cs.dropWhile isDigit)
  | cs => some ([], cs)

def time? (cs : List Char) : Option (List Char × List Char) := do
  let (hour, cs) ← fixed? 2 cs
  let ':' :: cs := cs | none
  let (minute, cs) ← fixed? 2 cs
  let ':' :: cs := cs | none
  let (second, cs) ← fixed? 2 cs
  let (fraction, cs) ← fraction? cs
  if 23 < hour ∨ 59 < minute ∨ 60 < second then none
  else some (padded 2 hour ++ ':' :: padded 2 minute ++ ':' :: padded 2 second ++ fraction, cs)

/-- The difference to universal time, if there is one. -/
def offset? : List Char → Option (List Char)
  | [] => some []
  | ['Z'] | ['z'] => some ['Z']
  | sign :: cs => do
    if sign ≠ '+' ∧ sign ≠ '-' then none
    let (hours, cs) ← fixed? 2 cs
    let ':' :: cs := cs | none
    let (minutes, cs) ← fixed? 2 cs
    let sign := if hours = 0 ∧ minutes = 0 then '+' else sign
    if !cs.isEmpty ∨ 59 < minutes ∨ 24 * 60 < hours * 60 + minutes then none
    else some (sign :: padded 2 hours ++ ':' :: padded 2 minutes)

def moment? (cs : List Char) : Option (List Char) :=
  match date? cs with
  | some (date, []) => some date
  | some (date, c :: cs) => do
    if c ≠ 'T' ∧ c ≠ 't' ∧ c ≠ ' ' then none
    let (time, cs) ← time? cs
    return date ++ 'T' :: time ++ (← offset? cs)
  | none => do
    let (time, cs) ← time? cs
    if cs.isEmpty then some time else none

/-- The key under which a date or time is kept. -/
def momentKey : String := "$__toml_private_datetime"

def scalar? (cs : List Char) : Option Tree :=
  if cs = ['t', 'r', 'u', 'e'] then some (.bool true)
  else if cs = ['f', 'a', 'l', 's', 'e'] then some (.bool false)
  else
    match integer? cs with
    | some n => integerTree? n
    | none =>
      match moment? cs with
      | some text => some (.object [(some momentKey, .string (String.ofList text))])
      | none => float? cs

/-! ## Writing -/

/-- Quotes, backslashes and control characters are escaped. -/
def quoteChar (c : Char) : List Char :=
  if c = '"' || c = '\\' then ['\\', c]
  else if c.toNat < 0x20 || c.toNat = 0x7F then
    '\\' :: 'u' :: (Bytes.ofNatBE 2 c.toNat).toHex.toList
  else [c]

def quote (s : String) : String := "\"" ++ String.ofList (s.toList.flatMap quoteChar) ++ "\""

end BundleGraph.Toml
