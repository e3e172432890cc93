/-!
# Text and bytes

Bytes are lists of octets and text is worked on as a list of characters.
Hexadecimal notation, splitting and line endings live here; the byte form of
text is in `BundleGraph.Text.Utf8`.
-/

namespace BundleGraph

abbrev Bytes := List UInt8

namespace Bytes

def hexDigit (n : Nat) : Char := Nat.digitChar (n % 16)

/-- Two lower-case digits a byte, the high half first. -/
def toHex (bytes : Bytes) : String :=
  String.ofList (bytes.flatMap fun b => [hexDigit (b.toNat / 16), hexDigit b.toNat])

def hexValue? (c : Char) : Option Nat :=
  if '0' ≤ c ∧ c ≤ '9' then some (c.toNat - '0'.toNat)
  else if 'a' ≤ c ∧ c ≤ 'f' then some (c.toNat - 'a'.toNat + 10)
  else if 'A' ≤ c ∧ c ≤ 'F' then some (c.toNat - 'A'.toNat + 10)
  else none

/-- Digits of either case, two to a byte. -/
def ofHex? : List Char → Option Bytes
  | [] => some []
  | [_] => none
  | hi :: lo :: rest => do
    let h ← hexValue? hi
    let l ← hexValue? lo
    let tail ← ofHex? rest
    return UInt8.ofNat (16 * h + l) :: tail

/-- The value of big-endian bytes. -/
def toNatBE (bytes : Bytes) : Nat := bytes.foldl (fun n b => 256 * n + b.toNat) 0

/-- The low `width` bytes of `n`, the most significant first. -/
def ofNatBE (width n : Nat) : Bytes :=
  match width with
  | 0 => []
  | w + 1 => UInt8.ofNat (n / Nat.pow 256 w) :: ofNatBE w n

/-- The low `width` bytes of `n`, the least significant first. -/
def ofNatLE (width n : Nat) : Bytes :=
  match width with
  | 0 => []
  | w + 1 => UInt8.ofNat n :: ofNatLE w (n / 256)

/-- The value of little-endian bytes. -/
def toNatLE : Bytes → Nat
  | [] => 0
  | b :: bytes => b.toNat + 256 * toNatLE bytes

@[simp] theorem length_ofNatBE (width n : Nat) : (ofNatBE width n).length = width := by
  induction width with
  | zero => rfl
  | succ w ih => simp [ofNatBE, ih]

@[simp] theorem length_ofNatLE (width n : Nat) : (ofNatLE width n).length = width := by
  induction width generalizing n with
  | zero => rfl
  | succ w ih => simp [ofNatLE, ih]

theorem toNatLE_ofNatLE (width n : Nat) : toNatLE (ofNatLE width n) = n % Nat.pow 256 width := by
  induction width generalizing n with
  | zero => simp [ofNatLE, toNatLE, Nat.mod_one]
  | succ w ih =>
    have h : (UInt8.ofNat n).toNat = n % 256 := by simp
    rw [ofNatLE, toNatLE, ih, h, Nat.pow_eq, Nat.pow_eq, Nat.pow_succ', Nat.mod_mul]

theorem hexValue?_hexDigit (n : Nat) : hexValue? (hexDigit n) = some (n % 16) := by
  have h : ∀ m < 16, hexValue? (Nat.digitChar m) = some m := by decide
  exact h _ (Nat.mod_lt _ (by decide))

theorem ofHex?_toHex (bytes : Bytes) : ofHex? bytes.toHex.toList = some bytes := by
  rw [toHex, String.toList_ofList]
  induction bytes with
  | nil => rfl
  | cons b bs ih =>
    have hb : UInt8.ofNat (16 * (b.toNat / 16 % 16) + b.toNat % 16) = b := by
      apply UInt8.toNat_inj.mp
      have := b.toNat_lt
      rw [UInt8.toNat_ofNat']
      omega
    simp only [List.flatMap_cons, List.cons_append, List.nil_append, ofHex?, hexValue?_hexDigit, ih,
      bind, Option.bind, pure, hb]

theorem toHex_inj {a b : Bytes} (h : a.toHex = b.toHex) : a = b := by
  have ha := ofHex?_toHex a
  rw [h, ofHex?_toHex] at ha
  exact (Option.some.inj ha).symm

end Bytes

namespace Text

/-- The pieces between separators; one more than there are separators. -/
def splitOn (sep : Char) : List Char → List (List Char)
  | [] => [[]]
  | c :: cs =>
    if c = sep then [] :: splitOn sep cs
    else
      match splitOn sep cs with
      | [] => [[c]]
      | piece :: pieces => (c :: piece) :: pieces

def dropTrailing (c : Char) (cs : List Char) : List Char :=
  if cs.getLast? = some c then cs.dropLast else cs

/-- Lines end at a line feed or at a carriage return with a line feed; the
last line may lack its end, and then keeps a carriage return. -/
def lines (text : List Char) : List (List Char) :=
  let pieces := splitOn '\n' text
  let closed := pieces.dropLast.map (dropTrailing '\r')
  match pieces.getLast? with
  | none | some [] => closed
  | some last => closed ++ [last]

def containsText (needle : List Char) : List Char → Bool
  | [] => needle.isEmpty
  | c :: cs => needle.isPrefixOf (c :: cs) || containsText needle cs

def join (sep : Char) : List (List Char) → List Char
  | [] => []
  | [piece] => piece
  | piece :: pieces => piece ++ sep :: join sep pieces

/-- Unicode's property of white space. -/
def isBlank (c : Char) : Bool :=
  let n := c.toNat
  (9 ≤ n && n ≤ 13) || n = 0x20 || n = 0x85 || n = 0xA0 || n = 0x1680 ||
    (0x2000 ≤ n && n ≤ 0x200A) || n = 0x2028 || n = 0x2029 || n = 0x202F ||
    n = 0x205F || n = 0x3000

/-- Decimal digits, at least one, with an optional plus sign in front. -/
def natural? (text : List Char) : Option Nat :=
  let digits := match text with
    | '+' :: rest => rest
    | rest => rest
  if digits.isEmpty || digits.any (!·.isDigit) then none
  else some (digits.foldl (fun n c => 10 * n + (c.toNat - '0'.toNat)) 0)

/-- A natural number that fits the given number of bits. -/
def word? (bits : Nat) (text : List Char) : Option Nat :=
  (natural? text).filter (· < Nat.pow 2 bits)

/-- Lower case as far as it can meet an ASCII word: apart from the Latin
capitals, only the Kelvin sign has an ASCII letter as its whole lower case. -/
def toLowerAscii (c : Char) : Char :=
  if c = '\u212A' then 'k' else c.toLower

theorem splitOn_ne_nil (sep : Char) (cs : List Char) : splitOn sep cs ≠ [] := by
  cases cs with
  | nil => simp [splitOn]
  | cons c cs =>
    rw [splitOn]
    split
    · simp
    · split <;> simp

theorem join_splitOn (sep : Char) (cs : List Char) : join sep (splitOn sep cs) = cs := by
  induction cs with
  | nil => rfl
  | cons c cs ih =>
    rw [splitOn]
    split
    · rename_i h
      cases hs : splitOn sep cs with
      | nil => exact absurd hs (splitOn_ne_nil sep cs)
      | cons piece pieces => rw [hs] at ih; simp [join, ih, h]
    · cases hs : splitOn sep cs with
      | nil => exact absurd hs (splitOn_ne_nil sep cs)
      | cons piece pieces =>
        rw [hs] at ih
        cases pieces <;> simp_all [join]

end Text

end BundleGraph
