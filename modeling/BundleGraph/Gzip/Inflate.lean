import BundleGraph.Text

/-!
# Inflation

Decoding of the deflate format: blocks of bytes that are stored as they are,
or written in prefix codes, with references to what was decoded before. Bits
are taken from the low end of each byte.
-/

namespace BundleGraph.Inflate

inductive Error where
  | truncated
  | corrupt
  deriving DecidableEq, Repr

abbrev Bits := List Bool

def bitsOf (b : UInt8) : Bits := (List.range 8).map b.toNat.testBit

def ofBytes (bytes : Bytes) : Bits := bytes.flatMap bitsOf

/-- A number of `n` bits, the low one first. -/
def take : Nat → Bits → Except Error (Nat × Bits)
  | 0, bits => .ok (0, bits)
  | _ + 1, [] => .error .truncated
  | n + 1, b :: bits => do
    let (v, rest) ← take n bits
    return (b.toNat + 2 * v, rest)

def takeBytes : Nat → Array UInt8 → Bits → Except Error (Array UInt8 × Bits)
  | 0, out, bits => .ok (out, bits)
  | n + 1, out, bits => do
    let (v, bits) ← take 8 bits
    takeBytes n (out.push (UInt8.ofNat v)) bits

/-- A prefix code in canonical form: how many codes there are of each length,
from one on, and the symbols in the order of their codes. -/
structure Code where
  counts : List Nat
  symbols : Array Nat

def longest : Nat := 15

namespace Code

/-- The code of the symbols' lengths; symbols of length zero have none. -/
def ofLengths (lengths : List Nat) : Code where
  counts := (List.range longest).map fun l => lengths.count (l + 1)
  symbols := ((List.range longest).flatMap fun l =>
    (lengths.zipIdx.filter (·.1 = l + 1)).map (·.2)).toArray

/-- The share of all texts of the longest length that begin with a code. -/
def space (c : Code) : Nat :=
  c.counts.zipIdx.foldl (fun n (count, l) => n + count * Nat.pow 2 (longest - 1 - l)) 0

/-- The codes leave no text without a beginning, or there is at most one. -/
def isComplete (c : Code) : Bool := c.space = Nat.pow 2 longest || c.symbols.size ≤ 1

/-- Takes one more bit for every length; `first` is the first code of it. -/
def decodeFrom (c : Code) : List Nat → Nat → Nat → Nat → Bits → Except Error (Nat × Bits)
  | [], _, _, _, _ => .error .corrupt
  | _ :: _, _, _, _, [] => .error .truncated
  | count :: counts, code, first, index, b :: bits =>
    let code := code + b.toNat
    if code < first + count then
      match c.symbols[index + (code - first)]? with
      | some symbol => .ok (symbol, bits)
      | none => .error .corrupt
    else decodeFrom c counts (2 * code) (2 * (first + count)) (index + count) bits

def decode (c : Code) (bits : Bits) : Except Error (Nat × Bits) :=
  c.decodeFrom c.counts 0 0 0 bits

end Code

/-- The least length of each length symbol, and how many further bits it has. -/
def lengths : List (Nat × Nat) :=
  [(3, 0), (4, 0), (5, 0), (6, 0), (7, 0), (8, 0), (9, 0), (10, 0), (11, 1), (13, 1), (15, 1),
    (17, 1), (19, 2), (23, 2), (27, 2), (31, 2), (35, 3), (43, 3), (51, 3), (59, 3), (67, 4),
    (83, 4), (99, 4), (115, 4), (131, 5), (163, 5), (195, 5), (227, 5), (258, 0)]

def distances : List (Nat × Nat) :=
  [(1, 0), (2, 0), (3, 0), (4, 0), (5, 1), (7, 1), (9, 2), (13, 2), (17, 3), (25, 3), (33, 4),
    (49, 4), (65, 5), (97, 5), (129, 6), (193, 6), (257, 7), (385, 7), (513, 8), (769, 8),
    (1025, 9), (1537, 9), (2049, 10), (3073, 10), (4097, 11), (6145, 11), (8193, 12),
    (12289, 12), (16385, 13), (24577, 13)]

/-- The number behind a symbol of one of the two tables. -/
def extended (table : List (Nat × Nat)) (symbol : Nat) (bits : Bits) : Except Error (Nat × Bits) :=
  match table[symbol]? with
  | none => .error .corrupt
  | some (base, width) => do
    let (more, bits) ← take width bits
    return (base + more, bits)

/-- Repeats what was decoded `distance` bytes ago. -/
def copy (distance : Nat) : Nat → Array UInt8 → Array UInt8
  | 0, out => out
  | n + 1, out => copy distance n (out.push (out.getD (out.size - distance) 0))

/-- Decodes symbols up to the end of the block. Every symbol takes a bit. -/
def symbols (literal distance : Code) : Nat → Array UInt8 → Bits → Except Error (Array UInt8 × Bits)
  | 0, _, _ => .error .truncated
  | fuel + 1, out, bits => do
    let (symbol, bits) ← literal.decode bits
    if symbol < 256 then symbols literal distance fuel (out.push (UInt8.ofNat symbol)) bits
    else if symbol = 256 then return (out, bits)
    else
      let (length, bits) ← extended lengths (symbol - 257) bits
      let (d, bits) ← distance.decode bits
      let (back, bits) ← extended distances d bits
      if out.size < back then .error .corrupt
      else symbols literal distance fuel (copy back length out) bits

def fixedLiteral : Code :=
  .ofLengths (List.replicate 144 8 ++ List.replicate 112 9 ++ List.replicate 24 7 ++
    List.replicate 8 8)

def fixedDistance : Code := .ofLengths (List.replicate 30 5)

/-- The order in which the lengths of the code of lengths are written. -/
def lengthOrder : List Nat := [16, 17, 18, 0, 8, 7, 9, 6, 10, 5, 11, 4, 12, 3, 13, 2, 14, 1, 15]

def takeMany (width : Nat) : Nat → Bits → Except Error (List Nat × Bits)
  | 0, bits => .ok ([], bits)
  | n + 1, bits => do
    let (v, bits) ← take width bits
    let (vs, bits) ← takeMany width n bits
    return (v :: vs, bits)

/-- Reads code lengths until there are `wanted`, the latest first. -/
def codeLengths (code : Code) (wanted : Nat) :
    Nat → List Nat → Bits → Except Error (List Nat × Bits)
  | 0, _, _ => .error .truncated
  | fuel + 1, found, bits =>
    if wanted < found.length then .error .corrupt
    else if wanted = found.length then .ok (found.reverse, bits)
    else do
      let (symbol, bits) ← code.decode bits
      if symbol < 16 then codeLengths code wanted fuel (symbol :: found) bits
      else if symbol = 16 then
        match found with
        | [] => .error .corrupt
        | last :: _ => do
          let (n, bits) ← take 2 bits
          codeLengths code wanted fuel (List.replicate (3 + n) last ++ found) bits
      else if symbol = 17 then do
        let (n, bits) ← take 3 bits
        codeLengths code wanted fuel (List.replicate (3 + n) 0 ++ found) bits
      else do
        let (n, bits) ← take 7 bits
        codeLengths code wanted fuel (List.replicate (11 + n) 0 ++ found) bits

/-- The two codes that a block with codes of its own starts with. -/
def ownCodes (bits : Bits) : Except Error ((Code × Code) × Bits) := do
  let (literals, bits) ← take 5 bits
  let (distances, bits) ← take 5 bits
  let (orders, bits) ← take 4 bits
  let (written, bits) ← takeMany 3 (orders + 4) bits
  let entries := lengthOrder.zip written
  let code := Code.ofLengths ((List.range 19).map fun symbol => (entries.lookup symbol).getD 0)
  if !code.isComplete then .error .corrupt
  else
    let wanted := literals + 257 + (distances + 1)
    let (found, bits) ← codeLengths code wanted (bits.length + 1) [] bits
    let literal := Code.ofLengths (found.take (literals + 257))
    let distance := Code.ofLengths (found.drop (literals + 257))
    if literal.isComplete && distance.isComplete then return ((literal, distance), bits)
    else .error .corrupt

/-- Bytes stored as they are begin at a byte, with their number and its
complement. -/
def stored (out : Array UInt8) (bits : Bits) : Except Error (Array UInt8 × Bits) := do
  let (length, bits) ← take 16 (bits.drop (bits.length % 8))
  let (complement, bits) ← take 16 bits
  if length + complement ≠ 65535 then .error .corrupt else takeBytes length out bits

/-- Decodes blocks up to the last one. -/
def blocks : Nat → Array UInt8 → Bits → Except Error (Array UInt8 × Bits)
  | 0, _, _ => .error .truncated
  | fuel + 1, out, bits => do
    let (last, bits) ← take 1 bits
    let (kind, bits) ← take 2 bits
    let (out, bits) ← match kind with
      | 0 => stored out bits
      | 1 => symbols fixedLiteral fixedDistance (bits.length + 1) out bits
      | 2 => do
        let (codes, bits) ← ownCodes bits
        symbols codes.1 codes.2 (bits.length + 1) out bits
      | _ => .error .corrupt
    if last = 1 then return (out, bits) else blocks fuel out bits

/-- The bytes of a deflated text, and the bits behind it from the next byte on. -/
def inflate (bytes : Bytes) : Except Error (Bytes × Bits) := do
  let bits := ofBytes bytes
  let (out, rest) ← blocks (bits.length + 1) #[] bits
  return (out.toList, rest.drop (rest.length % 8))

end BundleGraph.Inflate
