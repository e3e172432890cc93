import BundleGraph.Text

/-!
# UTF-8

`encode` writes characters as bytes. `decode` reads bytes and reports each
maximal ill-formed stretch as `none`, from which follow the strict reading
(no `none` at all) and the lenient one (U+FFFD for each `none`).
-/

namespace BundleGraph.Utf8

def encodeChar (c : Char) : Bytes :=
  let n := c.toNat
  if n < 0x80 then [UInt8.ofNat n]
  else if n < 0x800 then [UInt8.ofNat (0xC0 + n / 64), UInt8.ofNat (0x80 + n % 64)]
  else if n < 0x10000 then
    [UInt8.ofNat (0xE0 + n / 4096), UInt8.ofNat (0x80 + n / 64 % 64), UInt8.ofNat (0x80 + n % 64)]
  else
    [UInt8.ofNat (0xF0 + n / 262144), UInt8.ofNat (0x80 + n / 4096 % 64),
      UInt8.ofNat (0x80 + n / 64 % 64), UInt8.ofNat (0x80 + n % 64)]

def encode (cs : List Char) : Bytes := cs.flatMap encodeChar

def ofString (s : String) : Bytes := encode s.toList

def isTail (b : UInt8) : Bool := 0x80 ≤ b && b ≤ 0xBF

def low (b : UInt8) : Nat := b.toNat % 64

/-- The second bytes that may follow a first byte of three or four: overlong
forms, surrogates and numbers past U+10FFFF are left out. -/
def isSecond (first second : UInt8) : Bool :=
  isTail second &&
    (if first = 0xE0 then 0xA0 ≤ second
    else if first = 0xED then second ≤ 0x9F
    else if first = 0xF0 then 0x90 ≤ second
    else if first = 0xF4 then second ≤ 0x8F
    else true)

def decode : Bytes → List (Option Char)
  | [] => []
  | b :: rest =>
    if b < 0x80 then some (Char.ofNat b.toNat) :: decode rest
    else if 0xC2 ≤ b ∧ b ≤ 0xDF then
      match rest with
      | [] => [none]
      | b₁ :: r₁ =>
        if isTail b₁ then some (Char.ofNat (b.toNat % 32 * 64 + low b₁)) :: decode r₁
        else none :: decode (b₁ :: r₁)
    else if 0xE0 ≤ b ∧ b ≤ 0xEF then
      match rest with
      | [] => [none]
      | b₁ :: r₁ =>
        if isSecond b b₁ then
          match r₁ with
          | [] => [none]
          | b₂ :: r₂ =>
            if isTail b₂ then
              some (Char.ofNat ((b.toNat % 16 * 64 + low b₁) * 64 + low b₂)) :: decode r₂
            else none :: decode (b₂ :: r₂)
        else none :: decode (b₁ :: r₁)
    else if 0xF0 ≤ b ∧ b ≤ 0xF4 then
      match rest with
      | [] => [none]
      | b₁ :: r₁ =>
        if isSecond b b₁ then
          match r₁ with
          | [] => [none]
          | b₂ :: r₂ =>
            if isTail b₂ then
              match r₂ with
              | [] => [none]
              | b₃ :: r₃ =>
                if isTail b₃ then
                  some (Char.ofNat (((b.toNat % 8 * 64 + low b₁) * 64 + low b₂) * 64 + low b₃)) ::
                    decode r₃
                else none :: decode (b₃ :: r₃)
            else none :: decode (b₂ :: r₂)
        else none :: decode (b₁ :: r₁)
    else none :: decode rest

def decode? (bytes : Bytes) : Option (List Char) := (decode bytes).mapM id

/-- Text with U+FFFD for every ill-formed stretch. -/
def decodeLenient (bytes : Bytes) : List Char := (decode bytes).map (·.getD '\uFFFD')

end BundleGraph.Utf8
