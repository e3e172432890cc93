import BundleGraph.Gzip.Inflate

/-!
# Gzip

A compressed file is a header, deflated bytes, and a trailer that holds their
checksum and number. One content has many deflated forms; a codec picks one that
is read back.
-/

namespace BundleGraph

namespace Crc32

def polynomial : UInt32 := 0xEDB88320

def bitStep (crc : UInt32) : UInt32 :=
  if crc % 2 = 1 then (crc >>> 1) ^^^ polynomial else crc >>> 1

def byteStep (crc : UInt32) (b : UInt8) : UInt32 :=
  bitStep (bitStep (bitStep (bitStep (bitStep (bitStep (bitStep (bitStep
    (crc ^^^ b.toUInt32))))))))

/-- The cyclic redundancy check of 32 bits, low bits first. -/
def checksum (bytes : Bytes) : UInt32 := ~~~(bytes.foldl byteStep 0xFFFFFFFF)

end Crc32

namespace Gzip

inductive Error where
  | invalidHeader
  | truncated
  | corrupt
  | wrongChecksum
  deriving DecidableEq, Repr

namespace Error

def message : Error → String
  | invalidHeader => "invalid gzip header"
  | truncated => "unexpected end of file"
  | corrupt => "corrupt deflate stream"
  | wrongChecksum => "corrupt gzip stream does not have a matching checksum"

def ofInflate : Inflate.Error → Error
  | .truncated => truncated
  | .corrupt => corrupt

end Error

def plainHeader : Bytes := [0x1F, 0x8B, 0x08, 0, 0, 0, 0, 0, 0, 0xFF]

def trailer (bytes : Bytes) : Bytes :=
  Bytes.ofNatLE 4 (Crc32.checksum bytes).toNat ++ Bytes.ofNatLE 4 bytes.length

/-- Drops a text that ends in a zero byte. -/
def dropText (bytes : Bytes) : Except Error Bytes :=
  match bytes.dropWhile (· ≠ 0) with
  | [] => .error .truncated
  | _ :: rest => .ok rest

/-- Drops the optional parts of a header, by the bits of its flags. -/
def dropOptions (whole : Bytes) (flags : Nat) (bytes : Bytes) : Except Error Bytes := do
  let bytes ←
    if flags.testBit 2 then
      let length := Bytes.toNatLE (bytes.take 2)
      if bytes.length < 2 + length then .error .truncated else pure (bytes.drop (2 + length))
    else pure bytes
  let bytes ← if flags.testBit 3 then dropText bytes else pure bytes
  let bytes ← if flags.testBit 4 then dropText bytes else pure bytes
  if flags.testBit 1 then
    if bytes.length < 2 then .error .truncated
    else if Bytes.toNatLE (bytes.take 2) =
        (Crc32.checksum (whole.take (whole.length - bytes.length))).toNat % 65536 then
      pure (bytes.drop 2)
    else .error .invalidHeader
  else pure bytes

def body (bytes : Bytes) : Except Error Bytes :=
  match bytes with
  | a :: b :: c :: flags :: _ :: _ :: _ :: _ :: _ :: _ :: rest =>
    if a = 0x1F ∧ b = 0x8B ∧ c = 0x08 ∧ flags.toNat < 32 then
      dropOptions bytes flags.toNat rest
    else .error .invalidHeader
  | _ => .error .truncated

/-- Bytes behind the trailer are not looked at. -/
def decompress (bytes : Bytes) : Except Error Bytes := do
  let deflated ← body bytes
  let (content, rest) ← (Inflate.inflate deflated).mapError .ofInflate
  let (found, _) ← (Inflate.takeBytes 8 #[] rest).mapError .ofInflate
  if found.toList = trailer content then return content else .error .wrongChecksum

/-- Decompression undoes compression; nothing else is known of the bytes written. -/
structure Codec where
  compress : Bytes → Bytes
  decompress : Bytes → Except Error Bytes
  decompress_compress (bytes : Bytes) : decompress (compress bytes) = .ok bytes

end Gzip

end BundleGraph
