import BundleGraph.Gzip

/-!
# Compression that stores

The codec that writes the bytes in blocks as they are. Reading them back takes
no prefix code: every block begins at a byte, gives its length twice, and hands
on the bits behind it.
-/

namespace BundleGraph

namespace Inflate

/-- The number that bits stand for, the low one first. -/
def number : Bits → Nat
  | [] => 0
  | b :: bits => b.toNat + 2 * number bits

theorem number_append (bits more : Bits) :
    number (bits ++ more) = number bits + Nat.pow 2 bits.length * number more := by
  induction bits with
  | nil => simp [number]
  | cons b bits ih =>
    simp only [List.cons_append, number, ih, List.length_cons, Nat.pow_eq, Nat.pow_succ,
      Nat.mul_add, Nat.mul_assoc, Nat.mul_left_comm, Nat.add_assoc]

@[simp] theorem length_bitsOf (b : UInt8) : (bitsOf b).length = 8 := rfl

theorem number_bitsOf (b : UInt8) : number (bitsOf b) = b.toNat := by
  have h : ∀ n < 256, number ((List.range 8).map n.testBit) = n := by decide +kernel
  exact h b.toNat b.toNat_lt

@[simp] theorem ofBytes_cons (b : UInt8) (bytes : Bytes) :
    ofBytes (b :: bytes) = bitsOf b ++ ofBytes bytes := rfl

theorem ofBytes_append (bytes more : Bytes) :
    ofBytes (bytes ++ more) = ofBytes bytes ++ ofBytes more := by
  simp [ofBytes]

theorem length_ofBytes (bytes : Bytes) : (ofBytes bytes).length = 8 * bytes.length := by
  induction bytes with
  | nil => rfl
  | cons b bytes ih =>
    simp only [ofBytes_cons, List.length_append, length_bitsOf, ih, List.length_cons]
    omega

theorem number_ofBytes (bytes : Bytes) : number (ofBytes bytes) = Bytes.toNatLE bytes := by
  induction bytes with
  | nil => rfl
  | cons b bytes ih => simp [number_append, number_bitsOf, ih, Bytes.toNatLE]

theorem take_append (bits rest : Bits) :
    take bits.length (bits ++ rest) = .ok (number bits, rest) := by
  induction bits with
  | nil => rfl
  | cons b bits ih =>
    simp only [List.length_cons, List.cons_append, take, ih]
    rfl

theorem take_ofNatLE (width n : Nat) (hn : n < Nat.pow 256 width) (rest : Bytes) :
    take (8 * width) (ofBytes (Bytes.ofNatLE width n ++ rest)) = .ok (n, ofBytes rest) := by
  have h := take_append (ofBytes (Bytes.ofNatLE width n)) (ofBytes rest)
  rwa [length_ofBytes, Bytes.length_ofNatLE, number_ofBytes, Bytes.toNatLE_ofNatLE,
    Nat.mod_eq_of_lt hn, ← ofBytes_append] at h

theorem takeBytes_ofBytes (bytes rest : Bytes) (out : Array UInt8) :
    takeBytes bytes.length out (ofBytes (bytes ++ rest)) =
      .ok (out ++ bytes.toArray, ofBytes rest) := by
  induction bytes generalizing out with
  | nil => simp [takeBytes]
  | cons b bytes ih =>
    have h := take_append (bitsOf b) (ofBytes (bytes ++ rest))
    rw [number_bitsOf, length_bitsOf] at h
    simp only [List.length_cons, List.cons_append, takeBytes, ofBytes_cons, h, bind, Except.bind,
      ih, UInt8.ofNat_toNat]
    simp

theorem drop_padding (padding : Bits) (h : padding.length < 8) (bytes : Bytes) :
    (padding ++ ofBytes bytes).drop ((padding ++ ofBytes bytes).length % 8) = ofBytes bytes := by
  have hl : (padding ++ ofBytes bytes).length % 8 = padding.length := by
    rw [List.length_append, length_ofBytes]
    omega
  rw [hl, List.drop_left]

end Inflate

namespace Gzip

open Inflate

/-- The most bytes that a stored block holds. -/
def blockLimit : Nat := 65535

/-- Stored blocks; the last one is marked. -/
def storedBlocks : Nat → Bytes → Bytes
  | 0, _ => []
  | fuel + 1, bytes =>
    let block := bytes.take blockLimit
    let rest := bytes.drop blockLimit
    UInt8.ofNat (if rest.isEmpty then 1 else 0) :: Bytes.ofNatLE 2 block.length ++
      Bytes.ofNatLE 2 (blockLimit - block.length) ++ block ++
      (if rest.isEmpty then [] else storedBlocks fuel rest)

def compress (bytes : Bytes) : Bytes :=
  plainHeader ++ storedBlocks (bytes.length + 1) bytes ++ trailer bytes

/-- A stored block behind its first byte: its length, the complement and the bytes. -/
def storedBlock (block : Bytes) : Bytes :=
  Bytes.ofNatLE 2 block.length ++ (Bytes.ofNatLE 2 (blockLimit - block.length) ++ block)

theorem stored_storedBlock (padding : Bits) (hp : padding.length < 8) {block : Bytes}
    (hb : block.length ≤ blockLimit) (rest : Bytes) (out : Array UInt8) :
    stored out (padding ++ ofBytes (storedBlock block ++ rest)) =
      .ok (out ++ block.toArray, ofBytes rest) := by
  have hlimit : blockLimit = 65535 ∧ Nat.pow 256 2 = 65536 := by decide
  unfold stored
  rw [drop_padding padding hp, storedBlock, List.append_assoc, List.append_assoc]
  have h₁ := take_ofNatLE 2 block.length (by omega)
  have h₂ := take_ofNatLE 2 (blockLimit - block.length) (by omega)
  simp only [Nat.reduceMul] at h₁ h₂
  have hsum : block.length + (blockLimit - block.length) = 65535 := by omega
  simp [h₁, h₂, bind, Except.bind, hsum, takeBytes_ofBytes]

/-- One stored block, which the first bit of its first byte may mark as the last. -/
theorem blocks_storedBlock (last : Bool) {block : Bytes} (hb : block.length ≤ blockLimit)
    (rest : Bytes) (steps : Nat) (out : Array UInt8) :
    blocks (steps + 1) out
        (ofBytes (UInt8.ofNat last.toNat :: (storedBlock block ++ rest))) =
      if last then .ok (out ++ block.toArray, ofBytes rest)
      else blocks steps (out ++ block.toArray) (ofBytes rest) := by
  have hstored := stored_storedBlock (List.replicate 5 false) (by decide) hb rest out
  have htake (bits : Bits) : take 1 (bitsOf (UInt8.ofNat last.toNat) ++ bits) =
      .ok (last.toNat, List.replicate 7 false ++ bits) := by cases last <;> rfl
  have hkind (bits : Bits) : take 2 (List.replicate 7 false ++ bits) =
      .ok (0, List.replicate 5 false ++ bits) := rfl
  rw [blocks, ofBytes_cons, htake]
  simp only [bind, Except.bind, hkind, hstored]
  cases last <;> rfl

theorem storedBlocks_succ (fuel : Nat) (bytes : Bytes) :
    storedBlocks (fuel + 1) bytes =
      UInt8.ofNat (bytes.drop blockLimit).isEmpty.toNat :: (storedBlock (bytes.take blockLimit) ++
        if (bytes.drop blockLimit).isEmpty then [] else
          storedBlocks fuel (bytes.drop blockLimit)) := by
  cases h : (bytes.drop blockLimit).isEmpty <;> simp [storedBlocks, storedBlock, h]

theorem blocks_storedBlocks {fuel steps : Nat} {bytes : Bytes} (hfuel : bytes.length < fuel)
    (hsteps : (storedBlocks fuel bytes).length < steps) (rest : Bytes) (out : Array UInt8) :
    blocks steps out (ofBytes (storedBlocks fuel bytes ++ rest)) =
      .ok (out ++ bytes.toArray, ofBytes rest) := by
  induction fuel generalizing steps bytes out with
  | zero => omega
  | succ fuel ih =>
    obtain ⟨steps, rfl⟩ : ∃ n, steps = n + 1 := ⟨steps - 1, by omega⟩
    have hblock : (bytes.take blockLimit).length ≤ blockLimit := List.length_take_le ..
    rw [storedBlocks_succ] at hsteps ⊢
    rw [List.cons_append, List.append_assoc, blocks_storedBlock _ hblock]
    cases hlast : (bytes.drop blockLimit).isEmpty with
    | true =>
      have hall : bytes.take blockLimit = bytes :=
        List.take_of_length_le (List.drop_eq_nil_iff.mp (List.isEmpty_iff.mp hlast))
      simp [hall]
    | false =>
      have hmore : 0 < (bytes.drop blockLimit).length :=
        List.length_pos_iff.mpr fun h => by simp [h] at hlast
      have hlimit : 0 < blockLimit := by decide
      simp only [hlast, List.length_cons, List.length_append, List.length_drop,
        Bool.false_eq_true, if_false] at hsteps hmore ⊢
      have hall : (bytes.take blockLimit).toArray ++ (bytes.drop blockLimit).toArray =
          bytes.toArray := by simp
      rw [ih (by rw [List.length_drop]; omega) (by omega), Array.append_assoc, hall]

theorem inflate_storedBlocks (bytes rest : Bytes) :
    inflate (storedBlocks (bytes.length + 1) bytes ++ rest) = .ok (bytes, ofBytes rest) := by
  have hb : blocks ((ofBytes (storedBlocks (bytes.length + 1) bytes ++ rest)).length + 1) #[]
      (ofBytes (storedBlocks (bytes.length + 1) bytes ++ rest)) =
        .ok (#[] ++ bytes.toArray, ofBytes rest) :=
    blocks_storedBlocks (by omega) (by rw [length_ofBytes, List.length_append]; omega) rest #[]
  have hd := drop_padding [] (by decide) rest
  rw [List.nil_append] at hd
  simp [inflate, bind, Except.bind, hb, hd, pure, Except.pure]

theorem body_plainHeader (rest : Bytes) : body (plainHeader ++ rest) = .ok rest := rfl

theorem decompress_compress (bytes : Bytes) : decompress (compress bytes) = .ok bytes := by
  have ht := takeBytes_ofBytes (trailer bytes) [] #[]
  rw [List.append_nil] at ht
  have hl : (trailer bytes).length = 8 := by simp [trailer]
  rw [hl] at ht
  have hok {α : Type} (a : α) : (Except.ok a).mapError Error.ofInflate = .ok a := rfl
  rw [decompress, compress, List.append_assoc, body_plainHeader]
  simp [bind, Except.bind, inflate_storedBlocks, hok, ht, pure, Except.pure]

def Codec.stored : Codec where
  compress := Gzip.compress
  decompress := Gzip.decompress
  decompress_compress := Gzip.decompress_compress

end Gzip

end BundleGraph
