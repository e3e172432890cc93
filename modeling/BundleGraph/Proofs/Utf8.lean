import BundleGraph.Text.Utf8

/-!
# Text from its bytes

Decoding undoes encoding, one character at a time: the first byte says how many
follow, and the bits of all of them are the number of the character. Numbers of
characters leave out the surrogates, so that no second byte is turned down.
-/

namespace BundleGraph.Utf8

theorem toNat_valid (c : Char) : c.toNat < 0xD800 ∨ 0xDFFF < c.toNat ∧ c.toNat < 0x110000 :=
  c.valid

theorem toNat_ofNat {n : Nat} (h : n < 256) : (UInt8.ofNat n).toNat = n := by
  simp [UInt8.toNat_ofNat', Nat.mod_eq_of_lt h]

theorem isTail_ofNat (n : Nat) : isTail (UInt8.ofNat (0x80 + n % 64)) := by
  have h : (UInt8.ofNat (0x80 + n % 64)).toNat = 0x80 + n % 64 := toNat_ofNat (by omega)
  simp only [isTail, UInt8.le_iff_toNat_le, Bool.and_eq_true, decide_eq_true_eq, h,
    UInt8.reduceToNat]
  omega

theorem low_ofNat (n : Nat) : low (UInt8.ofNat (0x80 + n % 64)) = n % 64 := by
  rw [low, toNat_ofNat (by omega)]
  omega

theorem isSecond_ofNat {m n : Nat} (hm : m < 256) (h₀ : m = 0xE0 → 0x20 ≤ n % 64)
    (h₁ : m = 0xED → n % 64 < 0x20) (h₂ : m = 0xF0 → 0x10 ≤ n % 64)
    (h₃ : m = 0xF4 → n % 64 < 0x10) :
    isSecond (UInt8.ofNat m) (UInt8.ofNat (0x80 + n % 64)) := by
  have hn : (UInt8.ofNat (0x80 + n % 64)).toNat = 0x80 + n % 64 := toNat_ofNat (by omega)
  rw [isSecond, isTail_ofNat, Bool.true_and]
  simp only [← UInt8.toNat_inj, UInt8.le_iff_toNat_le, toNat_ofNat hm, hn, UInt8.reduceToNat]
  repeat' split
  all_goals simp only [decide_eq_true_eq]
  all_goals omega

theorem decode_one {b : UInt8} (h : b.toNat < 0x80) (rest : Bytes) :
    decode (b :: rest) = some (Char.ofNat b.toNat) :: decode rest := by
  have hb : b < 0x80 := UInt8.lt_iff_toNat_lt.mpr h
  rw [decode.eq_def]
  simp [hb]

section
variable {b b₁ b₂ b₃ : UInt8} (rest : Bytes)

theorem decode_two (h : 0xC2 ≤ b.toNat) (h' : b.toNat ≤ 0xDF) (h₁ : isTail b₁) :
    decode (b :: b₁ :: rest) = some (Char.ofNat (b.toNat % 32 * 64 + low b₁)) :: decode rest := by
  have : ¬ b < 0x80 := by simp only [UInt8.lt_iff_toNat_lt, UInt8.reduceToNat]; omega
  have hb : 0xC2 ≤ b ∧ b ≤ 0xDF := ⟨UInt8.le_iff_toNat_le.mpr h, UInt8.le_iff_toNat_le.mpr h'⟩
  rw [decode.eq_def]
  simp [this, hb, h₁]

theorem decode_three (h : 0xE0 ≤ b.toNat) (h' : b.toNat ≤ 0xEF) (h₁ : isSecond b b₁)
    (h₂ : isTail b₂) : decode (b :: b₁ :: b₂ :: rest) =
      some (Char.ofNat ((b.toNat % 16 * 64 + low b₁) * 64 + low b₂)) :: decode rest := by
  have hs : ¬ b < 0x80 ∧ ¬ b ≤ 0xDF := by
    simp only [UInt8.lt_iff_toNat_lt, UInt8.le_iff_toNat_le, UInt8.reduceToNat]; omega
  have hb : 0xE0 ≤ b ∧ b ≤ 0xEF := ⟨UInt8.le_iff_toNat_le.mpr h, UInt8.le_iff_toNat_le.mpr h'⟩
  rw [decode.eq_def]
  simp [hs, hb, h₁, h₂]

theorem decode_four (h : 0xF0 ≤ b.toNat) (h' : b.toNat ≤ 0xF4) (h₁ : isSecond b b₁)
    (h₂ : isTail b₂) (h₃ : isTail b₃) : decode (b :: b₁ :: b₂ :: b₃ :: rest) =
      some (Char.ofNat (((b.toNat % 8 * 64 + low b₁) * 64 + low b₂) * 64 + low b₃)) ::
        decode rest := by
  have hs : ¬ b < 0x80 ∧ ¬ b ≤ 0xDF ∧ ¬ b ≤ 0xEF := by
    simp only [UInt8.lt_iff_toNat_lt, UInt8.le_iff_toNat_le, UInt8.reduceToNat]; omega
  have hb : 0xF0 ≤ b ∧ b ≤ 0xF4 := ⟨UInt8.le_iff_toNat_le.mpr h, UInt8.le_iff_toNat_le.mpr h'⟩
  rw [decode.eq_def]
  simp [hs, hb, h₁, h₂, h₃]

end

theorem decode_encodeChar (c : Char) (rest : Bytes) :
    decode (encodeChar c ++ rest) = some c :: decode rest := by
  have hv := toNat_valid c
  -- The number that the bytes stand for is the number of the character.
  have back {n : Nat} (h : n = c.toNat) :
      some (Char.ofNat n) :: decode rest = some c :: decode rest := by
    rw [h, Char.ofNat_toNat]
  unfold encodeChar
  dsimp only
  split
  case isTrue h₁ =>
    have hb := toNat_ofNat (n := c.toNat) (by omega)
    exact (decode_one (by omega) rest).trans (back hb)
  split
  case isFalse.isTrue h₁ h₂ =>
    have hb := toNat_ofNat (n := 0xC0 + c.toNat / 64) (by omega)
    refine (decode_two rest (by omega) (by omega) (isTail_ofNat _)).trans (back ?_)
    rw [hb, low_ofNat]
    omega
  split
  case isFalse.isFalse.isTrue h₁ h₂ h₃ =>
    have hb := toNat_ofNat (n := 0xE0 + c.toNat / 4096) (by omega)
    refine (decode_three rest (by omega) (by omega) ?_ (isTail_ofNat _)).trans (back ?_)
    · exact isSecond_ofNat (by omega) (by omega) (by omega) (by omega) (by omega)
    · rw [hb, low_ofNat, low_ofNat]
      omega
  case isFalse.isFalse.isFalse h₁ h₂ h₃ =>
    have hb := toNat_ofNat (n := 0xF0 + c.toNat / 262144) (by omega)
    refine (decode_four rest (by omega) (by omega) ?_ (isTail_ofNat _) (isTail_ofNat _)).trans
      (back ?_)
    · exact isSecond_ofNat (by omega) (by omega) (by omega) (by omega) (by omega)
    · rw [hb, low_ofNat, low_ofNat, low_ofNat]
      omega

theorem decode_encode (cs : List Char) : decode (encode cs) = cs.map some := by
  induction cs with
  | nil => rfl
  | cons c cs ih =>
    rw [encode, List.flatMap_cons, decode_encodeChar]
    simpa [encode] using ih

theorem decode?_encode (cs : List Char) : decode? (encode cs) = some cs := by
  rw [decode?, decode_encode]
  induction cs with
  | nil => rfl
  | cons c cs ih => simp_all

theorem decode?_ofString (s : String) : decode? (ofString s) = some s.toList :=
  decode?_encode s.toList

theorem ofString_inj {s t : String} (h : ofString s = ofString t) : s = t := by
  have hs := decode?_ofString s
  rw [h, decode?_ofString] at hs
  exact String.toList_inj.mp (Option.some.inj hs).symm

end BundleGraph.Utf8
