import BundleGraph.Proofs.Binary64.Text
import BundleGraph.Proofs.Cache.Stores
import BundleGraph.Proofs.Path

/-!
# Paths of keys

The path of a key is the root with a directory and a file behind it, whose names
are digits of the key's text. With stems of one length the path tells keys apart as
the bytes of a key do, and it is none of the paths that a file has while it is
written.
-/

namespace BundleGraph

-- ---------------------------------------------------------------------------
-- Hexadecimal text
-- ---------------------------------------------------------------------------

namespace Bytes

def hexDigits : List Char :=
  ['0', '1', '2', '3', '4', '5', '6', '7', '8', '9', 'a', 'b', 'c', 'd', 'e', 'f']

/-- Text of lower-case hexadecimal digits. -/
def IsHex (cs : List Char) : Prop := ∀ c ∈ cs, c ∈ hexDigits

instance (cs : List Char) : Decidable (IsHex cs) := List.decidableBAll (· ∈ hexDigits) cs

theorem hexDigit_mem (n : Nat) : hexDigit n ∈ hexDigits := by
  have h : ∀ m < 16, Nat.digitChar m ∈ hexDigits := by decide
  exact h _ (Nat.mod_lt _ (by decide))

theorem toList_toHex_cons (b : UInt8) (bytes : Bytes) : (toHex (b :: bytes)).toList =
    hexDigit (b.toNat / 16) :: hexDigit b.toNat :: (toHex bytes).toList := by
  simp [toHex]

theorem isHex_toHex (bytes : Bytes) : IsHex (toHex bytes).toList := by
  induction bytes with
  | nil => exact nofun
  | cons b bytes ih =>
    rw [toList_toHex_cons]
    exact List.forall_mem_cons.mpr ⟨hexDigit_mem _, List.forall_mem_cons.mpr ⟨hexDigit_mem _, ih⟩⟩

theorem length_toHex (bytes : Bytes) : (toHex bytes).toList.length = 2 * bytes.length := by
  induction bytes with
  | nil => rfl
  | cons b bytes ih => simp only [toList_toHex_cons, List.length_cons, ih, Nat.mul_add_one]

theorem length_encodeChar_of_mem {c : Char} (h : c ∈ hexDigits) :
    (Utf8.encodeChar c).length = 1 := by
  have hall : hexDigits.all fun c => (Utf8.encodeChar c).length = 1 := by decide
  simpa using List.all_eq_true.mp hall c h

theorem IsHex.not_mem {cs : List Char} (h : IsHex cs) {c : Char} (hc : c ∉ hexDigits) : c ∉ cs :=
  fun hmem => hc (h c hmem)

theorem IsHex.isPiece {cs : List Char} (h : IsHex cs) (hne : cs ≠ []) :
    (Component.name cs).IsPiece := by
  have hdot := h.not_mem (c := '.') (by decide)
  refine Component.isPiece_name hne ?_ ?_ (h.not_mem (by decide))
  · rintro rfl
    exact hdot (.head _)
  · rintro rfl
    exact hdot (.head _)

end Bytes

namespace CacheKey

open Bytes (IsHex)
open BundleGraph.Path (components join parent? below?)

variable {j k : CacheKey}

-- ---------------------------------------------------------------------------
-- Shards and names
-- ---------------------------------------------------------------------------

/-- The stem has a byte and the digest has a digit, and digits only. -/
structure IsPrintable (k : CacheKey) : Prop where
  stem_ne_nil : k.stem ≠ []
  digest_ne_nil : k.digest.toList ≠ []
  isHex_digest : IsHex k.digest.toList

theorem IsPrintable.isHex_text (h : k.IsPrintable) : IsHex k.text.toList := by
  rw [text, String.toList_append]
  exact List.forall_mem_append.mpr ⟨Bytes.isHex_toHex _, h.isHex_digest⟩

/-- The directory of a key: the first two digits of its text. -/
def shard (k : CacheKey) : List Char := k.text.toList.take 2

/-- The file of a key: all other digits of its text. -/
def fileName (k : CacheKey) : List Char := k.text.toList.drop 2

theorem IsPrintable.length_text (h : k.IsPrintable) : 2 < k.text.toList.length := by
  have hstem := List.length_pos_of_ne_nil h.stem_ne_nil
  have hdigest := List.length_pos_of_ne_nil h.digest_ne_nil
  rw [text, String.toList_append, List.length_append, Bytes.length_toHex]
  omega

theorem splitBytes_of_isHex {cs : List Char} (h : IsHex cs) (n : Nat) :
    splitBytes n cs = (cs.take n, cs.drop n) := by
  induction cs generalizing n with
  | nil => simp [splitBytes]
  | cons c cs ih =>
    obtain ⟨hc, hcs⟩ := List.forall_mem_cons.mp h
    cases n with
    | zero => simp [splitBytes, Bytes.length_encodeChar_of_mem hc]
    | succ n => simp [splitBytes, Bytes.length_encodeChar_of_mem hc, ih hcs]

theorem IsPrintable.isHex_shard (h : k.IsPrintable) : IsHex k.shard :=
  fun c hc => h.isHex_text c (List.mem_of_mem_take hc)

theorem IsPrintable.isHex_fileName (h : k.IsPrintable) : IsHex k.fileName :=
  fun c hc => h.isHex_text c (List.mem_of_mem_drop hc)

theorem IsPrintable.length_shard (h : k.IsPrintable) : k.shard.length = 2 := by
  rw [shard, List.length_take, Nat.min_eq_left (Nat.le_of_lt h.length_text)]

theorem IsPrintable.fileName_ne_nil (h : k.IsPrintable) : k.fileName ≠ [] := by
  rw [fileName, ne_eq, List.drop_eq_nil_iff, Nat.not_le]
  exact h.length_text

theorem IsPrintable.isPiece_shard (h : k.IsPrintable) : (Component.name k.shard).IsPiece :=
  h.isHex_shard.isPiece (List.ne_nil_of_length_pos (h.length_shard ▸ Nat.zero_lt_two))

theorem IsPrintable.isPiece_fileName (h : k.IsPrintable) : (Component.name k.fileName).IsPiece :=
  h.isHex_fileName.isPiece h.fileName_ne_nil

theorem shard_append_fileName (k : CacheKey) : k.shard ++ k.fileName = k.text.toList :=
  List.take_append_drop 2 _

theorem eq_of_text_eq (hlen : j.stem.length = k.stem.length) (h : j.text = k.text) : j = k := by
  have htext := congrArg String.toList h
  rw [text, text, String.toList_append, String.toList_append] at htext
  have hhex : (j.stem.toHex).toList.length = (k.stem.toHex).toList.length := by
    rw [Bytes.length_toHex, Bytes.length_toHex, hlen]
  obtain ⟨hstem, hdigest⟩ := List.append_inj htext hhex
  cases j
  cases k
  rw [mk.injEq]
  exact ⟨Bytes.toHex_inj (String.toList_inj.mp hstem), String.toList_inj.mp hdigest⟩

-- ---------------------------------------------------------------------------
-- Paths
-- ---------------------------------------------------------------------------

theorem IsPrintable.components_path (h : k.IsPrintable) (root : String) :
    components (k.path root) = components root ++ [.name k.shard, .name k.fileName] := by
  have hshard := Path.components_join root (String.ofList k.shard)
    (by simpa using h.isPiece_shard)
  have hname := Path.components_join (join root (String.ofList k.shard))
    (String.ofList k.fileName) (by simpa using h.isPiece_fileName)
  rw [String.toList_ofList] at hshard hname
  rw [path, splitBytes_of_isHex h.isHex_text]
  exact hname.trans (by rw [hshard, List.append_assoc, List.cons_append, List.nil_append])

theorem eq_of_components_path (hlen : j.stem.length = k.stem.length) (hj : j.IsPrintable)
    (hk : k.IsPrintable) (root : String)
    (h : components (j.path root) = components (k.path root)) : j = k := by
  rw [hj.components_path, hk.components_path, List.append_cancel_left_eq] at h
  obtain ⟨hshard, hname⟩ : j.shard = k.shard ∧ j.fileName = k.fileName := by simpa using h
  refine eq_of_text_eq hlen (String.toList_inj.mp ?_)
  rw [← shard_append_fileName, hshard, hname, shard_append_fileName]

theorem IsPrintable.exists_parent (h : k.IsPrintable) (root : String) :
    ∃ dir, parent? (k.path root) = some dir ∧
      components dir = components root ++ [.name k.shard] := by
  have hpath : components (k.path root) =
      (components root ++ [.name k.shard]) ++ [.name k.fileName] := by
    rw [h.components_path, List.append_assoc, List.singleton_append]
  have hshard := List.forall_mem_singleton.mpr h.isPiece_shard
  exact ⟨_, Path.parent?_of_components hpath nofun,
    Path.components_ofComponents_append root hshard⟩

-- ---------------------------------------------------------------------------
-- Temporary files
-- ---------------------------------------------------------------------------

/-- The name that a file has in its directory while a process writes it. -/
def temporaryName (process count : Nat) : String :=
  "." ++ toString process ++ "." ++ toString count ++ ".tmp"

section

variable (process count : Nat)

theorem toList_temporaryName : (temporaryName process count).toList =
    '.' :: ((toString process).toList ++ '.' :: ((toString count).toList ++ ".tmp".toList)) := by
  simp [temporaryName]

theorem isPiece_temporaryName :
    (Component.name (temporaryName process count).toList).IsPiece := by
  have hletter : 't' ∈ (temporaryName process count).toList := by simp [toList_temporaryName]
  refine Component.isPiece_name ?_ ?_ ?_ ?_
  · exact List.ne_nil_of_mem hletter
  · intro h
    rw [h] at hletter
    revert hletter
    decide
  · intro h
    rw [h] at hletter
    revert hletter
    decide
  · have hdigits (n : Nat) : '/' ∉ (toString n).toList := fun h =>
      absurd (Binary64.isDigit_toString h) (by decide)
    simp only [toList_temporaryName, List.mem_cons, List.mem_append, hdigits, false_or]
    decide

/-- A dot is no digit. -/
theorem IsPrintable.fileName_ne_temporaryName (h : k.IsPrintable) :
    k.fileName ≠ (temporaryName process count).toList := by
  intro heq
  refine h.isHex_fileName.not_mem (c := '.') (by decide) ?_
  rw [heq, toList_temporaryName]
  exact .head _

end

/-- For stems of one length, printable keys have equal paths, and equal bytes, only
when they are equal. A path is the root with two digits and then a name of digits
behind it, and no temporary name in its directory is the name of a key or the end
of the path of one. -/
theorem stores_tell_keys_apart (root : String) (j k : CacheKey)
    (hlen : j.stem.length = k.stem.length) (hj : j.IsPrintable) (hk : k.IsPrintable) :
    (components (j.path root) = components (k.path root) ↔ j = k) ∧
    (j.path root = k.path root ↔ j = k) ∧
    (j.toBytes = k.toBytes ↔ j = k) ∧
    below? root (j.path root) = some [.name j.shard, .name j.fileName] ∧
    j.shard.length = 2 ∧ IsHex j.shard ∧ j.fileName ≠ [] ∧ IsHex j.fileName ∧
    ∃ dir, parent? (j.path root) = some dir ∧ below? root dir = some [.name j.shard] ∧
      ∀ process count, j.fileName ≠ (temporaryName process count).toList ∧
        components (join dir (temporaryName process count)) ≠ components (k.path root) := by
  have hpath : components (j.path root) = components (k.path root) ↔ j = k :=
    ⟨eq_of_components_path hlen hj hk root, fun h => by rw [h]⟩
  have htext : j.path root = k.path root ↔ j = k :=
    ⟨fun h => hpath.mp (by rw [h]), fun h => by rw [h]⟩
  have hbytes : j.toBytes = k.toBytes ↔ j = k := ⟨eq_of_toBytes_eq hlen, fun h => by rw [h]⟩
  have hbelow := Path.dropFront?_eq_some_iff.mpr (hj.components_path root)
  obtain ⟨dir, hparent, hdir⟩ := hj.exists_parent root
  refine ⟨hpath, htext, hbytes, hbelow, hj.length_shard, hj.isHex_shard, hj.fileName_ne_nil,
    hj.isHex_fileName, dir, hparent, Path.dropFront?_eq_some_iff.mpr hdir, fun process count =>
    ⟨hj.fileName_ne_temporaryName process count, fun h => ?_⟩⟩
  rw [Path.components_join dir _ (isPiece_temporaryName process count), hdir, hk.components_path,
    List.append_assoc, List.append_cancel_left_eq] at h
  have hname : (temporaryName process count).toList = k.fileName := by
    simpa using (List.cons.inj h).2
  exact hk.fileName_ne_temporaryName process count hname.symm

/-- The texts of both keys are one digit apart, and begin with the same six digits. -/
theorem stores_tell_keys_apart_same_start :
    let j : CacheKey := ⟨[0xAB, 0x01], "0f"⟩
    let k : CacheKey := ⟨[0xAB, 0x01], "0f0"⟩
    j.IsPrintable ∧ k.IsPrintable ∧ components (j.path "c/.") ≠ components (k.path "c/.") ∧
      j.toBytes ≠ k.toBytes ∧
      below? "c/." (j.path "c/.") = some [.name ['a', 'b'], .name ['0', '1', '0', 'f']] := by
  intro j k
  have hj : j.IsPrintable := ⟨by decide, by decide, by decide⟩
  have hk : k.IsPrintable := ⟨by decide, by decide, by decide⟩
  obtain ⟨hpath, -, hbytes, hbelow, -⟩ := stores_tell_keys_apart "c/." j k rfl hj hk
  have hne : j ≠ k := by decide
  exact ⟨hj, hk, fun h => hne (hpath.mp h), fun h => hne (hbytes.mp h),
    hbelow.trans (by decide)⟩

end CacheKey

end BundleGraph
