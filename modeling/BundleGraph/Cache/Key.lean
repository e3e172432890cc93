import BundleGraph.Path
import BundleGraph.Text.Utf8

/-!
# Cache keys

A key has two parts: a stem, which is known before the file is read, and the
digest of the content. A store keeps entries by the bytes of the key or by a
path made of its text.
-/

namespace BundleGraph

structure CacheKey where
  stem : Bytes
  digest : String
  deriving DecidableEq, Repr

namespace CacheKey

def withDigest (k : CacheKey) (digest : String) : CacheKey := { k with digest }

def toBytes (k : CacheKey) : Bytes := k.stem ++ Utf8.ofString k.digest

def text (k : CacheKey) : String := k.stem.toHex ++ k.digest

/-- Splits off as many characters as fit into a number of bytes. -/
def splitBytes : Nat → List Char → List Char × List Char
  | _, [] => ([], [])
  | n, c :: cs =>
    let size := (Utf8.encodeChar c).length
    if size ≤ n then
      let (front, rest) := splitBytes (n - size) cs
      (c :: front, rest)
    else ([], c :: cs)

theorem append_splitBytes (n : Nat) (cs : List Char) :
    (splitBytes n cs).1 ++ (splitBytes n cs).2 = cs := by
  induction cs generalizing n with
  | nil => simp [splitBytes]
  | cons c cs ih =>
    rw [splitBytes]
    dsimp only
    split
    · simp [ih]
    · rfl

/-- A directory for the first two bytes of the text, and a file in it for the
rest. -/
def path (root : String) (k : CacheKey) : String :=
  let (shard, rest) := splitBytes 2 k.text.toList
  Path.join (Path.join root (String.ofList shard)) (String.ofList rest)

end CacheKey

end BundleGraph
