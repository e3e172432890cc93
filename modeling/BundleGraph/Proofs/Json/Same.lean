import BundleGraph.Proofs.Json.Canonical
import BundleGraph.Proofs.Utf8
import BundleGraph.Fingerprint
import Mathlib.Data.List.Forall2
import Mathlib.Data.Option.Defs

/-!
# Equality of values as JSON

Two values are the same when their lists agree item by item and their objects
key by key, the last of equal keys counting. `canonicalBytes_eq_iff`: this is
what the bytes that stand for a value tell, no less and no more.
-/

namespace BundleGraph.Json

/-- The value of a key; the last of equal keys counts. -/
def lastField? (fields : Fields) (key : String) : Option Json :=
  fields.findSomeRev? fun (k, v) => if k = key then some v else none

def IsAtom : Json → Prop
  | .array _ | .object _ => False
  | _ => True

/-- Equality that the order of fields does not matter to. -/
inductive Same : Json → Json → Prop
  | atom {v : Json} : v.IsAtom → Same v v
  | array {vs ws : List Json} : List.Forall₂ Same vs ws → Same (.array vs) (.array ws)
  | object {fs gs : Fields} : (∀ key, Option.Rel Same (lastField? fs key) (lastField? gs key)) →
    Same (.object fs) (.object gs)

variable {v w : Json} {vs ws : List Json} {fs gs : Fields}

theorem Same.eq_of_isAtom (h : Same v w) (hv : v.IsAtom) : v = w := by
  cases h with
  | atom => rfl
  | array | object => exact hv.elim

theorem same_array : Same (.array vs) (.array ws) ↔ List.Forall₂ Same vs ws := by
  constructor
  · rintro (h | h)
    · exact h.elim
    · exact h
  · exact .array

theorem same_object : Same (.object fs) (.object gs) ↔
    ∀ key, Option.Rel Same (lastField? fs key) (lastField? gs key) := by
  constructor
  · rintro (h | - | h)
    · exact h.elim
    · exact h
  · exact .object

-- ---------------------------------------------------------------------------
-- Fields by their keys
-- ---------------------------------------------------------------------------

theorem lastField?_cons (k : String) (v : Json) (fs : Fields) (key : String) :
    lastField? ((k, v) :: fs) key = (lastField? fs key).or (if k = key then some v else none) := by
  simp [lastField?, List.findSomeRev?_eq_findSome?_reverse, List.findSome?_append]

theorem mem_of_lastField? {key : String} (h : lastField? fs key = some v) : (key, v) ∈ fs := by
  induction fs with
  | nil => cases h
  | cons f fs ih =>
    obtain ⟨k, u⟩ := f
    rw [lastField?_cons, Option.or_eq_some_iff] at h
    rcases h with h | ⟨-, h⟩
    · exact List.mem_cons_of_mem _ (ih h)
    · split at h
      · cases h
        simp_all
      · cases h

theorem lastField?_canonicalFields (fs : Fields) (key : String) :
    lastField? (canonicalFields fs) key = (lastField? fs key).map canonical := by
  induction fs with
  | nil => rfl
  | cons f fs ih =>
    obtain ⟨k, v⟩ := f
    rw [canonicalFields, lastField?_cons, lastField?_cons, ih, Option.map_or]
    split <;> rfl

theorem getElem?_ofList (fs : Fields) (key : String) :
    (Std.TreeMap.ofList fs compare)[key]? = lastField? fs key := by
  simp [Std.TreeMap.ofList_eq_insertMany_empty, Std.TreeMap.getElem?_insertMany_list, lastField?]

theorem sortFields_eq_iff :
    sortFields fs = sortFields gs ↔ ∀ key, lastField? fs key = lastField? gs key := by
  rw [sortFields, sortFields, ← Std.TreeMap.equiv_iff_toList_eq]
  constructor
  · intro h key
    rw [← getElem?_ofList, ← getElem?_ofList, h.getElem?_eq]
  · intro h
    refine .of_forall_constGet?_eq fun key => ?_
    rw [getElem?_ofList, getElem?_ofList, h key]

-- ---------------------------------------------------------------------------
-- Canonical values
-- ---------------------------------------------------------------------------

theorem IsAtom.canonical_eq (hv : v.IsAtom) : v.canonical = v := by
  cases v with
  | array | object => exact hv.elim
  | _ => rfl

theorem isAtom_canonical : v.canonical.IsAtom ↔ v.IsAtom := by
  cases v <;> rfl

theorem IsAtom.canonical_eq_iff (hv : v.IsAtom) (w : Json) :
    v.canonical = w.canonical ↔ Same v w := by
  constructor
  · intro h
    have hw : w.IsAtom := isAtom_canonical.mp (h ▸ isAtom_canonical.mpr hv)
    rw [hv.canonical_eq, hw.canonical_eq] at h
    exact h ▸ .atom hv
  · rintro (- | - | -)
    · rfl
    · exact hv.elim
    · exact hv.elim

mutual
theorem canonical_eq_iff : ∀ v w : Json, v.canonical = w.canonical ↔ Same v w
  | .null, w | .bool _, w | .int _, w | .float _, w | .string _, w =>
    IsAtom.canonical_eq_iff (by trivial) w
  | .array vs, w => by
    cases w with
    | array ws => simp [canonical, canonicalItems_eq_iff vs ws, same_array]
    | _ => constructor <;> (intro h; cases h)
  | .object fs, w => by
    cases w with
    | object gs =>
      rw [canonical, canonical, object.injEq, sortFields_eq_iff, same_object]
      refine forall_congr' fun key => ?_
      rw [lastField?_canonicalFields, lastField?_canonicalFields]
      have hvalue := fun v hv => field_canonical_eq_iff fs key v (mem_of_lastField? hv)
      cases hf : lastField? fs key <;> cases hg : lastField? gs key <;> simp_all
    | _ => constructor <;> (intro h; cases h)
theorem canonicalItems_eq_iff : ∀ vs ws : List Json,
    canonicalItems vs = canonicalItems ws ↔ List.Forall₂ Same vs ws
  | [], [] => by simp
  | [], w :: ws => by simp [canonicalItems]
  | v :: vs, [] => by simp [canonicalItems]
  | v :: vs, w :: ws => by
    simp [canonicalItems, canonical_eq_iff v w, canonicalItems_eq_iff vs ws]
theorem field_canonical_eq_iff : ∀ (fs : Fields) (key : String) (v : Json), (key, v) ∈ fs →
    ∀ w : Json, v.canonical = w.canonical ↔ Same v w
  | (_, u) :: fs, key, v, hv, w => by
    rcases List.mem_cons.mp hv with heq | hv
    · cases heq
      exact canonical_eq_iff u w
    · exact field_canonical_eq_iff fs key v hv w
end

theorem canonicalBytes_eq_iff (hv : v.IsFinite) (hw : w.IsFinite) :
    v.canonicalBytes = w.canonicalBytes ↔ Same v w := by
  rw [← canonical_eq_iff]
  constructor
  · intro h
    exact canonicalText_inj hv hw (Utf8.ofString_inj h)
  · intro h
    rw [canonicalBytes, canonicalBytes, canonicalText, canonicalText, h]

end BundleGraph.Json
