import Mathlib.Data.List.Induction
import BundleGraph.OrderedMap

/-!
# The order of insertion

Inserting an absent key appends it. A set made from a list has the elements of
the list in the order of their first occurrences; for a list without repetition
that is the list itself.
-/

namespace BundleGraph

open Std (TreeMap TransOrd LawfulEqOrd)

namespace OrderedMap

variable {α : Type u} {β : Type v} [Ord α] [TransOrd α] [LawfulEqOrd α]

theorem toList_byStamp_insert (m : OrderedMap α β) (k : α) (v : β) (hk : m.slots[k]? = none) :
    (m.insert k v).byStamp.toList = m.byStamp.toList ++ [(m.next, k, v)] := by
  have hslots : (m.insert k v).slots = m.slots.insert k (m.next, v) := by
    unfold insert
    split
    · rename_i p hp
      rw [hk] at hp
      cases hp
    · rfl
  have hold : ∀ {s j w}, (s, j, w) ∈ m.byStamp.toList ↔ m.slots[j]? = some (s, w) := by
    intro s j w
    rw [TreeMap.mem_toList_iff_getElem?_eq_some, getElem?_byStamp]
  have hnew : ∀ {s j w}, (s, j, w) ∈ (m.insert k v).byStamp.toList ↔
      (s, j, w) ∈ m.byStamp.toList ++ [(m.next, k, v)] := by
    intro s j w
    rw [TreeMap.mem_toList_iff_getElem?_eq_some, getElem?_byStamp, hslots,
      TreeMap.getElem?_insert, List.mem_append, hold, List.mem_singleton]
    by_cases hj : k = j
    · subst hj
      simp [hk, eq_comm]
    · simp [hj, Ne.symm hj]
  have hsorted : (m.byStamp.toList ++ [(m.next, k, v)]).Pairwise
      fun a b => compare a.1 b.1 = .lt := by
    refine List.pairwise_append.mpr ⟨TreeMap.ordered_keys_toList, List.pairwise_singleton _ _, ?_⟩
    rintro ⟨s, j, w⟩ hj b hb
    rw [List.mem_singleton.mp hb]
    exact Nat.compare_eq_lt.mpr (m.stamp_lt j _ (hold.mp hj))
  have hle : ∀ a b : Nat × α × β, compare a.1 b.1 = .lt → compare b.1 a.1 = .lt → a = b := by
    intro a b hab hba
    rw [Nat.compare_eq_lt] at hab hba
    omega
  refine List.Perm.eq_of_pairwise (fun a b _ _ => hle a b) TreeMap.ordered_keys_toList hsorted ?_
  refine (List.perm_ext_iff_of_nodup ?_ ?_).mpr fun a => hnew
  · exact TreeMap.ordered_keys_toList.imp fun h heq => by simp [heq] at h
  · exact hsorted.imp fun h heq => by simp [heq] at h

theorem toList_insert (m : OrderedMap α β) (k : α) (v : β) (hk : m.contains k = false) :
    (m.insert k v).toList = m.toList ++ [(k, v)] := by
  have hslot : m.slots[k]? = none := TreeMap.getElem?_eq_none_of_contains_eq_false hk
  rw [toList, toList_byStamp_insert m k v hslot]
  simp [toList]

theorem keys_insert (m : OrderedMap α β) (k : α) (v : β) (hk : m.contains k = false) :
    (m.insert k v).keys = m.keys ++ [k] := by
  rw [keys, toList_insert m k v hk]
  simp [keys]

theorem toList_ofList (l : List (α × β)) (hl : (l.map (·.1)).Nodup) : (ofList l).toList = l := by
  -- from the end: the last entry is the last one inserted
  induction l using List.reverseRecOn with
  | nil => rfl
  | append_singleton l e ih =>
    rw [List.map_append, List.nodup_append] at hl
    obtain ⟨hinit, -, hlast⟩ := hl
    have hkeys : (ofList l).keys = l.map (·.1) := by rw [keys, ih hinit]
    have hnew : (ofList l).contains e.1 = false := by
      rw [← Bool.not_eq_true, ← mem_keys, hkeys]
      exact fun hmem => hlast e.1 hmem e.1 (by simp) rfl
    have hinsert : ofList (l ++ [e]) = (ofList l).insert e.1 e.2 := by simp [ofList]
    rw [hinsert, toList_insert _ _ _ hnew, ih hinit]

end OrderedMap

namespace OrderedSet

variable {α : Type u} [Ord α] [TransOrd α] [LawfulEqOrd α]

theorem toList_insert (s : OrderedSet α) (x : α) :
    (s.insert x).toList = if s.contains x then s.toList else s.toList ++ [x] := by
  unfold insert
  split
  · rfl
  · rename_i hx
    exact s.entries.keys_insert x () (by simpa [contains] using hx)

theorem length_toList (s : OrderedSet α) : s.toList.length = s.size := s.entries.length_keys

theorem size_le_insert (s : OrderedSet α) (x : α) : s.size ≤ (s.insert x).size := by
  rw [← length_toList, ← length_toList, toList_insert]
  split <;> simp

omit [TransOrd α] [LawfulEqOrd α] in
theorem toList_empty : (∅ : OrderedSet α).toList = [] := rfl

theorem toList_insertMany (s : OrderedSet α) (xs : List α) (hxs : xs.Nodup)
    (hnew : ∀ x ∈ xs, s.contains x = false) : (s.insertMany xs).toList = s.toList ++ xs := by
  induction xs generalizing s with
  | nil => simp [insertMany]
  | cons x xs ih =>
    obtain ⟨hx, hxs⟩ := List.nodup_cons.mp hxs
    have hlist : (s.insert x).toList = s.toList ++ [x] := by
      rw [toList_insert, hnew x List.mem_cons_self]
      rfl
    rw [insertMany, List.foldl_cons, ← insertMany, ih (s.insert x) hxs, hlist]
    · simp
    · intro y hy
      rw [← Bool.not_eq_true, ← mem_toList, hlist, List.mem_append, List.mem_singleton, mem_toList,
        hnew y (.tail _ hy)]
      rintro (h | rfl)
      · cases h
      · exact hx hy

theorem toList_ofList (xs : List α) (hxs : xs.Nodup) : (ofList xs).toList = xs := by
  rw [ofList, toList_insertMany ∅ xs hxs fun _ _ => rfl, toList_empty, List.nil_append]

theorem toList_ofList_eq_eraseDups [DecidableEq α] (xs : List α) :
    (ofList xs).toList = xs.eraseDups := by
  suffices h : ∀ s : OrderedSet α, (s.insertMany xs).toList =
      s.toList ++ (xs.filter fun x => !s.contains x).eraseDups by
    have hall : (xs.filter fun x => !(∅ : OrderedSet α).contains x) = xs :=
      List.filter_eq_self.mpr fun _ _ => rfl
    rw [ofList, h, toList_empty, hall, List.nil_append]
  induction xs with
  | nil => intro s; simp [insertMany]
  | cons x xs ih =>
    intro s
    rw [insertMany, List.foldl_cons, ← insertMany, ih, toList_insert]
    cases hx : s.contains x with
    | true =>
      have hfilter : (xs.filter fun y => !(s.insert x).contains y) =
          xs.filter fun y => !s.contains y := by
        refine List.filter_congr fun y _ => ?_
        rw [contains_insert]
        by_cases hy : x = y
        · subst hy
          simp [hx]
        · simp [hy]
      rw [hfilter, List.filter_cons_of_neg (by simp [hx])]
      rfl
    | false =>
      have hfilter : (xs.filter fun y => !(s.insert x).contains y) =
          (xs.filter fun y => !s.contains y).filter fun y => !y == x := by
        rw [List.filter_filter]
        refine List.filter_congr fun y _ => ?_
        rw [contains_insert]
        by_cases hy : x = y
        · simp [hy]
        · simp [hy, Ne.symm hy]
      rw [hfilter, List.filter_cons_of_pos (by simp [hx]), List.eraseDups_cons]
      simp

end OrderedSet

end BundleGraph
