import Std.Data.TreeMap.Lemmas

/-!
# Maps and sets in insertion order

A key keeps the place of its first insertion until it is erased; inserting an
absent key puts it last. Look-ups go through a search tree, and every entry
carries the stamp of its insertion, which gives the order back.
-/

namespace BundleGraph

open Std (TreeMap TransOrd LawfulEqOrd)

structure OrderedMap (α : Type u) (β : Type v) [Ord α] where
  slots : TreeMap α (Nat × β)
  next : Nat
  stamp_lt : ∀ (k : α) (p : Nat × β), slots[k]? = some p → p.1 < next
  stamp_inj : ∀ (j k : α) (p q : Nat × β),
    slots[j]? = some p → slots[k]? = some q → p.1 = q.1 → j = k

namespace OrderedMap

variable {α : Type u} {β : Type v} [Ord α]

def empty : OrderedMap α β where
  slots := ∅
  next := 0
  stamp_lt := fun _ _ h => nomatch h
  stamp_inj := fun _ _ _ _ h => nomatch h

instance : EmptyCollection (OrderedMap α β) := ⟨empty⟩

instance : Inhabited (OrderedMap α β) := ⟨empty⟩

def get? (m : OrderedMap α β) (k : α) : Option β := m.slots[k]?.map (·.2)

def contains (m : OrderedMap α β) (k : α) : Bool := m.slots.contains k

def size (m : OrderedMap α β) : Nat := m.slots.size

def isEmpty (m : OrderedMap α β) : Bool := m.slots.isEmpty

def byStamp (m : OrderedMap α β) : TreeMap Nat (α × β) :=
  m.slots.foldl (fun t k p => t.insert p.1 (k, p.2)) ∅

/-- Entries in insertion order. -/
def toList (m : OrderedMap α β) : List (α × β) := m.byStamp.toList.map (·.2)

def keys (m : OrderedMap α β) : List α := m.toList.map (·.1)

def values (m : OrderedMap α β) : List β := m.toList.map (·.2)

/-- Folds over the entries in the order of their keys, for results that do not
depend on the order. -/
def foldAny (m : OrderedMap α β) (f : δ → α → β → δ) (start : δ) : δ :=
  m.slots.foldl (fun acc k p => f acc k p.2) start

variable [TransOrd α] [LawfulEqOrd α]

/-- An absent key goes last, a present one keeps its place. -/
def insert (m : OrderedMap α β) (k : α) (v : β) : OrderedMap α β :=
  match h : m.slots[k]? with
  | some p =>
    { slots := m.slots.insert k (p.1, v)
      next := m.next
      stamp_lt := by
        intro j q hj
        rw [TreeMap.getElem?_insert] at hj
        split at hj
        · cases hj; exact m.stamp_lt k p h
        · exact m.stamp_lt j q hj
      stamp_inj := by
        intro i j q r hi hj he
        rw [TreeMap.getElem?_insert] at hi hj
        split at hi <;> split at hj
        · rename_i hki hkj
          rw [← LawfulEqOrd.eq_of_compare hki, ← LawfulEqOrd.eq_of_compare hkj]
        · rename_i hki _
          cases hi
          rw [← LawfulEqOrd.eq_of_compare hki]
          exact m.stamp_inj k j p r h hj he
        · rename_i _ hkj
          cases hj
          rw [← LawfulEqOrd.eq_of_compare hkj]
          exact m.stamp_inj i k q p hi h he
        · exact m.stamp_inj i j q r hi hj he }
  | none =>
    { slots := m.slots.insert k (m.next, v)
      next := m.next + 1
      stamp_lt := by
        intro j q hj
        rw [TreeMap.getElem?_insert] at hj
        split at hj
        · cases hj; exact Nat.lt_succ_self _
        · exact Nat.lt_succ_of_lt (m.stamp_lt j q hj)
      stamp_inj := by
        intro i j q r hi hj he
        rw [TreeMap.getElem?_insert] at hi hj
        split at hi <;> split at hj
        · rename_i hki hkj
          rw [← LawfulEqOrd.eq_of_compare hki, ← LawfulEqOrd.eq_of_compare hkj]
        · cases hi
          exact absurd he (Nat.ne_of_gt (m.stamp_lt j r hj))
        · cases hj
          exact absurd he (Nat.ne_of_lt (m.stamp_lt i q hi))
        · exact m.stamp_inj i j q r hi hj he }

/-- The other entries keep their order. -/
def erase (m : OrderedMap α β) (k : α) : OrderedMap α β where
  slots := m.slots.erase k
  next := m.next
  stamp_lt := by
    intro j q hj
    rw [TreeMap.getElem?_erase] at hj
    split at hj
    · cases hj
    · exact m.stamp_lt j q hj
  stamp_inj := by
    intro i j q r hi hj he
    rw [TreeMap.getElem?_erase] at hi hj
    split at hi
    · cases hi
    · split at hj
      · cases hj
      · exact m.stamp_inj i j q r hi hj he

def modify (m : OrderedMap α β) (k : α) (f : β → β) : OrderedMap α β :=
  match m.get? k with
  | some v => m.insert k (f v)
  | none => m

def ofList (entries : List (α × β)) : OrderedMap α β :=
  entries.foldl (fun m e => m.insert e.1 e.2) ∅

theorem get?_insert [DecidableEq α] (m : OrderedMap α β) (j k : α) (v : β) :
    (m.insert k v).get? j = if k = j then some v else m.get? j := by
  have key : compare k j = .eq ↔ k = j :=
    ⟨LawfulEqOrd.eq_of_compare, fun h => h ▸ Std.ReflOrd.compare_self⟩
  unfold insert
  split <;> simp only [get?, TreeMap.getElem?_insert, key] <;> split <;> rfl

theorem get?_erase [DecidableEq α] (m : OrderedMap α β) (j k : α) :
    (m.erase k).get? j = if k = j then none else m.get? j := by
  have key : compare k j = .eq ↔ k = j :=
    ⟨LawfulEqOrd.eq_of_compare, fun h => h ▸ Std.ReflOrd.compare_self⟩
  simp only [get?, erase, TreeMap.getElem?_erase, key]
  split <;> rfl

omit [TransOrd α] [LawfulEqOrd α] in
@[simp] theorem get?_empty (k : α) : (∅ : OrderedMap α β).get? k = none := rfl

omit [LawfulEqOrd α] in
theorem contains_eq_isSome_get? (m : OrderedMap α β) (k : α) :
    m.contains k = (m.get? k).isSome := by
  rw [contains, get?, Option.isSome_map, Std.TreeMap.isSome_getElem?_eq_contains]

omit [LawfulEqOrd α] in
theorem contains_iff (m : OrderedMap α β) (k : α) : m.contains k ↔ ∃ v, m.get? k = some v := by
  rw [contains_eq_isSome_get?, Option.isSome_iff_exists]

theorem get?_modify [DecidableEq α] (m : OrderedMap α β) (j k : α) (f : β → β) :
    (m.modify k f).get? j = if k = j then (m.get? j).map f else m.get? j := by
  unfold modify
  by_cases hk : k = j
  · subst hk
    cases h : m.get? k with
    | some v => simp [get?_insert]
    | none => simp [h]
  · cases h : m.get? k with
    | some v => simp [get?_insert, hk]
    | none => simp [hk]

/-! ### The order of the entries -/

omit [Ord α] [TransOrd α] [LawfulEqOrd α] in
theorem getElem?_foldl_insert (l : List (α × Nat × β)) (hl : (l.map (·.2.1)).Nodup)
    (t : TreeMap Nat (α × β)) (s : Nat) (p : α × β) :
    (l.foldl (fun t e => t.insert e.2.1 (e.1, e.2.2)) t)[s]? = some p ↔
      (p.1, s, p.2) ∈ l ∨ s ∉ l.map (·.2.1) ∧ t[s]? = some p := by
  induction l generalizing t with
  | nil => simp
  | cons e rest ih =>
    obtain ⟨k, stamp, v⟩ := e
    obtain ⟨hstamp, hrest⟩ := List.nodup_cons.mp hl
    rw [List.foldl_cons, ih hrest, TreeMap.getElem?_insert]
    by_cases hs : stamp = s
    · subst hs
      have hnot : (p.1, stamp, p.2) ∉ rest := fun h => hstamp (List.mem_map.mpr ⟨_, h, rfl⟩)
      simp only [hnot, false_or, hstamp, not_false_eq_true, true_and, Std.ReflOrd.compare_self,
        ↓reduceIte, Option.some.injEq, List.mem_cons, List.map_cons, not_true_eq_false,
        false_and, or_false]
      constructor
      · rintro rfl; rfl
      · intro h; obtain ⟨k', v'⟩ := p; cases h; rfl
    · simp [hs, Ne.symm hs]

theorem nodup_stamps (m : OrderedMap α β) : (m.slots.toList.map (·.2.1)).Nodup := by
  rw [List.Nodup, List.pairwise_map]
  refine m.slots.distinct_keys_toList.imp_of_mem ?_
  rintro ⟨j, p⟩ ⟨k, q⟩ hj hk hne hstamp
  rw [TreeMap.mem_toList_iff_getElem?_eq_some] at hj hk
  exact hne (m.stamp_inj j k p q hj hk hstamp ▸ Std.ReflOrd.compare_self)

theorem getElem?_byStamp (m : OrderedMap α β) (s : Nat) (p : α × β) :
    m.byStamp[s]? = some p ↔ m.slots[p.1]? = some (s, p.2) := by
  rw [byStamp, TreeMap.foldl_eq_foldl_toList, getElem?_foldl_insert _ m.nodup_stamps]
  simp

theorem mem_toList (m : OrderedMap α β) (k : α) (v : β) :
    (k, v) ∈ m.toList ↔ m.get? k = some v := by
  simp only [toList, List.mem_map, Prod.exists, TreeMap.mem_toList_iff_getElem?_eq_some,
    getElem?_byStamp, get?, Option.map_eq_some_iff]
  constructor
  · rintro ⟨s, k', v', h, he⟩
    cases he
    exact ⟨s, v, h, rfl⟩
  · rintro ⟨s, v', h, rfl⟩
    exact ⟨s, k, v', h, rfl⟩

theorem mem_keys (m : OrderedMap α β) (k : α) : k ∈ m.keys ↔ m.contains k := by
  simp [keys, mem_toList, contains_iff]

theorem mem_values (m : OrderedMap α β) (v : β) : v ∈ m.values ↔ ∃ k, m.get? k = some v := by
  simp [values, mem_toList]

theorem nodup_keys (m : OrderedMap α β) : m.keys.Nodup := by
  rw [keys, toList, List.map_map, List.Nodup, List.pairwise_map]
  refine m.byStamp.distinct_keys_toList.imp_of_mem ?_
  rintro ⟨s, k, v⟩ ⟨s', k', v'⟩ hs hs' hne hkey
  rw [TreeMap.mem_toList_iff_getElem?_eq_some, getElem?_byStamp] at hs hs'
  simp only [Function.comp_apply] at hkey
  subst hkey
  have he : s = s' := congrArg Prod.fst (Option.some.inj (hs.symm.trans hs'))
  exact hne (he ▸ Std.ReflOrd.compare_self)

theorem keys_perm_slots (m : OrderedMap α β) : m.keys.Perm m.slots.keys := by
  refine (List.perm_ext_iff_of_nodup m.nodup_keys m.slots.nodup_keys).mpr fun k => ?_
  rw [mem_keys, contains, TreeMap.mem_keys, TreeMap.contains_iff_mem]

theorem length_keys (m : OrderedMap α β) : m.keys.length = m.size := by
  rw [m.keys_perm_slots.length_eq, TreeMap.length_keys, size]

omit [LawfulEqOrd α] in
theorem isEmpty_iff (m : OrderedMap α β) : m.isEmpty ↔ ∀ k, m.contains k = false := by
  rw [isEmpty, TreeMap.isEmpty_iff_forall_contains]
  rfl

/-! ### Folds -/

theorem get?_ofList [DecidableEq α] (m : OrderedMap α β) (l : List (α × β))
    (hl : ∀ e ∈ l, m.get? e.1 = some e.2) (k : α) :
    (ofList l).get? k = if k ∈ l.map (·.1) then m.get? k else none := by
  suffices h : ∀ start : OrderedMap α β,
      (l.foldl (fun m e => m.insert e.1 e.2) start).get? k =
        if k ∈ l.map (·.1) then m.get? k else start.get? k by
    rw [ofList, h, get?_empty]
  induction l with
  | nil => intro start; rfl
  | cons e rest ih =>
    intro start
    rw [List.foldl_cons, ih (fun e he => hl e (.tail _ he)), get?_insert]
    by_cases hk : e.1 = k
    · have := hl e List.mem_cons_self
      subst hk
      simp [this]
    · simp only [List.map_cons, List.mem_cons, if_neg hk, Ne.symm hk, false_or]

end OrderedMap

structure OrderedSet (α : Type u) [Ord α] where
  entries : OrderedMap α Unit

namespace OrderedSet

variable {α : Type u} [Ord α]

instance : EmptyCollection (OrderedSet α) := ⟨⟨∅⟩⟩

instance : Inhabited (OrderedSet α) := ⟨∅⟩

def contains (s : OrderedSet α) (x : α) : Bool := s.entries.contains x

def size (s : OrderedSet α) : Nat := s.entries.size

def isEmpty (s : OrderedSet α) : Bool := s.entries.isEmpty

def toList (s : OrderedSet α) : List α := s.entries.keys

variable [TransOrd α] [LawfulEqOrd α]

def insert (s : OrderedSet α) (x : α) : OrderedSet α :=
  if s.contains x then s else ⟨s.entries.insert x ()⟩

def erase (s : OrderedSet α) (x : α) : OrderedSet α := ⟨s.entries.erase x⟩

def insertMany (s : OrderedSet α) (xs : List α) : OrderedSet α := xs.foldl insert s

def ofList (xs : List α) : OrderedSet α := insertMany ∅ xs

omit [TransOrd α] [LawfulEqOrd α] in
@[simp] theorem contains_empty (x : α) : (∅ : OrderedSet α).contains x = false := rfl

variable [DecidableEq α]

theorem contains_insert (s : OrderedSet α) (x y : α) :
    (s.insert x).contains y = (decide (x = y) || s.contains y) := by
  unfold insert
  split
  · by_cases h : x = y <;> simp_all
  · simp only [contains, OrderedMap.contains_eq_isSome_get?, OrderedMap.get?_insert]
    by_cases h : x = y <;> simp [h]

theorem contains_erase (s : OrderedSet α) (x y : α) :
    (s.erase x).contains y = (!decide (x = y) && s.contains y) := by
  simp only [contains, erase, OrderedMap.contains_eq_isSome_get?, OrderedMap.get?_erase]
  by_cases h : x = y <;> simp [h]

theorem contains_insertMany (s : OrderedSet α) (xs : List α) (y : α) :
    (s.insertMany xs).contains y = (s.contains y || xs.contains y) := by
  induction xs generalizing s with
  | nil => simp [insertMany]
  | cons x xs ih =>
    rw [insertMany, List.foldl_cons, ← insertMany, ih, contains_insert]
    by_cases h : x = y
    · simp [h]
    · simp [h, Ne.symm h]

theorem contains_ofList (xs : List α) (y : α) : (ofList xs).contains y = xs.contains y := by
  simp [ofList, contains_insertMany]

omit [DecidableEq α] in
theorem mem_toList (s : OrderedSet α) (x : α) : x ∈ s.toList ↔ s.contains x :=
  s.entries.mem_keys x

omit [DecidableEq α] in
theorem nodup_toList (s : OrderedSet α) : s.toList.Nodup := s.entries.nodup_keys

end OrderedSet

end BundleGraph
