/-!
# Counting sets

A set that remembers how often each item was added. An item stays until it has
been deleted as often as it was added; items are listed by the addition that
last made them present.
-/

namespace BundleGraph

/-- Every item is listed once, with a count that is not zero. -/
structure CountingSet (α : Type u) where
  counts : List (α × Nat)
  nodup : (counts.map (·.1)).Nodup
  pos : ∀ p ∈ counts, 0 < p.2
  deriving Repr

namespace CountingSet

variable {α : Type u}

def empty : CountingSet α := ⟨[], List.nodup_nil, nofun⟩

instance : EmptyCollection (CountingSet α) := ⟨empty⟩

instance : Inhabited (CountingSet α) := ⟨empty⟩

def toList (s : CountingSet α) : List α := s.counts.map (·.1)

/-- The number of distinct items. -/
def size (s : CountingSet α) : Nat := s.counts.length

def isEmpty (s : CountingSet α) : Bool := s.counts.isEmpty

/-- Takes every addition back. -/
def clear (_ : CountingSet α) : CountingSet α := ∅

theorem nodup_toList (s : CountingSet α) : s.toList.Nodup := s.nodup

theorem length_toList (s : CountingSet α) : s.toList.length = s.size := List.length_map _

variable [DecidableEq α]

def addTo (x : α) : List (α × Nat) → List (α × Nat)
  | [] => [(x, 1)]
  | (y, n) :: rest => if y = x then (y, n + 1) :: rest else (y, n) :: addTo x rest

def deleteFrom (x : α) : List (α × Nat) → List (α × Nat)
  | [] => []
  | (y, n) :: rest =>
    if y = x then if n ≤ 1 then rest else (y, n - 1) :: rest
    else (y, n) :: deleteFrom x rest

theorem map_fst_addTo (x : α) (l : List (α × Nat)) :
    (addTo x l).map (·.1) = if x ∈ l.map (·.1) then l.map (·.1) else l.map (·.1) ++ [x] := by
  induction l with
  | nil => rfl
  | cons p rest ih =>
    obtain ⟨y, n⟩ := p
    by_cases h : y = x
    · simp [addTo, h]
    · simp only [addTo, if_neg h, List.map_cons, ih, List.mem_cons, Ne.symm h, false_or]
      split <;> rfl

theorem pos_of_mem_addTo {x : α} {l : List (α × Nat)} (hl : ∀ p ∈ l, 0 < p.2) :
    ∀ p ∈ addTo x l, 0 < p.2 := by
  induction l with
  | nil => simp [addTo]
  | cons q rest ih =>
    obtain ⟨y, n⟩ := q
    have hrest : ∀ p ∈ rest, 0 < p.2 := fun p hp => hl p (List.mem_cons_of_mem _ hp)
    intro p hp
    simp only [addTo] at hp
    split at hp <;> rcases List.mem_cons.mp hp with rfl | hp
    · exact Nat.succ_pos n
    · exact hrest p hp
    · exact hl _ List.mem_cons_self
    · exact ih hrest p hp

theorem map_fst_deleteFrom_sublist (x : α) (l : List (α × Nat)) :
    ((deleteFrom x l).map (·.1)).Sublist (l.map (·.1)) := by
  induction l with
  | nil => exact .slnil
  | cons p rest ih =>
    obtain ⟨y, n⟩ := p
    simp only [deleteFrom]
    split
    · split
      · exact List.sublist_cons_self y _
      · exact List.Sublist.refl _
    · exact ih.cons_cons y

theorem pos_of_mem_deleteFrom {x : α} {l : List (α × Nat)} (hl : ∀ p ∈ l, 0 < p.2) :
    ∀ p ∈ deleteFrom x l, 0 < p.2 := by
  induction l with
  | nil => simp [deleteFrom]
  | cons q rest ih =>
    obtain ⟨y, n⟩ := q
    have hrest : ∀ p ∈ rest, 0 < p.2 := fun p hp => hl p (List.mem_cons_of_mem _ hp)
    intro p hp
    simp only [deleteFrom] at hp
    split at hp
    · split at hp
      · exact hrest p hp
      · rcases List.mem_cons.mp hp with rfl | hp
        · dsimp only; omega
        · exact hrest p hp
    · rcases List.mem_cons.mp hp with rfl | hp
      · exact hl _ List.mem_cons_self
      · exact ih hrest p hp

def add (s : CountingSet α) (x : α) : CountingSet α where
  counts := addTo x s.counts
  nodup := by
    rw [map_fst_addTo]
    split
    · exact s.nodup
    · rename_i h
      exact List.nodup_append.mpr ⟨s.nodup, by simp, fun y hy z hz hyz =>
        h (by rw [← List.mem_singleton.mp hz, ← hyz]; exact hy)⟩
  pos := pos_of_mem_addTo s.pos

/-- Takes one addition back; an absent item is left absent. -/
def delete (s : CountingSet α) (x : α) : CountingSet α where
  counts := deleteFrom x s.counts
  nodup := (map_fst_deleteFrom_sublist x s.counts).nodup s.nodup
  pos := pos_of_mem_deleteFrom s.pos

def countIn (x : α) : List (α × Nat) → Nat
  | [] => 0
  | (y, n) :: rest => if y = x then n else countIn x rest

def count (s : CountingSet α) (x : α) : Nat := countIn x s.counts

def contains (s : CountingSet α) (x : α) : Bool := s.counts.any (·.1 = x)

def ofList (xs : List α) : CountingSet α := xs.foldl add ∅

/-- Equality of counts, whatever the order of the items. -/
def sameCounts (s t : CountingSet α) : Bool :=
  s.size = t.size && s.counts.all fun (x, n) => t.contains x && t.count x = n

@[simp] theorem count_empty (x : α) : (∅ : CountingSet α).count x = 0 := rfl

@[simp] theorem count_clear (s : CountingSet α) (x : α) : s.clear.count x = 0 := rfl

theorem countIn_addTo (x y : α) (l : List (α × Nat)) :
    countIn y (addTo x l) = countIn y l + if x = y then 1 else 0 := by
  induction l with
  | nil => simp [addTo, countIn]
  | cons p rest ih =>
    obtain ⟨z, n⟩ := p
    simp only [addTo, countIn]
    by_cases hx : z = x
    · subst hx
      by_cases hy : z = y <;> simp [countIn, hy]
    · by_cases hy : z = y
      · subst hy
        simp [countIn, hx, Ne.symm hx]
      · simp [countIn, hx, hy, ih]

theorem count_add (s : CountingSet α) (x y : α) :
    (s.add x).count y = s.count y + if x = y then 1 else 0 :=
  countIn_addTo x y s.counts

theorem countIn_eq_zero {x : α} {l : List (α × Nat)} (h : x ∉ l.map (·.1)) : countIn x l = 0 := by
  induction l with
  | nil => rfl
  | cons p rest ih =>
    simp only [List.map_cons, List.mem_cons, not_or] at h
    rw [countIn, if_neg (Ne.symm h.1), ih h.2]

theorem countIn_deleteFrom (x y : α) {l : List (α × Nat)} (hl : (l.map (·.1)).Nodup) :
    countIn y (deleteFrom x l) = countIn y l - if x = y then 1 else 0 := by
  induction l with
  | nil => simp [deleteFrom, countIn]
  | cons p rest ih =>
    obtain ⟨z, n⟩ := p
    obtain ⟨hz, hrest⟩ := List.nodup_cons.mp hl
    simp only [deleteFrom, countIn]
    by_cases hx : z = x
    · subst hx
      by_cases hy : z = y
      · subst hy
        by_cases hn : n ≤ 1
        · simp only [if_pos hn, ↓reduceIte, countIn_eq_zero hz]
          omega
        · simp [hn, countIn]
      · by_cases hn : n ≤ 1 <;> simp [hn, countIn, hy]
    · by_cases hy : z = y
      · subst hy
        simp [countIn, hx, Ne.symm hx]
      · simp [countIn, hx, hy, ih hrest]

theorem count_delete (s : CountingSet α) (x y : α) :
    (s.delete x).count y = s.count y - if x = y then 1 else 0 :=
  countIn_deleteFrom x y s.nodup

theorem contains_iff_mem (s : CountingSet α) (x : α) : s.contains x ↔ x ∈ s.toList := by
  simp [contains, toList]

theorem countIn_pos_iff {x : α} {l : List (α × Nat)} (hl : ∀ p ∈ l, 0 < p.2) :
    0 < countIn x l ↔ x ∈ l.map (·.1) := by
  induction l with
  | nil => simp [countIn]
  | cons p rest ih =>
    obtain ⟨y, n⟩ := p
    have hn : 0 < n := hl (y, n) List.mem_cons_self
    have hrest := ih fun p hp => hl p (List.mem_cons_of_mem _ hp)
    by_cases h : y = x
    · simp [countIn, h, hn]
    · simp [countIn, h, Ne.symm h, hrest]

theorem count_pos_iff_mem (s : CountingSet α) (x : α) : 0 < s.count x ↔ x ∈ s.toList :=
  countIn_pos_iff s.pos

theorem isEmpty_iff_count (s : CountingSet α) : s.isEmpty ↔ ∀ x, s.count x = 0 := by
  have hmem : s.isEmpty ↔ ∀ x, x ∉ s.toList := by
    rw [isEmpty, List.isEmpty_iff, ← List.eq_nil_iff_forall_not_mem, toList, List.map_eq_nil_iff]
  rw [hmem]
  exact forall_congr' fun x => by rw [← count_pos_iff_mem, Nat.not_lt, Nat.le_zero]

theorem count_foldl_add (s : CountingSet α) (xs : List α) (x : α) :
    (xs.foldl add s).count x = s.count x + xs.count x := by
  induction xs generalizing s with
  | nil => simp
  | cons y ys ih =>
    rw [List.foldl_cons, ih, count_add, List.count_cons]
    by_cases h : y = x
    · simp [h]
      omega
    · simp [h]

@[simp] theorem count_ofList (xs : List α) (x : α) : (ofList xs).count x = xs.count x := by
  simp [ofList, count_foldl_add]

end CountingSet

end BundleGraph
