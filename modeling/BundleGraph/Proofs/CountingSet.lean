import Mathlib.Data.Finset.Card
import Mathlib.Data.List.Induction
import Mathlib.Order.Bounds.Basic
import BundleGraph.CountingSet

/-!
# Counting sets as multisets

A counting set is told by its history, the changes that made it out of the empty
set. The history leaves a multiset, and the set counts what this multiset counts.
Items are listed in the order in which they arrived: an item arrives with an
addition that finds nothing of it.
-/

namespace BundleGraph.CountingSet

inductive Op (α : Type u) where
  | add (x : α)
  | delete (x : α)
  | clear
  deriving DecidableEq

variable {α : Type u} [DecidableEq α] {s t : CountingSet α} {ops : List (Op α)} {x y : α}

def apply (s : CountingSet α) : Op α → CountingSet α
  | .add x => s.add x
  | .delete x => s.delete x
  | .clear => s.clear

def after (ops : List (Op α)) : CountingSet α := ops.foldl apply ∅

/-- Erasing what a multiset does not have leaves it as it is. -/
def Op.change (bag : Multiset α) : Op α → Multiset α
  | .add x => x ::ₘ bag
  | .delete x => bag.erase x
  | .clear => 0

/-- What a history leaves: the additions that were not taken back. -/
def bag (ops : List (Op α)) : Multiset α := ops.foldl Op.change 0

theorem after_concat (ops : List (Op α)) (op : Op α) :
    after (ops ++ [op]) = (after ops).apply op := by
  simp [after]

theorem bag_concat (ops : List (Op α)) (op : Op α) : bag (ops ++ [op]) = op.change (bag ops) := by
  simp [bag]

-- ---------------------------------------------------------------------------
-- Counts
-- ---------------------------------------------------------------------------

theorem count_apply {bag : Multiset α} (h : ∀ x, s.count x = bag.count x) (op : Op α) (x : α) :
    (s.apply op).count x = (op.change bag).count x := by
  cases op with
  | add y =>
    rw [apply, Op.change, count_add, Multiset.count_cons, h]
    simp only [eq_comm]
  | delete y =>
    rw [apply, Op.change, count_delete, h]
    by_cases hy : y = x
    · subst hy
      rw [if_pos rfl, Multiset.count_erase_self]
    · rw [if_neg hy, Multiset.count_erase_of_ne (Ne.symm hy), Nat.sub_zero]
  | clear => rw [apply, Op.change, count_clear, Multiset.count_zero]

theorem count_after (ops : List (Op α)) (x : α) : (after ops).count x = (bag ops).count x := by
  induction ops using List.reverseRecOn generalizing x with
  | nil => rfl
  | append_singleton ops op ih =>
    rw [after_concat, bag_concat]
    exact count_apply ih op x

theorem countIn_of_mem {l : List (α × Nat)} {n : Nat} (hl : (l.map (·.1)).Nodup) (h : (x, n) ∈ l) :
    countIn x l = n := by
  induction l with
  | nil => cases h
  | cons p rest ih =>
    obtain ⟨y, m⟩ := p
    obtain ⟨hy, hrest⟩ := List.nodup_cons.mp hl
    rcases List.mem_cons.mp h with heq | h
    · cases heq
      exact if_pos rfl
    · have hne : y ≠ x := by
        rintro rfl
        exact hy (List.mem_map.mpr ⟨_, h, rfl⟩)
      rw [countIn, if_neg hne, ih hrest h]

theorem mem_counts_iff (s : CountingSet α) (x : α) (n : Nat) :
    (x, n) ∈ s.counts ↔ 0 < n ∧ s.count x = n := by
  refine ⟨fun h => ⟨s.pos _ h, countIn_of_mem s.nodup h⟩, ?_⟩
  rintro ⟨hn, rfl⟩
  obtain ⟨⟨y, m⟩, hmem, rfl⟩ := List.mem_map.mp ((s.count_pos_iff_mem x).mp hn)
  rwa [count, countIn_of_mem s.nodup hmem]

-- ---------------------------------------------------------------------------
-- Counters that have bounds
-- ---------------------------------------------------------------------------

/-- Counts up where the counter stays below the limit. -/
def raise? (limit : Nat) (x : α) : List (α × Nat) → Option (List (α × Nat))
  | [] => if 1 < limit then some [(x, 1)] else none
  | (y, n) :: rest =>
    if y = x then if n + 1 < limit then some ((y, n + 1) :: rest) else none
    else (raise? limit x rest).map ((y, n) :: ·)

/-- Counts down, and takes the entry out when its counter comes to zero. A counter
that is at zero does not go down. -/
def lower? (x : α) : List (α × Nat) → Option (List (α × Nat))
  | [] => some []
  | (y, n) :: rest =>
    if y = x then
      match n with
      | 0 => none
      | m + 1 => some (if m = 0 then rest else (y, m) :: rest)
    else (lower? x rest).map ((y, n) :: ·)

/-- A change of plain entries, if no counter leaves its bounds. -/
def perform? (limit : Nat) (entries : List (α × Nat)) : Op α → Option (List (α × Nat))
  | .add x => raise? limit x entries
  | .delete x => lower? x entries
  | .clear => some []

theorem raise?_eq_addTo {limit : Nat} {l : List (α × Nat)} (h : countIn x l + 1 < limit) :
    raise? limit x l = some (addTo x l) := by
  induction l with
  | nil => exact if_pos (by simpa [countIn] using h)
  | cons p rest ih =>
    obtain ⟨y, n⟩ := p
    by_cases hy : y = x
    · have hroom : n + 1 < limit := by rwa [countIn, if_pos hy] at h
      simp [raise?, addTo, hy, hroom]
    · rw [countIn, if_neg hy] at h
      simp [raise?, addTo, hy, ih h]

theorem lower?_eq_deleteFrom {l : List (α × Nat)} (hl : ∀ p ∈ l, 0 < p.2) :
    lower? x l = some (deleteFrom x l) := by
  induction l with
  | nil => rfl
  | cons p rest ih =>
    obtain ⟨y, n⟩ := p
    by_cases hy : y = x
    · obtain ⟨m, rfl⟩ := Nat.exists_eq_succ_of_ne_zero (Nat.ne_of_gt (hl _ List.mem_cons_self))
      simp [lower?, deleteFrom, hy]
    · have hrest := ih fun p hp => hl p (.tail _ hp)
      simp [lower?, deleteFrom, hy, hrest]

/-- The check bites: a counter that stood at zero would stop the deletion. -/
example : lower? "a" [("b", 1), ("a", 0)] = none := by decide

theorem perform?_eq (op : Op α) {limit : Nat} (h : ∀ x, (s.apply op).count x < limit) :
    perform? limit s.counts op = some (s.apply op).counts := by
  cases op with
  | add x =>
    refine raise?_eq_addTo ?_
    have hx := h x
    rwa [apply, count_add, if_pos rfl] at hx
  | delete x => exact lower?_eq_deleteFrom s.pos
  | clear => rfl

theorem count_apply_le (s : CountingSet α) (op : Op α) (x : α) :
    (s.apply op).count x ≤ s.count x + if op = .add x then 1 else 0 := by
  cases op with
  | add y => simp [apply, count_add]
  | delete y => simp [apply, count_delete]
  | clear => simp [apply]

/-- From any set on, counters stay within their bounds if there is room for the additions. -/
theorem foldlM_perform? (s : CountingSet α) {limit : Nat}
    (h : ∀ x, s.count x + ops.count (.add x) < limit) :
    ops.foldlM (perform? limit) s.counts = some (ops.foldl apply s).counts := by
  induction ops generalizing s with
  | nil => rfl
  | cons op ops ih =>
    have hroom : ∀ x, (s.apply op).count x + ops.count (.add x) < limit := by
      intro x
      have hle := s.count_apply_le op x
      have hx := h x
      rw [List.count_cons] at hx
      simp only [beq_iff_eq] at hx
      omega
    have hstep : perform? limit s.counts op = some (s.apply op).counts :=
      perform?_eq op fun x => Nat.lt_of_le_of_lt (Nat.le_add_right _ _) (hroom x)
    rw [List.foldlM_cons, hstep]
    exact ih (s.apply op) hroom

-- ---------------------------------------------------------------------------
-- The order of arrivals
-- ---------------------------------------------------------------------------

/-- The places in a history at which an item is added while there is nothing of it. -/
def arrivals (ops : List (Op α)) (x : α) : Set Nat :=
  {i | ops[i]? = some (.add x) ∧ x ∉ bag (ops.take i)}

/-- Both items arrived, and the first one came last before the second one did. -/
def Before (ops : List (Op α)) (x y : α) : Prop :=
  ∃ i j, IsGreatest (arrivals ops x) i ∧ IsGreatest (arrivals ops y) j ∧ i < j

theorem lt_length_of_mem_arrivals {i : Nat} (h : i ∈ arrivals ops x) : i < ops.length :=
  (List.getElem?_eq_some_iff.mp h.1).1

theorem mem_arrivals_concat {op : Op α} {i : Nat} : i ∈ arrivals (ops ++ [op]) x ↔
    i ∈ arrivals ops x ∨ i = ops.length ∧ op = .add x ∧ x ∉ bag ops := by
  rcases Nat.lt_trichotomy i ops.length with hi | rfl | hi
  · simp [arrivals, List.getElem?_append_left hi, List.take_append_of_le_length hi.le, hi.ne]
  · simp [arrivals]
  · have hnone : (ops ++ [op])[i]? = none := List.getElem?_eq_none (by simp; omega)
    simp [arrivals, hnone, hi.ne', hi.le]

theorem arrivals_concat {op : Op α} (h : op = .add x → x ∈ bag ops) :
    arrivals (ops ++ [op]) x = arrivals ops x := by
  ext i
  rw [mem_arrivals_concat]
  exact or_iff_left fun ⟨_, hop, hx⟩ => hx (h hop)

theorem isGreatest_arrivals_concat (h : x ∉ bag ops) :
    IsGreatest (arrivals (ops ++ [.add x]) x) ops.length := by
  refine ⟨mem_arrivals_concat.mpr (.inr ⟨rfl, rfl, h⟩), fun i hi => ?_⟩
  have hlt := lt_length_of_mem_arrivals hi
  rw [List.length_append, List.length_singleton] at hlt
  exact Nat.le_of_lt_succ hlt

theorem Before.concat {op : Op α} (h : Before ops x y) (hx : op = .add x → x ∈ bag ops)
    (hy : op = .add y → y ∈ bag ops) : Before (ops ++ [op]) x y := by
  rwa [Before, arrivals_concat hx, arrivals_concat hy]

theorem before_concat {i : Nat} (hx : IsGreatest (arrivals ops x) i) (hne : x ≠ y)
    (hy : y ∉ bag ops) : Before (ops ++ [.add y]) x y := by
  refine ⟨i, ops.length, ?_, isGreatest_arrivals_concat hy, lt_length_of_mem_arrivals hx.1⟩
  rwa [arrivals_concat fun h => absurd (Op.add.inj h).symm hne]

/-- Items in the order of their arrivals. -/
structure ByArrival (ops : List (Op α)) (items : List α) : Prop where
  arrived : ∀ x ∈ items, ∃ i, IsGreatest (arrivals ops x) i
  sorted : items.Pairwise (Before ops)

theorem ByArrival.sublist {items kept : List α} (h : ByArrival ops items)
    (hsub : kept.Sublist items) : ByArrival ops kept :=
  ⟨fun x hx => h.arrived x (hsub.mem hx), h.sorted.sublist hsub⟩

theorem ByArrival.concat {items : List α} {op : Op α} (h : ByArrival ops items)
    (hop : ∀ x ∈ items, op = .add x → x ∈ bag ops) : ByArrival (ops ++ [op]) items where
  arrived x hx := by
    rw [arrivals_concat (hop x hx)]
    exact h.arrived x hx
  sorted := h.sorted.imp_of_mem fun hx hy hxy => hxy.concat (hop _ hx) (hop _ hy)

theorem ByArrival.arrive {items : List α} (h : ByArrival ops items) (hx : x ∉ items)
    (hbag : x ∉ bag ops) : ByArrival (ops ++ [.add x]) (items ++ [x]) := by
  have hothers : ∀ y ∈ items, y ≠ x := fun y hy heq => hx (heq ▸ hy)
  have hold : ByArrival (ops ++ [.add x]) items :=
    h.concat fun y hy hop => absurd (Op.add.inj hop).symm (hothers y hy)
  constructor
  · intro y hy
    rcases List.mem_append.mp hy with hy | hy
    · exact hold.arrived y hy
    · rw [List.mem_singleton.mp hy]
      exact ⟨_, isGreatest_arrivals_concat hbag⟩
  · refine List.pairwise_append.mpr ⟨hold.sorted, List.pairwise_singleton _ _, ?_⟩
    intro y hy z hz
    obtain ⟨i, hi⟩ := h.arrived y hy
    rw [List.mem_singleton.mp hz]
    exact before_concat hi (hothers y hy) hbag

theorem toList_add (s : CountingSet α) (x : α) :
    (s.add x).toList = if x ∈ s.toList then s.toList else s.toList ++ [x] :=
  map_fst_addTo x s.counts

theorem ByArrival.apply (h : ByArrival ops s.toList) (hmem : ∀ x, x ∈ s.toList ↔ x ∈ bag ops)
    (op : Op α) : ByArrival (ops ++ [op]) (s.apply op).toList := by
  cases op with
  | add x =>
    rw [CountingSet.apply, toList_add]
    split
    · exact h.concat fun y hy _ => (hmem y).mp hy
    · rename_i hx
      exact h.arrive hx fun hbag => hx ((hmem x).mpr hbag)
  | delete x =>
    have hkept : (s.delete x).toList.Sublist s.toList := map_fst_deleteFrom_sublist x s.counts
    exact (h.concat fun y _ hop => by cases hop).sublist hkept
  | clear => exact ⟨nofun, .nil⟩

theorem mem_toList_after (ops : List (Op α)) (x : α) : x ∈ (after ops).toList ↔ x ∈ bag ops := by
  rw [← count_pos_iff_mem, count_after, Multiset.count_pos]

theorem byArrival_after (ops : List (Op α)) : ByArrival ops (after ops).toList := by
  induction ops using List.reverseRecOn with
  | nil => exact ⟨nofun, .nil⟩
  | append_singleton ops op ih =>
    rw [after_concat]
    exact ih.apply (mem_toList_after ops) op

-- ---------------------------------------------------------------------------
-- Size and equality
-- ---------------------------------------------------------------------------

theorem size_after (ops : List (Op α)) : (after ops).size = (bag ops).toFinset.card := by
  have hitems : (after ops).toList.toFinset = (bag ops).toFinset := by
    ext x
    rw [List.mem_toFinset, Multiset.mem_toFinset, mem_toList_after]
  rw [← hitems, List.toFinset_card_of_nodup (nodup_toList _), length_toList]

theorem isEmpty_after (ops : List (Op α)) : (after ops).isEmpty ↔ bag ops = 0 := by
  rw [isEmpty_iff_count, Multiset.ext]
  exact forall_congr' fun x => by rw [count_after, Multiset.count_zero]

theorem perm_toList (h : ∀ x, s.count x = t.count x) : s.toList.Perm t.toList := by
  refine (List.perm_ext_iff_of_nodup s.nodup_toList t.nodup_toList).mpr fun x => ?_
  rw [← count_pos_iff_mem, ← count_pos_iff_mem, h]

/-- Only the items of one set are compared. That is enough, since there are as many
items in the other one. -/
theorem sameCounts_iff : s.sameCounts t ↔ ∀ x, s.count x = t.count x := by
  simp only [sameCounts, Bool.and_eq_true, decide_eq_true_eq, List.all_eq_true, Prod.forall,
    mem_counts_iff, contains_iff_mem]
  constructor
  · rintro ⟨hsize, hall⟩ x
    have hsub : s.toList ⊆ t.toList := fun y hy =>
      (hall y _ ⟨(s.count_pos_iff_mem y).mpr hy, rfl⟩).1
    have hperm : s.toList.Perm t.toList :=
      (s.nodup_toList.subperm hsub).perm_of_length_le (by simp [length_toList, hsize])
    rcases Nat.eq_zero_or_pos (s.count x) with hzero | hpos
    · have hx : ¬ 0 < t.count x := by
        rw [count_pos_iff_mem, ← hperm.mem_iff, ← count_pos_iff_mem, hzero]
        exact Nat.lt_irrefl 0
      rw [hzero, Nat.eq_zero_of_not_pos hx]
    · exact (hall x _ ⟨hpos, rfl⟩).2.symm
  · intro h
    refine ⟨?_, ?_⟩
    · simpa [length_toList] using (perm_toList h).length_eq
    · rintro x _ ⟨hpos, rfl⟩
      rw [← count_pos_iff_mem, ← h]
      exact ⟨hpos, rfl⟩

/-- After any history, a counting set is the multiset that the history leaves: it counts
the same, and its size is the number of distinct items. No stored count is zero; on the
way no counter goes below zero, or gets to a limit that is above the number of additions
of every item. Items are listed once each, in the order of the additions that last made
them present. Two sets are equal if and only if all counts agree, whatever their
histories. -/
theorem after_counts_as_multiset (ops : List (Op α)) :
    (∀ x, (after ops).count x = (bag ops).count x) ∧
    (∀ limit, (∀ x, ops.count (.add x) < limit) →
      ops.foldlM (perform? limit) [] = some (after ops).counts) ∧
    (∀ x n, (x, n) ∈ (after ops).counts ↔ 0 < n ∧ (after ops).count x = n) ∧
    (∀ x, (after ops).contains x ↔ 0 < (after ops).count x) ∧
    (after ops).size = (bag ops).toFinset.card ∧
    ((after ops).isEmpty ↔ bag ops = 0) ∧
    ((after ops).toList.Nodup ∧ (∀ x, x ∈ (after ops).toList ↔ 0 < (after ops).count x) ∧
      ByArrival ops (after ops).toList) ∧
    ∀ others, (after ops).sameCounts (after others) ↔
      ∀ x, (after ops).count x = (after others).count x := by
  have hmem (x : α) := (after ops).count_pos_iff_mem x
  refine ⟨count_after ops, fun limit h => ?_, mem_counts_iff _, fun x => ?_, size_after ops,
    isEmpty_after ops, ⟨nodup_toList _, fun x => (hmem x).symm, byArrival_after ops⟩,
    fun others => sameCounts_iff⟩
  · exact foldlM_perform? ∅ fun x => by simpa using h x
  · rw [contains_iff_mem, hmem]

/-- An item that is taken away, taken away once more, and put back. -/
def returning : List (Op String) :=
  [.add "a", .add "b", .add "b", .delete "a", .delete "a", .add "a"]

/-- The item that came back is listed behind the one that stayed. The set equals one to
which both came in the other order, after it was cleared. -/
theorem after_counts_as_multiset_returning :
    (after returning).count "b" = 2 ∧
    ((∀ x, returning.count (.add x) < 3) ∧
      returning.foldlM (perform? 3) [] = some [("b", 2), ("a", 1)]) ∧
    ((after returning).toList = ["b", "a"] ∧ Before returning "b" "a") ∧
    (after returning).sameCounts (after [.add "c", .clear, .add "a", .add "b", .add "b"]) := by
  obtain ⟨hcount, hfits, -, -, -, -, ⟨-, -, harrival⟩, hsame⟩ := after_counts_as_multiset returning
  have hroom : ∀ x, returning.count (.add x) < 3 := by
    intro x
    by_cases ha : x = "a" <;> by_cases hb : x = "b" <;> simp [returning, ha, hb, eq_comm]
  have hentries : (after returning).counts = [("b", 2), ("a", 1)] := by decide
  have hitems : (after returning).toList = ["b", "a"] := by decide
  refine ⟨(hcount "b").trans (by decide), ⟨hroom, hentries ▸ hfits 3 hroom⟩, ⟨hitems, ?_⟩,
    (hsame _).mpr fun x => ?_⟩
  · have hsorted := harrival.sorted
    rw [hitems] at hsorted
    exact List.rel_of_pairwise_cons hsorted (.head _)
  · rw [count_after, count_after]
    exact congrArg (Multiset.count x) (by decide)

end BundleGraph.CountingSet
