import BundleGraph.Routing

/-!
# Where a key goes

A key goes to the target that leads: it is better than all targets in front of
it and no worse than those behind it. A target goes on leading when others are
taken away, so a key moves only when its own target is taken, or to a target
that is put in.
-/

namespace BundleGraph.Routing

variable {α : Type u} {rank : α → Nat} {front back : List α} {x y : α}

/-- Better than all in front, and no worse than all behind. -/
structure Leads (rank : α → Nat) (front : List α) (x : α) (back : List α) : Prop where
  front : ∀ y ∈ front, rank y < rank x
  back : ∀ y ∈ back, rank y ≤ rank x

theorem Leads.sublist {front' back' : List α} (h : Leads rank front x back)
    (hfront : front'.Sublist front) (hback : back'.Sublist back) : Leads rank front' x back' :=
  ⟨fun y hy => h.front y (hfront.mem hy), fun y hy => h.back y (hback.mem hy)⟩

theorem Leads.step (h : Leads rank front x back) (y : α) :
    ∃ front' back', front ++ x :: back ++ [y] =
        front' ++ (if rank x < rank y then y else x) :: back' ∧
      Leads rank front' (if rank x < rank y then y else x) back' := by
  split
  · rename_i hlt
    refine ⟨front ++ x :: back, [], rfl, fun z hz => ?_, nofun⟩
    rcases List.mem_append.mp hz with hz | hz
    · exact Nat.lt_trans (h.front z hz) hlt
    · rcases List.mem_cons.mp hz with rfl | hz
      · exact hlt
      · exact Nat.lt_of_le_of_lt (h.back z hz) hlt
  · rename_i hle
    refine ⟨front, back ++ [y], by simp, h.front, fun z hz => ?_⟩
    rcases List.mem_append.mp hz with hz | hz
    · exact h.back z hz
    · rw [List.mem_singleton.mp hz]
      exact Nat.le_of_not_lt hle

theorem Leads.foldl (h : Leads rank front x back) (ys : List α) :
    ∃ front' best back', front ++ x :: back ++ ys = front' ++ best :: back' ∧
      Leads rank front' best back' ∧
      ys.foldl (fun best y => if rank best < rank y then y else best) x = best := by
  induction ys generalizing front x back with
  | nil => exact ⟨front, x, back, by simp, h, rfl⟩
  | cons y ys ih =>
    obtain ⟨front', back', heq, hleads⟩ := h.step y
    obtain ⟨front'', best, back'', heq', hbest, hfold⟩ := ih hleads
    refine ⟨front'', best, back'', ?_, hbest, hfold⟩
    rw [← heq', ← heq, List.append_assoc, List.append_assoc, List.append_assoc]
    rfl

theorem append_cons_eq_append_cons {front' back' : List α}
    (h : front ++ x :: back = front' ++ y :: back') :
    (∃ between, front' = front ++ x :: between ∧ back = between ++ y :: back') ∨
      (front = front' ∧ x = y ∧ back = back') ∨
      ∃ between, front = front' ++ y :: between ∧ back' = between ++ x :: back := by
  rcases List.append_eq_append_iff.mp h with ⟨between, rfl, hrest⟩ | ⟨between, rfl, hrest⟩
  · cases between with
    | nil =>
      cases hrest
      exact .inr (.inl ⟨(List.append_nil _).symm, rfl, rfl⟩)
    | cons z between =>
      cases hrest
      exact .inl ⟨between, rfl, rfl⟩
  · cases between with
    | nil =>
      cases hrest
      exact .inr (.inl ⟨List.append_nil _, rfl, rfl⟩)
    | cons z between =>
      cases hrest
      exact .inr (.inr ⟨between, rfl, rfl⟩)

theorem Leads.unique {front' back' : List α} (h : Leads rank front x back)
    (h' : Leads rank front' y back') (heq : front ++ x :: back = front' ++ y :: back') :
    x = y := by
  rcases append_cons_eq_append_cons heq with ⟨between, hfront, hback⟩ | ⟨-, hxy, -⟩ |
    ⟨between, hfront, hback⟩
  · have hlt := h'.front x (by simp [hfront])
    have hle := h.back y (by simp [hback])
    exact absurd hlt (Nat.not_lt.mpr hle)
  · exact hxy
  · have hlt := h.front y (by simp [hfront])
    have hle := h'.back x (by simp [hback])
    exact absurd hlt (Nat.not_lt.mpr hle)

theorem exists_leads_of_firstMax {xs : List α} (h : firstMax rank xs = some x) :
    ∃ front back, xs = front ++ x :: back ∧ Leads rank front x back := by
  cases xs with
  | nil => cases h
  | cons first xs =>
    have hfirst : Leads rank [] first [] := ⟨nofun, nofun⟩
    obtain ⟨front, best, back, heq, hleads, hfold⟩ := hfirst.foldl xs
    cases h
    rw [hfold]
    exact ⟨front, back, heq, hleads⟩

theorem Leads.firstMax_eq (h : Leads rank front x back) :
    firstMax rank (front ++ x :: back) = some x := by
  cases hmax : firstMax rank (front ++ x :: back) with
  | none => simp [firstMax_eq_none_iff] at hmax
  | some best =>
    obtain ⟨front', back', heq, hbest⟩ := exists_leads_of_firstMax hmax
    rw [h.unique hbest heq]

theorem firstMax_eq_some_iff {xs : List α} : firstMax rank xs = some x ↔
    ∃ front back, xs = front ++ x :: back ∧ Leads rank front x back := by
  refine ⟨exists_leads_of_firstMax, ?_⟩
  rintro ⟨front, back, rfl, h⟩
  exact h.firstMax_eq

theorem firstMax_insert (h : ¬ Leads rank front y back) :
    firstMax rank (front ++ y :: back) = firstMax rank (front ++ back) := by
  cases hmax : firstMax rank (front ++ y :: back) with
  | none => simp [firstMax_eq_none_iff] at hmax
  | some x =>
    obtain ⟨front', back', heq, hleads⟩ := exists_leads_of_firstMax hmax
    symm
    rcases append_cons_eq_append_cons heq with ⟨between, rfl, rfl⟩ | ⟨rfl, rfl, rfl⟩ |
      ⟨between, rfl, rfl⟩
    · have hkept := hleads.sublist
        ((List.sublist_cons_self y between).append_left front) (.refl back')
      simpa using hkept.firstMax_eq
    · exact absurd hleads h
    · have hkept := hleads.sublist (.refl front')
        ((List.sublist_cons_self y back).append_left between)
      simpa using hkept.firstMax_eq

/-- In a list without repetition, an item that leads does so in every sublist that
still has it. -/
theorem Leads.firstMax_sublist {sub : List α} (h : Leads rank front x back)
    (hnodup : (front ++ x :: back).Nodup) (hsub : sub.Sublist (front ++ x :: back))
    (hx : x ∈ sub) : firstMax rank sub = some x := by
  obtain ⟨front', rest, rfl, hfront, hrest⟩ := List.sublist_append_iff.mp hsub
  obtain ⟨-, hcons, hapart⟩ := List.nodup_append.mp hnodup
  have hxfront : x ∉ front' := fun hmem => hapart x (hfront.mem hmem) x (.head _) rfl
  have hxback := (List.nodup_cons.mp hcons).1
  have hmem := (List.mem_append.mp hx).resolve_left hxfront
  rcases List.sublist_cons_iff.mp hrest with hrest | ⟨back', rfl, hback⟩
  · exact absurd (hrest.mem hmem) hxback
  · exact (h.sublist hfront hback).firstMax_eq

/-- A key goes to the first target with the greatest score, and to none only where
there are no targets. Targets are told apart by their places: whatever others are
taken away, the key stays with its target, also among targets of one id, and a target
that is put in gets the key if it leads in its place; if not, the key stays. -/
theorem pickByKey_moves_own_keys (id : α → UInt64) (targets : List α) (key : Bytes) :
    (pickByKey id targets key = none ↔ targets = []) ∧
    (∀ x, pickByKey id targets key = some x ↔ ∃ front back, targets = front ++ x :: back ∧
      Leads (fun t => score key (id t)) front x back) ∧
    (∀ front x back, targets = front ++ x :: back →
      Leads (fun t => score key (id t)) front x back →
        ∀ front' back', front'.Sublist front → back'.Sublist back →
          pickByKey id (front' ++ x :: back') key = pickByKey id targets key) ∧
    (∀ x sub, pickByKey id targets key = some x → targets.Nodup → sub.Sublist targets → x ∈ sub →
      pickByKey id sub key = some x) ∧
    ∀ front y back, targets = front ++ back →
      (Leads (fun t => score key (id t)) front y back ∧
          pickByKey id (front ++ y :: back) key = some y) ∨
        ¬ Leads (fun t => score key (id t)) front y back ∧
          pickByKey id (front ++ y :: back) key = pickByKey id targets key := by
  refine ⟨firstMax_eq_none_iff, fun x => firstMax_eq_some_iff, ?_, ?_, ?_⟩
  · rintro front x back rfl h front' back' hfront hback
    exact (h.sublist hfront hback).firstMax_eq.trans h.firstMax_eq.symm
  · intro x sub hpick hnodup hsub hx
    obtain ⟨front, back, rfl, h⟩ := exists_leads_of_firstMax hpick
    exact h.firstMax_sublist hnodup hsub hx
  · rintro front y back rfl
    by_cases h : Leads (fun t => score key (id t)) front y back
    · exact .inl ⟨h, h.firstMax_eq⟩
    · exact .inr ⟨h, firstMax_insert h⟩

/-- Targets with their ids, two of which are the same. -/
def twins : List (String × UInt64) := [("a", 0), ("b", 1), ("c", 1)]

/-- The first of two targets of one id has the key, and keeps it when a target in front
of it is taken away, or the one behind. A third target of that id gets the key when it is
put in first, and does not get it when it is put in last. -/
theorem pickByKey_moves_own_keys_twins :
    Leads (fun t => score [112] t.2) [("a", 0)] ("b", 1) [("c", 1)] ∧
    pickByKey (·.2) twins [112] = some ("b", 1) ∧
    pickByKey (·.2) [("b", 1), ("c", 1)] [112] = pickByKey (·.2) twins [112] ∧
    (twins.Nodup ∧ [("a", 0), ("b", 1)].Sublist twins ∧
      pickByKey (·.2) [("a", 0), ("b", 1)] [112] = some ("b", 1)) ∧
    pickByKey (·.2) (("d", 1) :: twins) [112] = some ("d", 1) ∧
    pickByKey (·.2) (twins ++ [("d", 1)]) [112] = some ("b", 1) := by
  have hlt : score [112] 0 < score [112] 1 := by decide +kernel
  have hleads : Leads (fun t : String × UInt64 => score [112] t.2) [("a", 0)] ("b", 1)
      [("c", 1)] := ⟨by simpa using hlt, by simp⟩
  obtain ⟨-, hpick, hkeeps, hsub, hput⟩ := pickByKey_moves_own_keys (·.2) twins [112]
  have hb := (hpick ("b", 1)).mpr ⟨_, _, rfl, hleads⟩
  have hnodup : twins.Nodup := by decide
  have hinit : [("a", 0), ("b", 1)].Sublist twins := by simp [twins]
  refine ⟨hleads, hb, hkeeps _ _ _ rfl hleads [] _ (List.nil_sublist _) (.refl _),
    ⟨hnodup, hinit, hsub _ _ hb hnodup hinit (.tail _ (.head _))⟩, ?_, ?_⟩
  · refine ((hput [] ("d", 1) twins rfl).resolve_right fun h => h.1 ⟨nofun, ?_⟩).2
    simpa [twins] using Nat.le_of_lt hlt
  · refine ((hput twins ("d", 1) [] (by simp)).resolve_left fun h => ?_).2.trans hb
    simpa [twins] using h.1.front

end BundleGraph.Routing
