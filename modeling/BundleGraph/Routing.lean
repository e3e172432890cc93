import BundleGraph.Sha256

/-!
# Routing

Rendezvous hashing: every target has a score for a key, and the key goes to
the first target with the greatest one. Taking a target away moves its own
keys only.
-/

namespace BundleGraph.Routing

/-- The first item with the greatest score. -/
def firstMax (score : α → Nat) : List α → Option α
  | [] => none
  | x :: xs => some (xs.foldl (fun best y => if score best < score y then y else best) x)

theorem firstMax_eq_none_iff {score : α → Nat} {xs : List α} :
    firstMax score xs = none ↔ xs = [] := by
  cases xs <;> simp [firstMax]

theorem firstMax_mem {score : α → Nat} {xs : List α} {x : α}
    (h : firstMax score xs = some x) : x ∈ xs := by
  cases xs with
  | nil => cases h
  | cons first xs =>
    have hfold (ys : List α) (best : α) :
        ys.foldl (fun best y => if score best < score y then y else best) best ∈ best :: ys := by
      induction ys generalizing best with
      | nil => simp
      | cons y ys ih =>
        rw [List.foldl_cons]
        split
        · exact List.mem_cons_of_mem _ (ih y)
        · have := ih best
          rw [List.mem_cons] at this ⊢
          exact this.imp_right (List.mem_cons_of_mem _)
    cases h
    exact hfold xs first

/-- The first eight bytes of a digest over the key and the id of the target. -/
def score (key : Bytes) (id : UInt64) : Nat :=
  Bytes.toNatBE ((sha256 (key ++ Bytes.ofNatBE 8 id.toNat)).take 8)

def pickByKey (id : α → UInt64) (targets : List α) (key : Bytes) : Option α :=
  firstMax (fun target => score key (id target)) targets

/-- The largest count of pending requests. -/
def saturated : Nat := UInt64.size - 1

/-- The first target with the fewest requests pending; one with the largest
count is never picked. -/
def leastPending (pending : α → UInt64) (targets : List α) : Option α :=
  firstMax (fun target => saturated - (pending target).toNat)
    (targets.filter fun target => (pending target).toNat < saturated)

end BundleGraph.Routing
