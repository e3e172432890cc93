import BundleGraph.Queue
import Mathlib.Data.List.Perm.Basic

/-!
# What a drain keeps true

A drain takes one task after another off its tasks, queued or in flight, and
puts those that a result asks for in. `drain_invariant` is the induction over a
whole drain: what holds of the tasks and the state, and is kept by every start
and every result in whatever order, holds at its end of no tasks. `drain_error`
tells why a drain failed, `Keeps.drain` what is true of the state however it
ended, and `drain_ends` how many moves are enough for one.
`Simulates.drain` compares two drains whose states answer alike.
-/

namespace BundleGraph.Queue

variable {σ τ ρ ε : Type}

def tasks (q : Queue τ ρ ε) : List τ := q.queued ++ q.inFlight.map (·.1)

/-- An invariant of tasks and states, whatever the order of the tasks, that
starts and results keep. Started tasks deliver what is `Good` for them, and what
is good for a task in one state is good in all later ones. -/
structure Invariant (acc : Accumulator σ τ ρ ε) (Good : σ → τ → Except ε ρ → Prop)
    (Inv : List τ → σ → Prop) : Prop where
  perm : ∀ {ts ts' s}, ts.Perm ts' → Inv ts s → Inv ts' s
  start : ∀ {task ts s}, Inv (task :: ts) s → Inv (task :: ts) (acc.start task s).2 ∧
    Good (acc.start task s).2 task (acc.start task s).1.result
  accumulate : ∀ {task ts r s next s'}, Inv (task :: ts) s → Good s task (.ok r) →
    acc.accumulate task r s = (.ok next, s') → Inv (ts ++ next) s'
  started : ∀ {task s other result}, Good s other result →
    Good (acc.start task s).2 other result
  accumulated : ∀ {task r s next s' other result}, Good s task (.ok r) →
    acc.accumulate task r s = (.ok next, s') → Good s other result → Good s' other result

variable {acc : Accumulator σ τ ρ ε} {Good : σ → τ → Except ε ρ → Prop}
  {Inv : List τ → σ → Prop}

/-- Every task in flight delivers what is good for it. -/
def Delivers (Good : σ → τ → Except ε ρ → Prop) (q : Queue τ ρ ε) (s : σ) : Prop :=
  ∀ p ∈ q.inFlight, Good s p.1 p.2.result

/-- What an error of a result, or of what is made of a result, tells. -/
structure Fails (acc : Accumulator σ τ ρ ε) (Good : σ → τ → Except ε ρ → Prop)
    (Inv : List τ → σ → Prop) (Failed : ε → Prop) : Prop where
  result : ∀ {task ts s e}, Inv (task :: ts) s → Good s task (.error e) → Failed e
  accumulate : ∀ {task ts r s e s'}, Inv (task :: ts) s → Good s task (.ok r) →
    acc.accumulate task r s = (.error e, s') → Failed e

variable {Failed : ε → Prop}

theorem Fails.trivial : Fails acc Good Inv fun _ => True :=
  ⟨fun _ _ => .intro, fun _ _ _ => .intro⟩

/-- What has to hold after a move. -/
def Kept (Good : σ → τ → Except ε ρ → Prop) (Inv : List τ → σ → Prop) (Failed : ε → Prop) :
    Progress σ τ ρ ε → Prop
  | .go q s => Inv q.tasks s ∧ Delivers Good q s
  | .stop (.ok ()) s => Inv [] s
  | .stop (.error e) _ => Failed e

theorem Invariant.fold (h : Invariant acc Good Inv) (hfails : Fails acc Good Inv Failed)
    {q : Queue τ ρ ε} {task : τ} {result : Except ε ρ} {s : σ} (hinv : Inv (task :: q.tasks) s)
    (hgood : Good s task result) (hq : Delivers Good q s) :
    Kept Good Inv Failed (fold acc q task result s) := by
  unfold Queue.fold
  cases result with
  | error e => exact hfails.result hinv hgood
  | ok r =>
    cases hacc : acc.accumulate task r s with
    | mk outcome s' =>
      cases outcome with
      | error e =>
        simp only [hacc]
        exact hfails.accumulate hinv hgood hacc
      | ok next =>
        simp only [hacc]
        refine ⟨h.perm ?_ (h.accumulate hinv hgood hacc),
          fun p hp => h.accumulated hgood hacc (hq p hp)⟩
        simp only [tasks, List.append_assoc]
        exact List.perm_append_comm.append_left q.queued

theorem Invariant.launch (h : Invariant acc Good Inv) (hfails : Fails acc Good Inv Failed)
    {q : Queue τ ρ ε} {task : τ} {s : σ} (hinv : Inv (task :: q.tasks) s)
    (hq : Delivers Good q s) : Kept Good Inv Failed (launch acc q task s) := by
  obtain ⟨hstarted, hgood⟩ := h.start hinv
  have hkept : Delivers Good q (acc.start task s).2 := fun p hp => h.started (hq p hp)
  unfold Queue.launch
  cases hstart : acc.start task s with
  | mk started s' =>
    rw [hstart] at hstarted hgood hkept
    cases started with
    | ready result => exact h.fold hfails hstarted hgood hkept
    | pending future =>
      refine ⟨h.perm ?_ hstarted, fun p hp => ?_⟩
      · simp only [tasks, List.map_append, List.map_cons, List.map_nil, ← List.append_assoc]
        exact (List.perm_append_singleton task _).symm
      · rcases List.mem_append.mp hp with hp | hp
        · exact hkept p hp
        · rw [List.mem_singleton.mp hp]
          exact hgood

theorem complete_cases (acc : Accumulator σ τ ρ ε) (schedule : Schedule) (q : Queue τ ρ ε)
    (s : σ) :
    q.inFlight = [] ∧ complete acc schedule q s = .stop (.ok ()) s ∨
      ∃ q' task future, complete acc schedule q s = fold acc q' task future.result s ∧
        q'.queued = q.queued ∧ q.inFlight.Perm ((task, future) :: q'.inFlight) := by
  unfold Queue.complete
  dsimp only
  generalize (schedule q.completed q.clocks (q.inFlight.map (·.2.clock))) = choice
  split
  · rename_i hnone
    refine .inl ⟨?_, rfl⟩
    by_contra hne
    have := Nat.mod_lt choice.1 (List.length_pos_iff.mpr hne)
    have := List.drop_eq_nil_iff.mp hnone
    omega
  · rename_i task future behind hdrop
    refine .inr ⟨_, task, future, rfl, rfl, ?_⟩
    have hinFlight : q.inFlight.take (choice.1 % q.inFlight.length) ++ (task, future) :: behind =
        q.inFlight := by
      rw [← hdrop, List.take_append_drop]
    dsimp only
    conv_lhs => rw [← hinFlight]
    exact List.perm_middle.trans (List.perm_append_comm.cons _)

theorem Invariant.complete (h : Invariant acc Good Inv) (hfails : Fails acc Good Inv Failed)
    {q : Queue τ ρ ε} {s : σ} (schedule : Schedule) (hinv : Inv q.tasks s)
    (hqueued : q.queued = []) (hq : Delivers Good q s) :
    Kept Good Inv Failed (complete acc schedule q s) := by
  rcases complete_cases acc schedule q s with ⟨hempty, heq⟩ | ⟨q', task, future, heq, hrest, hperm⟩
  · rw [heq]
    rw [tasks, hqueued, hempty] at hinv
    exact hinv
  · rw [heq]
    refine h.fold hfails (h.perm ?_ hinv) (hq _ (hperm.mem_iff.mpr (.head _)))
      fun p hp => hq p (hperm.mem_iff.mpr (.tail _ hp))
    rw [tasks, tasks, hrest, hqueued]
    exact hperm.map _

theorem Invariant.next (h : Invariant acc Good Inv) (hfails : Fails acc Good Inv Failed)
    {q : Queue τ ρ ε} {s : σ} (schedule : Schedule) (hinv : Inv q.tasks s)
    (hq : Delivers Good q s) : Kept Good Inv Failed (next acc schedule q s) := by
  unfold Queue.next
  split
  · rename_i task rest hqueued
    refine h.launch hfails ?_ hq
    rw [tasks, hqueued] at hinv
    exact hinv
  · rename_i hqueued
    exact h.complete hfails schedule hinv hqueued hq

theorem drainWithin_kept (h : Invariant acc Good Inv) (hfails : Fails acc Good Inv Failed)
    (schedule : Schedule) (budget : Nat) (q : Queue τ ρ ε) (s : σ) {result : Except ε Unit} {s' : σ}
    (hinv : Inv q.tasks s) (hq : Delivers Good q s)
    (hdrain : drainWithin acc schedule budget q s = (some result, s')) :
    Kept Good Inv Failed (.stop result s') := by
  induction budget generalizing q s with
  | zero => simp [drainWithin] at hdrain
  | succ budget ih =>
    have hkept := h.next hfails schedule hinv hq
    rw [drainWithin] at hdrain
    split at hdrain
    · rename_i hgo
      rw [hgo] at hkept
      exact ih _ _ hkept.1 hkept.2 hdrain
    · rename_i hstop
      rw [hstop] at hkept
      simp only [Prod.mk.injEq, Option.some.injEq] at hdrain
      obtain ⟨rfl, rfl⟩ := hdrain
      exact hkept

theorem drain_kept (h : Invariant acc Good Inv) (hfails : Fails acc Good Inv Failed) (pace : Pace)
    (seeds : List τ) (s : σ) {result : Except ε Unit} {s' : σ} (hinv : Inv seeds s)
    (hdrain : drain acc pace (.ofList seeds) s = (some result, s')) :
    Kept Good Inv Failed (.stop result s') := by
  refine drainWithin_kept h hfails pace.schedule pace.budget _ s ?_
    (fun _ hp => absurd hp List.not_mem_nil) hdrain
  simpa [tasks, ofList] using hinv

theorem drain_invariant (h : Invariant acc Good Inv) (pace : Pace) (seeds : List τ) (s : σ)
    {s' : σ} (hinv : Inv seeds s)
    (hdrain : drain acc pace (.ofList seeds) s = (some (.ok ()), s')) : Inv [] s' :=
  drain_kept h .trivial pace seeds s hinv hdrain

theorem drain_error (h : Invariant acc Good Inv) (hfails : Fails acc Good Inv Failed) (pace : Pace)
    (seeds : List τ) (s : σ) {e : ε} {s' : σ} (hinv : Inv seeds s)
    (hdrain : drain acc pace (.ofList seeds) s = (some (.error e), s')) : Failed e :=
  drain_kept h hfails pace seeds s hinv hdrain

-- ---------------------------------------------------------------------------
-- What is kept however a drain ends
-- ---------------------------------------------------------------------------

def Progress.state : Progress σ τ ρ ε → σ
  | go _ s => s
  | stop _ s => s

/-- What is true of a state stays so with every start and every result, whatever
comes of them. -/
structure Keeps (acc : Accumulator σ τ ρ ε) (P : σ → Prop) : Prop where
  start : ∀ task s, P s → P (acc.start task s).2
  accumulate : ∀ task r s, P s → P (acc.accumulate task r s).2

namespace Keeps

variable {P : σ → Prop} {s : σ}

theorem fold (h : Keeps acc P) (q : Queue τ ρ ε) (task : τ) (result : Except ε ρ) (hs : P s) :
    P (fold acc q task result s).state := by
  cases result with
  | error e => exact hs
  | ok r =>
    have hfolded := h.accumulate task r s hs
    unfold Queue.fold
    dsimp only
    cases hacc : acc.accumulate task r s with
    | mk outcome s' =>
      rw [hacc] at hfolded
      cases outcome <;> exact hfolded

theorem next (h : Keeps acc P) (schedule : Schedule) (q : Queue τ ρ ε) (hs : P s) :
    P (next acc schedule q s).state := by
  unfold Queue.next
  split
  · rename_i task rest _
    have hstarted := h.start task s hs
    unfold Queue.launch
    cases hstart : acc.start task s with
    | mk started s' =>
      rw [hstart] at hstarted
      cases started with
      | ready result => exact h.fold _ task result hstarted
      | pending future => exact hstarted
  · rcases complete_cases acc schedule q s with ⟨_, heq⟩ | ⟨q', task, future, heq, _⟩
    · rw [heq]
      exact hs
    · rw [heq]
      exact h.fold q' task future.result hs

/-- It is true of the last state of a drain, which may have failed or been cut
short. -/
theorem drain (h : Keeps acc P) (pace : Pace) (q : Queue τ ρ ε) (hs : P s) :
    P (drain acc pace q s).2 := by
  unfold Queue.drain
  generalize pace.budget = budget
  induction budget generalizing q s with
  | zero => exact hs
  | succ budget ih =>
    have hmoved := h.next pace.schedule q hs
    rw [drainWithin]
    cases hnext : Queue.next acc pace.schedule q s with
    | go q' s' =>
      rw [hnext] at hmoved
      exact ih q' hmoved
    | stop result s' =>
      rw [hnext] at hmoved
      exact hmoved

end Keeps

-- ---------------------------------------------------------------------------
-- Termination
-- ---------------------------------------------------------------------------

/-- Follow-up tasks are paid for by what the state has left: two moves for each,
one to start it and one to complete it. -/
structure Dwindles (acc : Accumulator σ τ ρ ε) (Good : σ → τ → Except ε ρ → Prop)
    (Inv : List τ → σ → Prop) (left : σ → Nat) : Prop where
  start : ∀ task s, left (acc.start task s).2 ≤ left s
  accumulate : ∀ {task ts r s next s'}, Inv (task :: ts) s → Good s task (.ok r) →
    acc.accumulate task r s = (.ok next, s') → left s' + 2 * next.length ≤ left s

/-- The moves that are left at most. -/
def moves (left : σ → Nat) (q : Queue τ ρ ε) (s : σ) : Nat :=
  2 * q.queued.length + q.inFlight.length + left s

variable {left : σ → Nat} {q q' : Queue τ ρ ε} {task : τ} {s s' : σ}

theorem Dwindles.fold (hd : Dwindles acc Good Inv left) {result : Except ε ρ}
    (hinv : Inv (task :: q.tasks) s) (hgood : Good s task result)
    (hgo : fold acc q task result s = .go q' s') : moves left q' s' ≤ moves left q s := by
  unfold Queue.fold at hgo
  cases result with
  | error e => cases hgo
  | ok r =>
    cases hacc : acc.accumulate task r s with
    | mk outcome after =>
      simp only [hacc] at hgo
      cases outcome with
      | error e => cases hgo
      | ok next =>
        have hpaid := hd.accumulate hinv hgood hacc
        cases hgo
        simp only [moves, List.length_append]
        omega

theorem Dwindles.launch (hd : Dwindles acc Good Inv left) (h : Invariant acc Good Inv)
    (hinv : Inv (task :: q.tasks) s) (hgo : launch acc q task s = .go q' s') :
    moves left q' s' < moves left q s + 2 := by
  obtain ⟨hstarted, hgood⟩ := h.start hinv
  have hleft := hd.start task s
  unfold Queue.launch at hgo
  cases hstart : acc.start task s with
  | mk started after =>
    rw [hstart] at hstarted hgood hleft
    dsimp only at hleft
    simp only [hstart] at hgo
    cases started with
    | ready result =>
      have := hd.fold hstarted hgood hgo
      simp only [moves] at this ⊢
      omega
    | pending future =>
      cases hgo
      simp only [moves, List.length_append, List.length_singleton]
      omega

theorem Dwindles.complete (hd : Dwindles acc Good Inv left) (h : Invariant acc Good Inv)
    {schedule : Schedule} (hinv : Inv q.tasks s) (hqueued : q.queued = [])
    (hq : Delivers Good q s) (hgo : complete acc schedule q s = .go q' s') :
    moves left q' s' < moves left q s := by
  rcases complete_cases acc schedule q s with ⟨_, heq⟩ | ⟨rest, task, future, heq, hrest, hperm⟩
  · rw [heq] at hgo
    cases hgo
  · rw [heq] at hgo
    have hinv' : Inv (task :: rest.tasks) s := by
      refine h.perm ?_ hinv
      rw [tasks, tasks, hrest, hqueued]
      exact hperm.map _
    have hle := hd.fold hinv' (hq _ (hperm.mem_iff.mpr (.head _))) hgo
    have hlength := hperm.length_eq
    simp only [moves, hrest, List.length_cons] at hle hlength ⊢
    omega

theorem Dwindles.next (hd : Dwindles acc Good Inv left) (h : Invariant acc Good Inv)
    {schedule : Schedule} (hinv : Inv q.tasks s) (hq : Delivers Good q s)
    (hgo : next acc schedule q s = .go q' s') : moves left q' s' < moves left q s := by
  unfold Queue.next at hgo
  split at hgo
  · rename_i task rest hqueued
    have hinv' : Inv (task :: tasks { q with queued := rest }) s := by
      rw [tasks, hqueued] at hinv
      exact hinv
    have hlt := hd.launch h hinv' hgo
    simp only [moves, hqueued, List.length_cons] at hlt ⊢
    omega
  · rename_i hqueued
    exact hd.complete h hinv hqueued hq hgo

theorem drainWithin_ends (h : Invariant acc Good Inv) (hd : Dwindles acc Good Inv left)
    (schedule : Schedule) (budget : Nat) (q : Queue τ ρ ε) (s : σ) (hinv : Inv q.tasks s)
    (hq : Delivers Good q s) (hbudget : moves left q s < budget) :
    ∃ result s', drainWithin acc schedule budget q s = (some result, s') := by
  induction budget generalizing q s with
  | zero => omega
  | succ budget ih =>
    have hkept := h.next .trivial schedule hinv hq
    rw [drainWithin]
    cases hnext : next acc schedule q s with
    | stop result s' => exact ⟨result, s', rfl⟩
    | go q' s' =>
      rw [hnext] at hkept
      have := hd.next h hinv hq hnext
      exact ih q' s' hkept.1 hkept.2 (by omega)

theorem drainWithin_mono {schedule : Schedule} {budget budget' : Nat} {result : Except ε Unit}
    (hle : budget ≤ budget') (h : drainWithin acc schedule budget q s = (some result, s')) :
    drainWithin acc schedule budget' q s = (some result, s') := by
  induction budget generalizing budget' q s with
  | zero => simp [drainWithin] at h
  | succ budget ih =>
    obtain ⟨more, rfl⟩ := Nat.exists_eq_add_of_lt hle
    rw [drainWithin] at h ⊢
    cases hnext : next acc schedule q s with
    | go q' after =>
      rw [hnext] at h
      exact ih (Nat.le_add_right budget more) h
    | stop result' after =>
      rw [hnext] at h
      exact h

theorem drain_ends (h : Invariant acc Good Inv) (hd : Dwindles acc Good Inv left) (pace : Pace)
    (seeds : List τ) (s : σ) (hinv : Inv seeds s)
    (hbudget : 2 * seeds.length + left s < pace.budget) :
    ∃ result s', drain acc pace (.ofList seeds) s = (some result, s') := by
  refine drainWithin_ends h hd pace.schedule pace.budget _ s ?_
    (fun _ hp => absurd hp List.not_mem_nil) ?_
  · simpa [tasks, ofList] using hinv
  · simpa [moves, ofList] using hbudget

-- ---------------------------------------------------------------------------
-- Simulation
-- ---------------------------------------------------------------------------

/-- The states of one accumulator are views of the states of another one, which
answers alike. -/
structure Simulates {σ' : Type} (acc : Accumulator σ τ ρ ε) (acc' : Accumulator σ' τ ρ ε)
    (view : σ' → σ) : Prop where
  start : ∀ task s,
    acc.start task (view s) = ((acc'.start task s).1, view (acc'.start task s).2)
  accumulate : ∀ task r s,
    acc.accumulate task r (view s) = ((acc'.accumulate task r s).1, view (acc'.accumulate task r s).2)

def Progress.map {σ' : Type} (view : σ' → σ) : Progress σ' τ ρ ε → Progress σ τ ρ ε
  | go q s => go q (view s)
  | stop result s => stop result (view s)

variable {σ' : Type} {acc' : Accumulator σ' τ ρ ε} {view : σ' → σ}

theorem Simulates.fold (h : Simulates acc acc' view) (q : Queue τ ρ ε) (task : τ)
    (result : Except ε ρ) (s : σ') :
    fold acc q task result (view s) = (fold acc' q task result s).map view := by
  unfold Queue.fold
  cases result with
  | error e => rfl
  | ok r =>
    dsimp only
    rw [h.accumulate]
    cases acc'.accumulate task r s with
    | mk outcome s' => cases outcome <;> rfl

theorem Simulates.launch (h : Simulates acc acc' view) (q : Queue τ ρ ε) (task : τ) (s : σ') :
    launch acc q task (view s) = (launch acc' q task s).map view := by
  unfold Queue.launch
  rw [h.start]
  cases acc'.start task s with
  | mk started s' =>
    cases started with
    | ready result => exact h.fold q task result s'
    | pending future => rfl

theorem Simulates.complete (h : Simulates acc acc' view) (schedule : Schedule)
    (q : Queue τ ρ ε) (s : σ') :
    complete acc schedule q (view s) = (complete acc' schedule q s).map view := by
  unfold Queue.complete
  dsimp only
  split
  · rfl
  · exact h.fold _ _ _ s

theorem Simulates.next (h : Simulates acc acc' view) (schedule : Schedule) (q : Queue τ ρ ε)
    (s : σ') : next acc schedule q (view s) = (next acc' schedule q s).map view := by
  unfold Queue.next
  split
  · exact h.launch _ _ s
  · exact h.complete schedule q s

theorem Simulates.drain (h : Simulates acc acc' view) (pace : Pace) (q : Queue τ ρ ε) (s : σ') :
    drain acc pace q (view s) = ((drain acc' pace q s).1, view (drain acc' pace q s).2) := by
  unfold Queue.drain
  generalize pace.budget = budget
  induction budget generalizing q s with
  | zero => rfl
  | succ budget ih =>
    rw [drainWithin, drainWithin, h.next]
    cases Queue.next acc' pace.schedule q s with
    | go q s => exact ih q s
    | stop result s => rfl

end BundleGraph.Queue
