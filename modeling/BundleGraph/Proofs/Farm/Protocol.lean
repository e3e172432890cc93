import BundleGraph.Farm.Unit
import Mathlib.Data.List.Basic

/-!
# The protocol of a unit

Callers, the loop of a unit and those who shut it down take their steps in any
order. What the unit counts stays tied to what it has done: `Ledger` says how,
`Ledger.step` that every event keeps it so. From it follows what callers rely
on, `run_orderly`: accepted jobs are answered in their order, once each, and
the counters come out even when all is done.
-/

namespace BundleGraph.WorkerUnit

namespace Stage

/-- Jobs that are taken and not answered yet. -/
def inHand : Stage → Nat
  | .working .. => 1
  | _ => 0

/-- Answered jobs that are pending still. -/
def unlowered : Stage → Nat
  | .replied => 1
  | _ => 0

/-- Answered jobs that are not counted as completed yet. -/
def uncounted : Stage → Nat
  | .replied | .lowered => 1
  | _ => 0

/-- Steps that the loop has made for a job that is not completed. -/
def progress : Stage → Nat
  | .working .. => 1
  | .replied => 2
  | .lowered => 3
  | _ => 0

end Stage

namespace Event

/-- A step by which the loop serves a job. -/
def isLoop : Event → Bool
  | take | reply _ | lower | count => true
  | _ => false

def works : Event → List Work
  | reply work => [work]
  | _ => []

end Event

def numbered (jobs : List Job) : List (Nat × Job) := jobs.zipIdx.map Prod.swap

theorem length_numbered (jobs : List Job) : (numbered jobs).length = jobs.length := by
  simp [numbered]

theorem numbered_concat (jobs : List Job) (job : Job) :
    numbered (jobs ++ [job]) = numbered jobs ++ [(jobs.length, job)] := by
  simp [numbered, List.zipIdx_append]

theorem getElem?_numbered (jobs : List Job) (n : Nat) :
    (numbered jobs)[n]? = (jobs[n]?).map (n, ·) := by
  simp [numbered, Function.comp_def]

/-- What is queued, answered and counted adds up, and every answer was given by
the work at hand to the job of its number. -/
structure Ledger (u : WorkerUnit) (works : List Work) : Prop where
  queue : u.queue = (numbered u.accepted).drop (u.answers.length + u.stage.inHand)
  taken : u.answers.length + u.stage.inHand ≤ u.accepted.length
  working : ∀ n job, u.stage = .working n job → n = u.answers.length ∧ u.accepted[n]? = some job
  worked : works.length = u.answers.length
  answers : ∀ (n : Nat) (a : Answer), u.answers[n]? = some a → ∃ work job,
    works[n]? = some work ∧ u.accepted[n]? = some job ∧ a.number = n ∧ a.reply = u.answer work job
  pending : u.pending + u.answers.length =
    u.accepted.length + u.reserved.toList.length + u.stage.unlowered
  completed : u.completed + u.stage.uncounted = u.answers.length
  reserved : u.reserved.isSome → u.isOpen
  ended : u.stage = .ended → u.isOpen = false ∧ u.queue = []

variable {u v : WorkerUnit} {works : List Work}

theorem ledger_new (id : Nat) : ({ id := id } : WorkerUnit).Ledger [] := by
  constructor <;> simp [numbered, Stage.inHand, Stage.unlowered, Stage.uncounted]

theorem getElem?_concat_of_some {α : Type} {xs : List α} {n : Nat} {x : α} (h : xs[n]? = some x)
    (y : α) : (xs ++ [y])[n]? = some x := by
  rw [List.getElem?_append_left (List.getElem?_eq_some_iff.mp h).1, h]

theorem Ledger.send (h : u.Ledger works) {job : Job} (hjob : u.reserved = some job)
    (hended : u.stage ≠ .ended) :
    { u with
      reserved := none
      queue := u.queue ++ [(u.accepted.length, job)]
      accepted := u.accepted ++ [job] }.Ledger works where
  queue := by
    rw [numbered_concat, List.drop_append_of_le_length, ← h.queue]
    rw [length_numbered]
    exact h.taken
  taken := by
    simpa using Nat.le_succ_of_le h.taken
  working n job hstage :=
    (h.working n job hstage).imp_right fun hn => getElem?_concat_of_some hn _
  worked := h.worked
  answers n a ha := by
    obtain ⟨work, served, hwork, hserved, hnumber, hreply⟩ := h.answers n a ha
    exact ⟨work, served, hwork, getElem?_concat_of_some hserved job, hnumber, hreply⟩
  pending := by
    have hpending := h.pending
    simp [hjob] at hpending ⊢
    omega
  completed := h.completed
  reserved := by simp
  ended hstage := absurd hstage hended

theorem Ledger.take (h : u.Ledger works) (hstage : u.stage = .waiting) {n : Nat} {job : Job}
    {queue : List (Nat × Job)} (hqueue : u.queue = (n, job) :: queue) :
    { u with stage := .working n job, queue }.Ledger works := by
  have hdrop := h.queue
  rw [hqueue, hstage] at hdrop
  have hhead : (numbered u.accepted)[u.answers.length]? = some (n, job) := by
    have := congrArg List.head? hdrop
    simpa [Stage.inHand] using this.symm
  have htail : queue = (numbered u.accepted).drop (u.answers.length + 1) := by
    have := congrArg List.tail hdrop
    simpa [Stage.inHand] using this
  obtain ⟨hnumber, hjob⟩ : u.answers.length = n ∧ u.accepted[u.answers.length]? = some job := by
    simpa [getElem?_numbered, and_comm] using hhead
  subst hnumber
  exact
    { queue := htail
      taken := (List.getElem?_eq_some_iff.mp hjob).1
      working := by
        rintro _ _ ⟨⟩
        exact ⟨rfl, hjob⟩
      worked := h.worked
      answers := h.answers
      pending := by simpa [hstage, Stage.unlowered] using h.pending
      completed := by simpa [hstage, Stage.uncounted] using h.completed
      reserved := h.reserved
      ended := by simp }

theorem Ledger.reply (h : u.Ledger works) {n : Nat} {job : Job} (hstage : u.stage = .working n job)
    (work : Work) (received : Bool) :
    { u with
      stage := .replied
      answers := u.answers ++ [Answer.mk n (u.answer work job) received] }.Ledger (works ++ [work]) := by
  obtain ⟨rfl, hjob⟩ := h.working n job hstage
  have hpending := h.pending
  have hcompleted := h.completed
  simp only [hstage, Stage.unlowered, Stage.uncounted] at hpending hcompleted
  exact
    { queue := by simpa [hstage, Stage.inHand] using h.queue
      taken := by simpa [hstage, Stage.inHand] using h.taken
      working := by simp
      worked := by simp [h.worked]
      answers := by
        intro m a ha
        rcases Nat.lt_or_ge m u.answers.length with hm | hm
        · rw [List.getElem?_append_left hm] at ha
          obtain ⟨done, served, hdone, hserved⟩ := h.answers m a ha
          exact ⟨done, served, getElem?_concat_of_some hdone work, hserved⟩
        · rw [List.getElem?_append_right hm] at ha
          obtain ⟨hlast, rfl⟩ := List.getElem?_eq_some_iff.mp ha
          have hm : m = u.answers.length := by simp at hlast; omega
          subst hm
          exact ⟨work, job, by simp [← h.worked], hjob, by simp, by simp; rfl⟩
      pending := by simp [Stage.unlowered]; omega
      completed := by simp [Stage.uncounted]; omega
      reserved := h.reserved
      ended := by simp }

theorem Ledger.lower (h : u.Ledger works) (hstage : u.stage = .replied) :
    { u with stage := .lowered, pending := u.pending - 1 }.Ledger works := by
  have hpending := h.pending
  simp only [hstage, Stage.unlowered] at hpending
  exact
    { queue := by simpa [hstage, Stage.inHand] using h.queue
      taken := by simpa [hstage, Stage.inHand] using h.taken
      working := by simp
      worked := h.worked
      answers := h.answers
      pending := by simp [Stage.unlowered]; omega
      completed := by simpa [hstage, Stage.uncounted] using h.completed
      reserved := h.reserved
      ended := by simp }

theorem Ledger.count (h : u.Ledger works) (hstage : u.stage = .lowered) :
    { u with stage := .waiting, completed := u.completed + 1 }.Ledger works where
  queue := by simpa [hstage, Stage.inHand] using h.queue
  taken := by simpa [hstage, Stage.inHand] using h.taken
  working := by simp
  worked := h.worked
  answers := h.answers
  pending := by simpa [hstage, Stage.unlowered] using h.pending
  completed := by simpa [hstage, Stage.uncounted] using h.completed
  reserved := h.reserved
  ended := by simp

theorem Ledger.finish (h : u.Ledger works) (hstage : u.stage = .waiting) (hnil : u.queue = [])
    (hclosed : u.isOpen = false) : { u with stage := .ended }.Ledger works where
  queue := by simpa [hstage, Stage.inHand] using h.queue
  taken := by simpa [hstage, Stage.inHand] using h.taken
  working := by simp
  worked := h.worked
  answers := h.answers
  pending := by simpa [hstage, Stage.unlowered] using h.pending
  completed := by simpa [hstage, Stage.uncounted] using h.completed
  reserved := h.reserved
  ended := fun _ => ⟨hclosed, hnil⟩

theorem Ledger.step (h : u.Ledger works) {e : Event} (hs : u.step e = some v) :
    v.Ledger (works ++ e.works) := by
  cases e with
  | reserve job =>
    simp only [WorkerUnit.step, Option.ite_none_right_eq_some, Option.some.injEq] at hs
    obtain ⟨hfree, rfl⟩ := hs
    obtain ⟨hopen, hnone⟩ : u.isOpen ∧ u.reserved = none := by simpa using hfree
    have hpending := h.pending
    simp only [Event.works, List.append_nil]
    refine { h with pending := ?_, reserved := fun _ => hopen }
    simp [hnone] at hpending ⊢
    omega
  | send =>
    simp only [WorkerUnit.step] at hs
    split at hs
    case h_1 => cases hs
    case h_2 job hjob hended =>
      have hopen := h.reserved (by simp [hjob])
      simp [(h.ended hended).1] at hopen
    case h_3 job hjob hended =>
      cases hs
      simpa [Event.works] using h.send hjob hended
  | leave n =>
    cases hs
    simpa [Event.works] using ({ h with } : Ledger { u with left := n :: u.left } works)
  | shutdown =>
    simp only [WorkerUnit.step, Option.ite_none_right_eq_some, Option.some.injEq] at hs
    obtain ⟨hnone, rfl⟩ := hs
    simp only [Event.works, List.append_nil]
    refine { h with reserved := fun hsome => ?_, ended := fun hended => ⟨rfl, (h.ended hended).2⟩ }
    simp_all
  | take =>
    simp only [WorkerUnit.step] at hs
    split at hs
    case h_1 n job queue hstage hqueue =>
      cases hs
      simpa [Event.works] using h.take hstage hqueue
    case h_2 => cases hs
  | reply work =>
    simp only [WorkerUnit.step] at hs
    split at hs
    case h_1 n job hstage =>
      cases hs
      exact h.reply hstage work _
    case h_2 => cases hs
  | lower =>
    simp only [WorkerUnit.step] at hs
    split at hs
    case h_1 hstage =>
      cases hs
      simpa [Event.works] using h.lower hstage
    case h_2 => cases hs
  | count =>
    simp only [WorkerUnit.step] at hs
    split at hs
    case h_1 hstage =>
      cases hs
      simpa [Event.works] using h.count hstage
    case h_2 => cases hs
  | finish =>
    simp only [WorkerUnit.step] at hs
    split at hs
    case h_1 hstage hnil =>
      simp only [Option.ite_none_left_eq_some, Option.some.injEq] at hs
      obtain ⟨hclosed, rfl⟩ := hs
      simpa [Event.works] using h.finish hstage hnil (by simpa using hclosed)
    case h_2 => cases hs

-- ---------------------------------------------------------------------------
-- Runs
-- ---------------------------------------------------------------------------

variable {es : List Event}

theorem run_cons {e : Event} (h : u.run (e :: es) = some v) :
    ∃ w, u.step e = some w ∧ w.run es = some v :=
  Option.bind_eq_some_iff.mp h

theorem run_append {front back : List Event} (h : u.run (front ++ back) = some v) :
    ∃ w, u.run front = some w ∧ w.run back = some v := by
  induction front generalizing u with
  | nil => exact ⟨u, rfl, h⟩
  | cons e front ih =>
    obtain ⟨w, hstep, hrun⟩ := run_cons h
    obtain ⟨x, hfront, hback⟩ := ih hrun
    exact ⟨x, by simp [run, hstep, hfront], hback⟩

def worksOf (es : List Event) : List Work := es.flatMap Event.works

theorem Ledger.run (h : u.Ledger works) (hrun : u.run es = some v) :
    v.Ledger (works ++ worksOf es) := by
  induction es generalizing u works with
  | nil =>
    cases hrun
    simpa [worksOf] using h
  | cons e es ih =>
    obtain ⟨w, hstep, hrest⟩ := run_cons hrun
    simpa [worksOf] using ih (h.step hstep) hrest

/-- The steps that the loop has made. -/
def loopSteps (u : WorkerUnit) : Nat := 4 * u.completed + u.stage.progress

theorem loopSteps_step {e : Event} (hs : u.step e = some v) :
    v.loopSteps = u.loopSteps + if e.isLoop then 1 else 0 := by
  cases e <;> grind [WorkerUnit.step, loopSteps, Stage.progress, Event.isLoop]

theorem loopSteps_run (hrun : u.run es = some v) :
    v.loopSteps = u.loopSteps + es.countP Event.isLoop := by
  induction es generalizing u with
  | nil =>
    cases hrun
    rfl
  | cons e es ih =>
    obtain ⟨w, hstep, hrest⟩ := run_cons hrun
    rw [ih hrest, loopSteps_step hstep, List.countP_cons]
    omega

theorem Ledger.exists_loop_step (h : u.Ledger works) (hlt : u.completed < u.accepted.length)
    (work : Work) : ∃ e ∈ serveOne work, (u.step e).isSome := by
  have hcompleted := h.completed
  have hmore (hnil : u.queue = []) (hstage : u.stage.inHand = 0) :
      u.accepted.length ≤ u.answers.length := by
    simpa [h.queue, hstage, length_numbered] using hnil
  cases hstage : u.stage with
  | waiting =>
    cases hqueue : u.queue with
    | nil =>
      have hle := hmore hqueue (by rw [hstage]; rfl)
      simp only [hstage, Stage.uncounted] at hcompleted
      omega
    | cons head queue => exact ⟨.take, by simp [serveOne], by simp [WorkerUnit.step, hstage, hqueue]⟩
  | working n job => exact ⟨.reply work, by simp [serveOne], by simp [WorkerUnit.step, hstage]⟩
  | replied => exact ⟨.lower, by simp [serveOne], by simp [WorkerUnit.step, hstage]⟩
  | lowered => exact ⟨.count, by simp [serveOne], by simp [WorkerUnit.step, hstage]⟩
  | ended =>
    have hle := hmore (h.ended hstage).2 (by rw [hstage]; rfl)
    simp only [hstage, Stage.uncounted] at hcompleted
    omega

theorem run_closed (hrun : u.run es = some v) (hclosed : u.isOpen = false)
    (hreserved : u.reserved = none) : v.accepted = u.accepted ∧ ∀ job, .reserve job ∉ es := by
  induction es generalizing u with
  | nil =>
    cases hrun
    exact ⟨rfl, by simp⟩
  | cons e es ih =>
    obtain ⟨w, hstep, hrest⟩ := run_cons hrun
    have hkept : w.isOpen = false ∧ w.reserved = none ∧ w.accepted = u.accepted ∧
        ∀ job, e ≠ .reserve job := by
      cases e <;> grind [WorkerUnit.step]
    obtain ⟨hopen, hnone, haccepted, hne⟩ := hkept
    obtain ⟨hlast, hno⟩ := ih hrest hopen hnone
    refine ⟨hlast.trans haccepted, fun job hmem => ?_⟩
    rcases List.mem_cons.mp hmem with heq | hmem
    · exact hne job heq.symm
    · exact hno job hmem

theorem Ledger.whereabouts (h : u.Ledger works) {n : Nat} {job : Job}
    (hjob : u.accepted[n]? = some job) :
    n < u.answers.length ∨ u.stage = .working n job ∨ (n, job) ∈ u.queue := by
  by_cases hqueued : u.answers.length + u.stage.inHand ≤ n
  · refine .inr (.inr ?_)
    rw [h.queue]
    refine List.mem_of_getElem? (i := n - (u.answers.length + u.stage.inHand)) ?_
    rw [List.getElem?_drop, Nat.add_sub_cancel' hqueued, getElem?_numbered, hjob]
    rfl
  · by_cases hanswered : n < u.answers.length
    · exact .inl hanswered
    · refine .inr (.inl ?_)
      cases hstage : u.stage with
      | working m served =>
        obtain ⟨rfl, hserved⟩ := h.working m served hstage
        rw [hstage] at hqueued
        have hn : n = u.answers.length := by simp [Stage.inHand] at hqueued; omega
        subst hn
        rw [hjob] at hserved
        cases hserved
        rfl
      | _ =>
        rw [hstage] at hqueued
        simp [Stage.inHand] at hqueued
        omega

theorem Ledger.numbers (h : u.Ledger works) :
    u.answers.map (·.number) = List.range u.answers.length := by
  refine List.ext_getElem (by simp) fun n hn _ => ?_
  rw [List.length_map] at hn
  obtain ⟨_, _, _, _, hnumber, _⟩ := h.answers n u.answers[n] (List.getElem?_eq_getElem hn)
  simp [hnumber]

theorem Ledger.even (h : u.Ledger works) (hreserved : u.reserved = none) (hqueue : u.queue = [])
    (hstage : u.stage = .waiting ∨ u.stage = .ended) :
    u.answers.length = u.accepted.length ∧ u.pending = 0 ∧ u.completed = u.accepted.length := by
  obtain ⟨hhand, hlowered, hcounted⟩ :
      u.stage.inHand = 0 ∧ u.stage.unlowered = 0 ∧ u.stage.uncounted = 0 := by
    rcases hstage with hs | hs <;> rw [hs] <;> exact ⟨rfl, rfl, rfl⟩
  have hdone : u.accepted.length ≤ u.answers.length := by
    simpa [h.queue, hhand, length_numbered] using hqueue
  have htaken := h.taken
  have hpending := h.pending
  have hcompleted := h.completed
  simp [hreserved, hhand, hlowered, hcounted] at htaken hpending hcompleted
  omega

theorem Ledger.answered_of_loopSteps (h : u.Ledger works) {n : Nat}
    (hn : 4 * n + 2 ≤ u.loopSteps) : n < u.answers.length := by
  have hcompleted := h.completed
  unfold loopSteps at hn
  cases hstage : u.stage <;> simp only [hstage, Stage.progress, Stage.uncounted] at hn hcompleted <;>
    omega

/-- A shutdown waits until nobody hands over a job; then acceptance has an end. -/
theorem closed_of_shutdown {front back : List Event} (hfront : u.run front = some v)
    {w : WorkerUnit} (h : u.run (front ++ .shutdown :: back) = some w) :
    w.accepted = v.accepted ∧ ∀ job, .reserve job ∉ back := by
  obtain ⟨x, hx, hback⟩ := run_append h
  rw [hfront] at hx
  cases hx
  obtain ⟨y, hstep, hrest⟩ := run_cons hback
  simp only [step, Option.ite_none_right_eq_some, Option.some.injEq] at hstep
  obtain ⟨hnone, rfl⟩ := hstep
  have hlast := run_closed hrest rfl
  exact hlast (by simpa using hnone)

theorem Ledger.exists_send (h : u.Ledger works) {job : Job} (hjob : u.reserved = some job) :
    ∃ v, u.step .send = some v ∧ v.accepted = u.accepted ++ [job] := by
  have hopen := h.reserved (by simp [hjob])
  have hended : u.stage ≠ .ended := fun hs => by simp [(h.ended hs).1] at hopen
  cases hstage : u.stage with
  | ended => exact absurd hstage hended
  | _ => simp [WorkerUnit.step, hjob, hstage]

/-- What a unit has done after some events, whoever took which step when. -/
structure Orderly (id : Nat) (es : List Event) (u : WorkerUnit) : Prop where
  /-- Answers go by the order of acceptance, one for each job. -/
  numbers : u.answers.map (·.number) = List.range u.answers.length
  answers_le : u.answers.length ≤ u.accepted.length
  /-- An answer is what the loop made of the accepted job of its number. -/
  answers : ∀ (n : Nat) (a : Answer), u.answers[n]? = some a → ∃ work job,
    (worksOf es)[n]? = some work ∧ u.accepted[n]? = some job ∧ a.reply = u.answer work job
  /-- No job is lost. -/
  whereabouts : ∀ (n : Nat) (job : Job), u.accepted[n]? = some job →
    n < u.answers.length ∨ u.stage = .working n job ∨ (n, job) ∈ u.queue
  /-- The loop can go on until all jobs are completed, also when it is shut down. -/
  awake : u.completed < u.accepted.length →
    ∀ work, ∃ e ∈ serveOne work, (u.step e).isSome
  /-- A job has its answer as soon as the loop has made four steps for each one
  before it, and two for the job. -/
  served : ∀ n, 4 * n + 2 ≤ es.countP Event.isLoop → n < u.answers.length
  /-- A shutdown ends acceptance for good. -/
  closed : ∀ front back w, es = front ++ .shutdown :: back →
    ({ id } : WorkerUnit).run front = some w →
    u.accepted = w.accepted ∧ ∀ job, .reserve job ∉ back
  /-- Whoever finds the queue open can put the job into it. -/
  sent : ∀ job, u.reserved = some job →
    ∃ v, u.step .send = some v ∧ v.accepted = u.accepted ++ [job]
  pending_nonneg : 0 ≤ u.pending
  /-- What has no answer is pending, a job that is being handed over included. -/
  unanswered_le : (u.accepted.length + u.reserved.toList.length : Int) - u.answers.length ≤ u.pending
  /-- When nothing is handed over, queued or at hand, the counters come out even. -/
  even : u.reserved = none → u.queue = [] → u.stage = .waiting ∨ u.stage = .ended →
    u.answers.length = u.accepted.length ∧ u.pending = 0 ∧ u.completed = u.accepted.length

/-- Whatever callers, the loop and those who shut a unit down do, and in whichever
order: every accepted job is answered in its turn, by its own outcome, and the
counters stay in step. -/
theorem run_orderly (id : Nat) {es : List Event} {u : WorkerUnit}
    (h : ({ id } : WorkerUnit).run es = some u) : u.Orderly id es := by
  have hl : u.Ledger (worksOf es) := by simpa using (ledger_new id).run h
  have hsteps : u.loopSteps = es.countP Event.isLoop := by
    simpa [loopSteps, Stage.progress] using loopSteps_run h
  have htaken := hl.taken
  have hpending := hl.pending
  exact
    { numbers := hl.numbers
      answers_le := by omega
      answers := by
        intro n a ha
        obtain ⟨work, job, hwork, hjob, -, hreply⟩ := hl.answers n a ha
        exact ⟨work, job, hwork, hjob, hreply⟩
      whereabouts := fun _ _ => hl.whereabouts
      awake := hl.exists_loop_step
      served := fun n hn => hl.answered_of_loopSteps (hsteps ▸ hn)
      closed := by
        rintro front back w rfl hfront
        exact closed_of_shutdown hfront h
      sent := fun _ => hl.exists_send
      pending_nonneg := by omega
      unanswered_le := by omega
      even := hl.even }

/-- Two jobs, the second one queued when the unit is shut down twice; its caller
leaves, and its transform panics. -/
def shutdownEvents : List Event :=
  let panics : Work := fun _ _ => .panic none
  [.reserve .ping, .send, .take, .reserve (.transform "a" {}), .send, .shutdown, .reply panics,
    .leave 1, .lower, .shutdown, .count, .take, .reply panics, .lower, .count, .finish]

theorem run_orderly_shutdown : ∃ u, ({ id := 3 } : WorkerUnit).run shutdownEvents = some u ∧
    u.Orderly 3 shutdownEvents ∧ u.accepted.length = 2 ∧
    u.answers.map (fun a => (a.number, a.received)) = [(0, true), (1, false)] ∧
    u.pending = 0 ∧ u.completed = 2 := by
  refine ⟨_, rfl, run_orderly 3 rfl, rfl, rfl, rfl, rfl⟩

end BundleGraph.WorkerUnit
