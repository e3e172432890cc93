import BundleGraph.Proofs.Queue

/-!
# What a drain does, in order

`Accumulator.journaled` does what an accumulator does, and notes every start and
every result that is settled. A drain with it comes to the same, and the notes
tell what the drain did: `Accounted` relates them to what is still queued and in
flight, after every move. From it follows `drain_accounts`, that a drain runs
every task once.
-/

namespace BundleGraph

variable {σ τ ρ ε : Type}

/-- A future that delivers what comes of another one, an error too. -/
def Future.reified (future : Future ε ρ) : Future ε (Except ε ρ) :=
  ⟨.ok future.result, future.clock, future.polls⟩

def Started.reified : Started ε ρ → Started ε (Except ε ρ)
  | ready result => ready (.ok result)
  | pending future => pending future.reified

namespace Queue

/-- A task is started, or its result is settled: an error ends the drain, all else
is accumulated and asks for follow-up tasks, or fails. -/
inductive Event (τ ρ ε : Type) where
  | started (task : τ) (answer : Started ε ρ)
  | settled (task : τ) (result : Except ε ρ) (outcome : Except ε (List τ))

def Event.error? : Event τ ρ ε → Option ε
  | settled _ _ (.error e) => some e
  | _ => none

def settle (acc : Accumulator σ τ ρ ε) (task : τ) (result : Except ε ρ) (s : σ) :
    Except ε (List τ) × σ :=
  match result with
  | .error e => (.error e, s)
  | .ok r => acc.accumulate task r s

theorem fold_eq (acc : Accumulator σ τ ρ ε) (q : Queue τ ρ ε) (task : τ) (result : Except ε ρ)
    (s : σ) : fold acc q task result s =
      match settle acc task result s with
      | (.ok next, s) => .go { q with queued := q.queued ++ next } s
      | (.error e, s) => .stop (.error e) s := by
  cases result <;> rfl

end Queue

open Queue

/-- Starts and accumulates as another accumulator does, and notes it. Errors are
results like all others, so that they are noted as well. -/
def Accumulator.journaled (acc : Accumulator σ τ ρ ε) :
    Accumulator (σ × List (Event τ ρ ε)) τ (Except ε ρ) ε where
  start task s :=
    let (answer, s') := acc.start task s.1
    (answer.reified, s', s.2 ++ [.started task answer])
  accumulate task result s :=
    let (outcome, s') := settle acc task result s.1
    (outcome, s', s.2 ++ [.settled task result outcome])

namespace Queue

/-- The same queue, for results that may be errors. -/
def reified (q : Queue τ ρ ε) : Queue τ (Except ε ρ) ε where
  queued := q.queued
  inFlight := q.inFlight.map fun (task, future) => (task, future.reified)
  clocks := q.clocks
  completed := q.completed

-- ---------------------------------------------------------------------------
-- Reading the notes
-- ---------------------------------------------------------------------------

section Notes

variable (log : List (Event τ ρ ε))

def ran : List τ :=
  log.filterMap fun
    | .started task _ => some task
    | .settled .. => none

/-- What every start is to deliver. -/
def deliveries : List (τ × Except ε ρ) :=
  log.filterMap fun
    | .started task answer => some (task, answer.result)
    | .settled .. => none

def settlements : List (τ × Except ε ρ) :=
  log.filterMap fun
    | .started .. => none
    | .settled task result _ => some (task, result)

/-- The tasks that were accumulated, with what they came to, in order. -/
def accumulated : List (τ × ρ) :=
  log.filterMap fun
    | .settled task (.ok r) _ => some (task, r)
    | _ => none

def followUps : List τ :=
  log.flatMap fun
    | .settled _ _ (.ok next) => next
    | _ => []

def Quiet : Prop := ∀ ev ∈ log, ev.error? = none

@[simp] theorem ran_started (task : τ) (answer : Started ε ρ) :
    ran (log ++ [.started task answer]) = ran log ++ [task] := by simp [ran]

@[simp] theorem ran_settled (task : τ) (result : Except ε ρ) (outcome : Except ε (List τ)) :
    ran (log ++ [.settled task result outcome]) = ran log := by simp [ran]

@[simp] theorem deliveries_started (task : τ) (answer : Started ε ρ) :
    deliveries (log ++ [.started task answer]) = deliveries log ++ [(task, answer.result)] := by
  simp [deliveries]

@[simp] theorem deliveries_settled (task : τ) (result : Except ε ρ)
    (outcome : Except ε (List τ)) :
    deliveries (log ++ [.settled task result outcome]) = deliveries log := by simp [deliveries]

@[simp] theorem settlements_started (task : τ) (answer : Started ε ρ) :
    settlements (log ++ [.started task answer]) = settlements log := by simp [settlements]

@[simp] theorem settlements_settled (task : τ) (result : Except ε ρ)
    (outcome : Except ε (List τ)) :
    settlements (log ++ [.settled task result outcome]) = settlements log ++ [(task, result)] := by
  simp [settlements]

@[simp] theorem followUps_started (task : τ) (answer : Started ε ρ) :
    followUps (log ++ [.started task answer]) = followUps log := by simp [followUps]

@[simp] theorem followUps_settled (task : τ) (result : Except ε ρ) (next : List τ) :
    followUps (log ++ [.settled task result (.ok next)]) = followUps log ++ next := by
  simp [followUps]

theorem map_fst_deliveries : (deliveries log).map (·.1) = ran log := by
  rw [deliveries, ran, List.map_filterMap]
  exact List.filterMap_congr fun ev _ => by cases ev <;> rfl

end Notes

variable {log : List (Event τ ρ ε)} {ev : Event τ ρ ε} {seeds : List τ}

/-- An event may follow those before, none of which is an error. A task is started
when it is the next one that was queued. A result is settled after its task was
started to deliver it: directly after, or when no task is left in the queue. -/
def Due (seeds : List τ) (before : List (Event τ ρ ε)) : Event τ ρ ε → Prop
  | .started task _ => Quiet before ∧ ran before ++ [task] <+: seeds ++ followUps before
  | .settled task result outcome =>
    Quiet before ∧ (settlements before ++ [(task, result)]).Subperm (deliveries before) ∧
      ([.started task (.ready result)] <:+ before ∨ ran before = seeds ++ followUps before) ∧
      ∀ e, result = .error e → outcome = .error e

def Timely (seeds : List τ) (log : List (Event τ ρ ε)) : Prop :=
  ∀ before ev, before ++ [ev] <+: log → Due seeds before ev

theorem Timely.concat (h : Timely seeds log) (hdue : Due seeds log ev) :
    Timely seeds (log ++ [ev]) := by
  intro before last hprefix
  rcases List.prefix_concat_iff.mp hprefix with heq | hprefix
  · obtain ⟨rfl, hlast⟩ := List.append_inj' heq rfl
    cases hlast
    exact hdue
  · exact h before last hprefix

theorem Timely.settlements_eq (h : Timely seeds log) (hquiet : Quiet log) :
    settlements log = (accumulated log).map fun (task, r) => (task, .ok r) := by
  rw [settlements, accumulated, List.map_filterMap]
  refine List.filterMap_congr fun ev hev => ?_
  match ev with
  | .started .. => rfl
  | .settled _ (.ok _) _ => rfl
  | .settled task (.error e) outcome =>
    obtain ⟨before, after, rfl⟩ := List.append_of_mem hev
    have hdue := h before _ ⟨after, (List.append_cons ..).symm⟩
    have hnone := hquiet _ hev
    rw [hdue.2.2.2 e rfl] at hnone
    cases hnone

theorem Quiet.concat (h : Quiet log) (hev : ev.error? = none) : Quiet (log ++ [ev]) := by
  intro other hother
  rcases List.mem_append.mp hother with hother | hother
  · exact h other hother
  · rwa [List.mem_singleton.mp hother]

-- ---------------------------------------------------------------------------
-- Accounts
-- ---------------------------------------------------------------------------

/-- What every task in flight is to deliver. -/
def undelivered (q : Queue τ ρ ε) : List (τ × Except ε ρ) :=
  q.inFlight.map fun (task, future) => (task, future.result)

/-- The notes account for what is queued and in flight: every task was queued at
the start or was asked for, and what was started is settled or in flight. -/
structure Accounted (seeds : List τ) (q : Queue τ ρ ε) (log : List (Event τ ρ ε)) : Prop where
  timely : Timely seeds log
  quiet : Quiet log
  queued : ran log ++ q.queued = seeds ++ followUps log
  delivered : (settlements log ++ q.undelivered).Perm (deliveries log)

/-- The notes of a drain that comes to a result: none, if the budget is spent. -/
structure Ended (seeds : List τ) (result : Option (Except ε Unit)) (log : List (Event τ ρ ε)) :
    Prop where
  timely : Timely seeds log
  success : result = some (.ok ()) → Quiet log ∧ ran log = seeds ++ followUps log ∧
    (settlements log).Perm (deliveries log)
  failure : ∀ e, result = some (.error e) ↔ ∃ before ev, log = before ++ [ev] ∧ ev.error? = some e

theorem Quiet.not_error (h : Quiet log) {e : ε} :
    ¬ ∃ before ev, log = before ++ [ev] ∧ ev.error? = some e := by
  rintro ⟨before, ev, rfl, hev⟩
  rw [h ev (by simp)] at hev
  cases hev

theorem Accounted.spent {q : Queue τ ρ ε} (h : Accounted seeds q log) : Ended seeds none log where
  timely := h.timely
  success := nofun
  failure := fun _ => iff_of_false nofun h.quiet.not_error

theorem Accounted.finished {q : Queue τ ρ ε} (h : Accounted seeds q log) (hqueued : q.queued = [])
    (hempty : q.inFlight = []) : Ended seeds (some (.ok ())) log where
  timely := h.timely
  success := fun _ => by
    refine ⟨h.quiet, ?_, ?_⟩
    · rw [← h.queued, hqueued, List.append_nil]
    · simpa [undelivered, hempty] using h.delivered
  failure := fun _ => iff_of_false nofun h.quiet.not_error

theorem Ended.ofError (h : Timely seeds (log ++ [ev])) {e : ε} (hev : ev.error? = some e) :
    Ended seeds (some (.error e)) (log ++ [ev]) where
  timely := h
  success := nofun
  failure := fun e' => by
    constructor
    · rintro ⟨⟩
      exact ⟨log, ev, rfl, hev⟩
    · rintro ⟨before, last, heq, hlast⟩
      obtain ⟨-, hlast'⟩ := List.append_inj' heq rfl
      cases hlast'
      rw [hev] at hlast
      rw [Option.some.inj hlast]

/-- A move with the notes is the move without them, and leaves them right. -/
def Told (seeds : List τ) : Progress σ τ ρ ε →
    Progress (σ × List (Event τ ρ ε)) τ (Except ε ρ) ε → Prop
  | .go q s, noted => ∃ log, noted = .go q.reified (s, log) ∧ Accounted seeds q log
  | .stop result s, noted => ∃ log, noted = .stop result (s, log) ∧ Ended seeds (some result) log

variable (acc : Accumulator σ τ ρ ε) {q : Queue τ ρ ε} {task : τ}

theorem told_fold (task : τ) (result : Except ε ρ) (s : σ) (htimely : Timely seeds log)
    (hquiet : Quiet log)
    (hqueued : ran log ++ q.queued = seeds ++ followUps log)
    (hdelivered : (settlements log ++ (task, result) :: q.undelivered).Perm (deliveries log))
    (hwhen : [.started task (.ready result)] <:+ log ∨ q.queued = []) :
    Told seeds (fold acc q task result s)
      (fold acc.journaled q.reified task (.ok result) (s, log)) := by
  rw [List.append_cons] at hdelivered
  have hdue : Due seeds log (.settled task result (settle acc task result s).1) := by
    refine ⟨hquiet, ?_, hwhen.imp_right fun hnone => ?_, ?_⟩
    · exact (List.sublist_append_left _ _).subperm.trans hdelivered.subperm
    · rw [← hqueued, hnone, List.append_nil]
    · rintro e rfl
      rfl
  have htimely' := htimely.concat hdue
  rw [fold_eq]
  unfold Queue.fold
  dsimp only [Accumulator.journaled]
  generalize settle acc task result s = settled at htimely' ⊢
  obtain ⟨e | next, s'⟩ := settled
  case error => exact ⟨_, rfl, .ofError htimely' rfl⟩
  case ok =>
    refine ⟨_, rfl, htimely', hquiet.concat rfl, ?_, ?_⟩
    · rw [ran_settled, followUps_settled, ← List.append_assoc, hqueued, List.append_assoc]
    · rw [settlements_settled, deliveries_settled]
      exact hdelivered

theorem told_launch (s : σ) (h : Accounted seeds q log) {rest : List τ}
    (hqueued : q.queued = task :: rest) :
    Told seeds (launch acc { q with queued := rest } task s)
      (launch acc.journaled { q.reified with queued := rest } task (s, log)) := by
  have hnext : ran log ++ [task] ++ rest = seeds ++ followUps log := by
    rw [← h.queued, hqueued, List.append_assoc, List.singleton_append]
  have hdue : ∀ answer, Due seeds log (.started task answer) :=
    fun _ => ⟨h.quiet, rest, hnext⟩
  have hdelivered : ∀ result, (settlements log ++ q.undelivered ++ [(task, result)]).Perm
      (deliveries log ++ [(task, result)]) := fun _ => h.delivered.append_right _
  have hnoted : acc.journaled.start task (s, log) = ((acc.start task s).1.reified,
      (acc.start task s).2, log ++ [.started task (acc.start task s).1]) := rfl
  unfold Queue.launch
  rw [hnoted]
  obtain ⟨result | future, s'⟩ := acc.start task s
  case ready =>
    refine told_fold acc task result s' (h.timely.concat (hdue (.ready result)))
      (h.quiet.concat rfl) ?_ ?_ (.inl (List.suffix_append _ _))
    · rw [ran_started, followUps_started, hnext]
    · rw [settlements_started, deliveries_started]
      refine .trans ?_ (hdelivered _)
      rw [List.append_assoc]
      exact (List.perm_append_singleton _ _).symm.append_left _
  case pending =>
    refine ⟨_, ?_, h.timely.concat (hdue (.pending future)), h.quiet.concat rfl, ?_, ?_⟩
    · simp only [reified, Started.reified, Future.reified, List.map_append, List.map_cons,
        List.map_nil]
    · rw [ran_started, followUps_started, hnext]
    · rw [settlements_started, deliveries_started]
      simpa [undelivered, Started.result] using hdelivered future.result

theorem told_complete (s : σ) (schedule : Schedule) (h : Accounted seeds q log)
    (hqueued : q.queued = []) :
    Told seeds (complete acc schedule q s) (complete acc.journaled schedule q.reified (s, log)) := by
  have hclocks : q.reified.inFlight.map (·.2.clock) = q.inFlight.map (·.2.clock) := by
    simp [reified, Future.reified, Function.comp_def]
  have hchoice : schedule q.reified.completed q.reified.clocks (q.reified.inFlight.map (·.2.clock)) =
      schedule q.completed q.clocks (q.inFlight.map (·.2.clock)) := by
    rw [hclocks]
    rfl
  have hlength : q.reified.inFlight.length = q.inFlight.length := List.length_map _
  unfold Queue.complete
  rw [hchoice, hlength]
  generalize schedule q.completed q.clocks (q.inFlight.map (·.2.clock)) = choice
  obtain ⟨place, clocks⟩ := choice
  dsimp only
  have hlt : q.inFlight ≠ [] → place % q.inFlight.length < q.inFlight.length :=
    fun hne => Nat.mod_lt _ (List.length_pos_iff.mpr hne)
  generalize place % q.inFlight.length = place at hlt ⊢
  have hsplit := List.take_append_drop place q.inFlight
  rw [show q.reified.inFlight.drop place = _ from List.map_drop.symm,
    show q.reified.inFlight.take place = _ from List.map_take.symm]
  cases hdrop : q.inFlight.drop place with
  | nil =>
    refine ⟨log, rfl, h.finished hqueued ?_⟩
    by_contra hne
    exact Nat.not_le.mpr (hlt hne) (List.drop_eq_nil_iff.mp hdrop)
  | cons p behind =>
    obtain ⟨task, future⟩ := p
    rw [hdrop] at hsplit
    have hperm : q.inFlight.Perm ((task, future) :: (behind ++ q.inFlight.take place)) := by
      conv_lhs => rw [← hsplit]
      exact List.perm_middle.trans (List.perm_append_comm.cons _)
    have htold := told_fold acc task future.result
      (q := ⟨q.queued, behind ++ q.inFlight.take place, clocks, q.completed + 1⟩) s h.timely h.quiet
      h.queued ((hperm.symm.map _).append_left _ |>.trans h.delivered) (.inr hqueued)
    simpa only [reified, Future.reified, List.map_append, List.map_cons] using htold

theorem told_next (s : σ) (schedule : Schedule) (h : Accounted seeds q log) :
    Told seeds (next acc schedule q s) (next acc.journaled schedule q.reified (s, log)) := by
  unfold Queue.next
  have hreified : q.reified.queued = q.queued := rfl
  rw [hreified]
  cases hqueued : q.queued with
  | cons task rest => exact told_launch acc s h hqueued
  | nil => exact told_complete acc s schedule h hqueued

theorem drainWithin_told (schedule : Schedule) (budget : Nat) (q : Queue τ ρ ε) (s : σ)
    (h : Accounted seeds q log) :
    ∃ log', drainWithin acc.journaled schedule budget q.reified (s, log) =
        ((drainWithin acc schedule budget q s).1, (drainWithin acc schedule budget q s).2, log') ∧
      Ended seeds (drainWithin acc schedule budget q s).1 log' := by
  induction budget generalizing q s log with
  | zero => exact ⟨log, rfl, h.spent⟩
  | succ budget ih =>
    have htold := told_next acc s schedule h
    rw [drainWithin, drainWithin]
    cases hnext : next acc schedule q s with
    | go q' s' =>
      rw [hnext] at htold
      obtain ⟨log', hnoted, h'⟩ := htold
      rw [hnoted]
      exact ih q' s' h'
    | stop result s' =>
      rw [hnext] at htold
      obtain ⟨log', hnoted, h'⟩ := htold
      rw [hnoted]
      exact ⟨log', rfl, h'⟩

theorem queued_pushed (seeds pushed : List τ) :
    pushed.foldl push (ofList seeds : Queue τ ρ ε) = ofList (seeds ++ pushed) := by
  induction pushed generalizing seeds with
  | nil => rw [List.append_nil]; rfl
  | cons task pushed ih => rw [List.append_cons]; exact ih (seeds ++ [task])

theorem accounted_ofList (seeds : List τ) :
    Accounted seeds (ofList seeds : Queue τ ρ ε) [] where
  timely := fun before ev hprefix => by simp at hprefix
  quiet := nofun
  queued := by simp [ran, followUps, ofList]
  delivered := .refl _

/-- A drain with notes comes to the same, and every noted event was due. When it
succeeds, the tasks that ran are those that were queued, pushed or asked for, in
this order, and each was accumulated once, with what it was to deliver. It fails
with the error of the last event, and no event before is an error. -/
theorem drain_accounts (acc : Accumulator σ τ ρ ε) (pace : Pace) (seeds pushed : List τ) (s : σ) :
    let drained := drain acc pace (pushed.foldl push (ofList seeds)) s
    ∃ log, drain acc.journaled pace (pushed.foldl push (ofList seeds)) (s, []) =
        (drained.1, drained.2, log) ∧
      Timely (seeds ++ pushed) log ∧
      (drained.1 = some (.ok ()) → Quiet log ∧ ran log = seeds ++ pushed ++ followUps log ∧
        ((accumulated log).map fun (task, r) => (task, .ok r)).Perm (deliveries log) ∧
        ((accumulated log).map (·.1)).Perm (ran log)) ∧
      ∀ e, drained.1 = some (.error e) ↔ ∃ before ev, log = before ++ [ev] ∧ ev.error? = some e := by
  dsimp only
  rw [queued_pushed, queued_pushed]
  obtain ⟨log, hnoted, hended⟩ :=
    drainWithin_told acc pace.schedule pace.budget _ s (accounted_ofList _)
  refine ⟨log, hnoted, hended.timely, fun hok => ?_, hended.failure⟩
  obtain ⟨hquiet, hran, hperm⟩ := hended.success hok
  rw [hended.timely.settlements_eq hquiet] at hperm
  refine ⟨hquiet, hran, hperm, ?_⟩
  rw [← map_fst_deliveries]
  simpa [Function.comp_def] using hperm.map Prod.fst

/-- Every task asks for the two numbers below it, and odd ones stay in flight. From
five on there are fifteen of them. Where the task of three fails, the drain ends. -/
theorem drain_accounts_countdown :
    let countdown (bad : Nat) : Accumulator Unit Nat Nat String :=
      { start := fun n s => (if n % 2 = 1
          then .pending ⟨if n = bad then .error "failed" else .ok n, n, 1⟩ else .ready (.ok n), s)
        accumulate := fun _ n s => (.ok (if 2 ≤ n then [n - 1, n - 2] else []), s) }
    (∃ log, drain (countdown 7).journaled ⟨.polling, 100⟩ (ofList [5]) ((), []) =
        (some (.ok ()), (), log) ∧ (ran log).length = 15 ∧
        ((accumulated log).map (·.1)).Perm (ran log)) ∧
      ∃ log, drain (countdown 3).journaled ⟨.polling, 100⟩ (ofList [5]) ((), []) =
        (some (.error "failed"), (), log) ∧
        ∃ before ev, log = before ++ [ev] ∧ ev.error? = some "failed" := by
  intro countdown
  have hok : (drain (countdown 7) ⟨.polling, 100⟩ (ofList [5]) ()).1 = some (.ok ()) := by
    decide +kernel
  have herror : (drain (countdown 3) ⟨.polling, 100⟩ (ofList [5]) ()).1 =
      some (.error "failed") := by
    decide +kernel
  obtain ⟨log, hnoted, -, hsuccess, -⟩ := drain_accounts (countdown 7) ⟨.polling, 100⟩ [5] [] ()
  obtain ⟨log', hnoted', -, -, hfailure⟩ := drain_accounts (countdown 3) ⟨.polling, 100⟩ [5] [] ()
  have hlog : (ran (drain (countdown 7).journaled ⟨.polling, 100⟩ (ofList [5]) ((), [])).2.2).length =
      15 := by
    decide +kernel
  rw [List.foldl_nil, List.foldl_nil] at hnoted hnoted'
  rw [List.foldl_nil] at hsuccess hfailure
  rw [hnoted] at hlog
  exact ⟨⟨log, hnoted.trans (by rw [hok]), hlog, (hsuccess hok).2.2.2⟩,
    log', hnoted'.trans (by rw [herror]), (hfailure "failed").mp herror⟩

-- ---------------------------------------------------------------------------
-- How many tasks run
-- ---------------------------------------------------------------------------

theorem ran_fold (q : Queue τ (Except ε ρ) ε) (task : τ) (result : Except ε (Except ε ρ))
    (s : σ × List (Event τ ρ ε)) :
    ran (fold acc.journaled q task result s).state.2 = ran s.2 := by
  cases result with
  | error e => rfl
  | ok result =>
    rw [← ran_settled s.2 task result (settle acc task result s.1).1]
    unfold Queue.fold
    dsimp only [Accumulator.journaled]
    obtain ⟨e | next, s'⟩ := settle acc task result s.1 <;> rfl

theorem length_ran_next (schedule : Schedule) (q : Queue τ (Except ε ρ) ε)
    (s : σ × List (Event τ ρ ε)) :
    (ran (next acc.journaled schedule q s).state.2).length ≤ (ran s.2).length + 1 := by
  unfold Queue.next
  split
  · rename_i task rest _
    have hran : ran (launch acc.journaled { q with queued := rest } task s).state.2 =
        ran (acc.journaled.start task s).2.2 := by
      unfold Queue.launch
      cases acc.journaled.start task s with
      | mk answer s' =>
        cases answer with
        | ready result => exact ran_fold acc _ task result s'
        | pending future => rfl
    rw [hran]
    simp [Accumulator.journaled]
  · rcases complete_cases acc.journaled schedule q s with ⟨_, heq⟩ | ⟨q', task, future, heq, _⟩
    · rw [heq]
      exact Nat.le_succ _
    · rw [heq, ran_fold]
      exact Nat.le_succ _

theorem length_ran_drainWithin (schedule : Schedule) (budget : Nat) (q : Queue τ (Except ε ρ) ε)
    (s : σ × List (Event τ ρ ε)) :
    (ran (drainWithin acc.journaled schedule budget q s).2.2).length ≤ (ran s.2).length + budget := by
  induction budget generalizing q s with
  | zero => exact Nat.le_refl _
  | succ budget ih =>
    have hnext := length_ran_next acc schedule q s
    rw [drainWithin]
    cases hmove : next acc.journaled schedule q s with
    | go q' s' =>
      rw [hmove] at hnext
      have hrest := ih q' s'
      simp only [Progress.state] at hnext
      dsimp only
      omega
    | stop result s' =>
      rw [hmove] at hnext
      simp only [Progress.state] at hnext
      dsimp only
      omega

/-- A drain that comes to its end within some moves runs no more tasks than that,
however many moves it may make. -/
theorem length_ran_drain (pace : Pace) (seeds : List τ) (s : σ) {bound : Nat}
    (hends : ∃ result s', drainWithin acc pace.schedule bound (ofList seeds) s = (some result, s')) :
    (ran (drain acc.journaled pace (ofList seeds) (s, [])).2.2).length ≤ bound := by
  have hran := fun budget =>
    length_ran_drainWithin acc pace.schedule budget (ofList seeds) (s, [])
  simp only [ran, List.filterMap_nil, List.length_nil, Nat.zero_add] at hran ⊢
  rcases Nat.le_total pace.budget bound with hle | hle
  · exact Nat.le_trans (hran pace.budget) hle
  · obtain ⟨result, s', hdrain⟩ := hends
    obtain ⟨log, hnoted, -⟩ :=
      drainWithin_told acc pace.schedule bound _ s (accounted_ofList seeds)
    rw [hdrain] at hnoted
    have hsame : drain acc.journaled pace (ofList seeds) (s, []) = _ := drainWithin_mono hle hnoted
    have hbound := hran bound
    rw [hsame]
    rwa [show drainWithin acc.journaled pace.schedule bound (ofList seeds) (s, []) = _ from hnoted]
      at hbound

end Queue

end BundleGraph
