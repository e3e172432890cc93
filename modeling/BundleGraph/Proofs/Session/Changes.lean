import BundleGraph.DeltaSession
import BundleGraph.Proofs.ChangeHistory
import BundleGraph.Proofs.Graph.Traverse
import Mathlib.Logic.Function.Iterate

/-!
# No change is lost

What a session knows of the changes that were sent since its last successful
delta, at any point of any run: either all of them, or that some are missing,
and then its next delta builds anew. Batches are numbered in the order they are
sent, so the changes that a session still has to account for are those between
two numbers. A delta that fails moves neither number.
-/

namespace BundleGraph

/-- The events of the batches numbered from `i` up to `j`. -/
def Channel.eventsBetween (channel : ChangeChannel) (i j : Nat) : List ChangeEvent :=
  ((channel.sent.toList.take j).drop i).flatten

namespace DeltaSession

/-- A session and the channel it listens to. -/
abbrev Linked := DeltaSession × ChangeChannel

namespace Linked

/-- The number of batches that the session has received or learnt it has lost. -/
def received (x : Linked) : Nat :=
  match x.1.subscription with
  | some subscription => subscription.next
  | none => x.2.sent.size

/-- One turn of the loop that drains the channel. -/
def receive (x : Linked) : Linked :=
  match x.1.subscription with
  | none => x
  | some subscription =>
    match x.2.receive subscription with
    | (.value batch, subscription) =>
      ({ x.1 with
          changes := x.1.changes.recordAll batch
          subscription := some subscription }, x.2)
    | (.lagged _, subscription) =>
      ({ x.1 with
          changes := { x.1.changes with overflowed := true }
          subscription := some subscription }, x.2)
    | (.empty, _) => x
    | (.closed, _) => ({ x.1 with subscription := none }, x.2.unsubscribe)

end Linked

/-- What happens to a session and its channel besides deltas. The session is
asked for its pending changes, or gets on with receiving them while others send. -/
inductive Notice where
  | emit (batch : List ChangeEvent)
  | receive
  | pending
  | close
  /-- Other subscribers come and go; so many are left. -/
  | others (count : Nat)

/-- Nothing is sent once the channel is closed. -/
def Notice.apply (x : Linked) : Notice → Linked
  | emit batch => (x.1, if x.2.closed then x.2 else (x.2.sendBatch batch).2)
  | receive => x.receive
  | pending => x.1.drain x.2
  | close => (x.1, x.2.close)
  | others count =>
    (x.1, { x.2 with subscribers := count + if x.1.subscription.isSome then 1 else 0 })

namespace Linked

def afterAll (x : Linked) (notices : List Notice) : Linked := notices.foldl Notice.apply x

/-- A delta in the course of which other things happen: what it comes to, how
many batches it has accounted for, and what it leaves. -/
structure Answer where
  outcome : Except BuildError (Delta × Graph)
  position : Nat
  after : Linked

def delta {σ : Type} (ctx : Traversal.Context σ) (reset : Bool) (host : σ) (during : List Notice)
    (x : Linked) : Answer :=
  let (taken, begun, channel) := x.1.take x.2
  let outcome := ((begun.plan reset taken).attempt ctx begun.graph host).outcome
  let later := afterAll (begun, channel) during
  { outcome
    position := received (begun, channel)
    after := ((later.1.settle taken outcome).2, later.2) }

/-- The batches accounted for after a delta: none more when it failed. -/
def Answer.consumed (before : Nat) (a : Answer) : Nat :=
  match a.outcome with
  | .ok _ => a.position
  | .error _ => before

end Linked

/-- A run of a session that is not ended, with the number of batches that its
latest successful delta had accounted for. -/
inductive Watched (entries : List String) (options : Transform.Options) : Nat → Linked → Prop
  | start (channel : ChangeChannel) (hopen : channel.closed = false) :
      Watched entries options channel.sent.size (start entries options channel)
  | notice {consumed x} (h : Watched entries options consumed x) (n : Notice) :
      Watched entries options consumed (n.apply x)
  | delta {consumed x} (h : Watched entries options consumed x) {σ : Type}
      (ctx : Traversal.Context σ) (reset : Bool) (host : σ) (during : List Notice) :
      Watched entries options ((x.delta ctx reset host during).consumed consumed)
        (x.delta ctx reset host during).after

namespace Linked

variable {x y : Linked} {consumed : Nat}

-- ---------------------------------------------------------------------------
-- Batches by number
-- ---------------------------------------------------------------------------

section Batches

variable {channel : ChangeChannel} {i j k : Nat} {batch : List ChangeEvent}

theorem eventsBetween_self : channel.eventsBetween i i = [] := by
  simp [Channel.eventsBetween]

theorem eventsBetween_append (hij : i ≤ j) (hjk : j ≤ k) :
    channel.eventsBetween i k = channel.eventsBetween i j ++ channel.eventsBetween j k := by
  unfold Channel.eventsBetween
  rw [← List.flatten_append]
  congr 1
  obtain ⟨d, rfl⟩ := Nat.exists_eq_add_of_le hij
  obtain ⟨e, rfl⟩ := Nat.exists_eq_add_of_le hjk
  simp only [List.drop_take]
  rw [show i + d + e - i = d + e by omega, show i + d - i = d by omega,
    show i + d + e - (i + d) = e by omega, List.take_add, List.drop_drop]

theorem eventsBetween_succ (hij : i ≤ j) (h : channel.sent[j]? = some batch) :
    channel.eventsBetween i (j + 1) = channel.eventsBetween i j ++ batch := by
  rw [eventsBetween_append hij (Nat.le_succ j)]
  have hone : channel.eventsBetween j (j + 1) = batch := by
    obtain ⟨hlt, _⟩ := Array.getElem?_eq_some_iff.mp h
    have htake : (channel.sent.toList.take j).length = j := by simp; omega
    rw [Channel.eventsBetween, List.take_add_one, Array.getElem?_toList, h,
      List.drop_append_of_le_length (Nat.le_of_eq htake.symm),
      List.drop_of_length_le (Nat.le_of_eq htake)]
    simp
  rw [hone]

theorem eventsBetween_eq_prior {channel' : ChangeChannel}
    (h : channel.sent.toList <+: channel'.sent.toList) (hj : j ≤ channel.sent.size) :
    channel'.eventsBetween i j = channel.eventsBetween i j := by
  obtain ⟨rest, hrest⟩ := h
  unfold Channel.eventsBetween
  rw [← hrest, List.take_append_of_le_length (by simpa using hj)]

end Batches

-- ---------------------------------------------------------------------------
-- Receiving
-- ---------------------------------------------------------------------------

theorem receive_of_unsubscribed (h : x.1.subscription = none) : x.receive = x := by
  simp [receive, h]

theorem subscribed_eta {subscription : Subscription} (h : x.1.subscription = some subscription) :
    ({ x.1 with subscription := some subscription }, x.2) = x := by
  rw [← h]

theorem receive_of_empty {channel : ChangeChannel} {subscription subscription' : Subscription}
    (h : channel.receive subscription = (.empty, subscription')) : subscription' = subscription := by
  unfold Channel.receive at h
  grind

/-- What one turn of the loop does for a subscriber that is not ahead: nothing,
when nothing is left, or it takes a batch, learns of a loss, or ends. -/
theorem receive_cases {subscription : Subscription} (h : x.1.subscription = some subscription)
    (hle : subscription.next ≤ x.2.sent.size) :
    (subscription.next = x.2.sent.size ∧ x.receive = x) ∨
      (∃ batch, x.2.sent[subscription.next]? = some batch ∧
        x.2.sent.size - x.2.capacity ≤ subscription.next ∧
        x.receive = ({ x.1 with
          changes := x.1.changes.recordAll batch
          subscription := some ⟨subscription.next + 1⟩ }, x.2)) ∨
      (subscription.next + x.2.capacity < x.2.sent.size ∧
        x.receive = ({ x.1 with
          changes := { x.1.changes with overflowed := true }
          subscription := some ⟨x.2.sent.size - x.2.capacity⟩ }, x.2)) ∨
      (subscription.next = x.2.sent.size ∧ x.2.closed = true ∧
        x.receive = ({ x.1 with subscription := none }, x.2.unsubscribe)) := by
  unfold receive Channel.receive
  simp only [h]
  by_cases hlag : subscription.next < x.2.sent.size - x.2.capacity
  · simp only [if_pos hlag]
    exact .inr (.inr (.inl ⟨by omega, trivial⟩))
  · simp only [if_neg hlag]
    cases hnext : x.2.sent[subscription.next]? with
    | some batch => exact .inr (.inl ⟨batch, rfl, Nat.not_lt.mp hlag, rfl⟩)
    | none =>
      have hend : subscription.next = x.2.sent.size :=
        Nat.le_antisymm hle (Array.getElem?_eq_none_iff.mp hnext)
      cases hclosed : x.2.closed with
      | false => exact .inl ⟨hend, by simp⟩
      | true => exact .inr (.inr (.inr ⟨hend, rfl, by simp⟩))

/-- What draining leaves, from what it finds in the channel. -/
def drained (x : Linked) (found : Option Subscription × ChangeSets) : Linked :=
  ({ x.1 with changes := found.2, subscription := found.1 },
    if found.1.isSome then x.2 else x.2.unsubscribe)

theorem drain_eq_drained {subscription : Subscription} (h : x.1.subscription = some subscription) :
    x.1.drain x.2 =
      x.drained (drainFrom x.2 (x.2.sent.size + 2) subscription x.1.changes) := by
  simp only [drain, h, drained]
  rcases drainFrom x.2 (x.2.sent.size + 2) subscription x.1.changes with ⟨_ | _, _⟩ <;> rfl

theorem iterate_receive (fuel : Nat) {subscription : Subscription}
    (h : x.1.subscription = some subscription) :
    receive^[fuel] x = x.drained (drainFrom x.2 fuel subscription x.1.changes) := by
  induction fuel generalizing x subscription with
  | zero => exact (subscribed_eta h).symm
  | succ fuel ih =>
    rw [Function.iterate_succ_apply, drainFrom]
    rcases hreceive : x.2.receive subscription with ⟨batch | _ | _ | _, subscription'⟩
    · have hstep : x.receive = ({ x.1 with
          changes := x.1.changes.recordAll batch
          subscription := some subscription' }, x.2) := by simp only [receive, h, hreceive]
      rw [hstep, ih rfl]
      rfl
    · have hstep : x.receive = ({ x.1 with
          changes := { x.1.changes with overflowed := true }
          subscription := some subscription' }, x.2) := by simp only [receive, h, hreceive]
      rw [hstep, ih rfl]
      rfl
    · have hstep : x.receive = x := by simp only [receive, h, hreceive]
      obtain rfl := receive_of_empty hreceive
      rw [hstep, Function.iterate_fixed hstep]
      exact (subscribed_eta h).symm
    · have hstep : x.receive = ({ x.1 with subscription := none }, x.2.unsubscribe) := by
        simp only [receive, h, hreceive]
      rw [hstep, Function.iterate_fixed (receive_of_unsubscribed rfl)]
      rfl

theorem drain_eq_iterate (x : Linked) :
    x.1.drain x.2 = receive^[x.2.sent.size + 2] x := by
  cases hs : x.1.subscription with
  | none =>
    rw [Function.iterate_fixed (receive_of_unsubscribed hs)]
    simp [drain, hs]
  | some subscription => rw [drain_eq_drained hs, iterate_receive _ hs]

theorem received_of_subscribed {subscription : Subscription}
    (h : x.1.subscription = some subscription) : x.received = subscription.next := by
  simp [received, h]

theorem received_of_unsubscribed (h : x.1.subscription = none) : x.received = x.2.sent.size := by
  simp [received, h]

theorem received_drain (x : Linked) (hle : x.received ≤ x.2.sent.size) :
    received (x.1.drain x.2) = x.2.sent.size := by
  suffices h : ∀ (fuel : Nat) (x : Linked), x.received ≤ x.2.sent.size →
      x.2.sent.size ≤ x.received + fuel → received (receive^[fuel] x) = x.2.sent.size by
    rw [drain_eq_iterate]
    exact h _ x hle (by omega)
  intro fuel
  induction fuel with
  | zero => exact fun x hle hfuel => Nat.le_antisymm hle hfuel
  | succ fuel ih =>
    intro x hle hfuel
    cases hs : x.1.subscription with
    | none =>
      rw [Function.iterate_fixed (receive_of_unsubscribed hs), received_of_unsubscribed hs]
    | some subscription =>
      rw [received_of_subscribed hs] at hle hfuel
      rw [Function.iterate_succ_apply]
      obtain ⟨hend, hstep⟩ | ⟨batch, hbatch, -, hstep⟩ | ⟨hlag, hstep⟩ | ⟨hend, -, hstep⟩ :=
        receive_cases hs hle
      · rw [hstep, Function.iterate_fixed hstep, received_of_subscribed hs, hend]
      · obtain ⟨hlt, -⟩ := Array.getElem?_eq_some_iff.mp hbatch
        rw [hstep]
        exact ih _ hlt (by simp only [received]; omega)
      · rw [hstep]
        exact ih _ (Nat.sub_le _ _) (by simp only [received]; omega)
      · rw [hstep, Function.iterate_fixed (receive_of_unsubscribed rfl)]
        rfl

-- ---------------------------------------------------------------------------
-- What a session knows of the changes
-- ---------------------------------------------------------------------------

/-- The session knows all changes of the batches from `consumed` up to those it
has received, or it knows that some of them are gone from the channel. -/
structure Informed (consumed : Nat) (x : Linked) : Prop where
  listening : x.1.ended = false
  consumed_le : consumed ≤ x.received
  received_le : x.received ≤ x.2.sent.size
  subscribed : x.1.subscription.isSome → 0 < x.2.subscribers
  unsubscribed : x.1.subscription = none → x.2.closed = true
  missed : x.1.changes.overflowed = true → consumed + x.2.capacity < x.2.sent.size
  reflects : ∃ events, x.1.changes.Reflects events ∧
    (x.1.changes.overflowed = false → events = x.2.eventsBetween consumed x.received)

theorem Informed.receive (h : x.Informed consumed) : x.receive.Informed consumed := by
  cases hs : x.1.subscription with
  | none => rwa [receive_of_unsubscribed hs]
  | some subscription =>
    have hreceived := received_of_subscribed hs
    have hconsumed := h.consumed_le
    have hle := h.received_le
    have hsubscribers := h.subscribed (by simp [hs])
    obtain ⟨events, hreflects, hevents⟩ := h.reflects
    rw [hreceived] at hconsumed hle hevents
    obtain ⟨-, hstep⟩ | ⟨batch, hbatch, -, hstep⟩ | ⟨hlag, hstep⟩ | ⟨hend, hclosed, hstep⟩ :=
      receive_cases hs hle
    · rwa [hstep]
    · obtain ⟨hlt, -⟩ := Array.getElem?_eq_some_iff.mp hbatch
      rw [hstep]
      refine ⟨h.listening, Nat.le_succ_of_le hconsumed, hlt, fun _ => hsubscribers, nofun, ?_, ?_⟩
      · exact fun hover => h.missed (by simpa using hover)
      · refine ⟨_, hreflects.recordAll batch, fun hover => ?_⟩
        rw [hevents (by simpa using hover), ← eventsBetween_succ hconsumed hbatch]
        rfl
    · rw [hstep]
      refine ⟨h.listening, Nat.le_sub_of_add_le ?_, Nat.sub_le _ _, fun _ => hsubscribers, nofun,
        fun _ => ?_, events, ⟨hreflects.deleted, hreflects.changed⟩, nofun⟩
      · omega
      · show consumed + x.2.capacity < x.2.sent.size
        omega
    · rw [hstep]
      refine ⟨h.listening, Nat.le_trans hconsumed hle, Nat.le_refl _, nofun, fun _ => hclosed, h.missed,
        events, hreflects, fun hover => ?_⟩
      rw [hevents hover, hend]
      rfl

theorem Informed.drain (h : x.Informed consumed) : Informed consumed (x.1.drain x.2) := by
  rw [drain_eq_iterate]
  generalize x.2.sent.size + 2 = turns
  induction turns generalizing x with
  | zero => exact h
  | succ turns ih =>
    rw [Function.iterate_succ_apply]
    exact ih h.receive

theorem emit_eq_or (x : Linked) (batch : List ChangeEvent) :
    Notice.apply x (.emit batch) = x ∨ x.2.closed = false ∧
      Notice.apply x (.emit batch) = (x.1, { x.2 with sent := x.2.sent.push batch }) := by
  unfold Notice.apply Channel.sendBatch Channel.send
  cases hclosed : x.2.closed with
  | true => exact .inl (by simp)
  | false =>
    by_cases hempty : batch.isEmpty
    · exact .inl (by simp [hempty])
    · by_cases hnobody : x.2.subscribers = 0
      · exact .inl (by simp [hnobody])
      · exact .inr ⟨rfl, by simp [hclosed, hempty, hnobody]⟩

theorem Informed.sent_emit (h : x.Informed consumed) (hopen : x.2.closed = false)
    {batch : List ChangeEvent} (hbatch : batch ≠ []) :
    (Notice.apply x (.emit batch)).2.sent = x.2.sent.push batch := by
  have hsubscribers : x.2.subscribers ≠ 0 := by
    cases hs : x.1.subscription with
    | none => simp [h.unsubscribed hs] at hopen
    | some subscription => exact Nat.ne_of_gt (h.subscribed (by simp [hs]))
  simp [Notice.apply, Channel.sendBatch, Channel.send, hopen, hbatch, hsubscribers]

theorem Informed.emit (h : x.Informed consumed) (batch : List ChangeEvent) :
    Informed consumed (Notice.apply x (.emit batch)) := by
  obtain heq | ⟨hopen, heq⟩ := emit_eq_or x batch
  · rwa [heq]
  rw [heq]
  cases hs : x.1.subscription with
  | none => simp [h.unsubscribed hs] at hopen
  | some subscription =>
    have hreceived : received (x.1, { x.2 with sent := x.2.sent.push batch }) = x.received := by
      simp [received, hs]
    have hsize : (x.2.sent.push batch).size = x.2.sent.size + 1 := Array.size_push batch
    obtain ⟨events, hreflects, hevents⟩ := h.reflects
    refine ⟨h.listening, hreceived ▸ h.consumed_le, ?_, h.subscribed, h.unsubscribed,
      fun hover => ?_, events, hreflects, fun hover => ?_⟩
    · have := h.received_le
      simp only [hreceived, hsize]
      omega
    · have := h.missed hover
      simp only [hsize]
      omega
    · rw [hevents hover, hreceived]
      exact (eventsBetween_eq_prior (by simp) h.received_le).symm

theorem Informed.notice (h : x.Informed consumed) (n : Notice) :
    Informed consumed (Notice.apply x n) := by
  cases n with
  | emit batch => exact h.emit batch
  | receive => exact h.receive
  | pending => exact h.drain
  | close => exact ⟨h.listening, h.consumed_le, h.received_le, h.subscribed, fun _ => rfl, h.missed,
      h.reflects⟩
  | others count =>
    refine ⟨h.listening, h.consumed_le, h.received_le, fun hs => ?_, h.unsubscribed, h.missed,
      h.reflects⟩
    have hs : x.1.subscription.isSome = true := hs
    simp [Notice.apply, hs]

theorem Informed.afterAll (h : x.Informed consumed) (notices : List Notice) :
    Informed consumed (x.afterAll notices) := by
  induction notices generalizing x with
  | nil => exact h
  | cons n notices ih => exact ih (h.notice n)

-- ---------------------------------------------------------------------------
-- What notices leave alone
-- ---------------------------------------------------------------------------

/-- Notices add to the channel, and never take back that batches were lost. -/
structure Continues (x y : Linked) : Prop where
  sent : x.2.sent.toList <+: y.2.sent.toList
  capacity : y.2.capacity = x.2.capacity
  overflowed : x.1.changes.overflowed = true → y.1.changes.overflowed = true
  graph : y.1.graph = x.1.graph
  built : y.1.built = x.1.built

theorem Continues.refl (x : Linked) : x.Continues x :=
  ⟨List.prefix_rfl, rfl, id, rfl, rfl⟩

theorem Continues.trans {z : Linked} (h : x.Continues y) (h' : y.Continues z) : x.Continues z :=
  ⟨h.sent.trans h'.sent, h'.capacity.trans h.capacity, h'.overflowed ∘ h.overflowed,
    h'.graph.trans h.graph, h'.built.trans h.built⟩

theorem continues_receive (x : Linked) : x.Continues x.receive := by
  unfold receive
  split
  · exact .refl x
  · split
    · exact ⟨List.prefix_rfl, rfl, fun h => by simpa using h, rfl, rfl⟩
    · exact ⟨List.prefix_rfl, rfl, fun _ => rfl, rfl, rfl⟩
    · exact .refl x
    · exact ⟨List.prefix_rfl, rfl, id, rfl, rfl⟩

theorem continues_drain (x : Linked) : x.Continues (x.1.drain x.2) := by
  rw [drain_eq_iterate]
  generalize x.2.sent.size + 2 = turns
  induction turns with
  | zero => exact .refl x
  | succ turns ih =>
    rw [Function.iterate_succ_apply']
    exact ih.trans (continues_receive _)

theorem continues_notice (x : Linked) (n : Notice) : x.Continues (Notice.apply x n) := by
  cases n with
  | emit batch =>
    obtain heq | ⟨-, heq⟩ := emit_eq_or x batch
    · rw [heq]
      exact .refl x
    · rw [heq]
      exact ⟨by simp, rfl, id, rfl, rfl⟩
  | receive => exact continues_receive x
  | pending => exact continues_drain x
  | close | others => exact ⟨List.prefix_rfl, rfl, id, rfl, rfl⟩

theorem continues_afterAll (x : Linked) (notices : List Notice) :
    x.Continues (x.afterAll notices) := by
  induction notices generalizing x with
  | nil => exact .refl x
  | cons n notices ih => exact (continues_notice x n).trans (ih _)

-- ---------------------------------------------------------------------------
-- Deltas
-- ---------------------------------------------------------------------------

/-- What a delta leaves the session with while it runs. -/
def begun (x : Linked) : Linked :=
  ({ (x.1.drain x.2).1 with changes := {} }, (x.1.drain x.2).2)

section Delta

variable {σ : Type} {ctx : Traversal.Context σ} {reset : Bool} {host : σ} {during : List Notice}

theorem after_delta : (x.delta ctx reset host during).after =
    (((x.begun.afterAll during).1.settle (x.1.drain x.2).1.changes
      (x.delta ctx reset host during).outcome).2, (x.begun.afterAll during).2) := rfl

end Delta

theorem delta_undisturbed {σ : Type} (ctx : Traversal.Context σ) (reset : Bool) (host : σ)
    (h : x.1.ended = false) :
    (x.1.delta ctx reset x.2 host).2 = (x.delta ctx reset host []).after ∧
      (x.1.delta ctx reset x.2 host).1.outcome = (x.delta ctx reset host []).outcome := by
  unfold DeltaSession.delta
  rw [h]
  exact ⟨rfl, rfl⟩

theorem Informed.begun (h : x.Informed consumed) : Informed (received x.begun) x.begun := by
  have hdrain := h.drain
  exact ⟨hdrain.listening, Nat.le_refl _, hdrain.received_le, hdrain.subscribed,
    hdrain.unsubscribed, nofun, [], ChangeSets.reflects_empty false,
    fun _ => eventsBetween_self.symm⟩

theorem continues_begun (x : Linked) (during : List Notice) :
    (x.1.drain x.2).2.sent.toList <+: (x.begun.afterAll during).2.sent.toList ∧
      (x.begun.afterAll during).2.capacity = x.2.capacity ∧
      (x.begun.afterAll during).1.graph = x.1.graph ∧
      (x.begun.afterAll during).1.built = x.1.built := by
  have hdrain := continues_drain x
  have hafter := continues_afterAll x.begun during
  exact ⟨hafter.sent, hafter.capacity.trans hdrain.capacity, hafter.graph.trans hdrain.graph,
    hafter.built.trans hdrain.built⟩

theorem Informed.putBack (h : x.Informed consumed) (during : List Notice) :
    Informed consumed ({ (x.begun.afterAll during).1 with
      changes := (x.begun.afterAll during).1.changes.restore (x.1.drain x.2).1.changes },
        (x.begun.afterAll during).2) := by
  have htaken := h.drain
  have hlater := h.begun.afterAll during
  obtain ⟨hsent, hcapacity, -, -⟩ := continues_begun x during
  obtain ⟨earlier, hearlier, heqearlier⟩ := htaken.reflects
  obtain ⟨later, hlate, heqlater⟩ := hlater.reflects
  have hconsumed : consumed ≤ received (x.begun) := htaken.consumed_le
  refine ⟨hlater.listening, Nat.le_trans hconsumed hlater.consumed_le, hlater.received_le,
    hlater.subscribed, hlater.unsubscribed, fun hover => ?_, earlier ++ later,
    hearlier.restore hlate, fun hover => ?_⟩
  · rw [ChangeSets.overflowed_restore, Bool.or_eq_true] at hover
    obtain hover | hover := hover
    · have hmissed := htaken.missed hover
      have hsize := hsent.length_le
      have hsame := (continues_drain x).capacity
      simp only [Array.length_toList] at hsize
      simp only
      omega
    · have hmissed := hlater.missed hover
      simp only
      omega
  · rw [ChangeSets.overflowed_restore, Bool.or_eq_false_iff] at hover
    have hstill := eventsBetween_eq_prior (i := consumed) hsent htaken.received_le
    rw [heqearlier hover.1, heqlater hover.2, ← hstill]
    exact (eventsBetween_append hconsumed hlater.consumed_le).symm

theorem Informed.delta {σ : Type} (h : x.Informed consumed) (ctx : Traversal.Context σ)
    (reset : Bool) (host : σ) (during : List Notice) :
    Informed ((x.delta ctx reset host during).consumed consumed)
      (x.delta ctx reset host during).after := by
  rw [after_delta, Answer.consumed]
  cases (x.delta ctx reset host during).outcome with
  | error e => exact h.putBack during
  | ok result =>
    have hlater := h.begun.afterAll during
    exact ⟨hlater.listening, hlater.consumed_le, hlater.received_le, hlater.subscribed,
      hlater.unsubscribed, hlater.missed, hlater.reflects⟩

-- ---------------------------------------------------------------------------
-- A failed delta against no delta
-- ---------------------------------------------------------------------------

def withChanges (x : Linked) (changes : ChangeSets) : Linked := ({ x.1 with changes }, x.2)

variable {taken changes : ChangeSets}

theorem receive_withChanges (h : ChangeSets.Extends taken changes x.1.changes) :
    ∃ changes', (x.withChanges changes).receive = x.receive.withChanges changes' ∧
      ChangeSets.Extends taken changes' x.receive.1.changes := by
  cases hs : x.1.subscription with
  | none =>
    rw [receive_of_unsubscribed hs]
    exact ⟨changes, receive_of_unsubscribed hs, h⟩
  | some subscription =>
    rcases hstep : x.2.receive subscription with ⟨batch | _ | _ | _, next⟩
    · refine ⟨changes.recordAll batch, ?_, ?_⟩
      · simp [receive, withChanges, hs, hstep]
      · simpa [receive, hs, hstep] using h.recordAll batch
    · refine ⟨{ changes with overflowed := true }, ?_, ?_⟩
      · simp [receive, withChanges, hs, hstep]
      · simpa [receive, hs, hstep] using h.overflow
    · refine ⟨changes, ?_, ?_⟩
      · simp [receive, withChanges, hs, hstep]
      · simpa [receive, hs, hstep] using h
    · refine ⟨changes, ?_, ?_⟩
      · simp [receive, withChanges, hs, hstep]
      · simpa [receive, hs, hstep] using h

theorem drain_withChanges (h : ChangeSets.Extends taken changes x.1.changes) :
    ∃ changes', (x.withChanges changes).1.drain x.2 =
        withChanges (x.1.drain x.2) changes' ∧
      ChangeSets.Extends taken changes' (x.1.drain x.2).1.changes := by
  have hdrain := drain_eq_iterate (x.withChanges changes)
  simp only [show (x.withChanges changes).2 = x.2 from rfl] at hdrain
  rw [hdrain, drain_eq_iterate]
  generalize x.2.sent.size + 2 = turns
  clear hdrain
  induction turns with
  | zero => exact ⟨changes, rfl, h⟩
  | succ turns ih =>
    obtain ⟨changes', heq, hextends⟩ := ih
    rw [Function.iterate_succ_apply', Function.iterate_succ_apply', heq]
    exact receive_withChanges hextends

theorem notice_withChanges (h : ChangeSets.Extends taken changes x.1.changes) (n : Notice) :
    ∃ changes', Notice.apply (x.withChanges changes) n =
        (Notice.apply x n).withChanges changes' ∧
      ChangeSets.Extends taken changes' (Notice.apply x n).1.changes := by
  cases n with
  | receive => exact receive_withChanges h
  | pending => exact drain_withChanges h
  | emit | close | others => exact ⟨changes, rfl, h⟩

theorem afterAll_withChanges (h : ChangeSets.Extends taken changes x.1.changes)
    (notices : List Notice) :
    ∃ changes', (x.withChanges changes).afterAll notices =
        (x.afterAll notices).withChanges changes' ∧
      ChangeSets.Extends taken changes' (x.afterAll notices).1.changes := by
  induction notices generalizing x changes with
  | nil => exact ⟨changes, rfl, h⟩
  | cons n notices ih =>
    obtain ⟨changes', heq, hextends⟩ := notice_withChanges h n
    obtain ⟨changes'', heq', hextends'⟩ := ih hextends
    rw [← heq] at heq'
    exact ⟨changes'', heq', hextends'⟩

/-- A failed delta is like asking for the pending changes. -/
theorem Informed.failed {σ : Type} {ctx : Traversal.Context σ} {reset : Bool} {host : σ}
    {during : List Notice} {e : BuildError} (h : x.Informed consumed)
    (hfail : (x.delta ctx reset host during).outcome = .error e) :
    ∃ changes, (x.delta ctx reset host during).after =
        (x.afterAll (.pending :: during)).withChanges changes ∧
      changes.Agrees (x.afterAll (.pending :: during)).1.changes := by
  obtain ⟨events, hreflects, -⟩ := h.drain.reflects
  have hstart : ChangeSets.Extends (x.1.drain x.2).1.changes (x.1.drain x.2).1.changes
    x.begun.1.changes := hreflects.extends_empty
  obtain ⟨changes, heq, hextends⟩ := afterAll_withChanges hstart during
  have hwithout : x.afterAll (.pending :: during) =
    (x.begun.afterAll during).withChanges changes := heq
  refine ⟨(x.begun.afterAll during).1.changes.restore (x.1.drain x.2).1.changes, ?_, ?_⟩
  · rw [after_delta, hfail, hwithout]
    rfl
  · rw [hwithout]
    exact hextends.restore

end Linked

open Linked (received)

variable {entries : List String} {options : Transform.Options} {consumed : Nat} {x : Linked}

theorem Watched.informed (h : Watched entries options consumed x) : x.Informed consumed := by
  induction h with
  | start channel hopen =>
    exact ⟨rfl, Nat.le_refl _, Nat.le_refl _, fun _ => Nat.succ_pos _, nofun, nofun, [],
      ChangeSets.reflects_empty false, fun _ => Linked.eventsBetween_self.symm⟩
  | notice _ n ih => exact ih.notice n
  | delta _ ctx reset host during ih => exact ih.delta ctx reset host during

theorem plan_of_overflowed {s : DeltaSession} {taken : ChangeSets} (reset : Bool)
    (h : taken.overflowed = true) : s.plan reset taken = .rebuild := by
  simp [plan, h]

/-- Whenever no delta is in flight, either batches are known to be lost, and the
next delta builds anew whatever happens until then, or the pending changes are
those of all batches since the latest successful delta that have been received;
and asking for them receives all. A failed delta leaves the graph alone, and all
the rest as if the pending changes had been asked for in its place. -/
theorem Watched.no_change_lost (h : Watched entries options consumed x) :
    (∀ batch, batch ≠ [] → x.2.closed = false →
      (Notice.apply x (.emit batch)).2.sent = x.2.sent.push batch) ∧
    (x.1.changes.overflowed = true ∧ consumed + x.2.capacity < x.2.sent.size ∧
        (∀ (notices : List Notice) (reset : Bool), let y := x.afterAll notices
          y.1.plan reset (y.1.take y.2).1 = .rebuild) ∨
      x.1.changes.overflowed = false ∧
        x.1.changes.Reflects (x.2.eventsBetween consumed x.received)) ∧
    received (x.1.drain x.2) = x.2.sent.size ∧
    ∀ {σ : Type} (ctx : Traversal.Context σ) (reset : Bool) (host : σ) (during : List Notice)
      (e : BuildError), (x.delta ctx reset host during).outcome = .error e →
      let after := (x.delta ctx reset host during).after
      let without := x.afterAll (.pending :: during)
      after.1.graph = x.1.graph ∧ after.1.built = x.1.built ∧
        after.1.subscription = without.1.subscription ∧ after.1.ended = without.1.ended ∧
        after.2 = without.2 ∧ after.1.changes.Agrees without.1.changes := by
  have hinformed := h.informed
  refine ⟨fun batch hbatch hopen => hinformed.sent_emit hopen hbatch, ?_,
    Linked.received_drain x hinformed.received_le, ?_⟩
  · cases hover : x.1.changes.overflowed with
    | true =>
      refine .inl ⟨rfl, hinformed.missed hover, fun notices reset => plan_of_overflowed reset ?_⟩
      have hnotices := (Linked.continues_afterAll x notices).overflowed hover
      exact (Linked.continues_drain _).overflowed hnotices
    | false =>
      obtain ⟨events, hreflects, hevents⟩ := hinformed.reflects
      exact .inr ⟨rfl, hevents hover ▸ hreflects⟩
  · intro σ ctx reset host during e hfail
    obtain ⟨changes, heq, hagrees⟩ := hinformed.failed hfail
    have hwithout := Linked.continues_afterAll x (.pending :: during)
    rw [heq]
    exact ⟨hwithout.graph, hwithout.built, rfl, rfl, rfl, hagrees⟩

/-- While a delta fails, `b` comes back; then more is sent than the channel holds. -/
theorem Watched.no_change_lost_failed_delta :
    ∃ (consumed : Nat) (x y : Linked), Watched ["a"] {} consumed x ∧ Watched ["a"] {} consumed y ∧
      x.1.built = true ∧ received x = 3 ∧
      x.1.changes.Reflects [.modified "a", .deleted "b", .added "b"] ∧
      y.1.changes.overflowed = true ∧ ∀ (notices : List Notice) (reset : Bool),
        let z := y.afterAll notices
        z.1.plan reset (z.1.take z.2).1 = .rebuild := by
  let channel : ChangeChannel := { capacity := 2 }
  let ctx := Traversal.Context.ofImports fun path => if path = "a" then ["b"] else []
  let broken := { ctx with loader := ⟨fun _ _ => (⟨.error (.worker "busy"), 0⟩, ())⟩ }
  have h₀ : Watched ["a"] {} 0 (DeltaSession.start ["a"] {} channel) := .start channel rfl
  have h₁ := ((h₀.delta ctx false () []).notice (.emit [.modified "a"])).notice
    (.emit [.deleted "b"])
  have h₂ := h₁.delta broken false () [.emit [.added "b"], .receive]
  have h₃ := (((h₂.notice (.emit [.modified "a"])).notice (.emit [.modified "a"])).notice
    (.emit [.modified "a"])).notice .pending
  obtain ⟨-, ⟨hover, -⟩ | ⟨-, hreflects⟩, -⟩ := h₂.no_change_lost
  · exact absurd hover (by decide +kernel)
  obtain ⟨-, ⟨hover, -, hplan⟩ | ⟨hover, -⟩, -⟩ := h₃.no_change_lost
  · refine ⟨_, _, _, h₂, h₃, by decide +kernel, by decide +kernel, ?_, hover, hplan⟩
    exact Eq.mp (congrArg (ChangeSets.Reflects _) (by decide +kernel)) hreflects
  · exact absurd hover (by decide +kernel)

end DeltaSession

end BundleGraph
