/-!
# Broadcast channels

Every subscriber reads all values sent after it subscribed, in order. The
channel retains the last `capacity` values; a subscriber that fell further
behind is told once how many it missed and goes on with the oldest retained
one. A value sent to nobody is not kept.
-/

namespace BundleGraph

structure Channel (α : Type u) where
  capacity : Nat
  sent : Array α := #[]
  subscribers : Nat := 0
  closed : Bool := false

/-- The number of the value a subscriber reads next. -/
structure Subscription where
  next : Nat
  deriving DecidableEq, Repr

inductive Received (α : Type u) where
  | value (a : α)
  | lagged (missed : Nat)
  | empty
  | closed

namespace Channel

/-- A channel whose capacity is the next power of two, at least one. -/
def withCapacity (capacity : Nat) : Channel α := { capacity := (max capacity 1).nextPowerOfTwo }

def subscribe (c : Channel α) : Subscription × Channel α :=
  (⟨c.sent.size⟩, { c with subscribers := c.subscribers + 1 })

def unsubscribe (c : Channel α) : Channel α := { c with subscribers := c.subscribers - 1 }

/-- Sends a value; the count is that of the subscribers it reaches. -/
def send (c : Channel α) (a : α) : Nat × Channel α :=
  if c.subscribers = 0 then (0, c) else (c.subscribers, { c with sent := c.sent.push a })

def sendBatch (c : Channel (List α)) (batch : List α) : Nat × Channel (List α) :=
  if batch.isEmpty then (0, c) else c.send batch

def close (c : Channel α) : Channel α := { c with closed := true }

def receive (c : Channel α) (s : Subscription) : Received α × Subscription :=
  let oldest := c.sent.size - c.capacity
  if s.next < oldest then (.lagged (oldest - s.next), ⟨oldest⟩)
  else
    match c.sent[s.next]? with
    | some a => (.value a, ⟨s.next + 1⟩)
    | none => (if c.closed then .closed else .empty, s)

end Channel

end BundleGraph
