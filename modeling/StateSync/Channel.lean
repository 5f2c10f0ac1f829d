/-!
Broadcast channels. Every receiver reads the events sent after it subscribed, in order; of a long
backlog only the last `capacity` events are kept for it. A channel is the log of what was sent, and
what is announced is stated of that log alone, whoever listens and however late.
-/

namespace StateSync

/-- A channel, with all the events sent through it so far. -/
structure Channel (α : Type) where
  capacity : Nat
  sent : Array α := #[]
  isOpen : Bool := true
deriving DecidableEq

/-- A receiver, by the number of events it has read or skipped or that came before it. -/
structure Receiver where
  next : Nat
deriving DecidableEq

/-- What a receiver gets from one attempt. -/
inductive Received (α : Type)
  | event (value : α)
  | lagged (skipped : Nat)
  | empty
  | closed
deriving DecidableEq

namespace Channel

variable {α : Type}

def send (c : Channel α) (value : α) : Channel α := { c with sent := c.sent.push value }

/-- No event will follow. -/
def close (c : Channel α) : Channel α := { c with isOpen := false }

/-- A channel that nothing is ever sent through. -/
def silent : Channel α := { capacity := 1, isOpen := false }

/-- A receiver of the events to come. -/
def subscribe (c : Channel α) : Receiver := ⟨c.sent.size⟩

/-- A receiver too far behind first learns how many events it lost. -/
def receive (c : Channel α) (r : Receiver) : Received α × Receiver :=
  if r.next + c.capacity < c.sent.size then
    (.lagged (c.sent.size - c.capacity - r.next), ⟨c.sent.size - c.capacity⟩)
  else match c.sent[r.next]? with
    | some value => (.event value, ⟨r.next + 1⟩)
    | none => (if c.isOpen then .empty else .closed, r)

end Channel

end StateSync
