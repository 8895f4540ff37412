import Stepcast.Bytes

/-!
# Outgoing messages

Finished messages wait in a bounded queue until they are delivered, and the delivery is counted.
-/

namespace Stepcast

/-- A finished message that waits for delivery. -/
inductive Outgoing where
  /-- The steps from `first` to `last`. -/
  | data (bytes : Bytes) (first last : UInt64)
  /-- The end of the stream. -/
  | finish (bytes : Bytes) (final : Option UInt64)
deriving DecidableEq

namespace Outgoing

def bytes : Outgoing → Bytes
  | data bytes _ _ => bytes
  | finish bytes _ => bytes

def isEnd : Outgoing → Bool
  | data .. => false
  | finish .. => true

/-- The number of steps in the message. -/
def stepCount : Outgoing → UInt64
  | data _ first last => last - first + 1
  | finish .. => 0

end Outgoing

/-! ## The queue -/

/-- A queue of messages with room for `capacity` of them. -/
structure Outbox where
  capacity : Nat
  messages : List Outgoing := []

namespace Outbox

/-- A queue with room for `depth` messages, and for one at least. -/
def ofDepth (depth : Nat) : Outbox := { capacity := max depth 1 }

/-- Appends a message if there is room for it. -/
def trySend (q : Outbox) (m : Outgoing) : Bool × Outbox :=
  if q.messages.length < q.capacity then (true, { q with messages := q.messages ++ [m] })
  else (false, q)

/-- Takes the oldest message. -/
def tryReceive (q : Outbox) : Option Outgoing × Outbox :=
  match q.messages with
  | [] => (none, q)
  | m :: rest => (some m, { q with messages := rest })

end Outbox

/-! ## Counting -/

/-- What has become of the messages of a writer. The counters have 64 bits and start over at zero
when they run out. -/
structure Tally where
  /-- The messages that were delivered. -/
  released : UInt64 := 0
  sentSteps : UInt64 := 0
  bytes : UInt64 := 0
  /-- The messages that nobody accepted. -/
  dropped : UInt64 := 0
deriving Repr, DecidableEq

namespace Tally

def release (t : Tally) (bytes steps : UInt64) : Tally :=
  { t with
    released := t.released + 1
    sentSteps := t.sentSteps + steps
    bytes := t.bytes + bytes }

def drop (t : Tally) : Tally := { t with dropped := t.dropped + 1 }

end Tally

end Stepcast
