import Stepcast.Delivery.Outgoing
import Stepcast.Network.Broadcast

/-!
# Publishing the messages of a writer

In fast delivery every message is published once, to whoever has room for it, and counted as
released or dropped. A direct publication publishes in the hand of the writer; the other kind keeps
the messages in a queue and publishes them beside it.
-/

namespace Stepcast

/-- The messages of a writer on their way to the subscribers at an address. -/
structure Publication where
  address : String
  /-- Messages are published as they are handed over. -/
  direct : Bool
  outbox : Outbox
  tally : Tally := {}
  /-- Nothing more will be handed over. -/
  abandoned : Bool := false
  /-- The address was given up. -/
  finished : Bool := false

namespace Publication

/-- Publishes a message and counts it. -/
def publish (p : Publication) (b : Broadcast) (m : Outgoing) : Publication × Broadcast :=
  let (accepted, b) := b.publish p.address m.bytes
  let tally :=
    if accepted = 0 then p.tally.drop
    else p.tally.release (UInt64.ofNat m.bytes.length) m.stepCount
  ({ p with tally }, b)

/-- Hands over a message; nothing when the queue is full. -/
def handOver? (p : Publication) (b : Broadcast) (m : Outgoing) : Option (Publication × Broadcast) :=
  if p.direct then some (p.publish b m)
  else
    let (accepted, outbox) := p.outbox.trySend m
    if accepted then some ({ p with outbox }, b) else none

/-- The next thing to do: publish the oldest message, or give up the address when nothing more
comes. -/
def step? (p : Publication) (b : Broadcast) : Option (Publication × Broadcast) :=
  match p.outbox.tryReceive with
  | (some m, outbox) => some ({ p with outbox }.publish b m)
  | (none, _) =>
    if p.abandoned && !p.finished then some ({ p with finished := true }, b.unbind p.address)
    else none

end Publication

end Stepcast
