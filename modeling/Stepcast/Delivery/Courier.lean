import Stepcast.Delivery.Publication
import Stepcast.Delivery.Responder
import Stepcast.Network
import Stepcast.Settings

/-!
# Couriers

A courier carries the messages of one writer to the readers, in the way that the settings of the
stream ask for. It works beside the writer and may outlive it.
-/

namespace Stepcast

/-- The carrier of a writer's messages. -/
inductive Courier where
  | publication (p : Publication)
  | responder (r : Responder)

namespace Courier

/-- Takes an endpoint for the messages of a stream. -/
def «open» (s : Settings) (endpoint : String) (n : Network) : Except Fault (Courier × Network) :=
  match s.delivery with
  | .fast => do
    let broadcast ← n.broadcast.bind endpoint
    let p : Publication :=
      { address := endpoint, direct := !s.doubleBuffer, outbox := .ofDepth s.queueDepth }
    return (.publication p, { n with broadcast })
  | .reliable => do
    let limit := s.timeoutDuration
    let (server, exchange) ← n.exchange.serve endpoint limit s.queueDepth
    let stepsPerRelease := UInt64.ofNat s.aggregation
    let r : Responder := { server, limit, stepsPerRelease, outbox := .ofDepth s.queueDepth }
    return (.responder r, { n with exchange })

def tally : Courier → Tally
  | publication p => p.tally
  | responder r => r.tally

/-- Hands over a message; nothing when the queue is full. -/
def handOver? (c : Courier) (n : Network) (m : Outgoing) : Option (Courier × Network) :=
  match c with
  | publication p => do
    let (p, broadcast) ← p.handOver? n.broadcast m
    return (publication p, { n with broadcast })
  | responder r => do return (responder (← r.handOver? m), n)

/-! ## Coming to an end -/

/-- The writer of a direct publication keeps the address for itself after it closed. -/
def close : Courier → Courier
  | publication p => publication (if p.direct then p else { p with abandoned := true })
  | responder r => responder { r with abandoned := true, shutdown := true }

/-- The writer is gone. -/
def abandon : Courier → Courier
  | publication p => publication { p with abandoned := true }
  | responder r => responder { r with abandoned := true }

/-- The writer may close: readers have collected what they are meant to. -/
def isDrained : Courier → Bool
  | publication _ => true
  | responder r => r.isDrained

/-! ## Working -/

/-- The next thing to do; nothing when the courier has to wait. -/
def step? (c : Courier) (waited : Duration) (n : Network) : Option (Courier × Network) :=
  match c with
  | publication p => do
    let (p, broadcast) ← p.step? n.broadcast
    return (publication p, { n with broadcast })
  | responder r => do
    let (r, exchange) ← r.step? waited n.exchange
    return (responder r, { n with exchange })

/-- Takes up to `fuel` steps. -/
def run (waited : Duration) : (fuel : Nat) → Courier → Network → Courier × Network
  | 0, c, n => (c, n)
  | fuel + 1, c, n =>
    match c.step? waited n with
    | some (c, n) => run waited fuel c n
    | none => (c, n)

/-- More steps than the courier can take without the others: a message takes two, a request two,
and there are four around them. -/
def effort (c : Courier) (n : Network) : Nat :=
  match c with
  | publication p => p.outbox.messages.length + 2
  | responder r =>
    let requests := (n.exchange.servers.at? r.server).elim 0 (fun s => s.requests.length)
    2 * r.outbox.messages.length + 2 * requests + 8

/-- Works until there is nothing to do, after the others have `waited`. -/
def settle (c : Courier) (waited : Duration) (n : Network) : Courier × Network :=
  c.run waited (c.effort n) n

end Courier

end Stepcast
