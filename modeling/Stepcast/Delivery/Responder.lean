import Stepcast.Delivery.Outgoing
import Stepcast.Network.Exchange
import Stepcast.Text.Utf8

/-!
# Answering the readers of a writer

In reliable delivery the messages of a writer stay in a queue until they are asked for, one message
for each request. A message whose reply fails is kept in hand and offered to the next request. Once
told to shut down, the responder answers the requests that still wait with empty replies and leaves
its address.

A step of the responder is one operation on the exchange at most, so that its steps can be mixed in
any order with those of the other parties.
-/

namespace Stepcast

/-- The request for the next message. -/
def stepRequest : Bytes := utf8 "Step"

/-- What a responder is doing. -/
inductive Responder.Phase where
  /-- Looking for a request. -/
  | listening
  /-- Turning down a request that it does not know. -/
  | refusing
  /-- Answering a request for the next message. -/
  | serving
  /-- Answering the last request, for which there is no message. -/
  | parting
  /-- Looking for requests to turn down before it leaves. -/
  | dismissing
  /-- Turning down one of them. -/
  | releasing
  | finished
deriving Repr, DecidableEq

/-- The messages of a writer on their way to whoever asks for them. -/
structure Responder where
  /-- The server at the writer's address. -/
  server : Nat
  /-- How long a reply may wait for room. -/
  limit : Duration
  /-- The steps that every release counts for. -/
  stepsPerRelease : UInt64
  outbox : Outbox
  /-- The message in hand, which goes before those in the queue. -/
  held : Option Outgoing := none
  tally : Tally := {}
  /-- The number of messages that were handed over. -/
  accepted : UInt64 := 0
  /-- Nothing more will be handed over. -/
  abandoned : Bool := false
  shutdown : Bool := false
  phase : Responder.Phase := .listening

namespace Responder

/-- Hands over a message; nothing when the queue is full. -/
def handOver? (r : Responder) (m : Outgoing) : Option Responder :=
  let (accepted, outbox) := r.outbox.trySend m
  if accepted then some { r with outbox, accepted := r.accepted + 1 } else none

/-- All messages that were handed over have been released. -/
def isDrained (r : Responder) : Bool := r.tally.released == r.accepted

/-! ## What requests and replies do to it -/

/-- A request came. -/
def requested (r : Responder) (request : Bytes) : Responder :=
  { r with phase := if request = stepRequest then .serving else .refusing }

/-- The reply with the message in hand was sent, or failed. -/
def replied (r : Responder) (m : Outgoing) (sent : Bool) : Responder :=
  if sent then
    { r with
      held := none
      tally := r.tally.release (UInt64.ofNat m.bytes.length) r.stepsPerRelease
      phase := .listening }
  else { r with phase := .listening }

/-- Takes the next message in hand, or parts when none will come. Nothing when it has to wait. -/
def fetch? (r : Responder) : Option Responder :=
  match r.outbox.tryReceive with
  | (some m, outbox) => some { r with held := some m, outbox }
  | (none, _) => if r.shutdown || r.abandoned then some { r with phase := .parting } else none

/-! ## Steps -/

/-- Sends a reply, unless it has to wait and has `waited` for less than its limit. -/
def reply? (r : Responder) (waited : Duration) (x : Exchange) (message : Bytes) :
    Option (Bool × Exchange) :=
  if x.mustWait r.server && waited.nanos < r.limit.nanos then none
  else
    match x.reply r.server message with
    | (.ok (), x) => some (true, x)
    | (.error _, x) => some (false, x)

/-- The next thing to do; nothing when it has to wait. -/
def step? (r : Responder) (waited : Duration) (x : Exchange) : Option (Responder × Exchange) :=
  match r.phase with
  | .listening =>
    if r.shutdown then some ({ r with phase := .dismissing }, x)
    else
      match x.takeRequest r.server with
      | (.ok (some request), x) => some (r.requested request, x)
      | _ => none
  | .refusing => do
    let (_, x) ← r.reply? waited x []
    return ({ r with phase := .listening }, x)
  | .serving =>
    match r.held with
    | some m => do
      let (sent, x) ← r.reply? waited x m.bytes
      return (r.replied m sent, x)
    | none => r.fetch?.map (fun r => (r, x))
  | .parting => do
    let (_, x) ← r.reply? waited x []
    return ({ r with phase := .dismissing }, x)
  | .dismissing =>
    match x.takeRequest r.server with
    | (.ok (some _), x) => some ({ r with phase := .releasing }, x)
    | _ => some ({ r with phase := .finished }, x.retire r.server)
  | .releasing => do
    let (sent, x) ← r.reply? waited x []
    if sent then return ({ r with phase := .dismissing }, x)
    else return ({ r with phase := .finished }, x.retire r.server)
  | .finished => none

end Responder

end Stepcast
