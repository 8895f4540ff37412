import Stepcast.Delivery.Responder
import Stepcast.Network

/-!
# Links

A reader keeps one link to every writer rank. Published messages wait in an inbox. In reliable
delivery a link sends a request for each message; an empty reply means that the writer has no more
for it. A link is done when the writer ended the stream or is gone.
-/

namespace Stepcast

/-- How messages come from a writer. -/
inductive Channel where
  | inbox (id : Nat)
  /-- A client; `outstanding` while a request is not answered. -/
  | client (id : Nat) (outstanding : Bool)
deriving Repr, DecidableEq

/-- The connection to one writer rank. -/
structure Link where
  channel : Channel
  /-- The writer ended the stream. -/
  ended : Bool := false
  /-- The writer is gone without having ended the stream. -/
  lost : Bool := false
deriving Repr, DecidableEq

namespace Link

def isDone (l : Link) : Bool := l.ended || l.lost

/-- Asks for the next message, unless a request is on its way. A writer that is not there yet can
be asked again; one that was there and is gone will not come back. -/
def request (l : Link) (n : Network) : Link × Network :=
  match l.isDone, l.channel with
  | false, .client id false =>
    let (sent, exchange) := n.exchange.request id stepRequest
    let n := { n with exchange }
    match sent with
    | .ok () => ({ l with channel := .client id true }, n)
    | .error (.closed _) => ({ l with lost := true }, n)
    | .error _ => (l, n)
  | _, _ => (l, n)

/-- Takes the messages that have come, and says whether the writer has no more. -/
def receive (l : Link) (n : Network) : List Bytes × Bool × Link × Network :=
  match l.isDone, l.channel with
  | false, .inbox id =>
    let (messages, closed, broadcast) := n.broadcast.receiveAll id
    (messages, closed, l, { n with broadcast })
  | false, .client id true =>
    let (reply, exchange) := n.exchange.collect id
    let n := { n with exchange }
    match reply with
    | some message =>
      let l := { l with channel := .client id false }
      if message.isEmpty then ([], true, l, n) else ([message], false, l, n)
    | none => ([], false, l, n)
  | _, _ => ([], false, l, n)

/-- The link is given up. -/
def disconnect (l : Link) (n : Network) : Network :=
  match l.channel with
  | .inbox id => { n with broadcast := n.broadcast.unsubscribe id }
  | .client id _ => { n with exchange := n.exchange.disconnect id }

end Link

end Stepcast
