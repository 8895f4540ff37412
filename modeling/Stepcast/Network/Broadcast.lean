import Stepcast.Fault
import Stepcast.Table

/-!
# Publishing and subscribing

A message published at an address is offered to every subscriber there and waits in its inbox. A
full inbox misses the message. An address has at most one publisher; when it leaves, the inboxes
are cut off: what they hold can still be received, and then they are closed.
-/

namespace Stepcast

/-- The messages that wait for a subscriber, the oldest first. -/
structure Inbox where
  address : String
  capacity : Nat
  messages : List Bytes := []
deriving DecidableEq

/-- The inbox with one more message. -/
def Inbox.push (i : Inbox) (message : Bytes) : Inbox :=
  { i with messages := i.messages ++ [message] }

/-- Who publishes and who subscribes at an address. -/
structure Topic where
  /-- There is a publisher. -/
  bound : Bool := false
  /-- The inboxes to which messages are offered, in the order in which they came. -/
  subscribers : List Nat := []
deriving Repr, DecidableEq

/-- The addresses at which messages are published, and the inboxes by number. -/
structure Broadcast where
  topics : Table String Topic := []
  inboxes : Table Nat Inbox := []
  nextInbox : Nat := 0

namespace Broadcast

def topic (b : Broadcast) (address : String) : Topic := (b.topics.at? address).getD {}

/-! ## Coming and going -/

/-- A publisher takes an address. -/
def bind (b : Broadcast) (address : String) : Except Fault Broadcast :=
  if (b.topic address).bound then .error (.transport (.publisherBound address))
  else .ok { b with topics := b.topics.put address { b.topic address with bound := true } }

/-- The publisher leaves an address, and its subscribers are cut off. -/
def unbind (b : Broadcast) (address : String) : Broadcast :=
  { b with topics := b.topics.put address {} }

/-- A subscriber comes with an inbox for `depth` messages, and for one at least. -/
def subscribe (b : Broadcast) (address : String) (depth : Nat) : Nat × Broadcast :=
  let id := b.nextInbox
  let topic := b.topic address
  (id,
    { topics := b.topics.put address { topic with subscribers := topic.subscribers ++ [id] }
      inboxes := b.inboxes.put id { address, capacity := max depth 1 }
      nextInbox := id + 1 })

/-- A subscriber leaves. Its publisher finds out with the next message. -/
def unsubscribe (b : Broadcast) (id : Nat) : Broadcast :=
  { b with inboxes := b.inboxes.without id }

/-- The subscribers that the publisher at an address knows of. -/
def subscriberCount (b : Broadcast) (address : String) : Nat := (b.topic address).subscribers.length

/-! ## Messages -/

/-- The inbox is there. -/
def isPresent (b : Broadcast) (id : Nat) : Bool := (b.inboxes.at? id).isSome

/-- The inbox is there and takes one more message. -/
def hasRoom (b : Broadcast) (id : Nat) : Bool :=
  (b.inboxes.at? id).any (fun i => i.messages.length < i.capacity)

/-- The subscribers that accept the next message at an address. -/
def takers (b : Broadcast) (address : String) : List Nat :=
  (b.topic address).subscribers.filter b.hasRoom

/-- Offers a message to the subscribers at an address and forgets those that left. Gives the number
of those that accepted it. -/
def publish (b : Broadcast) (address : String) (message : Bytes) : Nat × Broadcast :=
  let topic := b.topic address
  let takers := b.takers address
  (takers.length,
    { b with
      topics := b.topics.put address
        { topic with subscribers := topic.subscribers.filter b.isPresent }
      inboxes := b.inboxes.map (fun (id, i) =>
        (id, if id ∈ takers then i.push message else i)) })

/-- No publisher knows of the inbox any more. -/
def isCutOff (b : Broadcast) (id : Nat) (i : Inbox) : Bool :=
  !(b.topic i.address).subscribers.contains id

/-- Takes the oldest message from an inbox, if there is one. An empty inbox that was cut off is
closed. -/
def receive (b : Broadcast) (id : Nat) : Except Fault (Option Bytes) × Broadcast :=
  match b.inboxes.at? id with
  | none => (.ok none, b)
  | some i =>
    match i.messages with
    | m :: messages => (.ok (some m), { b with inboxes := b.inboxes.put id { i with messages } })
    | [] => (if b.isCutOff id i then .error (.closed .publisher) else .ok none, b)

/-- Takes all messages from an inbox and says whether it is closed after that. -/
def receiveAll (b : Broadcast) (id : Nat) : List Bytes × Bool × Broadcast :=
  match b.inboxes.at? id with
  | none => ([], false, b)
  | some i =>
    (i.messages, b.isCutOff id i,
      { b with inboxes := b.inboxes.put id { i with messages := [] } })

end Broadcast

end Stepcast
