import Stepcast.Delivery.Courier
import Stepcast.Reader
import Stepcast.Writer

/-!
# Sessions

A session is one network with everybody on it: publishers and subscribers, servers and clients,
writers with their couriers, and readers. The parties act one at a time, by name. The couriers work
beside them: after every act they have done all that they could do (`Session.settle`).

An act that would have to wait lets its time pass with `settle` and is tried once more. An act that
would wait for ever has no result.
-/

namespace Stepcast

/-- Who acts under a name. -/
inductive Party where
  | publisher (address : String)
  | subscriber (id : Nat)
  | server (id : Nat)
  | client (id : Nat)
  | writer (w : Writer) (courier : Nat)
  /-- A writer that was closed and waits for its readers, or was refused. The backlog are the
  messages for which its courier had no room yet. -/
  | closing (w : Writer) (courier : Nat) (backlog : List Outgoing) (outcome : Except Fault Unit)
  | reader (r : Reader)

/-- A network and the parties on it. Couriers are numbered and outlive their writers. -/
structure Session where
  network : Network := {}
  couriers : Table Nat Courier := []
  nextCourier : Nat := 0
  parties : Table String Party := []

namespace Session

/-! ## Couriers -/

/-- Lets couriers work one after the other. -/
def settleCouriers (waited : Duration) :
    Table Nat Courier → Network → Table Nat Courier × Network
  | [], n => ([], n)
  | (id, c) :: rest, n =>
    let (c, n) := c.settle waited n
    let (rest, n) := settleCouriers waited rest n
    ((id, c) :: rest, n)

/-- The session after all couriers have worked. -/
def work (s : Session) (waited : Duration) : Session :=
  let (couriers, network) := settleCouriers waited s.couriers s.network
  { s with couriers, network }

/-- A closing writer hands over the next message of its backlog, if there is room for it. -/
def handOverNext (s : Session) (name : String) : Session :=
  match s.parties.at? name with
  | some (.closing w id (m :: backlog) outcome) =>
    match (s.couriers.at? id).bind (·.handOver? s.network m) with
    | some (c, network) =>
      { s with
        network
        couriers := s.couriers.put id c
        parties := s.parties.put name (.closing w id backlog outcome) }
    | none => s
  | _ => s

/-- The messages that closing writers have not handed over. -/
def backlogSize (s : Session) : Nat :=
  s.parties.foldr (fun e n =>
    match e.2 with
    | .closing _ _ backlog _ => backlog.length + n
    | _ => n) 0

/-- Lets the couriers work, and up to `rounds` times the closing writers hand over a message each
and the couriers work again. -/
def workOff (waited : Duration) : (rounds : Nat) → Session → Session
  | 0, s => s.work waited
  | rounds + 1, s =>
    let s := s.work waited
    workOff waited rounds (s.parties.keys.foldl handOverNext s)

/-- The couriers whose writers have handed over everything and wait for their readers. -/
def waitingCouriers (s : Session) : List Nat :=
  s.parties.filterMap (fun (_, p) =>
    match p with
    | .closing _ id [] (.ok ()) => some id
    | _ => none)

/-- The courier of a closing writer comes to an end when all messages have been released. -/
def closeDrained (s : Session) : Session :=
  let waiting := s.waitingCouriers
  { s with
    couriers := s.couriers.map (fun (id, c) =>
      (id, if waiting.contains id && c.isDrained then c.close else c)) }

/-- Lets all couriers and closing writers work until they have to wait, after the parties have
`waited`. -/
def settle (s : Session) (waited : Duration) : Session :=
  (workOff waited s.backlogSize s).closeDrained.work waited

/-- The session with another network, where all couriers have worked. -/
def onward (s : Session) (network : Network) : Session := { s with network }.settle .zero

/-- Changes the courier with the given number. -/
def withCourier (s : Session) (id : Nat) (f : Courier → Courier) : Session :=
  match s.couriers.at? id with
  | some c => { s with couriers := s.couriers.put id (f c) }
  | none => s

/-- What has become of the messages that a courier was given. -/
def tally (s : Session) (id : Nat) : Tally := ((s.couriers.at? id).map Courier.tally).getD {}

/-! ## Closing writers -/

/-- Hands one message to a courier, and waits for room if there is none. -/
def handOver? (s : Session) (id : Nat) (m : Outgoing) : Option Session := do
  let c ← s.couriers.at? id
  let (c, network) ← c.handOver? s.network m
  return { s with couriers := s.couriers.put id c }.onward network

/-- Hands messages to a courier in order. A writer waits for room as long as replies may take. -/
def handOverAll? (s : Session) (w : Writer) (id : Nat) : List Outgoing → Option Session
  | [] => some s
  | m :: rest => do
    let patient := s.settle w.settings.timeoutDuration
    let s ← s.handOver? id m <|> patient.handOver? id m
    s.handOverAll? w id rest

/-- Closes a writer as far as that goes without waiting for readers. -/
def closing (s : Session) (name : String) (w : Writer) (id : Nat) (now : Moment) : Session :=
  let (w, result) := w.close now
  let p : Party :=
    match result with
    | .error f => .closing w id [] (.error f)
    | .ok messages => .closing w id messages (.ok ())
  { s with parties := s.parties.put name p }.settle .zero

/-- Waits until the readers of a closing writer have collected everything, or until its limit. Gives
what has become of its messages; nothing when the writer would wait for ever. -/
def join? (s : Session) (name : String) : Option (Session × Except Fault Tally) := do
  let .closing w id _ outcome ← s.parties.at? name | none
  let reopened (s : Session) : Session := { s with parties := s.parties.put name (.writer w id) }
  match outcome with
  | .error f => return (reopened s, .error f)
  | .ok () =>
    let patience := w.settings.timeoutDuration
    let s := if s.waitingCouriers.contains id then s else s.settle patience
    if !s.waitingCouriers.contains id then none
    else if (s.couriers.at? id).all Courier.isDrained then return (reopened s, .ok (s.tally id))
    else
      let s := s.settle (← w.settings.drainLimit)
      let s := (s.withCourier id Courier.close).settle patience
      return (reopened s, .ok (s.tally id))

/-- Closes a writer and waits for its readers. -/
def closeWriter? (s : Session) (name : String) (now : Moment) :
    Option (Session × Except Fault Unit) := do
  let .writer w id ← s.parties.at? name | none
  if w.stage = .closed then return (s, .ok ())
  else
    let (s, result) ← (s.closing name w id now).join? name
    return (s, result.map (fun _ => ()))

/-! ## Coming and going -/

/-- A party leaves. A writer closes first; if it cannot, its courier goes on alone. -/
def leave? (s : Session) (name : String) (now : Moment) : Option Session := do
  let gone (s : Session) (network : Network) : Session :=
    { s with parties := s.parties.without name }.onward network
  let n := s.network
  match ← s.parties.at? name with
  | .publisher address => return gone s { n with broadcast := n.broadcast.unbind address }
  | .subscriber id => return gone s { n with broadcast := n.broadcast.unsubscribe id }
  | .server id => return gone s { n with exchange := n.exchange.retire id }
  | .client id => return gone s { n with exchange := n.exchange.disconnect id }
  | .reader r => return gone s (r.close n).2
  | .writer _ id =>
    let (s, _) ← s.closeWriter? name now
    let s := s.withCourier id Courier.abandon
    return gone s s.network
  | .closing _ id _ _ =>
    let (s, _) ← s.join? name
    let s := s.withCourier id Courier.abandon
    return gone s s.network

/-- A party comes. Whoever acted under the name leaves after that. -/
def enter? (s : Session) (name : String) (p : Party) (now : Moment) : Option Session := do
  let s ← if (s.parties.at? name).isSome then s.leave? name now else some s
  return { s with parties := s.parties.put name p }.settle .zero

/-- A publisher comes. -/
def enterPublisher? (s : Session) (name address : String) (now : Moment) :
    Option (Session × Except Fault Unit) :=
  match s.network.broadcast.bind address with
  | .error f => some (s, .error f)
  | .ok broadcast => do
    let s ← { s with network := { s.network with broadcast } }.enter? name (.publisher address) now
    return (s, .ok ())

/-- A subscriber comes. -/
def enterSubscriber? (s : Session) (name address : String) (depth : Nat) (now : Moment) :
    Option Session :=
  let (id, broadcast) := s.network.broadcast.subscribe address depth
  { s with network := { s.network with broadcast } }.enter? name (.subscriber id) now

/-- A server comes. -/
def enterServer? (s : Session) (name address : String) (limit : Duration) (depth : Nat)
    (now : Moment) : Option (Session × Except Fault Unit) :=
  match s.network.exchange.serve address limit depth with
  | .error f => some (s, .error f)
  | .ok (id, exchange) => do
    let s ← { s with network := { s.network with exchange } }.enter? name (.server id) now
    return (s, .ok ())

/-- A client comes. -/
def enterClient? (s : Session) (name address : String) (limit : Duration) (now : Moment) :
    Option Session :=
  let (id, exchange) := s.network.exchange.connect address limit
  { s with network := { s.network with exchange } }.enter? name (.client id) now

/-- Opens the courier of a writer of the given rank. A publishing writer gives its readers time to
come. -/
def openCourier (s : Session) (settings : Settings) (rank : UInt32) :
    Except Fault (Nat × Session) := do
  settings.validate
  let endpoint ← settings.endpointOfRank rank
  let (c, network) ← Courier.open settings endpoint s.network
  let id := s.nextCourier
  let s := { s with couriers := s.couriers.put id c, nextCourier := id + 1, network }
  let isAlone := network.broadcast.subscriberCount endpoint < settings.rendezvousReaders
  if settings.delivery = .fast && isAlone then return (id, s.settle settings.timeoutDuration)
  else return (id, s)

/-- A writer comes, to write the stream `stream`. -/
def enterWriter? (s : Session) (name stream : String) (settings : Settings) (rank : UInt32)
    (operators : Operators) (now : Moment) : Option (Session × Except Fault Unit) :=
  match s.openCourier settings rank with
  | .error f => some (s, .error f)
  | .ok (id, s) => do
    let w := Writer.create stream settings rank operators now
    return (← s.enter? name (.writer w id) now, .ok ())

/-- A reader comes, to read the stream `stream` from the given number of ranks. -/
def enterReader? (s : Session) (name stream : String) (settings : Settings) (writers : Nat)
    (operators : Operators) (now : Moment) : Option (Session × Except Fault Unit) :=
  match Reader.open stream settings writers operators now s.network with
  | (network, .error f) => some ({ s with network }, .error f)
  | (network, .ok r) => do
    return (← { s with network }.enter? name (.reader r) now, .ok ())

end Session

end Stepcast
