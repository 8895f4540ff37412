import Stepcast.Session

/-!
# Plain messages in a session

Sending and receiving by the parties that are neither writers nor readers.
-/

namespace Stepcast

namespace Session

/-- Tries to get something, lets time pass when there is nothing yet, and tries again. -/
def await {α : Type} (s : Session) (limit : Duration)
    (attempt : Network → Except Fault (Option α) × Network) : Session × Except Fault (Option α) :=
  match attempt s.network with
  | (.ok none, _) =>
    let s := s.settle limit
    let (result, network) := attempt s.network
    (s.onward network, result)
  | (result, network) => (s.onward network, result)

/-- Receives at a subscriber, a server or a client. -/
def receive? (s : Session) (name : String) (limit : Duration) :
    Option (Session × Except Fault (Option Bytes)) := do
  match ← s.parties.at? name with
  | .subscriber id =>
    return s.await limit (fun n =>
      let (result, broadcast) := n.broadcast.receive id
      (result, { n with broadcast }))
  | .server id =>
    return s.await limit (fun n =>
      let (result, exchange) := n.exchange.takeRequest id
      (result, { n with exchange }))
  | .client id =>
    return s.await limit (fun n =>
      let (reply, exchange) := n.exchange.collect id
      (.ok reply, { n with exchange }))
  | _ => none

/-- Publishes a message; gives the number of subscribers that accepted it. -/
def publish? (s : Session) (name : String) (message : Bytes) : Option (Session × Nat) := do
  let .publisher address ← s.parties.at? name | none
  let (accepted, broadcast) := s.network.broadcast.publish address message
  return (s.onward { s.network with broadcast }, accepted)

/-- The subscribers that a publisher knows of. -/
def subscriberCount? (s : Session) (name : String) : Option Nat := do
  let .publisher address ← s.parties.at? name | none
  return s.network.broadcast.subscriberCount address

/-- Sends a request, or a reply. -/
def send? (s : Session) (name : String) (message : Bytes) :
    Option (Session × Except Fault Unit) := do
  match ← s.parties.at? name with
  | .server id =>
    let (result, exchange) := s.network.exchange.reply id message
    return (s.onward { s.network with exchange }, result)
  | .client id =>
    let request (s : Session) : Session × Except Fault Unit :=
      let (result, exchange) := s.network.exchange.request id message
      (s.onward { s.network with exchange }, result)
    match request s with
    | (s, .error (.timeout (.requestNotAccepted _ limit))) => return request (s.settle limit)
    | sent => return sent
  | _ => none

end Session

end Stepcast
