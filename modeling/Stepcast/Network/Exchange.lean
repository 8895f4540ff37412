import Stepcast.Fault
import Stepcast.Table

/-!
# Requests and replies

Clients send requests to the server at their address. The server takes them one by one and answers
each before it takes the next. A reply waits with the client until it is collected; there is room
for one. An address has at most one server.

Nobody waits here: an operation that would have to wait fails as if it had waited in vain.
`mustWait` tells beforehand whether a reply would.
-/

namespace Stepcast

/-- The end that answers requests. -/
structure Server where
  address : String
  /-- The requests that fit into the queue. -/
  capacity : Nat
  /-- How long a reply may wait for room. -/
  limit : Duration
  /-- The requests that wait, with the clients that sent them, the oldest first. -/
  requests : List (Bytes × Nat) := []
  /-- The client whose request was taken and is not answered. -/
  pending : Option Nat := none
deriving DecidableEq

/-- The end that sends requests. -/
structure Client where
  address : String
  /-- How long a request may wait for room. -/
  limit : Duration
  /-- The server that the client found at its address. -/
  server : Option Nat := none
  /-- The reply that is not collected. -/
  reply : Option Bytes := none
deriving DecidableEq

/-- The servers and clients by number, and the server of each address. -/
structure Exchange where
  bound : Table String Nat := []
  servers : Table Nat Server := []
  clients : Table Nat Client := []
  nextServer : Nat := 0
  nextClient : Nat := 0

namespace Exchange

/-! ## Coming and going -/

/-- A server takes an address, with a queue for `depth` requests, and for one at least. -/
def serve (x : Exchange) (address : String) (limit : Duration) (depth : Nat) :
    Except Fault (Nat × Exchange) :=
  if (x.bound.at? address).isSome then .error (.transport (.replierBound address))
  else
    let id := x.nextServer
    .ok (id,
      { x with
        bound := x.bound.put address id
        servers := x.servers.put id { address, limit, capacity := max depth 1 }
        nextServer := id + 1 })

/-- A server leaves its address; the requests that wait there are lost. -/
def retire (x : Exchange) (id : Nat) : Exchange :=
  match x.servers.at? id with
  | none => x
  | some s => { x with bound := x.bound.without s.address, servers := x.servers.without id }

/-- A client comes. It looks for its server with the first request. -/
def connect (x : Exchange) (address : String) (limit : Duration) : Nat × Exchange :=
  let id := x.nextClient
  (id, { x with clients := x.clients.put id { address, limit }, nextClient := id + 1 })

/-- A client leaves. Its requests stay in the queue. -/
def disconnect (x : Exchange) (id : Nat) : Exchange :=
  { x with clients := x.clients.without id }

/-! ## Requests -/

/-- A client sends a request. A server that the client knew and that is gone is not replaced at
once: the client is told, and looks for another with its next request. -/
def request (x : Exchange) (id : Nat) (message : Bytes) : Except Fault Unit × Exchange :=
  match x.clients.at? id with
  | none => (.ok (), x)
  | some c =>
    match c.server <|> x.bound.at? c.address with
    | none => (.error (.transport (.noReplier c.address)), x)
    | some found =>
      match x.servers.at? found with
      | none =>
        (.error (.closed (.replier c.address)),
          { x with clients := x.clients.put id { c with server := none } })
      | some s =>
        let x := { x with clients := x.clients.put id { c with server := some found } }
        if s.requests.length < s.capacity then
          let s := { s with requests := s.requests ++ [(message, id)] }
          (.ok (), { x with servers := x.servers.put found s })
        else (.error (.timeout (.requestNotAccepted c.address c.limit)), x)

/-- A server takes the oldest request, if there is one. -/
def takeRequest (x : Exchange) (id : Nat) : Except Fault (Option Bytes) × Exchange :=
  match x.servers.at? id with
  | none => (.ok none, x)
  | some s =>
    if s.pending.isSome then (.error (.transport .unanswered), x)
    else
      match s.requests with
      | [] => (.ok none, x)
      | (message, client) :: requests =>
        (.ok (some message),
          { x with servers := x.servers.put id { s with requests, pending := some client } })

/-! ## Replies -/

/-- The client that the server has to answer has no room for the reply. -/
def mustWait (x : Exchange) (id : Nat) : Bool :=
  (x.servers.at? id).any (fun s =>
    s.pending.any (fun client => (x.clients.at? client).any (fun c => c.reply.isSome)))

/-- A server answers the request that it took. The request counts as answered whatever becomes of
the reply; a client that left needs none. -/
def reply (x : Exchange) (id : Nat) (message : Bytes) : Except Fault Unit × Exchange :=
  match x.servers.at? id with
  | none => (.ok (), x)
  | some s =>
    match s.pending with
    | none => (.error (.transport .nothingToAnswer), x)
    | some client =>
      let x := { x with servers := x.servers.put id { s with pending := none } }
      match x.clients.at? client with
      | none => (.ok (), x)
      | some c =>
        if c.reply.isSome then (.error (.timeout (.replyNotCollected s.address s.limit)), x)
        else
          (.ok (), { x with clients := x.clients.put client { c with reply := some message } })

/-- A client collects its reply, if there is one. -/
def collect (x : Exchange) (id : Nat) : Option Bytes × Exchange :=
  match x.clients.at? id with
  | none => (none, x)
  | some c => (c.reply, { x with clients := x.clients.put id { c with reply := none } })

end Exchange

end Stepcast
