import Stepcast.Proofs.Delivery.Leaving

/-!
# What happens on an exchange

Any number of servers and clients come and go at any moment, and each of them acts in its own time.
A client looks for its server ahead of a request that has to wait for room, so other acts may fall
between the two. A reply that has to wait is sent, or fails, at one moment, at which the server has
its answered request no longer in hand.

Beside the exchange stands what happened: the requests that were accepted, the requests that were
taken, the replies that were sent or failed, and the replies that were collected.

Main statement: `Correspondence.step_perform`.
-/

namespace Stepcast

namespace Exchange

/-- The server that a client knows, or finds at its address. -/
def found? (x : Exchange) (client : Nat) : Option Nat := do
  let c ← x.clients.at? client
  c.server <|> x.bound.at? c.address

/-- The client takes this for its server. -/
def know (x : Exchange) (client : Nat) (c : Client) (server : Option Nat) : Exchange :=
  { x with clients := x.clients.put client { c with server } }

/-- A client looks for its server. -/
def find (x : Exchange) (client : Nat) : Exchange :=
  match x.clients.at? client with
  | none => x
  | some c => x.know client c (x.found? client)

end Exchange

open Exchange

/-- A request of a client to a server. -/
structure Inquiry where
  client : Nat
  server : Nat
  message : Bytes
deriving DecidableEq

/-- A reply of a server to the request that was the `turn`-th to be taken, counted from zero, and
whether it was sent. -/
structure Answer where
  server : Nat
  turn : Nat
  reply : Bytes
  sent : Bool
deriving DecidableEq

/-- An exchange, and what happened on it, in order. -/
structure Correspondence where
  exchange : Exchange := {}
  accepted : List Inquiry := []
  taken : List Inquiry := []
  answers : List Answer := []
  /-- The replies that were collected, with the clients that did. -/
  collected : List (Nat × Bytes) := []

namespace Correspondence

/-! ## What happened -/

def requestsTo (w : Correspondence) (server : Nat) : List Inquiry :=
  w.accepted.filter (fun q => q.server = server)

def takenBy (w : Correspondence) (server : Nat) : List Inquiry :=
  w.taken.filter (fun q => q.server = server)

/-- The places of the requests that a server took, among all that were taken. -/
def turnsOf (w : Correspondence) (server : Nat) : List Nat :=
  (w.taken.zipIdx.filter (fun e => e.1.server = server)).map Prod.snd

def answersBy (w : Correspondence) (server : Nat) : List Answer :=
  w.answers.filter (fun a => a.server = server)

/-- The client whose request was taken in this turn. -/
def asker? (w : Correspondence) (turn : Nat) : Option Nat := w.taken[turn]?.map Inquiry.client

/-- The replies that were sent in answer to requests of a client. -/
def repliesTo (w : Correspondence) (client : Nat) : List Answer :=
  w.answers.filter (fun a => a.sent ∧ w.asker? a.turn = some client)

def collectedBy (w : Correspondence) (client : Nat) : List Bytes :=
  (w.collected.filter (fun e => e.1 = client)).map Prod.snd

/-- What can happen, in any order. -/
inductive Act where
  | serve (address : String) (limit : Duration) (depth : Nat)
  | retire (server : Nat)
  | connect (address : String) (limit : Duration)
  | disconnect (client : Nat)
  /-- A client looks for its server, to send it a request. -/
  | find (client : Nat)
  | request (client : Nat) (message : Bytes)
  | take (server : Nat)
  | reply (server : Nat) (message : Bytes)
  | collect (client : Nat)

/-- What is known of an act afterwards: whether a request was accepted, which one was taken, and
what became of a reply. A party that is not there does nothing. -/
def perform (w : Correspondence) : Act → Correspondence
  | .serve address limit depth =>
    match w.exchange.serve address limit depth with
    | .ok (_, exchange) => { w with exchange }
    | .error _ => w
  | .retire server => { w with exchange := w.exchange.retire server }
  | .connect address limit => { w with exchange := (w.exchange.connect address limit).2 }
  | .disconnect client => { w with exchange := w.exchange.disconnect client }
  | .find client => { w with exchange := w.exchange.find client }
  | .request client message =>
    match w.exchange.request client message, w.exchange.found? client with
    | (.ok (), exchange), some server =>
      { w with exchange, accepted := w.accepted ++ [⟨client, server, message⟩] }
    | (_, exchange), _ => { w with exchange }
  | .take server =>
    match w.exchange.takeRequest server with
    | (.ok (some message), exchange) =>
      { w with
        exchange
        taken := w.taken ++
          (exchange.asking server).toList.map (fun client => ⟨client, server, message⟩) }
    | (_, exchange) => { w with exchange }
  | .reply server message =>
    let (result, exchange) := w.exchange.reply server message
    match w.exchange.asking server with
    | some _ =>
      let turn := (w.turnsOf server).getLastD 0
      { w with exchange, answers := w.answers ++ [⟨server, turn, message, result.isOk⟩] }
    | none => { w with exchange }
  | .collect client =>
    let (reply, exchange) := w.exchange.collect client
    { w with exchange, collected := w.collected ++ reply.toList.map (fun m => (client, m)) }

def run (acts : List Act) : Correspondence := acts.foldl perform {}

/-! ## What an act can do -/

/-- What becomes of a reply: its client is gone, has no room, or gets it. -/
inductive Placed (x : Exchange) (client : Nat) (message : Bytes) : Bool → Exchange → Prop
  | missed : x.clients.at? client = none → Placed x client message true x
  | refused (c : Client) : x.clients.at? client = some c → c.reply.isSome →
      Placed x client message false x
  | delivered (c : Client) : x.clients.at? client = some c → c.reply = none →
      Placed x client message true
        { x with clients := x.clients.put client { c with reply := some message } }

/-- All that an act can change. -/
inductive Step (w : Correspondence) : Act → Correspondence → Prop
  | rest (act : Act) : Step w act w
  | serve (address : String) (limit : Duration) (depth : Nat) :
      w.exchange.bound.at? address = none →
      Step w (.serve address limit depth) { w with
        exchange := { w.exchange with
          bound := w.exchange.bound.put address w.exchange.nextServer
          servers := w.exchange.servers.put w.exchange.nextServer
            { address, limit, capacity := max depth 1 }
          nextServer := w.exchange.nextServer + 1 } }
  | retire (server : Nat) :
      Step w (.retire server) { w with exchange := w.exchange.retire server }
  | connect (address : String) (limit : Duration) :
      Step w (.connect address limit) { w with exchange := (w.exchange.connect address limit).2 }
  | disconnect (client : Nat) :
      Step w (.disconnect client) { w with exchange := w.exchange.disconnect client }
  | find (client : Nat) (c : Client) : w.exchange.clients.at? client = some c →
      Step w (.find client)
        { w with exchange := w.exchange.know client c (w.exchange.found? client) }
  /-- The queue is full. -/
  | refuse (client : Nat) (c : Client) (message : Bytes) :
      w.exchange.clients.at? client = some c →
      Step w (.request client message)
        { w with exchange := w.exchange.know client c (w.exchange.found? client) }
  /-- The server that the client knew is gone. -/
  | forget (client found : Nat) (c : Client) (message : Bytes) :
      w.exchange.clients.at? client = some c → w.exchange.found? client = some found →
      w.exchange.servers.at? found = none →
      Step w (.request client message) { w with exchange := w.exchange.know client c none }
  | accept (client found : Nat) (c : Client) (s : Server) (message : Bytes) :
      w.exchange.clients.at? client = some c → w.exchange.found? client = some found →
      w.exchange.servers.at? found = some s →
      Step w (.request client message) { w with
        exchange := { w.exchange.know client c (some found) with
          servers := w.exchange.servers.put found
            { s with requests := s.requests ++ [(message, client)] } }
        accepted := w.accepted ++ [⟨client, found, message⟩] }
  | take (server client : Nat) (s : Server) (message : Bytes) (requests : List (Bytes × Nat)) :
      w.exchange.servers.at? server = some s → s.pending = none →
      s.requests = (message, client) :: requests →
      Step w (.take server) { w with
        exchange := { w.exchange with
          servers := w.exchange.servers.put server { s with requests, pending := some client } }
        taken := w.taken ++ [⟨client, server, message⟩] }
  | reply (server client : Nat) (s : Server) (message : Bytes) (sent : Bool) (x : Exchange) :
      w.exchange.servers.at? server = some s → s.pending = some client →
      Placed { w.exchange with
        servers := w.exchange.servers.put server { s with pending := none } } client message
        sent x →
      Step w (.reply server message) { w with
        exchange := x
        answers := w.answers ++ [⟨server, (w.turnsOf server).getLastD 0, message, sent⟩] }
  | collect (client : Nat) (c : Client) : w.exchange.clients.at? client = some c →
      Step w (.collect client) { w with
        exchange := { w.exchange with
          clients := w.exchange.clients.put client { c with reply := none } }
        collected := w.collected ++ c.reply.toList.map (fun m => (client, m)) }

section Step

variable (w : Correspondence)

theorem found?_eq {x : Exchange} {client : Nat} {c : Client} (hc : x.clients.at? client = some c) :
    x.found? client = (c.server <|> x.bound.at? c.address) := by
  rw [Exchange.found?, hc]
  rfl

theorem step_request (client : Nat) (message : Bytes) :
    Step w (.request client message) (w.perform (.request client message)) := by
  cases hc : w.exchange.clients.at? client with
  | none =>
    have hrequest : w.exchange.request client message = (.ok (), w.exchange) := by
      simp only [Exchange.request, hc]
    have hnone : w.exchange.found? client = none := by simp [Exchange.found?, hc]
    simp only [perform, hrequest, hnone]
    exact .rest _
  | some c =>
    have hfound := found?_eq hc
    cases hf : w.exchange.found? client with
    | none =>
      have hrequest : w.exchange.request client message =
          (.error (.transport (.noReplier c.address)), w.exchange) := by
        simp only [Exchange.request, hc, ← hfound, hf]
      simp only [perform, hrequest]
      exact .rest _
    | some found =>
      cases hs : w.exchange.servers.at? found with
      | none =>
        have hrequest : w.exchange.request client message =
            (.error (.closed (.replier c.address)), w.exchange.know client c none) := by
          simp only [Exchange.request, hc, ← hfound, hf, hs, know]
        simp only [perform, hrequest]
        exact .forget client found c message hc hf hs
      | some s =>
        by_cases hroom : s.requests.length < s.capacity
        · have hrequest : w.exchange.request client message =
              (.ok (), { w.exchange.know client c (some found) with
                servers := w.exchange.servers.put found
                  { s with requests := s.requests ++ [(message, client)] } }) := by
            simp only [Exchange.request, hc, ← hfound, hf, hs, hroom, if_true, know]
          simp only [perform, hrequest, hf]
          exact .accept client found c s message hc hf hs
        · have hrequest : w.exchange.request client message =
              (.error (.timeout (.requestNotAccepted c.address c.limit)),
                w.exchange.know client c (w.exchange.found? client)) := by
            simp only [Exchange.request, hc, ← hfound, hf, hs, hroom, if_false, know]
          simp only [perform, hrequest]
          exact .refuse client c message hc

theorem step_take (server : Nat) : Step w (.take server) (w.perform (.take server)) := by
  cases hs : w.exchange.servers.at? server with
  | none =>
    simp only [perform, takeRequest, hs]
    exact .rest _
  | some s =>
    cases hpending : s.pending with
    | some client =>
      simp only [perform, takeRequest, hs, hpending, Option.isSome_some, if_true]
      exact .rest _
    | none =>
      cases hrequests : s.requests with
      | nil =>
        simp only [perform, takeRequest, hs, hpending, hrequests, Option.isSome_none,
          Bool.false_eq_true, if_false]
        exact .rest _
      | cons r requests =>
        obtain ⟨message, client⟩ := r
        have htake := Step.take server client s message requests hs hpending hrequests
        simpa only [perform, takeRequest, hs, hpending, hrequests, Option.isSome_none,
          Bool.false_eq_true, if_false, asking, Table.at?_put_self, Option.bind_some,
          Option.toList_some, List.map_cons, List.map_nil] using htake

theorem step_reply (server : Nat) (message : Bytes) :
    Step w (.reply server message) (w.perform (.reply server message)) := by
  cases hs : w.exchange.servers.at? server with
  | none =>
    simp only [perform, Exchange.reply, asking, hs]
    exact .rest _
  | some s =>
    cases hpending : s.pending with
    | none =>
      have hasking : w.exchange.asking server = none := by
        rw [asking, hs]
        exact hpending
      simp only [perform, Exchange.reply, hs, hpending, hasking]
      exact .rest _
    | some client =>
      have hasking : w.exchange.asking server = some client := by
        rw [asking, hs]
        exact hpending
      cases hc : w.exchange.clients.at? client with
      | none =>
        simp only [perform, Exchange.reply, hs, hpending, hc, hasking]
        exact .reply server client s message true _ hs hpending (.missed hc)
      | some c =>
        by_cases hreply : c.reply.isSome
        · simp only [perform, Exchange.reply, hs, hpending, hc, hasking, hreply, if_true]
          exact .reply server client s message false _ hs hpending (.refused c hc hreply)
        · simp only [perform, Exchange.reply, hs, hpending, hc, hasking, if_neg hreply]
          exact .reply server client s message true _ hs hpending
            (.delivered c hc (Option.not_isSome_iff_eq_none.mp hreply))

/-- **An act** changes what some step changes. -/
theorem step_perform (act : Act) : Step w act (w.perform act) := by
  cases act with
  | serve address limit depth =>
    by_cases hbound : (w.exchange.bound.at? address).isSome
    · simp only [perform, Exchange.serve, hbound, if_true]
      exact .rest _
    · simp only [perform, Exchange.serve, hbound, Bool.false_eq_true, if_false]
      exact .serve address limit depth (Option.not_isSome_iff_eq_none.mp hbound)
  | retire server => exact .retire server
  | connect address limit => exact .connect address limit
  | disconnect client => exact .disconnect client
  | find client =>
    simp only [perform, Exchange.find]
    cases hc : w.exchange.clients.at? client with
    | none => exact .rest _
    | some c => exact .find client c hc
  | request client message => exact step_request w client message
  | take server => exact step_take w server
  | reply server message => exact step_reply w server message
  | collect client =>
    simp only [perform, Exchange.collect]
    cases hc : w.exchange.clients.at? client with
    | none =>
      simp only [Option.toList_none, List.map_nil, List.append_nil]
      exact .rest _
    | some c => exact .collect client c hc

end Step

end Correspondence

end Stepcast
