import Stepcast.Delivery.Responder
import Stepcast.Proofs.Tables

/-!
# One client and one server

What requests and replies do between a server and the only client that knows of it: the server has
at most one request, the client at most one reply, and no other client or server notices.

Main statements: `Exchange.request_of_serves`, `Exchange.takeRequest_of_serves`,
`Exchange.reply_of_serves`, `Exchange.collect_of_attends`.
-/

namespace Stepcast

namespace Exchange

/-- A server has the address, with these requests and this client to answer. -/
structure Serves (x : Exchange) (address : String) (server : Nat) (requests : List (Bytes × Nat))
    (pending : Option Nat) : Prop where
  bound : x.bound.at? address = some server
  found : ∃ s, x.servers.at? server = some s ∧ s.address = address ∧ s.requests = requests ∧
    s.pending = pending ∧ 0 < s.capacity

/-- The server has left its address, and no other has come. -/
structure Retired (x : Exchange) (address : String) (server : Nat) : Prop where
  unbound : x.bound.at? address = none
  gone : x.servers.at? server = none

/-- A client of the address knows no server but this, and has this reply to collect. -/
def Attends (x : Exchange) (address : String) (server client : Nat) (reply : Option Bytes) : Prop :=
  ∃ c, x.clients.at? client = some c ∧ c.address = address ∧ c.reply = reply ∧
    (c.server = none ∨ c.server = some server)

/-- Nothing has changed but for one client, one server and one address. -/
structure Within (x x' : Exchange) (address : String) (server client : Nat) : Prop where
  bound : ∀ a, a ≠ address → x'.bound.at? a = x.bound.at? a
  servers : ∀ id, id ≠ server → x'.servers.at? id = x.servers.at? id
  clients : ∀ id, id ≠ client → x'.clients.at? id = x.clients.at? id
  nextServer : x.nextServer ≤ x'.nextServer

theorem Within.refl (x : Exchange) (address : String) (server client : Nat) :
    Within x x address server client :=
  ⟨fun _ _ => rfl, fun _ _ => rfl, fun _ _ => rfl, Nat.le_refl _⟩

section Frame

variable {x x' : Exchange} {address a : String} {server client id k : Nat}

theorem Serves.congr {requests : List (Bytes × Nat)} {pending : Option Nat}
    (h : Serves x a k requests pending) (hbound : x'.bound.at? a = x.bound.at? a)
    (hserver : x'.servers.at? k = x.servers.at? k) : Serves x' a k requests pending where
  bound := hbound.trans h.bound
  found := by
    rw [hserver]
    exact h.found

theorem Retired.congr (h : Retired x a k) (hbound : x'.bound.at? a = x.bound.at? a)
    (hserver : x'.servers.at? k = x.servers.at? k) : Retired x' a k where
  unbound := hbound.trans h.unbound
  gone := hserver.trans h.gone

theorem Attends.within {reply : Option Bytes} (h : Attends x a k id reply)
    (hx : Within x x' address server client) (hid : id ≠ client) : Attends x' a k id reply := by
  rw [Attends, hx.clients id hid]
  exact h

end Frame

/-! ## Coming -/

variable {x : Exchange} {address : String} {server client : Nat} {reply : Option Bytes}

/-- Nobody has the address yet, and a client of it knows nobody. -/
structure Awaits (x : Exchange) (address : String) (client : Nat) : Prop where
  unbound : x.bound.at? address = none
  found : ∃ c, x.clients.at? client = some c ∧ c.address = address ∧ c.server = none ∧
    c.reply = none

theorem Awaits.within {x' : Exchange} {a : String} {id : Nat} (h : Awaits x a id)
    (hx : Within x x' address server client) (ha : a ≠ address) (hid : id ≠ client) :
    Awaits x' a id where
  unbound := (hx.bound a ha).trans h.unbound
  found := by
    rw [hx.clients id hid]
    exact h.found

theorem serve_of_awaits (h : Awaits x address client) {limit : Duration} {depth id : Nat}
    {x' : Exchange} (hserve : x.serve address limit depth = .ok (id, x')) :
    id = x.nextServer ∧ x'.nextServer = id + 1 ∧ Serves x' address id [] none ∧
      Attends x' address id client none ∧ Within x x' address id client := by
  have hfree : ¬ (x.bound.at? address).isSome := by simp [h.unbound]
  rw [serve, if_neg hfree] at hserve
  cases hserve
  obtain ⟨c, hc, haddress, hnone, hreply⟩ := h.found
  refine ⟨rfl, rfl, ⟨Table.at?_put_self .., ?_⟩, ⟨c, hc, haddress, hreply, .inl hnone⟩, ?_⟩
  · have hcapacity := Nat.lt_of_lt_of_le Nat.one_pos (Nat.le_max_right depth 1)
    exact ⟨_, Table.at?_put_self .., rfl, rfl, rfl, hcapacity⟩
  · exact {
      bound := fun a ha => Table.at?_put_of_ne ha ..
      servers := fun id hid => Table.at?_put_of_ne hid ..
      clients := fun _ _ => rfl
      nextServer := Nat.le_succ _ }

/-! ## Requests -/

theorem request_of_serves (hserver : Serves x address server [] none)
    (hclient : Attends x address server client reply) (message : Bytes) :
    ∃ x', x.request client message = (.ok (), x') ∧
      Serves x' address server [(message, client)] none ∧ Attends x' address server client reply ∧
      Within x x' address server client := by
  obtain ⟨hbound, s, hs, haddress, hrequests, hpending, hcapacity⟩ := hserver
  obtain ⟨c, hc, hcaddress, hreply, hknown⟩ := hclient
  have hfound : (c.server <|> x.bound.at? c.address) = some server := by
    rw [hcaddress, hbound]
    rcases hknown with hknown | hknown <;> rw [hknown] <;> rfl
  have hroom : s.requests.length < s.capacity := by
    rw [hrequests]
    exact hcapacity
  refine ⟨{ x with
    clients := x.clients.put client { c with server := some server }
    servers := x.servers.put server { s with requests := s.requests ++ [(message, client)] } },
    ?_, ⟨hbound, ?_⟩, ?_, ⟨fun _ _ => rfl, ?_, ?_, Nat.le_refl _⟩⟩
  · simp only [request, hc, hfound, hs, hroom, if_true]
  · refine ⟨_, Table.at?_put_self .., haddress, ?_, hpending, hcapacity⟩
    rw [hrequests]
    rfl
  · exact ⟨_, Table.at?_put_self .., hcaddress, hreply, .inr rfl⟩
  · exact fun id hid => Table.at?_put_of_ne hid ..
  · exact fun id hid => Table.at?_put_of_ne hid ..

theorem request_of_awaits (h : Awaits x address client) (message : Bytes) :
    x.request client message = (.error (.transport (.noReplier address)), x) := by
  obtain ⟨hbound, c, hc, rfl, hnone, -⟩ := h
  have hfound : (c.server <|> x.bound.at? c.address) = none := by
    rw [hnone, hbound]
    rfl
  simp only [request, hc, hfound]

theorem takeRequest_of_serves {message : Bytes}
    (h : Serves x address server [(message, client)] none) :
    ∃ x', x.takeRequest server = (.ok (some message), x') ∧
      Serves x' address server [] (some client) ∧ x'.clients = x.clients ∧
      Within x x' address server client := by
  obtain ⟨hbound, s, hs, haddress, hrequests, hpending, hcapacity⟩ := h
  refine ⟨{ x with
    servers := x.servers.put server { s with requests := [], pending := some client } },
    ?_, ⟨hbound, ?_⟩, rfl, ⟨fun _ _ => rfl, ?_, fun _ _ => rfl, Nat.le_refl _⟩⟩
  · simp only [takeRequest, hs, hpending, hrequests, Option.isSome_none, Bool.false_eq_true,
      if_false]
  · exact ⟨_, Table.at?_put_self .., haddress, rfl, rfl, hcapacity⟩
  · exact fun id hid => Table.at?_put_of_ne hid ..

theorem takeRequest_of_nil (h : Serves x address server [] none) :
    x.takeRequest server = (.ok none, x) := by
  obtain ⟨-, s, hs, -, hrequests, hpending, -⟩ := h
  simp only [takeRequest, hs, hpending, hrequests, Option.isSome_none, Bool.false_eq_true, if_false]

/-! ## Replies -/

theorem reply_of_serves (hserver : Serves x address server [] (some client))
    (hclient : Attends x address server client none) (message : Bytes) :
    x.mustWait server = false ∧ ∃ x', x.reply server message = (.ok (), x') ∧
      Serves x' address server [] none ∧ Attends x' address server client (some message) ∧
      Within x x' address server client := by
  obtain ⟨hbound, s, hs, haddress, hrequests, hpending, hcapacity⟩ := hserver
  obtain ⟨c, hc, hcaddress, hreply, hknown⟩ := hclient
  constructor
  · simp [mustWait, hs, hpending, hc, hreply]
  refine ⟨{ x with
    servers := x.servers.put server { s with pending := none }
    clients := x.clients.put client { c with reply := some message } },
    ?_, ⟨hbound, ?_⟩, ?_, ⟨fun _ _ => rfl, ?_, ?_, Nat.le_refl _⟩⟩
  · simp only [Exchange.reply, hs, hpending, hc, hreply, Option.isSome_none, Bool.false_eq_true,
      if_false]
  · exact ⟨_, Table.at?_put_self .., haddress, hrequests, rfl, hcapacity⟩
  · exact ⟨_, Table.at?_put_self .., hcaddress, rfl, hknown⟩
  · exact fun id hid => Table.at?_put_of_ne hid ..
  · exact fun id hid => Table.at?_put_of_ne hid ..

theorem collect_of_attends (h : Attends x address server client reply) :
    ∃ x', x.collect client = (reply, x') ∧ Attends x' address server client none ∧
      x'.servers = x.servers ∧ x'.bound = x.bound ∧ Within x x' address server client := by
  obtain ⟨c, hc, hcaddress, hreply, hknown⟩ := h
  refine ⟨{ x with clients := x.clients.put client { c with reply := none } }, ?_, ?_, rfl, rfl,
    ⟨fun _ _ => rfl, fun _ _ => rfl, ?_, Nat.le_refl _⟩⟩
  · simp only [collect, hc, hreply]
  · exact ⟨_, Table.at?_put_self .., hcaddress, rfl, hknown⟩
  · exact fun id hid => Table.at?_put_of_ne hid ..

theorem retire_of_serves {requests : List (Bytes × Nat)} {pending : Option Nat}
    (h : Serves x address server requests pending) (client : Nat) :
    Retired (x.retire server) address server ∧ (x.retire server).clients = x.clients ∧
      Within x (x.retire server) address server client := by
  obtain ⟨hbound, s, hs, haddress, -⟩ := h
  have heq : x.retire server =
      { x with bound := x.bound.without address, servers := x.servers.without server } := by
    simp only [retire, hs, haddress]
  rw [heq]
  refine ⟨⟨?_, ?_⟩, rfl, ⟨?_, ?_, fun _ _ => rfl, Nat.le_refl _⟩⟩
  · rw [Table.at?_without, if_pos rfl]
  · rw [Table.at?_without, if_pos rfl]
  · intro a ha
    rw [Table.at?_without, if_neg ha]
  · intro id hid
    rw [Table.at?_without, if_neg hid]

end Exchange

end Stepcast
