import Stepcast.Proofs.Archive.Alike
import Stepcast.Reader

/-!
# Networks that are alike

Two networks are alike when the same parties are there and the messages that wait for readers are
variants of each other, one by one. A link gets variants from them and goes on in the same way, and
they stay alike when variants are published in them.

Main statements: `Network.Alike.receive`, `Network.Alike.requestAll`, `Broadcast.Alike.publish`.
-/

namespace Stepcast

section Alike

variable (operators : Operators)

/-- The inboxes hold variants. -/
structure Inbox.Alike (i i' : Inbox) : Prop where
  address : i'.address = i.address
  capacity : i'.capacity = i.capacity
  messages : List.Forall₂ (Variants operators) i.messages i'.messages

/-- The publishers and subscribers are the same, and the inboxes hold variants. -/
structure Broadcast.Alike (b b' : Broadcast) : Prop where
  topics : b'.topics = b.topics
  inboxes : ∀ (id : Nat), Option.Rel (Inbox.Alike operators) (b.inboxes.at? id) (b'.inboxes.at? id)

/-- The clients wait for the same server, or have variants for a reply. -/
structure Client.Alike (c c' : Client) : Prop where
  address : c'.address = c.address
  limit : c'.limit = c.limit
  server : c'.server = c.server
  reply : Option.Rel (Variants operators) c.reply c'.reply

/-- The servers and clients are the same, and the replies are variants. -/
structure Exchange.Alike (x x' : Exchange) : Prop where
  bound : x'.bound = x.bound
  servers : x'.servers = x.servers
  clients : ∀ (id : Nat), Option.Rel (Client.Alike operators) (x.clients.at? id) (x'.clients.at? id)

/-- The networks differ in the messages that wait for readers, and these are variants. -/
structure Network.Alike (n n' : Network) : Prop where
  broadcast : n.broadcast.Alike operators n'.broadcast
  exchange : n.exchange.Alike operators n'.exchange

end Alike

section Network

variable {operators : Operators} {n n' : Network} {message message' : Bytes}

theorem Variants.isEmpty_eq (h : Variants operators message message') :
    message'.isEmpty = message.isEmpty := by
  cases h with
  | same => rfl
  | calls _ _ _ =>
    rw [Draft.message, Draft.message, List.isEmpty_eq_false_iff.mpr (Draft.finish_ne_nil _),
      List.isEmpty_eq_false_iff.mpr (Draft.finish_ne_nil _)]

theorem Network.Alike.refl (operators : Operators) (n : Network) : n.Alike operators n := by
  have hrefl {α : Type} {R : α → α → Prop} (hR : ∀ x, R x x) (o : Option α) : Option.Rel R o o := by
    cases o with
    | none => exact .none
    | some x => exact .some (hR x)
  refine ⟨⟨rfl, fun id => hrefl (fun i => ?_) _⟩, ⟨rfl, rfl, fun id => hrefl (fun c => ?_) _⟩⟩
  · exact ⟨rfl, rfl, List.forall₂_same.mpr fun m _ => .same m⟩
  · exact ⟨rfl, rfl, rfl, hrefl .same _⟩

/-! ## Receiving -/

/-- **A link gets variants** from networks that are alike. -/
theorem Network.Alike.receive (h : n.Alike operators n') (l : Link) :
    List.Forall₂ (Variants operators) (l.receive n).1 (l.receive n').1 ∧
      (l.receive n').2.1 = (l.receive n).2.1 ∧ (l.receive n').2.2.1 = (l.receive n).2.2.1 := by
  unfold Link.receive
  split
  · next id _ _ =>
    have hinbox := h.broadcast.inboxes id
    unfold Broadcast.receiveAll
    generalize n.broadcast.inboxes.at? id = o at hinbox
    generalize n'.broadcast.inboxes.at? id = o' at hinbox
    cases hinbox with
    | none => exact ⟨.nil, rfl, rfl⟩
    | some hinbox =>
      refine ⟨hinbox.messages, ?_, rfl⟩
      show (!_) = (!_)
      rw [Broadcast.topic, h.broadcast.topics, hinbox.address, Broadcast.topic]
  · next id _ _ =>
    have hclient := h.exchange.clients id
    unfold Exchange.collect
    generalize n.exchange.clients.at? id = o at hclient
    generalize n'.exchange.clients.at? id = o' at hclient
    cases hclient with
    | none => exact ⟨.nil, rfl, rfl⟩
    | @some c c' hclient =>
      have hreply := hclient.reply
      dsimp only
      generalize c.reply = reply at hreply
      generalize c'.reply = reply' at hreply
      cases hreply with
      | none => exact ⟨.nil, rfl, rfl⟩
      | some hvariants =>
        dsimp only
        rw [hvariants.isEmpty_eq]
        split
        · exact ⟨.nil, rfl, rfl⟩
        · exact ⟨.cons hvariants .nil, rfl, rfl⟩
  · exact ⟨.nil, rfl, rfl⟩

/-! ## Requesting -/

theorem Exchange.Alike.request {x x' : Exchange} (h : x.Alike operators x') (id : Nat)
    (request : Bytes) : (x'.request id request).1 = (x.request id request).1 ∧
      (x.request id request).2.Alike operators (x'.request id request).2 := by
  obtain ⟨bound, servers, clients, nextServer, nextClient⟩ := x
  obtain ⟨bound', servers', clients', nextServer', nextClient'⟩ := x'
  have hclients := h.clients
  have hclient := h.clients id
  cases h.bound
  cases h.servers
  unfold Exchange.request
  dsimp only at hclients hclient ⊢
  generalize clients.at? id = o at hclient
  generalize clients'.at? id = o' at hclient
  cases hclient with
  | none => exact ⟨rfl, h⟩
  | @some c c' hclient =>
    obtain ⟨address, limit, server, reply⟩ := c
    obtain ⟨address', limit', server', reply'⟩ := c'
    obtain ⟨haddress, hlimit, hserver, hreply⟩ := hclient
    cases haddress
    cases hlimit
    cases hserver
    have hput (server : Option Nat) := Table.rel_put hclients id
      (show Client.Alike operators ⟨address, limit, server, reply⟩ ⟨address, limit, server, reply'⟩
        from ⟨rfl, rfl, rfl, hreply⟩)
    dsimp only
    split
    · exact ⟨rfl, h⟩
    · split
      · exact ⟨rfl, rfl, rfl, hput none⟩
      · split
        · exact ⟨rfl, rfl, rfl, hput _⟩
        · exact ⟨rfl, rfl, rfl, hput _⟩

/-- **A request has the same effect** on networks that are alike. -/
theorem Network.Alike.request (h : n.Alike operators n') (l : Link) :
    (l.request n').1 = (l.request n).1 ∧ (l.request n).2.Alike operators (l.request n').2 := by
  unfold Link.request
  split
  · next id _ _ =>
    obtain ⟨hsent, hexchange⟩ := h.exchange.request id stepRequest
    dsimp only
    rw [hsent]
    split <;> exact ⟨rfl, h.broadcast, hexchange⟩
  · exact ⟨rfl, h⟩

theorem Network.Alike.requestAll (h : n.Alike operators n') (links : List Link) :
    (Reader.requestAll links n').1 = (Reader.requestAll links n).1 := by
  induction links generalizing n n' with
  | nil => rfl
  | cons l rest ih =>
    obtain ⟨hl, hafter⟩ := h.request l
    have hrest := ih hafter
    simp only [Reader.requestAll]
    rw [hl, hrest]

/-! ## Publishing -/

/-- **Variants can be published**: the same inboxes take them. -/
theorem Broadcast.Alike.publish {b b' : Broadcast} (h : b.Alike operators b')
    (hmessage : Variants operators message message') (address : String) :
    (b.publish address message).2.Alike operators (b'.publish address message').2 := by
  have hpresent : b'.isPresent = b.isPresent := by
    funext id
    have hinbox := h.inboxes id
    unfold isPresent
    generalize b.inboxes.at? id = o at hinbox
    generalize b'.inboxes.at? id = o' at hinbox
    cases hinbox <;> rfl
  have hroom : b'.hasRoom = b.hasRoom := by
    funext id
    have hinbox := h.inboxes id
    unfold hasRoom
    generalize b.inboxes.at? id = o at hinbox
    generalize b'.inboxes.at? id = o' at hinbox
    cases hinbox with
    | none => rfl
    | some hinbox => simp only [Option.any_some, hinbox.messages.length_eq, hinbox.capacity]
  have htopic : b'.topic address = b.topic address := by
    rw [topic, h.topics, topic]
  have htakers : b'.takers address = b.takers address := by
    rw [takers, htopic, hroom, takers]
  refine ⟨?_, fun id => ?_⟩
  · simp only [Broadcast.publish, h.topics, htopic, hpresent]
  · have hinbox := h.inboxes id
    have hat (b : Broadcast) (message : Bytes) : (b.publish address message).2.inboxes.at? id =
        (b.inboxes.at? id).map (fun i => if id ∈ b.takers address then i.push message else i) :=
      Table.at?_map (fun h => h)
        (fun id (i : Inbox) => if id ∈ b.takers address then i.push message else i) b.inboxes id
    rw [hat, hat, htakers]
    generalize b.inboxes.at? id = o at hinbox
    generalize b'.inboxes.at? id = o' at hinbox
    cases hinbox with
    | none => exact .none
    | some hinbox =>
      rw [Option.map_some, Option.map_some]
      split
      · exact .some ⟨hinbox.address, hinbox.capacity,
          List.rel_append hinbox.messages (.cons hmessage .nil)⟩
      · exact .some hinbox

end Network

end Stepcast
