import Stepcast.Proofs.Tables
import Stepcast.Reader.Link

/-!
# Many clients of one server

What requests and replies do when a server has any number of clients. A request makes no reply come
or go, a reply reaches one client, and a client takes nothing but its own reply. So a step of a
responder delivers the message that it has in hand to one client, or keeps all its messages.

Main statements: `Exchange.request_spec`, `Exchange.reply_of_tends`, `Responder.step?_spec`,
`Link.receive_spec`.
-/

namespace Stepcast

/-! ## The exchange -/

namespace Exchange

/-- The reply that waits for a client. -/
def waiting (x : Exchange) (client : Nat) : Option Bytes := (x.clients.at? client).bind Client.reply

/-- The message that waits for a client, if it is not empty. -/
def unread (x : Exchange) (client : Nat) : List Bytes :=
  (x.waiting client).toList.filter (fun m => m ≠ [])

/-- The server is there and has a client to answer, or not, as `busy` says; it knows of no client
that is not there. -/
def Tends (x : Exchange) (server : Nat) (busy : Bool) : Prop :=
  ∃ s, x.servers.at? server = some s ∧ s.pending.isSome = busy ∧
    ∀ client, client ∈ s.requests.map Prod.snd ∨ s.pending = some client →
      (x.clients.at? client).isSome

/-- The same clients are there. -/
structure SameClients (x x' : Exchange) : Prop where
  isSome : ∀ i, (x'.clients.at? i).isSome = (x.clients.at? i).isSome
  next : x'.nextClient = x.nextClient

/-- The same clients are there, and the same replies wait for them. -/
structure Quiet (x x' : Exchange) : Prop extends SameClients x x' where
  waiting : ∀ i, x'.waiting i = x.waiting i

section Many

variable {x x' : Exchange} {server client : Nat} {busy : Bool} {message : Bytes}

theorem quiet_of_eq (hclients : x'.clients = x.clients) (hnext : x'.nextClient = x.nextClient) :
    Quiet x x' where
  isSome := by simp [hclients]
  next := hnext
  waiting := by simp [Exchange.waiting, hclients]

theorem Quiet.trans {x'' : Exchange} (h : Quiet x x') (h' : Quiet x' x'') : Quiet x x'' where
  isSome := fun i => (h'.isSome i).trans (h.isSome i)
  next := h'.next.trans h.next
  waiting := fun i => (h'.waiting i).trans (h.waiting i)

theorem Tends.congr (h : Tends x server busy) (hclients : SameClients x x')
    (hserver : x'.servers.at? server = x.servers.at? server) : Tends x' server busy := by
  obtain ⟨s, hs, hpending, hthere⟩ := h
  refine ⟨s, hserver.trans hs, hpending, ?_⟩
  intro client hclient
  rw [hclients.isSome]
  exact hthere client hclient

theorem Tends.enqueue {s : Server} (h : Tends x server busy) (hs : x.servers.at? server = some s)
    (hclients : SameClients x x') (hthere : (x.clients.at? client).isSome)
    (hserver : x'.servers.at? server =
      some { s with requests := s.requests ++ [(message, client)] }) : Tends x' server busy := by
  obtain ⟨s', hs', hpending, hall⟩ := h
  cases hs.symm.trans hs'
  refine ⟨_, hserver, hpending, ?_⟩
  intro i hi
  rw [hclients.isSome]
  simp only [List.map_append, List.map_cons, List.map_nil, List.mem_append,
    List.mem_singleton] at hi
  rcases hi with (hi | rfl) | hi
  · exact hall i (.inl hi)
  · exact hthere
  · exact hall i (.inr hi)

theorem sameClients_of_put {c c' : Client} (hc : x.clients.at? client = some c)
    (hclients : x'.clients = x.clients.put client c') (hnext : x'.nextClient = x.nextClient) :
    SameClients x x' where
  isSome := fun i => by rw [hclients, Table.isSome_at?_put hc]
  next := hnext

theorem waiting_of_put {c' : Client} {reply : Option Bytes}
    (hclients : x'.clients = x.clients.put client c') (hreply : c'.reply = reply) (i : Nat) :
    x'.waiting i = if i = client then reply else x.waiting i := by
  rw [waiting, waiting, hclients, Table.at?_put]
  by_cases hi : i = client <;> simp [hi, hreply]

theorem quiet_of_put {c c' : Client} (hc : x.clients.at? client = some c)
    (hclients : x'.clients = x.clients.put client c') (hnext : x'.nextClient = x.nextClient)
    (hreply : c'.reply = c.reply) : Quiet x x' where
  toSameClients := sameClients_of_put hc hclients hnext
  waiting := by
    intro i
    rw [waiting_of_put hclients hreply]
    by_cases hi : i = client
    · simp [hi, waiting, hc]
    · simp [hi]

theorem request_spec {result : Except Fault Unit} (h : x.request client message = (result, x')) :
    Quiet x x' ∧ ∀ server busy, Tends x server busy → Tends x' server busy := by
  unfold request at h
  cases hc : x.clients.at? client with
  | none =>
    simp only [hc] at h
    cases h
    exact ⟨quiet_of_eq rfl rfl, fun _ _ => id⟩
  | some c =>
    simp only [hc] at h
    split at h
    · cases h
      exact ⟨quiet_of_eq rfl rfl, fun _ _ => id⟩
    · rename_i found _
      split at h
      · cases h
        have hquiet : Quiet x { x with
            clients := x.clients.put client { c with server := none } } :=
          quiet_of_put hc rfl rfl rfl
        exact ⟨hquiet, fun _ _ htends => htends.congr hquiet.toSameClients rfl⟩
      · rename_i s hs
        split at h
        · cases h
          have hquiet : Quiet x { x with
              clients := x.clients.put client { c with server := some found }
              servers := x.servers.put found { s with
                requests := s.requests ++ [(message, client)] } } :=
            quiet_of_put hc rfl rfl rfl
          refine ⟨hquiet, ?_⟩
          intro server busy htends
          by_cases hfound : server = found
          · subst hfound
            exact htends.enqueue hs hquiet.toSameClients (by simp [hc]) (Table.at?_put_self ..)
          · exact htends.congr hquiet.toSameClients (Table.at?_put_of_ne hfound ..)
        · cases h
          have hquiet : Quiet x { x with
              clients := x.clients.put client { c with server := some found } } :=
            quiet_of_put hc rfl rfl rfl
          exact ⟨hquiet, fun _ _ htends => htends.congr hquiet.toSameClients rfl⟩

theorem collect_spec {reply : Option Bytes} (h : x.collect client = (reply, x')) :
    reply = x.waiting client ∧ SameClients x x' ∧
      (∀ i, x'.waiting i = if i = client then none else x.waiting i) ∧
      ∀ server busy, Tends x server busy → Tends x' server busy := by
  unfold collect at h
  cases hc : x.clients.at? client with
  | none =>
    rw [hc] at h
    cases h
    refine ⟨?_, (quiet_of_eq rfl rfl).toSameClients, ?_, fun _ _ => id⟩
    · simp [waiting, hc]
    · intro i
      by_cases hi : i = client
      · simp [hi, waiting, hc]
      · simp [hi]
  | some c =>
    rw [hc] at h
    cases h
    have hsame : SameClients x
        { x with clients := x.clients.put client { c with reply := none } } :=
      sameClients_of_put hc rfl rfl
    refine ⟨?_, hsame, waiting_of_put rfl rfl, fun _ _ htends => htends.congr hsame rfl⟩
    simp [waiting, hc]

/-- A server that has nobody to answer takes the oldest request, if there is one. -/
theorem takeRequest_of_tends (h : Tends x server false) :
    x.takeRequest server = (.ok none, x) ∨
      ∃ message x', x.takeRequest server = (.ok (some message), x') ∧ Quiet x x' ∧
        Tends x' server true := by
  obtain ⟨s, hs, hpending, hthere⟩ := h
  unfold takeRequest
  simp only [hs, hpending, Bool.false_eq_true, if_false]
  cases hrequests : s.requests with
  | nil => exact .inl rfl
  | cons p requests =>
    obtain ⟨message, client⟩ := p
    refine .inr ⟨message, _, rfl, quiet_of_eq rfl rfl, _, Table.at?_put_self .., rfl, ?_⟩
    intro i hi
    refine hthere i (.inl ?_)
    rw [hrequests, List.map_cons, List.mem_cons]
    exact hi.elim .inr (fun heq => .inl (Option.some.inj heq).symm)

/-- The message has come to wait for a client that nothing waited for. -/
structure Delivers (x x' : Exchange) (client : Nat) (message : Bytes) : Prop
    extends SameClients x x' where
  free : x.waiting client = none
  waiting : ∀ i, x'.waiting i = if i = client then some message else x.waiting i

theorem Delivers.unread (h : Delivers x x' client message) (i : Nat) : x'.unread i =
    x.unread i ++ if i = client then [message].filter (fun m => m ≠ []) else [] := by
  simp only [Exchange.unread, h.waiting]
  by_cases hi : i = client
  · simp [hi, h.free]
  · simp [hi]

/-- A reply reaches the client that asked, if nothing waits for it, or nobody. -/
theorem reply_of_tends (h : Tends x server true) (message : Bytes) :
    ∃ result x', x.reply server message = (result, x') ∧ Tends x' server false ∧
      ((∃ f, result = .error f) ∧ Quiet x x' ∨
        result = .ok () ∧ ∃ client, Delivers x x' client message) := by
  obtain ⟨s, hs, hpending, hthere⟩ := h
  obtain ⟨client, hclient⟩ := Option.isSome_iff_exists.mp hpending
  obtain ⟨c, hc⟩ := Option.isSome_iff_exists.mp (hthere client (.inr hclient))
  -- The server has answered, whatever becomes of the reply.
  have htends (x' : Exchange) (hsame : SameClients x x')
      (hserver : x'.servers.at? server = some { s with pending := none }) :
      Tends x' server false := by
    refine ⟨_, hserver, rfl, ?_⟩
    intro i hi
    rw [hsame.isSome]
    refine hthere i (.inl ?_)
    simpa using hi
  unfold reply
  simp only [hs, hclient, hc]
  by_cases hreply : c.reply.isSome
  · rw [if_pos hreply]
    have hquiet : Quiet x
        { x with servers := x.servers.put server { s with pending := none } } :=
      quiet_of_eq rfl rfl
    exact ⟨_, _, rfl, htends _ hquiet.toSameClients (Table.at?_put_self ..),
      .inl ⟨⟨_, rfl⟩, hquiet⟩⟩
  · rw [if_neg hreply]
    have hsame (x' : Exchange)
        (hclients : x'.clients = x.clients.put client { c with reply := some message })
        (hnext : x'.nextClient = x.nextClient) : SameClients x x' :=
      sameClients_of_put hc hclients hnext
    refine ⟨_, _, rfl, htends _ (hsame _ rfl rfl) (Table.at?_put_self ..), .inr ⟨rfl, client,
      hsame _ rfl rfl, ?_, waiting_of_put rfl rfl⟩⟩
    simpa [waiting, hc] using hreply

theorem connect_spec {address : String} {limit : Duration}
    (hfresh : x.clients.at? x.nextClient = none) (h : x.connect address limit = (client, x')) :
    client = x.nextClient ∧ x'.nextClient = x.nextClient + 1 ∧
      (∀ i, (x'.clients.at? i).isSome ↔ i = x.nextClient ∨ (x.clients.at? i).isSome) ∧
      (∀ i, x'.waiting i = x.waiting i) ∧
      ∀ server busy, Tends x server busy → Tends x' server busy := by
  cases h
  have hthere (i : Nat) : ((x.connect address limit).2.clients.at? i).isSome ↔
      i = x.nextClient ∨ (x.clients.at? i).isSome := by
    simp only [connect, Table.at?_put]
    by_cases hi : i = x.nextClient <;> simp [hi]
  refine ⟨rfl, rfl, hthere, ?_, ?_⟩
  · intro i
    rw [waiting_of_put rfl rfl]
    by_cases hi : i = x.nextClient
    · simp [hi, waiting, hfresh]
    · simp [hi]
  · intro server busy htends
    obtain ⟨s, hs, hpending, hclients⟩ := htends
    exact ⟨s, hs, hpending, fun i hi => (hthere i).mpr (.inr (hclients i hi))⟩

theorem quiet_retire (x : Exchange) (server : Nat) : Quiet x (x.retire server) := by
  unfold retire
  split
  · exact quiet_of_eq rfl rfl
  · exact quiet_of_eq rfl rfl

end Many

end Exchange

/-! ## The responder -/

namespace Responder

open Exchange

/-- There is a request that the responder has to answer. -/
def Phase.isBusy : Phase → Bool
  | .refusing | .serving | .parting | .releasing => true
  | .listening | .dismissing | .finished => false

/-- Until the responder has left, its server is there, with a client to answer when the phase says
so. -/
def Ready (r : Responder) (x : Exchange) : Prop :=
  r.phase ≠ .finished → Tends x r.server r.phase.isBusy

/-- The messages that wait in the responder, the next one first. -/
def kept (r : Responder) : List Outgoing := r.held.toList ++ r.outbox.messages

section Answering

variable {r r' : Responder} {x x' : Exchange} {waited : Duration}

theorem reply?_spec {message : Bytes} {sent : Bool} (h : Tends x r.server true)
    (hr : r.reply? waited x message = some (sent, x')) : Tends x' r.server false ∧
      (sent = false ∧ Quiet x x' ∨ sent = true ∧ ∃ client, Delivers x x' client message) := by
  obtain ⟨result, x₁, hreply, htends, hresult⟩ := reply_of_tends h message
  unfold reply? at hr
  rw [hreply] at hr
  split at hr
  · cases hr
  · rcases hresult with ⟨⟨f, rfl⟩, hquiet⟩ | ⟨rfl, hdelivers⟩
    · cases hr
      exact ⟨htends, .inl ⟨rfl, hquiet⟩⟩
    · cases hr
      exact ⟨htends, .inr ⟨rfl, hdelivers⟩⟩

/-- What a step of a responder does besides going to another phase: it delivers the next message to
one client, it sends one an empty reply, or nothing reaches a client. -/
inductive Effect (r : Responder) (x : Exchange) (r' : Responder) (x' : Exchange) : Prop
  | delivers (client : Nat) (m : Outgoing) : Delivers x x' client m.bytes →
      r.kept = m :: r'.kept → r'.tally.released = r.tally.released + 1 → Effect r x r' x'
  | dismisses (client : Nat) : Delivers x x' client [] → r'.kept = r.kept →
      r'.tally.released = r.tally.released → Effect r x r' x'
  | rests : Quiet x x' → r'.kept = r.kept → r'.tally.released = r.tally.released →
      Effect r x r' x'

theorem Ready.tends {phase : Phase} (h : r.Ready x) (hphase : r.phase = phase)
    (hne : phase ≠ .finished) : Tends x r.server phase.isBusy := by
  subst hphase
  exact h hne

theorem dismiss_spec {sent : Bool} (next : Phase) (h : Tends x r.server true)
    (hreply : r.reply? waited x [] = some (sent, x')) (hnext : next.isBusy = false) :
    ({ r with phase := next } : Responder).Ready x' ∧ Effect r x { r with phase := next } x' := by
  obtain ⟨htends, hresult⟩ := reply?_spec h hreply
  refine ⟨fun _ => hnext ▸ htends, ?_⟩
  rcases hresult with ⟨-, hquiet⟩ | ⟨-, client, hdelivers⟩
  · exact .rests hquiet rfl rfl
  · exact .dismisses client hdelivers rfl rfl

theorem fetch?_spec (hheld : r.held = none) (hbusy : r.phase.isBusy = true)
    (h : r.fetch? = some r') : r'.server = r.server ∧ r'.accepted = r.accepted ∧
      r'.phase.isBusy = true ∧ r'.kept = r.kept ∧ r'.tally.released = r.tally.released := by
  unfold fetch? Outbox.tryReceive at h
  cases hmessages : r.outbox.messages with
  | nil =>
    simp only [hmessages] at h
    split at h
    · cases h
      exact ⟨rfl, rfl, rfl, rfl, rfl⟩
    · cases h
  | cons m rest =>
    simp only [hmessages] at h
    cases h
    exact ⟨rfl, rfl, hbusy, by simp [kept, hheld, hmessages], rfl⟩

/-- **A step of a responder** that may have many clients. -/
theorem step?_spec (h : r.Ready x) (hs : r.step? waited x = some (r', x')) :
    r'.Ready x' ∧ r'.accepted = r.accepted ∧ Effect r x r' x' := by
  unfold step? at hs
  cases hphase : r.phase with
  | listening =>
    have htends := h.tends hphase (by decide)
    simp only [hphase] at hs
    split at hs
    · cases hs
      exact ⟨fun _ => htends, rfl, .rests (quiet_of_eq rfl rfl) rfl rfl⟩
    · rcases takeRequest_of_tends htends with htake | ⟨request, x₁, htake, hquiet, htends⟩
      · rw [htake] at hs
        cases hs
      · rw [htake] at hs
        cases hs
        have hbusy : (r.requested request).phase.isBusy = true := by
          rw [requested]
          split <;> rfl
        exact ⟨fun _ => hbusy ▸ htends, rfl, .rests hquiet rfl rfl⟩
  | refusing =>
    simp only [hphase, Option.bind_eq_bind, Option.bind_eq_some_iff] at hs
    obtain ⟨⟨sent, x₁⟩, hreply, hs⟩ := hs
    cases hs
    obtain ⟨hready, heffect⟩ := dismiss_spec .listening (h.tends hphase (by decide)) hreply rfl
    exact ⟨hready, rfl, heffect⟩
  | serving =>
    have htends := h.tends hphase (by decide)
    simp only [hphase] at hs
    cases hheld : r.held with
    | none =>
      simp only [hheld, Option.map_eq_some_iff] at hs
      obtain ⟨r₁, hfetch, hs⟩ := hs
      cases hs
      obtain ⟨hserver, haccepted, hbusy, hkept, hreleased⟩ :=
        fetch?_spec hheld (by rw [hphase]; rfl) hfetch
      refine ⟨?_, haccepted, .rests (quiet_of_eq rfl rfl) hkept hreleased⟩
      intro _
      rw [hserver, hbusy]
      exact htends
    | some m =>
      simp only [hheld, Option.bind_eq_bind, Option.bind_eq_some_iff] at hs
      obtain ⟨⟨sent, x₁⟩, hreply, hs⟩ := hs
      cases hs
      obtain ⟨htends, hresult⟩ := reply?_spec htends hreply
      rcases hresult with ⟨rfl, hquiet⟩ | ⟨rfl, client, hdelivers⟩
      · exact ⟨fun _ => htends, rfl, .rests hquiet rfl rfl⟩
      · refine ⟨fun _ => htends, rfl, .delivers client m hdelivers ?_ rfl⟩
        simp [kept, replied, hheld]
  | parting =>
    simp only [hphase, Option.bind_eq_bind, Option.bind_eq_some_iff] at hs
    obtain ⟨⟨sent, x₁⟩, hreply, hs⟩ := hs
    cases hs
    obtain ⟨hready, heffect⟩ := dismiss_spec .dismissing (h.tends hphase (by decide)) hreply rfl
    exact ⟨hready, rfl, heffect⟩
  | dismissing =>
    simp only [hphase] at hs
    rcases takeRequest_of_tends (h.tends hphase (by decide)) with
      htake | ⟨request, x₁, htake, hquiet, htends⟩
    · rw [htake] at hs
      cases hs
      exact ⟨fun hne => absurd rfl hne, rfl, .rests (quiet_retire x r.server) rfl rfl⟩
    · rw [htake] at hs
      cases hs
      exact ⟨fun _ => htends, rfl, .rests hquiet rfl rfl⟩
  | releasing =>
    simp only [hphase, Option.bind_eq_bind, Option.bind_eq_some_iff] at hs
    obtain ⟨⟨sent, x₁⟩, hreply, hs⟩ := hs
    obtain ⟨htends, hresult⟩ := reply?_spec (h.tends hphase (by decide)) hreply
    rcases hresult with ⟨rfl, hquiet⟩ | ⟨rfl, client, hdelivers⟩
    · cases hs
      refine ⟨fun hne => absurd rfl hne, rfl, .rests ?_ rfl rfl⟩
      exact hquiet.trans (quiet_retire x₁ r.server)
    · cases hs
      exact ⟨fun _ => htends, rfl, .dismisses client hdelivers rfl rfl⟩
  | finished =>
    simp only [hphase] at hs
    cases hs

end Answering

end Responder

/-! ## Links -/

namespace Link

open Exchange

variable {l l' : Link} {n n' : Network} {client : Nat} {outstanding : Bool}

theorem request_spec (hl : l.channel = .client client outstanding)
    (h : l.request n = (l', n')) : (∃ outstanding', l'.channel = .client client outstanding') ∧
      Quiet n.exchange n'.exchange ∧ ∀ server busy, Tends n.exchange server busy →
        Tends n'.exchange server busy := by
  unfold request at h
  split at h
  · rename_i id hdone hchannel
    cases hl.symm.trans hchannel
    cases hsent : n.exchange.request client stepRequest with
    | mk sent exchange =>
      have hspec := Exchange.request_spec hsent
      rw [hsent] at h
      dsimp only at h
      split at h
      · cases h
        exact ⟨⟨true, rfl⟩, hspec⟩
      · cases h
        exact ⟨⟨false, hchannel⟩, hspec⟩
      · cases h
        exact ⟨⟨false, hchannel⟩, hspec⟩
  · cases h
    exact ⟨⟨outstanding, hl⟩, quiet_of_eq rfl rfl, fun _ _ => id⟩

theorem receive_spec {messages : List Bytes} {gone : Bool}
    (hl : l.channel = .client client outstanding) (h : l.receive n = (messages, gone, l', n')) :
    (∃ outstanding', l'.channel = .client client outstanding') ∧
      SameClients n.exchange n'.exchange ∧
      (∀ i, i ≠ client → n'.exchange.unread i = n.exchange.unread i) ∧
      messages ++ n'.exchange.unread client = n.exchange.unread client ∧
      ∀ server busy, Tends n.exchange server busy → Tends n'.exchange server busy := by
  unfold receive at h
  split at h
  · rename_i hchannel
    cases hl.symm.trans hchannel
  · rename_i id hdone hchannel
    cases hl.symm.trans hchannel
    cases hcollect : n.exchange.collect client with
    | mk reply exchange =>
      obtain ⟨hreply, hsame, hwaiting, htends⟩ := collect_spec hcollect
      have hnone : exchange.waiting client = none := by simp [hwaiting]
      have hothers (i : Nat) (hi : i ≠ client) : exchange.unread i = n.exchange.unread i := by
        simp [unread, hwaiting, hi]
      rw [hcollect] at h
      subst hreply
      cases hwaits : n.exchange.waiting client with
      | none =>
        simp only [hwaits] at h
        cases h
        exact ⟨⟨true, hchannel⟩, hsame, hothers, by simp [unread, hnone, hwaits], htends⟩
      | some message =>
        simp only [hwaits] at h
        by_cases hempty : message = []
        · subst hempty
          cases h
          exact ⟨⟨false, rfl⟩, hsame, hothers, by simp [unread, hnone, hwaits], htends⟩
        · simp only [List.isEmpty_iff, hempty, if_false] at h
          cases h
          exact ⟨⟨false, rfl⟩, hsame, hothers, by simp [unread, hnone, hwaits, hempty], htends⟩
  · cases h
    exact ⟨⟨outstanding, hl⟩, (quiet_of_eq rfl rfl).toSameClients, fun _ _ => rfl, rfl,
      fun _ _ => id⟩

end Link

end Stepcast
