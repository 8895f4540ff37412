import Stepcast.Proofs.Delivery.Answering
import Stepcast.Session.Reading
import Stepcast.Session.Writing

/-!
# Clients that leave

Clients may come, ask, collect and leave at any moment, and a request outlives the client that sent
it. When the responder comes to such a request, the reply counts as sent although nobody is there to
collect it, and the message is released like any other. So the messages that were released are those
that were placed with a client that was there, and those that were answered to a client that had
left, which nobody gets.

The invariant, `Lobby.Accounts`, gives each released message to the client whose request it
answered. What a client has collected, what it left behind and what waits for it are the messages
that were placed with it, in order.

Main statements: `Exchange.reply_of_attended`, `Lobby.Accounts.answer`, `Lobby.departed_run`,
`Session.successor_misses_step`.
-/

namespace Stepcast

/-! ## Exchanges that clients leave -/

namespace Exchange

/-- The server is there and has a request to answer, or not, as `busy` says. The clients that it
knows have come, and may have left. -/
def Attended (x : Exchange) (server : Nat) (busy : Bool) : Prop :=
  ∃ s, x.servers.at? server = some s ∧ s.pending.isSome = busy ∧
    ∀ client, client ∈ s.requests.map Prod.snd ∨ s.pending = some client → client < x.nextClient

/-- The client whose request the server has taken. -/
def asking (x : Exchange) (server : Nat) : Option Nat := (x.servers.at? server).bind Server.pending

/-- The client has come and left. -/
def Gone (x : Exchange) (client : Nat) : Prop :=
  client < x.nextClient ∧ x.clients.at? client = none

/-- Clients that are there have come. -/
def Numbered (x : Exchange) : Prop :=
  ∀ client, (x.clients.at? client).isSome → client < x.nextClient

section Leaving

variable {x x' : Exchange} {server client : Nat} {busy : Bool} {message : Bytes}

theorem Attended.congr (h : Attended x server busy) (hnext : x.nextClient ≤ x'.nextClient)
    (hserver : x'.servers.at? server = x.servers.at? server) : Attended x' server busy := by
  obtain ⟨s, hs, hpending, hcome⟩ := h
  exact ⟨s, hserver.trans hs, hpending, fun i hi => Nat.lt_of_lt_of_le (hcome i hi) hnext⟩

theorem Numbered.congr (h : Numbered x) (hsame : SameClients x x') : Numbered x' := by
  intro i hi
  rw [hsame.next]
  exact h i (hsame.isSome i ▸ hi)

theorem Numbered.connect (h : Numbered x) (address : String) (limit : Duration) :
    Numbered (x.connect address limit).2 := by
  intro i hi
  simp only [Exchange.connect, Table.at?_put] at hi ⊢
  split at hi
  · next hnew => exact hnew ▸ Nat.lt_succ_self _
  · exact Nat.lt_succ_of_lt (h i hi)

theorem Numbered.disconnect (h : Numbered x) (client : Nat) : Numbered (x.disconnect client) := by
  intro i hi
  rw [Exchange.disconnect, Table.at?_without] at hi
  split at hi
  · cases hi
  · exact h i hi

theorem Gone.congr (h : Gone x client) (hsame : SameClients x x') : Gone x' client := by
  obtain ⟨hcome, hnone⟩ := h
  refine ⟨hsame.next ▸ hcome, ?_⟩
  rw [← Option.not_isSome_iff_eq_none, hsame.isSome, Option.not_isSome_iff_eq_none]
  exact hnone

theorem Gone.connect (h : Gone x client) (address : String) (limit : Duration) :
    Gone (x.connect address limit).2 client :=
  ⟨Nat.lt_succ_of_lt h.1, (Table.at?_put_of_ne (Nat.ne_of_lt h.1) ..).trans h.2⟩

theorem Gone.disconnect (h : Gone x client) (other : Nat) : Gone (x.disconnect other) client := by
  refine ⟨h.1, ?_⟩
  rw [Exchange.disconnect, Table.at?_without, h.2, ite_self]

/-- A request may add itself to those that wait at a server, and changes nothing else there. -/
theorem exists_servers_request (client : Nat) (message : Bytes) {s : Server}
    (hs : x.servers.at? server = some s) :
    ∃ s', (x.request client message).2.servers.at? server = some s' ∧ s'.pending = s.pending ∧
      ∀ i ∈ s'.requests.map Prod.snd,
        i ∈ s.requests.map Prod.snd ∨ i = client ∧ (x.clients.at? client).isSome := by
  have hsame : ∀ i ∈ s.requests.map Prod.snd,
      i ∈ s.requests.map Prod.snd ∨ i = client ∧ (x.clients.at? client).isSome := fun _ => .inl
  unfold request
  split
  · exact ⟨s, hs, rfl, hsame⟩
  · next c hc =>
    split
    · exact ⟨s, hs, rfl, hsame⟩
    · next found _ =>
      split
      · exact ⟨s, hs, rfl, hsame⟩
      · next t ht =>
        dsimp only
        split
        · by_cases hfound : server = found
          · subst hfound
            cases hs.symm.trans ht
            refine ⟨_, Table.at?_put_self .., rfl, fun i hi => ?_⟩
            simp only [List.map_append, List.map_cons, List.map_nil, List.mem_append,
              List.mem_singleton] at hi
            exact hi.imp_right fun heq => ⟨heq, by rw [hc]; rfl⟩
          · exact ⟨s, (Table.at?_put_of_ne hfound ..).trans hs, rfl, hsame⟩
        · exact ⟨s, hs, rfl, hsame⟩

theorem Attended.request (h : Attended x server busy) (hnumbered : Numbered x) (client : Nat)
    (message : Bytes) : Attended (x.request client message).2 server busy := by
  obtain ⟨s, hs, hpending, hcome⟩ := h
  obtain ⟨s', hs', hpending', hrequests⟩ := exists_servers_request client message hs
  have hnext : (x.request client message).2.nextClient = x.nextClient :=
    (request_spec (Prod.eta _).symm).1.next
  refine ⟨s', hs', hpending' ▸ hpending, fun i hi => ?_⟩
  rw [hnext]
  rcases hi with hi | hi
  · rcases hrequests i hi with hi | ⟨rfl, hthere⟩
    · exact hcome i (.inl hi)
    · exact hnumbered i hthere
  · exact hcome i (.inr (hpending' ▸ hi))

theorem Attended.takeRequest (h : Attended x server false)
    (htake : x.takeRequest server = (.ok (some message), x')) :
    Attended x' server true ∧ Quiet x x' := by
  obtain ⟨s, hs, hpending, hcome⟩ := h
  unfold Exchange.takeRequest at htake
  simp only [hs, hpending, Bool.false_eq_true, if_false] at htake
  cases hrequests : s.requests with
  | nil =>
    rw [hrequests] at htake
    cases htake
  | cons p rest =>
    obtain ⟨request, client⟩ := p
    rw [hrequests] at htake
    cases htake
    refine ⟨⟨_, Table.at?_put_self .., rfl, fun i hi => hcome i (.inl ?_)⟩, quiet_of_eq rfl rfl⟩
    rw [hrequests, List.map_cons, List.mem_cons]
    exact hi.elim .inr fun heq => .inl (Option.some.inj heq).symm

/-- **A reply** comes to wait for the client that asked, if it is there and has room. It fails if
there is no room, and if the client has left it counts as sent. -/
theorem reply_of_attended (h : Attended x server true) (message : Bytes) :
    ∃ client result x', x.asking server = some client ∧ client < x.nextClient ∧
      x.reply server message = (result, x') ∧ Attended x' server false ∧
      ((x.clients.at? client).isSome = false ∧ result.isOk = true ∧ Quiet x x' ∨
        (x.clients.at? client).isSome ∧ result.isOk = false ∧ Quiet x x' ∨
        (x.clients.at? client).isSome ∧ result.isOk = true ∧ Delivers x x' client message) := by
  obtain ⟨s, hs, hpending, hcome⟩ := h
  obtain ⟨client, hclient⟩ := Option.isSome_iff_exists.mp hpending
  have hasking : x.asking server = some client := by rw [asking, hs]; exact hclient
  -- The server has answered, whatever becomes of the reply.
  have hattended (x' : Exchange) (hnext : x'.nextClient = x.nextClient)
      (hserver : x'.servers.at? server = some { s with pending := none }) :
      Attended x' server false := by
    refine ⟨_, hserver, rfl, fun i hi => ?_⟩
    rw [hnext]
    exact hcome i (.inl (by simpa using hi))
  refine ⟨client, ?_⟩
  unfold reply
  simp only [hs, hclient]
  cases hc : x.clients.at? client with
  | none =>
    exact ⟨_, _, hasking, hcome client (.inr hclient), rfl,
      hattended _ rfl (Table.at?_put_self ..), .inl ⟨rfl, rfl, quiet_of_eq rfl rfl⟩⟩
  | some c =>
    by_cases hreply : c.reply.isSome
    · simp only [if_pos hreply]
      exact ⟨_, _, hasking, hcome client (.inr hclient), rfl,
        hattended _ rfl (Table.at?_put_self ..), .inr (.inl ⟨rfl, rfl, quiet_of_eq rfl rfl⟩)⟩
    · simp only [if_neg hreply]
      refine ⟨_, _, hasking, hcome client (.inr hclient), rfl,
        hattended _ rfl (Table.at?_put_self ..), .inr (.inr ⟨rfl, rfl, ?_, ?_, ?_⟩)⟩
      · exact sameClients_of_put hc rfl rfl
      · simpa [waiting, hc] using hreply
      · exact waiting_of_put rfl rfl

/-- A client that leaves takes the reply that waits for it along. -/
theorem waiting_disconnect (x : Exchange) (client i : Nat) :
    (x.disconnect client).waiting i = if i = client then none else x.waiting i := by
  rw [waiting, disconnect, Table.at?_without]
  by_cases hi : i = client <;> simp [hi, waiting]

end Leaving

end Exchange

/-! ## A writer whose readers come and go -/

/-- A message that was released, the client whose request it answered, and whether that client was
there when the reply was sent. -/
structure Release where
  client : Nat
  message : Outgoing
  present : Bool
deriving DecidableEq

/-- The responder of a writer, and the clients that have come to it. -/
structure Lobby where
  exchange : Exchange
  responder : Responder
  /-- The messages that were handed over. -/
  given : List Outgoing := []
  /-- The messages that were released, in order. -/
  releases : List Release := []
  /-- The replies that were collected, with the clients that did. -/
  collected : List (Nat × Bytes) := []
  /-- The replies that waited for clients when they left. -/
  left : List (Nat × Bytes) := []

namespace Lobby

open Exchange Responder

/-- What can happen, in any order. A client that is not there does nothing. -/
inductive Event where
  | connect (limit : Duration)
  | request (client : Nat) (message : Bytes)
  | collect (client : Nat)
  | disconnect (client : Nat)
  | handOver (m : Outgoing)
  /-- The writer is gone. -/
  | abandon
  /-- The responder is told to shut down. -/
  | close
  /-- The responder takes its next step. -/
  | answer (waited : Duration)

/-- A writer has taken its address, and nobody has come. -/
def start? (settings : Settings) (address : String) : Option Lobby :=
  match Courier.open settings address {} with
  | .ok (.responder responder, network) => some { exchange := network.exchange, responder }
  | _ => none

/-- The releases after the next step of the responder, which counts one when it has sent a reply
with a message. -/
def noted (l : Lobby) : List Release :=
  match l.responder.answer?, l.exchange.asking l.responder.server with
  | some (some m), some client =>
    if (l.exchange.reply l.responder.server m.bytes).1.isOk then
      l.releases ++ [⟨client, m, (l.exchange.clients.at? client).isSome⟩]
    else l.releases
  | _, _ => l.releases

/-- The lobby after an event; nothing when it cannot happen. -/
def handle? (address : String) (l : Lobby) : Event → Option Lobby
  | .connect limit => some { l with exchange := (l.exchange.connect address limit).2 }
  | .request client message =>
    some { l with exchange := (l.exchange.request client message).2 }
  | .collect client =>
    let (reply, exchange) := l.exchange.collect client
    some { l with exchange, collected := l.collected ++ reply.toList.map (fun m => (client, m)) }
  | .disconnect client =>
    some { l with
      exchange := l.exchange.disconnect client
      left := l.left ++ (l.exchange.waiting client).toList.map (fun m => (client, m)) }
  | .handOver m => do
    return { l with responder := ← l.responder.handOver? m, given := l.given ++ [m] }
  | .abandon => some { l with responder := { l.responder with abandoned := true } }
  | .close => some { l with responder := { l.responder with abandoned := true, shutdown := true } }
  | .answer waited => do
    let (responder, exchange) ← l.responder.step? waited l.exchange
    return { l with responder, exchange, releases := l.noted }

/-- The lobby after events. -/
def run? (settings : Settings) (address : String) (events : List Event) : Option Lobby := do
  events.foldlM (handle? address) (← start? settings address)

/-- The messages for a client, without the empty replies. -/
def messagesFor (replies : List (Nat × Bytes)) (client : Nat) : List Bytes :=
  ((replies.filter (fun e => e.1 = client)).map Prod.snd).filter (fun m => m ≠ [])

/-- The messages that were placed with a client that was there. -/
def placedWith (releases : List Release) (client : Nat) : List Bytes :=
  messagesFor ((releases.filter Release.present).map (fun r => (r.client, r.message.bytes))) client

/-- Every released message answered a request, and was placed with the client if it was there. -/
structure Accounts (l : Lobby) : Prop where
  attended : l.responder.phase ≠ .finished →
    Attended l.exchange l.responder.server l.responder.phase.isBusy
  numbered : Numbered l.exchange
  given : l.given = l.releases.map Release.message ++ l.responder.kept
  released : l.responder.tally.released = UInt64.ofNat l.releases.length
  placed : ∀ i, placedWith l.releases i =
    messagesFor l.collected i ++ messagesFor l.left i ++ l.exchange.unread i
  left : ∀ e ∈ l.left, Gone l.exchange e.1
  absent : ∀ r ∈ l.releases, r.present = false → Gone l.exchange r.client

section Accounts

variable {l l' : Lobby} {address : String}

theorem messagesFor_append (replies more : List (Nat × Bytes)) (client : Nat) :
    messagesFor (replies ++ more) client =
      messagesFor replies client ++ messagesFor more client := by
  simp [messagesFor]

theorem messagesFor_toList (reply : Option Bytes) (client i : Nat) :
    messagesFor (reply.toList.map (fun m => (client, m))) i =
      if i = client then reply.toList.filter (fun m => m ≠ []) else [] := by
  by_cases hi : i = client
  · subst hi
    cases reply <;> simp [messagesFor]
  · cases reply <;> simp [messagesFor, hi, Ne.symm hi]

theorem placedWith_append_singleton (releases : List Release) (r : Release) (i : Nat) :
    placedWith (releases ++ [r]) i = placedWith releases i ++
      if r.present ∧ i = r.client then [r.message.bytes].filter (fun m => m ≠ []) else [] := by
  rw [placedWith, List.filter_append, List.map_append, messagesFor_append]
  by_cases hpresent : r.present
  · by_cases hi : r.client = i
    · simp [placedWith, messagesFor, hpresent, hi]
    · simp [placedWith, messagesFor, hpresent, hi, Ne.symm hi]
  · simp [placedWith, messagesFor, hpresent]

theorem accounts_start {settings : Settings} (h : start? settings address = some l) :
    Accounts l := by
  unfold start? Courier.open at h
  cases hdelivery : settings.delivery with
  | fast =>
    rw [hdelivery] at h
    cases h
  | reliable =>
    rw [hdelivery] at h
    cases h
    exact {
      attended := fun _ => ⟨_, Table.at?_put_self .., rfl, fun i hi => by simp at hi⟩
      numbered := nofun
      given := rfl
      released := rfl
      placed := fun _ => rfl
      left := nofun
      absent := nofun }

theorem Accounts.quiet (h : Accounts l) {exchange : Exchange} {responder : Responder}
    (hquiet : Quiet l.exchange exchange)
    (hattended : responder.phase ≠ .finished →
      Attended exchange responder.server responder.phase.isBusy)
    (hkept : responder.kept = l.responder.kept)
    (hreleased : responder.tally.released = l.responder.tally.released) :
    Accounts { l with exchange, responder } where
  attended := hattended
  numbered := h.numbered.congr hquiet.toSameClients
  given := by rw [hkept, h.given]
  released := hreleased.trans h.released
  placed := by
    intro i
    rw [h.placed i]
    simp only [unread, hquiet.waiting]
  left := fun e he => (h.left e he).congr hquiet.toSameClients
  absent := fun r hr hnot => (h.absent r hr hnot).congr hquiet.toSameClients

theorem Accounts.connect (h : Accounts l) (limit : Duration) :
    Accounts { l with exchange := (l.exchange.connect address limit).2 } := by
  have hfresh : l.exchange.clients.at? l.exchange.nextClient = none := by
    rw [← Option.not_isSome_iff_eq_none]
    exact fun hthere => Nat.lt_irrefl _ (h.numbered _ hthere)
  obtain ⟨-, hnext, -, hwaiting, -⟩ :=
    connect_spec hfresh (Prod.eta (l.exchange.connect address limit)).symm
  exact {
    attended := fun hne => (h.attended hne).congr (hnext ▸ Nat.le_succ _) rfl
    numbered := h.numbered.connect address limit
    given := h.given
    released := h.released
    placed := by
      intro i
      rw [h.placed i]
      simp only [unread, hwaiting]
    left := fun e he => (h.left e he).connect address limit
    absent := fun r hr hnot => (h.absent r hr hnot).connect address limit }

theorem Accounts.request (h : Accounts l) (client : Nat) (message : Bytes) :
    Accounts { l with exchange := (l.exchange.request client message).2 } :=
  h.quiet (request_spec (Prod.eta _).symm).1
    (fun hne => (h.attended hne).request h.numbered client message) rfl rfl

/-- **A client collects its reply**, unless it is gone. -/
theorem Accounts.collect (h : Accounts l) {client : Nat} {reply : Option Bytes}
    {exchange : Exchange} (hcollect : l.exchange.collect client = (reply, exchange)) :
    Accounts { l with
      exchange, collected := l.collected ++ reply.toList.map (fun m => (client, m)) } := by
  obtain ⟨hreply, hsame, hwaiting, -⟩ := collect_spec hcollect
  have hservers : exchange.servers = l.exchange.servers := by
    unfold Exchange.collect at hcollect
    split at hcollect <;> cases hcollect <;> rfl
  subst hreply
  exact {
    attended := fun hne =>
      (h.attended hne).congr (Nat.le_of_eq hsame.next.symm) (by rw [hservers])
    numbered := h.numbered.congr hsame
    given := h.given
    released := h.released
    placed := by
      intro i
      rw [h.placed i, messagesFor_append, messagesFor_toList]
      by_cases hi : i = client
      · subst hi
        cases hwaits : l.exchange.waiting i with
        | none => simp [unread, hwaiting, hwaits]
        | some m =>
          -- Nothing was left behind by a client for which a reply waits.
          have hnone : messagesFor l.left i = [] := by
            have hfilter : l.left.filter (fun e => e.1 = i) = [] := by
              apply List.filter_eq_nil_iff.mpr
              intro e he heq
              have hgone := (h.left e he).2
              rw [of_decide_eq_true heq] at hgone
              simp [waiting, hgone] at hwaits
            simp [messagesFor, hfilter]
          simp [unread, hwaiting, hwaits, hnone]
      · simp [unread, hwaiting, hi]
    left := fun e he => (h.left e he).congr hsame
    absent := fun r hr hnot => (h.absent r hr hnot).congr hsame }

/-- **A client leaves**, and a reply that waits for it is left behind. -/
theorem Accounts.disconnect (h : Accounts l) (client : Nat) :
    Accounts { l with
      exchange := l.exchange.disconnect client
      left := l.left ++ (l.exchange.waiting client).toList.map (fun m => (client, m)) } where
  attended := fun hne => (h.attended hne).congr (Nat.le_refl _) rfl
  numbered := h.numbered.disconnect client
  given := h.given
  released := h.released
  placed := by
    intro i
    rw [h.placed i, messagesFor_append, messagesFor_toList]
    by_cases hi : i = client
    · simp [unread, waiting_disconnect, hi]
    · simp [unread, waiting_disconnect, hi]
  left := by
    intro e he
    rcases List.mem_append.mp he with he | he
    · exact (h.left e he).disconnect client
    · obtain ⟨m, hm, rfl⟩ := List.mem_map.mp he
      obtain ⟨c, hc, -⟩ := Option.bind_eq_some_iff.mp (Option.mem_toList.mp hm)
      refine ⟨h.numbered client (by rw [hc]; rfl), ?_⟩
      rw [Exchange.disconnect, Table.at?_without, if_pos rfl]
  absent := fun r hr hnot => (h.absent r hr hnot).disconnect client

theorem Accounts.handOver (h : Accounts l) {m : Outgoing} {responder : Responder}
    (hgiven : l.responder.handOver? m = some responder) :
    Accounts { l with responder, given := l.given ++ [m] } := by
  simp only [handOver?, Outbox.trySend] at hgiven
  by_cases hroom : l.responder.outbox.messages.length < l.responder.outbox.capacity
  · simp only [hroom, if_true] at hgiven
    cases hgiven
    exact { h with given := by simp [h.given, kept] }
  · simp [hroom] at hgiven

theorem Accounts.dismiss (h : Accounts l) {sent : Bool} {exchange : Exchange} (phase : Phase)
    (hphase : l.responder.phase.isBusy = true)
    (hreply : l.responder.Replies l.exchange [] sent exchange) (hnext : phase.isBusy = false) :
    Accounts { l with exchange, responder := { l.responder with phase } } := by
  have hattended := h.attended (by rintro heq; rw [heq] at hphase; cases hphase)
  rw [hphase] at hattended
  obtain ⟨client, result, x', -, -, hx', hserves, hcases⟩ := reply_of_attended hattended []
  obtain ⟨_, hreply, -⟩ := hreply
  cases hreply.symm.trans hx'
  rcases hcases with ⟨-, -, hquiet⟩ | ⟨-, -, hquiet⟩ | ⟨-, -, hdelivers⟩
  · exact h.quiet hquiet (fun _ => hnext ▸ hserves) rfl rfl
  · exact h.quiet hquiet (fun _ => hnext ▸ hserves) rfl rfl
  · exact {
      attended := fun _ => hnext ▸ hserves
      numbered := h.numbered.congr hdelivers.toSameClients
      given := h.given
      released := h.released
      placed := by
        intro i
        rw [h.placed i, hdelivers.unread]
        simp
      left := fun e he => (h.left e he).congr hdelivers.toSameClients
      absent := fun r hr hnot => (h.absent r hr hnot).congr hdelivers.toSameClients }

/-- The message in hand is released, and placed with the client that asked if it is there. -/
theorem Accounts.release (h : Accounts l) {r : Release} {exchange : Exchange}
    (hheld : l.responder.held = some r.message) (hsame : SameClients l.exchange exchange)
    (hattended : Attended exchange l.responder.server false)
    (hunread : ∀ i, exchange.unread i = l.exchange.unread i ++
      if r.present ∧ i = r.client then [r.message.bytes].filter (fun m => m ≠ []) else [])
    (habsent : r.present = false → Gone l.exchange r.client) :
    Accounts { l with
      exchange
      responder := l.responder.replied r.message true
      releases := l.releases ++ [r] } where
  attended := fun _ => hattended
  numbered := h.numbered.congr hsame
  given := by
    rw [h.given]
    simp [kept, replied, hheld]
  released := by
    rw [List.length_append, List.length_singleton, UInt64.ofNat_add, ← h.released]
    rfl
  placed := by
    intro i
    rw [placedWith_append_singleton, h.placed i, hunread, List.append_assoc]
  left := fun e he => (h.left e he).congr hsame
  absent := by
    intro r' hr' hnot
    rcases List.mem_append.mp hr' with hr' | hr'
    · exact (h.absent r' hr' hnot).congr hsame
    · rw [List.mem_singleton.mp hr'] at hnot ⊢
      exact (habsent hnot).congr hsame

/-- **The message in hand is released** if the reply counts as sent, and stays in hand if it
fails. -/
theorem Accounts.offer (h : Accounts l) {m : Outgoing} {sent : Bool} {exchange : Exchange}
    (hphase : l.responder.phase = .serving) (hheld : l.responder.held = some m)
    (hreply : l.responder.Replies l.exchange m.bytes sent exchange) :
    Accounts { l with exchange, responder := l.responder.replied m sent, releases := l.noted } := by
  have hattended := h.attended (by rw [hphase]; decide)
  rw [hphase] at hattended
  obtain ⟨client, result, x', hasking, hcome, hx', hserves, hcases⟩ :=
    reply_of_attended hattended m.bytes
  obtain ⟨_, hreply, hsent⟩ := hreply
  cases hreply.symm.trans hx'
  have hanswer : l.responder.answer? = some (some m) := by simp [answer?, hphase, hheld]
  have hnoted : l.noted = if sent then
      l.releases ++ [⟨client, m, (l.exchange.clients.at? client).isSome⟩] else l.releases := by
    simp only [noted, hanswer, hasking, hx', hsent]
  rcases hcases with ⟨hnot, hok, hquiet⟩ | ⟨-, hok, hquiet⟩ | ⟨hthere, hok, hdelivers⟩
  · obtain rfl : true = sent := hok.symm.trans hsent
    rw [hnoted, if_pos rfl, hnot]
    refine h.release (r := ⟨client, m, false⟩) hheld hquiet.toSameClients hserves (fun i => ?_)
      fun _ => ?_
    · simp [unread, hquiet.waiting]
    · exact ⟨hcome, by simpa using hnot⟩
  · obtain rfl : false = sent := hok.symm.trans hsent
    rw [hnoted, if_neg Bool.false_ne_true]
    exact h.quiet hquiet (fun _ => hserves) rfl rfl
  · obtain rfl : true = sent := hok.symm.trans hsent
    rw [hnoted, if_pos rfl, hthere]
    refine h.release (r := ⟨client, m, true⟩) hheld hdelivers.toSameClients hserves (fun i => ?_)
      (by simp)
    rw [hdelivers.unread]
    simp

theorem noted_of_answer? (hanswer : ∀ m, l.responder.answer? ≠ some (some m)) :
    l.noted = l.releases := by
  unfold noted
  split
  · next hm _ => exact absurd hm (hanswer _)
  · rfl

/-- **A step of the responder** keeps the account. -/
theorem Accounts.answer (h : Accounts l) {waited : Duration}
    (hl : l.handle? address (.answer waited) = some l') : Accounts l' := by
  simp only [handle?, Option.bind_eq_bind, Option.bind_eq_some_iff] at hl
  obtain ⟨⟨r, x⟩, hstep, hl⟩ := hl
  cases hl
  have hattended {phase : Phase} (hphase : l.responder.phase = phase) (hne : phase ≠ .finished) :
      Attended l.exchange l.responder.server phase.isBusy := by
    rw [← hphase] at hne ⊢
    exact h.attended hne
  -- Only a reply with the message in hand is noted.
  have hquietly (hanswer : ∀ m, l.responder.answer? ≠ some (some m))
      (hnext : Accounts { l with responder := r, exchange := x }) :
      Accounts { l with responder := r, exchange := x, releases := l.noted } := by
    rw [noted_of_answer? hanswer]
    exact hnext
  cases moves_of_step? hstep with
  | close hphase _ =>
    have hserves := hattended hphase (by decide)
    exact hquietly (by simp [answer?, hphase])
      (h.quiet (quiet_of_eq rfl rfl) (fun _ => hserves) rfl rfl)
  | take hphase _ htake =>
    obtain ⟨hserves, hquiet⟩ := (hattended hphase (by decide)).takeRequest htake
    refine hquietly (by simp [answer?, hphase]) (h.quiet hquiet (fun _ => ?_) rfl rfl)
    rw [isBusy_requested]
    exact hserves
  | refuse hphase hreply =>
    exact hquietly (by simp [answer?, hphase]) (h.dismiss _ (by rw [hphase]; rfl) hreply rfl)
  | grasp hphase hheld hmessages =>
    refine hquietly (by simp [answer?, hphase, hheld])
      (h.quiet (quiet_of_eq rfl rfl) h.attended (by simp [kept, hheld, hmessages]) rfl)
  | part hphase hheld _ _ =>
    have hserves := hattended hphase (by decide)
    exact hquietly (by simp [answer?, hphase, hheld])
      (h.quiet (quiet_of_eq rfl rfl) (fun _ => hserves) rfl rfl)
  | offer hphase hheld hreply => exact h.offer hphase hheld hreply
  | goodbye hphase hreply =>
    exact hquietly (by simp [answer?, hphase]) (h.dismiss _ (by rw [hphase]; rfl) hreply rfl)
  | turn hphase htake =>
    obtain ⟨hserves, hquiet⟩ := (hattended hphase (by decide)).takeRequest htake
    exact hquietly (by simp [answer?, hphase]) (h.quiet hquiet (fun _ => hserves) rfl rfl)
  | leave hphase _ =>
    refine hquietly (by simp [answer?, hphase]) (h.quiet (quiet_retire _ _) ?_ rfl rfl)
    exact fun hne => absurd rfl hne
  | release hphase hreply =>
    exact hquietly (by simp [answer?, hphase]) (h.dismiss _ (by rw [hphase]; rfl) hreply rfl)
  | giveUp hphase hreply =>
    refine hquietly (by simp [answer?, hphase]) ?_
    have hdismissed := h.dismiss .dismissing (by rw [hphase]; rfl) hreply rfl
    exact hdismissed.quiet (quiet_retire _ _) (fun hne => absurd rfl hne) rfl rfl

/-- **One event** keeps the account. -/
theorem Accounts.handle (h : Accounts l) {e : Event} (hl : l.handle? address e = some l') :
    Accounts l' := by
  cases e with
  | connect limit =>
    cases hl
    exact h.connect limit
  | request client message =>
    cases hl
    exact h.request client message
  | collect client =>
    cases hl
    exact h.collect rfl
  | disconnect client =>
    cases hl
    exact h.disconnect client
  | handOver m =>
    simp only [handle?, Option.bind_eq_bind, Option.bind_eq_some_iff] at hl
    obtain ⟨responder, hgiven, hl⟩ := hl
    cases hl
    exact h.handOver hgiven
  | abandon =>
    cases hl
    exact { h with }
  | close =>
    cases hl
    exact { h with }
  | answer waited => exact h.answer hl

/-- **A run** keeps the account. -/
theorem accounts_run {settings : Settings} {events : List Event}
    (h : run? settings address events = some l) : Accounts l := by
  obtain ⟨l₀, hstart, hevents⟩ := Option.bind_eq_some_iff.mp h
  have hfirst := accounts_start hstart
  clear hstart h
  induction events generalizing l₀ with
  | nil =>
    cases hevents
    exact hfirst
  | cons e rest ih =>
    rw [List.foldlM_cons] at hevents
    obtain ⟨l₁, he, hrest⟩ := Option.bind_eq_some_iff.mp hevents
    exact ih l₁ hrest (hfirst.handle he)

end Accounts

/-- **What becomes of the messages when readers leave.** In whatever order clients come, ask,
collect and leave: the messages that were released, in order, and those that the responder keeps are
together what was handed over. What was placed with a client is what it collected, what it left
behind and what waits for it. A released message that was not placed answered a request of a client
that was gone, and since it is released it is not offered again. -/
theorem departed_run {settings : Settings} {address : String} {events : List Event} {l : Lobby}
    (h : run? settings address events = some l) :
    l.given = l.releases.map Release.message ++ l.responder.kept ∧
    l.responder.tally.released = UInt64.ofNat l.releases.length ∧
    (∀ i, placedWith l.releases i =
      messagesFor l.collected i ++ messagesFor l.left i ++ l.exchange.unread i) ∧
    (∀ r ∈ l.releases, r.present = false → Gone l.exchange r.client) := by
  have haccounts := accounts_run h
  exact ⟨haccounts.given, haccounts.released, haccounts.placed, haccounts.absent⟩

/-- A client asks and leaves, another takes over, and there are two messages. -/
def sampleEvents : List Event :=
  [.connect .zero, .request 0 stepRequest, .answer .zero, .disconnect 0, .connect .zero,
    .request 1 stepRequest, .handOver (.data [7] 0 0), .handOver (.finish [9] (some 0))] ++
  List.replicate 5 (.answer .zero) ++ [.collect 1]

theorem departed_run_sample : ∃ l, run? { delivery := .reliable } "a" sampleEvents = some l ∧
    (l.releases = [⟨0, .data [7] 0 0, false⟩, ⟨1, .finish [9] (some 0), true⟩] ∧
      l.collected = [(1, [9])]) ∧
    l.given = l.releases.map Release.message ++ l.responder.kept ∧
    l.responder.tally.released = UInt64.ofNat l.releases.length ∧
    (∀ i, placedWith l.releases i =
      messagesFor l.collected i ++ messagesFor l.left i ++ l.exchange.unread i) ∧
    (∀ r ∈ l.releases, r.present = false → Gone l.exchange r.client) := by
  have hruns : (run? { delivery := .reliable } "a" sampleEvents).any (fun l =>
      l.releases = [⟨0, .data [7] 0 0, false⟩, ⟨1, .finish [9] (some 0), true⟩] ∧
        l.collected = [(1, [9])]) = true := by
    decide +kernel
  obtain ⟨l, hrun, hl⟩ := (Option.any_eq_true _ _).mp hruns
  exact ⟨l, hrun, of_decide_eq_true hl, departed_run hrun⟩

end Lobby

/-! ## What a successor misses -/

namespace Session

/-- A reader comes to a writer and closes, and another takes its place. Then the writer makes one
step and closes. Gives what the successor is told, and the number of messages that were released. -/
def succeed? (now : Moment) (limit : Duration) :
    Option (Except Fault (StepStatus × Option UInt64) × UInt64) := do
  let settings : Settings := { address := some "a", delivery := .reliable }
  let (s, _) ← ({} : Session).enterWriter? "w" "sim" settings 0 [] now
  let (s, _) ← s.enterReader? "r" "sim" settings 1 [] now
  let s ← s.closeReader? "r"
  let (s, _) ← s.enterReader? "q" "sim" settings 1 [] now
  let (s, _) ← s.changeWriter? "w" Writer.beginStep
  let (s, _) ← s.updateWriter? "w" (·.put (.scalar "v" .uint8) [7] .sync)
  let (s, _) ← s.endWriting? "w" now
  let (w, id) ← s.writer? "w"
  let s := s.closing "w" w id now
  let (s, result) ← s.beginReading? "q" .next limit now
  return (result, (s.tally id).released)

/-- **The step goes to the reader that has closed.** It is released like the end of the stream, and
its successor is told that the stream has ended without a step. -/
theorem successor_misses_step :
    (succeed? ⟨0, 0⟩ (.ofMillis 3000)).map (fun (result, released) => (result.toOption, released)) =
      some (some (.endOfStream, none), 2) := by
  decide +kernel

end Session

end Stepcast
