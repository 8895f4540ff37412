import Stepcast.Proofs.Delivery.Exchanges
import Stepcast.Proofs.Delivery.Feed

/-!
# One line of a feed

A line is the way from one writer to the reader: what the writer finished, what its responder has
in its queue and in hand, the reply that waits for the reader, and the reader's link. On a line
nothing is lost and nothing overtakes: what the reader has received, what is on the way and what
the writer has in its draft are together what was put, in order.

Main statements: `Line.call`, `Line.letGo`, `Line.answer`, `Line.ask`, `Line.receive`.
-/

namespace Stepcast

/-- What the calls put fits into the widths of messages and of step numbers. -/
structure Sender.Fits (s : Sender) : Prop where
  calls : ∀ c ∈ s.calls, c.Fits
  drafts : ∀ d ∈ s.drafts, d.Fits
  steps : (Diary.of s.calls).steps + 1 < 2 ^ 64

/-- The blocks that a writer was given, in order. -/
def Sender.written (s : Sender) : List Written := (Diary.of s.calls).blocks

namespace Feed

open Exchange

/-! ## The dialogue -/

/-- A responder that nobody asks any more may leave once it was let go. -/
inductive Leaving (x : Exchange) (address : String) (server : Nat) (shutdown : Bool) :
    Responder.Phase → Prop
  | listening : Serves x address server [] none → Leaving x address server shutdown .listening
  | dismissing : Serves x address server [] none → shutdown = true →
      Leaving x address server shutdown .dismissing
  | finished : Retired x address server → shutdown = true →
      Leaving x address server shutdown .finished

/-- Where a link and a responder are in asking and answering, and the message that waits for the
link. -/
inductive Dialogue (x : Exchange) (address : String) (server client : Nat) (shutdown : Bool) :
    Responder.Phase → Link → Option Outgoing → Prop
  /-- Nothing is asked. -/
  | resting : Serves x address server [] none → shutdown = false →
      Dialogue x address server client shutdown .listening
        { channel := .client client false } none
  | asked : Serves x address server [(stepRequest, client)] none → shutdown = false →
      Dialogue x address server client shutdown .listening
        { channel := .client client true } none
  /-- The request was taken and is to be answered. -/
  | taken : Serves x address server [] (some client) → shutdown = false →
      Dialogue x address server client shutdown .serving
        { channel := .client client true } none
  | answered {phase : Responder.Phase} (m : Outgoing) :
      Leaving x address server shutdown phase →
      Dialogue x address server client shutdown phase
        { channel := .client client true } (some m)
  /-- The link has got the end of the stream. -/
  | ended {phase : Responder.Phase} : Leaving x address server shutdown phase →
      Dialogue x address server client shutdown phase
        { channel := .client client false, ended := true } none

/-! ## The line -/

/-- The messages on the way, the next one first. -/
def onTheWay (s : Sender) (flight : Option Outgoing) : List Outgoing :=
  flight.toList ++ s.responder.held.toList ++ s.responder.outbox.messages ++ s.backlog

/-- A line on which the batches `received` have arrived and the batches `coming` are on their way,
the first of them in the reply `flight` if there is one. -/
structure Line (operators : Operators) (rank : UInt32) (x : Exchange) (address : String)
    (client : Nat) (l : Link) (s : Sender) (received coming : List Batch) (first : Nat)
    (current : Batch) (flight : Option Outgoing) : Prop where
  account : Account operators rank (.of s.calls) s.writer first (received ++ coming) current
  shipment : Shipment operators rank coming (decide (s.writer.stage = .closed) && !l.ended)
    (onTheWay s flight)
  dialogue : Dialogue x address s.responder.server client s.responder.shutdown s.responder.phase
    l flight
  attends : Attends x address s.responder.server client (flight.map Outgoing.bytes)
  counted : s.responder.accepted = s.responder.tally.released +
    UInt64.ofNat (s.responder.held.toList.length + s.responder.outbox.messages.length)
  drained : s.responder.shutdown = true → s.responder.held = none ∧
    s.responder.outbox.messages = [] ∧ s.backlog = [] ∧ s.writer.stage = .closed
  abandoned : s.responder.abandoned = s.responder.shutdown
  ended : l.ended = true → s.writer.stage = .closed ∧ coming = []

section Line

variable {operators : Operators} {rank : UInt32} {x x' : Exchange} {address a : String}
  {client server id k : Nat} {l l' : Link} {s s' : Sender} {received coming : List Batch}
  {first : Nat} {current : Batch} {flight : Option Outgoing}

/-! ## What others do -/

theorem Leaving.congr {shutdown : Bool} {phase : Responder.Phase}
    (h : Leaving x a k shutdown phase) (hbound : x'.bound.at? a = x.bound.at? a)
    (hserver : x'.servers.at? k = x.servers.at? k) : Leaving x' a k shutdown phase := by
  cases h with
  | listening hserves => exact .listening (hserves.congr hbound hserver)
  | dismissing hserves hshut => exact .dismissing (hserves.congr hbound hserver) hshut
  | finished hretired hshut => exact .finished (hretired.congr hbound hserver) hshut

theorem Dialogue.congr {shutdown : Bool} {phase : Responder.Phase}
    (h : Dialogue x a k id shutdown phase l flight) (hbound : x'.bound.at? a = x.bound.at? a)
    (hserver : x'.servers.at? k = x.servers.at? k) :
    Dialogue x' a k id shutdown phase l flight := by
  cases h with
  | resting hserves hshut => exact .resting (hserves.congr hbound hserver) hshut
  | asked hserves hshut => exact .asked (hserves.congr hbound hserver) hshut
  | taken hserves hshut => exact .taken (hserves.congr hbound hserver) hshut
  | answered m hleaving => exact .answered m (hleaving.congr hbound hserver)
  | ended hleaving => exact .ended (hleaving.congr hbound hserver)

/-- **Lines do not interfere.** -/
theorem Line.within
    (h : Line operators rank x a id l s received coming first current flight)
    (hx : Within x x' address server client) (ha : a ≠ address)
    (hserver : s.responder.server ≠ server) (hclient : id ≠ client) :
    Line operators rank x' a id l s received coming first current flight :=
  { h with
    dialogue := h.dialogue.congr (hx.bound a ha) (hx.servers _ hserver)
    attends := h.attends.within hx hclient }

/-! ## What the writer does -/

theorem call?_eq_some {c : Writer.Call} (h : call? s c = some s') : s.backlog = [] ∧
    ∃ writer messages, s.writer.act c = (writer, .ok messages) ∧
      s' = { s with
        writer
        backlog := messages
        calls := s.calls ++ [c]
        drafts := s.drafts ++ (s.writer.finishes? c).toList } := by
  unfold call? at h
  split at h
  · rename_i writer messages hbacklog hact
    exact ⟨hbacklog, writer, messages, hact, (Option.some.inj h).symm⟩
  · cases h

theorem shipment_nil {bs : List Batch} {last : Bool} (h : Shipment operators rank bs last []) :
    bs = [] ∧ last = false := by
  cases h
  exact ⟨rfl, rfl⟩

/-- **A call on the writer** puts new batches on their way. -/
theorem Line.call
    (h : Line operators rank x address client l s received coming first current flight)
    {c : Writer.Call} (hs : call? s c = some s') (hfits : s'.Fits) :
    ∃ coming' first' current',
      Line operators rank x address client l s' received coming' first' current' flight := by
  obtain ⟨hbacklog, writer, messages, hact, rfl⟩ := call?_eq_some hs
  have hsteps : (Diary.of s.calls).steps < 2 ^ 64 := by
    have hlater := hfits.steps
    simp only [Diary.of_append_singleton] at hlater
    have hle := (Diary.of s.calls).steps_le_note c
    omega
  obtain ⟨first', new, current', last, hnew, hship, hclosed, hlast⟩ := h.account.act hact
    (hfits.calls c (by simp)) (fun draft hdraft => hfits.drafts draft (by simpa using .inr hdraft))
    hsteps
  refine ⟨coming ++ new, first', current', ?_⟩
  have hway : onTheWay s flight = flight.toList ++ s.responder.held.toList ++
      s.responder.outbox.messages := by
    rw [onTheWay, hbacklog, List.append_nil]
  exact {
    account := by
      rw [Diary.of_append_singleton, ← List.append_assoc]
      exact hnew
    shipment := by
      have hold := h.shipment
      rw [hway] at hold
      show Shipment operators rank (coming ++ new) (decide (writer.stage = .closed) && !l.ended)
        (flight.toList ++ s.responder.held.toList ++ s.responder.outbox.messages ++ messages)
      by_cases hwas : s.writer.stage = .closed
      · obtain ⟨rfl, rfl⟩ := Writer.act_of_closed hwas hact
        obtain ⟨rfl, -⟩ := shipment_nil hship
        rw [List.append_nil, List.append_nil]
        exact hold
      · have hgoing : l.ended = false := by
          by_contra hended
          exact hwas (h.ended (by simpa using hended)).1
        have hlast : decide (writer.stage = .closed) = last := by
          cases last <;> simp_all
        rw [hgoing, Bool.not_false, Bool.and_true, hlast]
        rw [decide_eq_false hwas, Bool.false_and] at hold
        exact hold.append hship
    dialogue := h.dialogue
    attends := h.attends
    counted := h.counted
    drained := by
      intro hshut
      obtain ⟨hheld, houtbox, -, hwas⟩ := h.drained hshut
      obtain ⟨rfl, rfl⟩ := Writer.act_of_closed hwas hact
      exact ⟨hheld, houtbox, rfl, hwas⟩
    abandoned := h.abandoned
    ended := by
      intro hended
      obtain ⟨hwas, hnone⟩ := h.ended hended
      obtain ⟨rfl, rfl⟩ := Writer.act_of_closed hwas hact
      obtain ⟨rfl, -⟩ := shipment_nil hship
      exact ⟨hwas, by rw [hnone, List.append_nil]⟩ }

theorem handOver?_eq_some (h : handOver? s = some s') : ∃ m backlog, s.backlog = m :: backlog ∧
    s' = { s with
      responder := { s.responder with
        outbox := { s.responder.outbox with messages := s.responder.outbox.messages ++ [m] }
        accepted := s.responder.accepted + 1 }
      backlog } := by
  unfold handOver? at h
  split at h
  · cases h
  · rename_i m backlog hbacklog
    refine ⟨m, backlog, hbacklog, ?_⟩
    unfold Responder.handOver? Outbox.trySend at h
    by_cases hroom : s.responder.outbox.messages.length < s.responder.outbox.capacity
    · simp only [hroom, if_true, Option.bind_eq_bind, Option.bind_some] at h
      exact (Option.some.inj h).symm
    · simp [hroom] at h

theorem Line.handOver
    (h : Line operators rank x address client l s received coming first current flight)
    (hs : handOver? s = some s') :
    Line operators rank x address client l s' received coming first current flight := by
  obtain ⟨m, backlog, hbacklog, rfl⟩ := handOver?_eq_some hs
  exact {
    account := h.account
    shipment := by
      have hship := h.shipment
      rw [onTheWay, hbacklog] at hship
      simpa only [onTheWay, List.append_assoc, List.singleton_append] using hship
    dialogue := h.dialogue
    attends := h.attends
    counted := by
      show s.responder.accepted + 1 = s.responder.tally.released + UInt64.ofNat
        (s.responder.held.toList.length + (s.responder.outbox.messages ++ [m]).length)
      rw [h.counted, List.length_append, List.length_singleton, ← Nat.add_assoc,
        UInt64.ofNat_add _ 1, UInt64.add_assoc]
      rfl
    drained := fun hshut => by
      have hnil := (h.drained hshut).2.2.1
      rw [hbacklog] at hnil
      cases hnil
    abandoned := h.abandoned
    ended := h.ended }

/-! ## Letting the responder go -/

theorem Leaving.letGo {shutdown : Bool} {phase : Responder.Phase}
    (h : Leaving x address server shutdown phase) : Leaving x address server true phase := by
  cases h with
  | listening hserves => exact .listening hserves
  | dismissing hserves _ => exact .dismissing hserves rfl
  | finished hretired _ => exact .finished hretired rfl

theorem Dialogue.letGo {shutdown : Bool} {phase : Responder.Phase}
    (h : Dialogue x address server client shutdown phase l flight)
    (hdone : flight = none → l.ended = true) :
    Dialogue x address server client true phase l flight := by
  cases h with
  | resting _ _ => exact absurd (hdone rfl) (by simp)
  | asked _ _ => exact absurd (hdone rfl) (by simp)
  | taken _ _ => exact absurd (hdone rfl) (by simp)
  | answered m hleaving => exact .answered m hleaving.letGo
  | ended hleaving => exact .ended hleaving.letGo

/-- What waits with the responder is counted without loss. -/
theorem Line.waiting_lt
    (h : Line operators rank x address client l s received coming first current flight)
    (hfits : s.Fits) :
    s.responder.held.toList.length + s.responder.outbox.messages.length < 2 ^ 64 := by
  have hway := h.shipment.length_le
  have hcount := h.account.count
  have hspan := h.account.span
  have hsteps := hfits.steps
  simp only [onTheWay, List.length_append] at hway hcount
  omega

/-- A responder is let go when the reply with the end of the stream is out, and not before. -/
theorem Line.letGo
    (h : Line operators rank x address client l s received coming first current flight)
    {settings : Settings} (hlimit : settings.drainTimeout = none) (hfits : s.Fits)
    (hs : letGo? settings s = some s') :
    Line operators rank x address client l s' received coming first current flight := by
  unfold letGo? at hs
  split at hs
  · rename_i hready
    cases hs
    simp only [Settings.drainLimit, hlimit, Option.map_none, Option.isSome_none, Bool.or_false,
      Bool.and_eq_true, decide_eq_true_eq, List.isEmpty_iff] at hready
    obtain ⟨⟨hclosed, hbacklog⟩, hdrained⟩ := hready
    have hzero : s.responder.held.toList.length + s.responder.outbox.messages.length = 0 := by
      have hreleased : s.responder.tally.released = s.responder.accepted := eq_of_beq hdrained
      have hcounted := h.counted
      rw [← hreleased] at hcounted
      have hmod := congrArg UInt64.toNat (UInt64.left_eq_add.mp hcounted)
      rw [UInt64.toNat_ofNat_of_lt' (h.waiting_lt hfits)] at hmod
      exact hmod
    have hheld : s.responder.held = none := by
      cases hheld : s.responder.held with
      | none => rfl
      | some m => simp [hheld] at hzero
    have houtbox : s.responder.outbox.messages = [] := by
      apply List.eq_nil_of_length_eq_zero
      omega
    have hway : onTheWay s flight = flight.toList := by
      simp [onTheWay, hheld, houtbox, hbacklog]
    exact {
      account := h.account
      shipment := h.shipment
      dialogue := by
        refine h.dialogue.letGo fun hnone => ?_
        by_contra hgoing
        have hship := h.shipment
        rw [hway, hnone, decide_eq_true hclosed, Bool.eq_false_iff.mpr hgoing] at hship
        exact absurd (shipment_nil hship).2 (by decide)
      attends := h.attends
      counted := h.counted
      drained := fun _ => ⟨hheld, houtbox, hbacklog, hclosed⟩
      abandoned := rfl
      ended := h.ended }
  · cases hs

/-! ## What the responder does -/

/-- A responder that is let go looks for requests once more and leaves. -/
theorem Leaving.step? {r r' : Responder} {waited : Duration}
    (h : Leaving x address r.server r.shutdown r.phase) (hstep : r.step? waited x = some (r', x'))
    (client : Nat) :
    ∃ phase, r' = { r with phase } ∧ Leaving x' address r.server r.shutdown phase ∧
      x'.clients = x.clients ∧ Within x x' address r.server client := by
  unfold Responder.step? at hstep
  cases hphase : r.phase with
  | listening =>
    rw [hphase] at h hstep
    cases h with
    | listening hserves =>
      by_cases hshut : r.shutdown = true
      · simp only [if_pos hshut] at hstep
        cases hstep
        exact ⟨.dismissing, rfl, .dismissing hserves hshut, rfl, .refl ..⟩
      · simp only [hshut, takeRequest_of_nil hserves] at hstep
        cases hstep
  | dismissing =>
    rw [hphase] at h hstep
    cases h with
    | dismissing hserves hshut =>
      simp only [takeRequest_of_nil hserves] at hstep
      cases hstep
      obtain ⟨hretired, hclients, hwithin⟩ := retire_of_serves hserves client
      exact ⟨.finished, rfl, .finished hretired hshut, hclients, hwithin⟩
  | finished =>
    rw [hphase] at hstep
    cases hstep
  | refusing => rw [hphase] at h; cases h
  | serving => rw [hphase] at h; cases h
  | parting => rw [hphase] at h; cases h
  | releasing => rw [hphase] at h; cases h

theorem Line.sendReply
    (h : Line operators rank x address client l s received coming first current none)
    {m : Outgoing} (hheld : s.responder.held = some m) (hl : l = { channel := .client client true })
    (hshut : s.responder.shutdown = false) (hserves : Serves x' address s.responder.server [] none)
    (hattends : Attends x' address s.responder.server client (some m.bytes)) :
    Line operators rank x' address client l { s with responder := s.responder.replied m true }
      received coming first current (some m) where
  account := h.account
  shipment := by
    have hship := h.shipment
    simpa [onTheWay, hheld, Responder.replied] using hship
  dialogue := hl ▸ .answered m (.listening hserves)
  attends := hattends
  counted := by
    show s.responder.accepted = s.responder.tally.released + 1 +
      UInt64.ofNat (0 + s.responder.outbox.messages.length)
    rw [h.counted, hheld]
    show s.responder.tally.released + UInt64.ofNat (1 + s.responder.outbox.messages.length) = _
    rw [Nat.zero_add, UInt64.ofNat_add, ← UInt64.add_assoc]
    rfl
  drained := fun hgone => by
    rw [Responder.replied, if_pos rfl, hshut] at hgone
    cases hgone
  abandoned := h.abandoned
  ended := h.ended

theorem Line.answerTaken
    (h : Line operators rank x address client l s received coming first current none)
    (hl : l = { channel := .client client true }) (hphase : s.responder.phase = .serving)
    (hserves : Serves x address s.responder.server [] (some client))
    (hshut : s.responder.shutdown = false) {r : Responder} {waited : Duration}
    (hstep : s.responder.step? waited x = some (r, x')) :
    r.server = s.responder.server ∧ Within x x' address s.responder.server client ∧
    ∃ flight', Line operators rank x' address client l { s with responder := r } received coming
      first current flight' := by
  unfold Responder.step? at hstep
  rw [hphase] at hstep
  cases hheld : s.responder.held with
  | some m =>
    obtain ⟨hfree, x₁, hreply, hserves', hattends', hwithin⟩ :=
      reply_of_serves hserves h.attends m.bytes
    simp only [hheld, Responder.reply?, hfree, hreply, Bool.false_and, Bool.false_eq_true,
      if_false, Option.bind_eq_bind, Option.bind_some] at hstep
    cases hstep
    exact ⟨rfl, hwithin, _, h.sendReply hheld hl hshut hserves' hattends'⟩
  | none =>
    have habandoned := h.abandoned
    simp only [hheld, Responder.fetch?, Outbox.tryReceive] at hstep
    cases houtbox : s.responder.outbox.messages with
    | nil => simp [houtbox, hshut, habandoned] at hstep
    | cons m rest =>
      simp only [houtbox, Option.map_some] at hstep
      cases hstep
      refine ⟨rfl, .refl .., none, ?_⟩
      exact { h with
        shipment := by
          have hship := h.shipment
          simpa [onTheWay, hheld, houtbox] using hship
        dialogue := hl ▸ hphase ▸ .taken hserves hshut
        counted := by
          have hcounted := h.counted
          rw [hheld, houtbox, List.length_cons] at hcounted
          rw [hcounted]
          show _ + UInt64.ofNat (0 + (rest.length + 1)) = _ + UInt64.ofNat (1 + rest.length)
          rw [Nat.zero_add, Nat.add_comm]
        drained := fun hgone => by
          have hgone : s.responder.shutdown = true := hgone
          rw [hshut] at hgone
          cases hgone }

/-- **A step of the responder** moves the messages on and loses none. -/
theorem Line.answer
    (h : Line operators rank x address client l s received coming first current flight)
    {r : Responder} {waited : Duration} (hstep : s.responder.step? waited x = some (r, x')) :
    r.server = s.responder.server ∧ Within x x' address s.responder.server client ∧
    ∃ flight', Line operators rank x' address client l { s with responder := r } received coming
      first current flight' := by
  have hdialogue := h.dialogue
  generalize hphase : s.responder.phase = phase at hdialogue
  cases hdialogue with
  | resting hserves hshut =>
    simp [Responder.step?, hphase, hshut, takeRequest_of_nil hserves] at hstep
  | asked hserves hshut =>
    obtain ⟨x₁, htake, hserves', hclients, hwithin⟩ := takeRequest_of_serves hserves
    simp only [Responder.step?, hphase, hshut, htake, Bool.false_eq_true, if_false] at hstep
    cases hstep
    refine ⟨rfl, hwithin, none, ?_⟩
    exact { h with
      dialogue := .taken hserves' hshut
      attends := by
        rw [Attends, hclients]
        exact h.attends }
  | taken hserves hshut => exact h.answerTaken rfl hphase hserves hshut hstep
  | answered m hleaving =>
    obtain ⟨phase', rfl, hleaving', hclients, hwithin⟩ :=
      Leaving.step? (hphase ▸ hleaving) hstep client
    refine ⟨rfl, hwithin, some m, ?_⟩
    exact { h with
      dialogue := .answered m hleaving'
      attends := by
        rw [Attends, hclients]
        exact h.attends }
  | ended hleaving =>
    obtain ⟨phase', rfl, hleaving', hclients, hwithin⟩ :=
      Leaving.step? (hphase ▸ hleaving) hstep client
    refine ⟨rfl, hwithin, none, ?_⟩
    exact { h with
      dialogue := .ended hleaving'
      attends := by
        rw [Attends, hclients]
        exact h.attends }

/-! ## What the reader does -/

/-- **Asking over the link** changes nothing but that the request is there. -/
theorem Line.ask
    (h : Line operators rank x address client l s received coming first current flight)
    {n : Network} (hn : n.exchange = x) :
    Within x (l.request n).2.exchange address s.responder.server client ∧
      Line operators rank (l.request n).2.exchange address client (l.request n).1 s received coming
        first current flight := by
  subst hn
  have hdialogue := h.dialogue
  generalize hphase : s.responder.phase = phase at hdialogue
  cases hdialogue with
  | resting hserves hshut =>
    obtain ⟨x', hrequest, hserves', hattends', hwithin⟩ :=
      request_of_serves hserves h.attends stepRequest
    have heq : Link.request { channel := .client client false } n =
        ({ channel := .client client true }, { n with exchange := x' }) := by
      simp [Link.request, Link.isDone, hrequest]
    rw [heq]
    refine ⟨hwithin, ?_⟩
    exact { h with
      dialogue := hphase ▸ .asked hserves' hshut
      attends := hattends' }
  | asked _ _ => exact ⟨.refl .., h⟩
  | taken _ _ => exact ⟨.refl .., h⟩
  | answered m _ => exact ⟨.refl .., h⟩
  | ended _ => exact ⟨.refl .., h⟩

theorem Line.collectNone
    (h : Line operators rank x address client l s received coming first current none)
    (hbound : x'.bound = x.bound)
    (hservers : x'.servers = x.servers)
    (hattends : Attends x' address s.responder.server client none) :
    Line operators rank x' address client l s received coming first current none :=
  { h with
    dialogue := h.dialogue.congr (by rw [hbound]) (by rw [hservers])
    attends := hattends }

/-- The reply that waits is the next batch, or the end of the stream when all batches are there. -/
theorem Line.flight_cases {m : Outgoing}
    (h : Line operators rank x address client l s received coming first current (some m))
    (hl : l = { channel := .client client true }) :
    (∃ b rest, coming = b :: rest ∧ m.Seals operators rank b ∧
      Shipment operators rank rest (decide (s.writer.stage = .closed)) (onTheWay s none) ∧
      (s.responder.shutdown = false)) ∨
    (∃ final, coming = [] ∧ m = .finish (Frame.endRecord final) final ∧ onTheWay s none = [] ∧
      s.writer.stage = .closed) := by
  have hship := h.shipment
  have hway : onTheWay s (some m) = m :: onTheWay s none := by simp [onTheWay]
  rw [hway, hl, Bool.not_false, Bool.and_true] at hship
  generalize hlast : decide (s.writer.stage = .closed) = last at hship
  generalize hrest : onTheWay s none = rest at hship
  cases hship with
  | finish final => exact .inr ⟨final, rfl, rfl, rfl, of_decide_eq_true hlast⟩
  | @cons b _ bs _ _ hm hship =>
    refine .inl ⟨b, bs, rfl, hm, hship, ?_⟩
    by_contra hshut
    -- A responder that was let go has nothing left but the end of the stream.
    obtain ⟨hheld, houtbox, hbacklog, hclosed⟩ := h.drained (by simpa using hshut)
    have hnone : rest = [] := by
      rw [← hrest]
      simp [onTheWay, hheld, houtbox, hbacklog]
    rw [hnone] at hship
    exact absurd (hlast.symm.trans (decide_eq_true hclosed)) (by simp [(shipment_nil hship).2])

/-- **Looking at the link** brings nothing, or the next batch, or the end of the stream after the
last one. -/
theorem Line.receive
    (h : Line operators rank x address client l s received coming first current flight)
    {n : Network} (hn : n.exchange = x) :
    ∃ messages l' n', l.receive n = (messages, false, l', n') ∧
      Within x n'.exchange address s.responder.server client ∧
      ((messages = [] ∧ l' = l ∧
          Line operators rank n'.exchange address client l s received coming first current flight) ∨
        (∃ b rest, ∃ m : Outgoing, messages = [m.bytes] ∧ coming = b :: rest ∧
          m.Seals operators rank b ∧
          Line operators rank n'.exchange address client l' s (received ++ [b]) rest first current
            none) ∨
        (∃ final, messages = [Frame.endRecord final] ∧ coming = [] ∧
          Line operators rank n'.exchange address client { l' with ended := true } s received []
            first current none)) := by
  subst hn
  have hdialogue := h.dialogue
  generalize hphase : s.responder.phase = phase at hdialogue
  cases hdialogue with
  | resting _ _ => exact ⟨[], _, n, rfl, .refl .., .inl ⟨rfl, rfl, h⟩⟩
  | ended _ => exact ⟨[], _, n, rfl, .refl .., .inl ⟨rfl, rfl, h⟩⟩
  | asked _ _ =>
    obtain ⟨x', hcollect, hattends, hservers, hbound, hwithin⟩ := collect_of_attends h.attends
    refine ⟨[], _, { n with exchange := x' }, ?_, hwithin,
      .inl ⟨rfl, rfl, h.collectNone hbound hservers hattends⟩⟩
    simp [Link.receive, Link.isDone, hcollect]
  | taken _ _ =>
    obtain ⟨x', hcollect, hattends, hservers, hbound, hwithin⟩ := collect_of_attends h.attends
    refine ⟨[], _, { n with exchange := x' }, ?_, hwithin,
      .inl ⟨rfl, rfl, h.collectNone hbound hservers hattends⟩⟩
    simp [Link.receive, Link.isDone, hcollect]
  | answered m hleaving =>
    obtain ⟨x', hcollect, hattends, hservers, hbound, hwithin⟩ := collect_of_attends h.attends
    have hleaving' : Leaving x' address s.responder.server s.responder.shutdown phase :=
      hleaving.congr (by rw [hbound]) (by rw [hservers])
    have hreceive : m.bytes ≠ [] → Link.receive { channel := .client client true } n =
        ([m.bytes], false, { channel := .client client false }, { n with exchange := x' }) := by
      intro hne
      simp [Link.receive, Link.isDone, hcollect, hne]
    rcases h.flight_cases rfl with ⟨b, rest, rfl, hm, hship, hshut⟩ |
      ⟨final, rfl, rfl, hway, hclosed⟩
    · refine ⟨_, _, _, hreceive hm.bytes_ne_nil, hwithin,
        .inr (.inl ⟨b, rest, m, rfl, rfl, hm, ?_⟩)⟩
      exact {
        account := by
          rw [List.append_assoc, List.singleton_append]
          exact h.account
        shipment := by
          rw [Bool.not_false, Bool.and_true]
          exact hship
        dialogue := by
          rw [hphase, hshut]
          rw [hshut] at hleaving'
          cases hleaving' with
          | listening hserves => exact .resting hserves rfl
          | dismissing _ hgone => cases hgone
          | finished _ hgone => cases hgone
        attends := hattends
        counted := h.counted
        drained := h.drained
        abandoned := h.abandoned
        ended := fun hended => nomatch hended }
    · refine ⟨_, _, _, hreceive (Frame.endRecord_ne_nil final), hwithin,
        .inr (.inr ⟨final, rfl, rfl, ?_⟩)⟩
      exact {
        account := h.account
        shipment := by
          rw [hway, Bool.not_true, Bool.and_false]
          exact .nil
        dialogue := hphase ▸ .ended hleaving'
        attends := hattends
        counted := h.counted
        drained := h.drained
        abandoned := h.abandoned
        ended := fun _ => ⟨hclosed, rfl⟩ }

end Line

end Feed

end Stepcast
