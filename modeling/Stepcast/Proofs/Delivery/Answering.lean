import Mathlib.Algebra.Ring.Nat
import Mathlib.Data.List.Chain
import Stepcast.Delivery.Courier
import Stepcast.Proofs.Delivery.Clients

/-!
# Answering requests one by one

A responder takes a request and answers it before it takes another: with the message in hand, or
with an empty reply. Nothing is assumed here about what it meets. Requests may hold any bytes, a
reply may fail at any time, and messages may be handed over in between, so each step of the
responder happens in an exchange of its own (`Desk.Event.answer`).

The invariant, `Desk.Orderly`, keeps account of the messages: those whose reply was sent, in order,
and those that the responder still keeps are together the messages that it was given. A message
whose reply failed stays in hand, so it is what the next request for a message gets.

Main statements: `Responder.moves_of_step?`, `Desk.Orderly.answer`, `Desk.orderly_run`.
-/

namespace Stepcast

/-! ## One step of a responder -/

namespace Responder

/-- A reply of the responder was sent, or failed. -/
def Replies (r : Responder) (x : Exchange) (message : Bytes) (sent : Bool) (x' : Exchange) : Prop :=
  ∃ result, x.reply r.server message = (result, x') ∧ result.isOk = sent

/-- **What a step of a responder can be.** -/
inductive Moves (r : Responder) (x : Exchange) : Responder → Exchange → Prop
  /-- It was told to shut down. -/
  | close : r.phase = .listening → r.shutdown → Moves r x { r with phase := .dismissing } x
  /-- It takes a request. -/
  | take {request : Bytes} {x' : Exchange} : r.phase = .listening → r.shutdown = false →
      x.takeRequest r.server = (.ok (some request), x') → Moves r x (r.requested request) x'
  | refuse {sent : Bool} {x' : Exchange} : r.phase = .refusing → r.Replies x [] sent x' →
      Moves r x { r with phase := .listening } x'
  /-- It takes the next message in hand. -/
  | grasp {m : Outgoing} {rest : List Outgoing} : r.phase = .serving → r.held = none →
      r.outbox.messages = m :: rest →
      Moves r x { r with held := some m, outbox := { r.outbox with messages := rest } } x
  /-- There will be no message for the request. -/
  | part : r.phase = .serving → r.held = none → r.outbox.messages = [] →
      r.shutdown ∨ r.abandoned → Moves r x { r with phase := .parting } x
  /-- It answers with the message in hand. -/
  | offer {m : Outgoing} {sent : Bool} {x' : Exchange} : r.phase = .serving → r.held = some m →
      r.Replies x m.bytes sent x' → Moves r x (r.replied m sent) x'
  | goodbye {sent : Bool} {x' : Exchange} : r.phase = .parting → r.Replies x [] sent x' →
      Moves r x { r with phase := .dismissing } x'
  /-- It takes a request that it will turn down. -/
  | turn {request : Bytes} {x' : Exchange} : r.phase = .dismissing →
      x.takeRequest r.server = (.ok (some request), x') →
      Moves r x { r with phase := .releasing } x'
  /-- It finds no request and leaves. -/
  | leave : r.phase = .dismissing → (∀ request, (x.takeRequest r.server).1 ≠ .ok (some request)) →
      Moves r x { r with phase := .finished } (x.retire r.server)
  | release {x' : Exchange} : r.phase = .releasing → r.Replies x [] true x' →
      Moves r x { r with phase := .dismissing } x'
  | giveUp {x' : Exchange} : r.phase = .releasing → r.Replies x [] false x' →
      Moves r x { r with phase := .finished } (x'.retire r.server)

section Moves

variable {r r' : Responder} {x x' : Exchange} {waited : Duration}

theorem replies_of_reply? {message : Bytes} {sent : Bool}
    (h : r.reply? waited x message = some (sent, x')) : r.Replies x message sent x' := by
  unfold reply? at h
  split at h
  · cases h
  · cases hreply : x.reply r.server message with
    | mk result x₁ =>
      rw [hreply] at h
      cases result with
      | ok u =>
        cases h
        exact ⟨_, hreply, rfl⟩
      | error f =>
        cases h
        exact ⟨_, hreply, rfl⟩

/-- Once it has waited for its limit, a reply is sent or fails. -/
theorem reply?_limit (r : Responder) (x : Exchange) (message : Bytes) :
    ∃ sent x', r.reply? r.limit x message = some (sent, x') := by
  unfold reply?
  rw [if_neg (by simp)]
  split
  · exact ⟨_, _, rfl⟩
  · exact ⟨_, _, rfl⟩

theorem isBusy_requested (r : Responder) (request : Bytes) :
    (r.requested request).phase.isBusy = true := by
  unfold requested
  split <;> rfl

theorem moves_of_fetch? (hphase : r.phase = .serving) (hheld : r.held = none)
    (h : r.fetch? = some r') : Moves r x r' x := by
  unfold fetch? Outbox.tryReceive at h
  cases hmessages : r.outbox.messages with
  | nil =>
    simp only [hmessages] at h
    split at h
    · next hleaving =>
      cases h
      exact .part hphase hheld hmessages (by simpa using hleaving)
    · cases h
  | cons m rest =>
    simp only [hmessages] at h
    cases h
    exact .grasp hphase hheld hmessages

theorem moves_of_step? (h : r.step? waited x = some (r', x')) : Moves r x r' x' := by
  unfold step? at h
  cases hphase : r.phase with
  | listening =>
    simp only [hphase] at h
    split at h
    · next hshutdown =>
      cases h
      exact .close hphase hshutdown
    · next hshutdown =>
      split at h
      · next request x₁ htake =>
        cases h
        exact .take hphase (by simpa using hshutdown) htake
      · cases h
  | refusing =>
    simp only [hphase, Option.bind_eq_bind, Option.bind_eq_some_iff] at h
    obtain ⟨⟨sent, x₁⟩, hreply, h⟩ := h
    cases h
    exact .refuse hphase (replies_of_reply? hreply)
  | serving =>
    simp only [hphase] at h
    cases hheld : r.held with
    | none =>
      simp only [hheld, Option.map_eq_some_iff] at h
      obtain ⟨r₁, hfetch, h⟩ := h
      cases h
      exact moves_of_fetch? hphase hheld hfetch
    | some m =>
      simp only [hheld, Option.bind_eq_bind, Option.bind_eq_some_iff] at h
      obtain ⟨⟨sent, x₁⟩, hreply, h⟩ := h
      cases h
      exact .offer hphase hheld (replies_of_reply? hreply)
  | parting =>
    simp only [hphase, Option.bind_eq_bind, Option.bind_eq_some_iff] at h
    obtain ⟨⟨sent, x₁⟩, hreply, h⟩ := h
    cases h
    exact .goodbye hphase (replies_of_reply? hreply)
  | dismissing =>
    simp only [hphase] at h
    split at h
    · next request x₁ htake =>
      cases h
      exact .turn hphase htake
    · next hnone =>
      cases h
      exact .leave hphase fun request htake =>
        hnone request (x.takeRequest r.server).2 (Prod.ext htake rfl)
  | releasing =>
    simp only [hphase, Option.bind_eq_bind, Option.bind_eq_some_iff] at h
    obtain ⟨⟨sent, x₁⟩, hreply, h⟩ := h
    cases sent with
    | true =>
      cases h
      exact .release hphase (replies_of_reply? hreply)
    | false =>
      cases h
      exact .giveUp hphase (replies_of_reply? hreply)
  | finished =>
    simp only [hphase] at h
    cases h

end Moves

/-- Nothing more will be handed over, and the responder has found out. -/
def Phase.isLeaving : Phase → Bool
  | .parting | .dismissing | .releasing | .finished => true
  | .listening | .refusing | .serving => false

/-- The request that the next step takes. -/
def taken? (r : Responder) (x : Exchange) : Option Bytes :=
  match r.phase with
  | .listening => if r.shutdown then none else (x.takeRequest r.server).1.toOption.join
  | .dismissing => (x.takeRequest r.server).1.toOption.join
  | _ => none

/-- What the next step replies: a message, or nothing in an empty reply. Nothing when it does not
reply. -/
def answer? (r : Responder) : Option (Option Outgoing) :=
  match r.phase with
  | .refusing | .parting | .releasing => some none
  | .serving => r.held.map some
  | _ => none

end Responder

/-! ## A responder and what it is asked -/

/-- A request, the message in the reply to it, if it was not empty, and what became of the reply. -/
structure Turn where
  request : Bytes
  message : Option Outgoing
  sent : Bool

/-- A responder, with the messages that it was given and the requests that it took. -/
structure Desk where
  responder : Responder
  /-- The messages that were handed over. -/
  given : List Outgoing := []
  /-- The request that was taken and is not answered. -/
  asked : Option Bytes := none
  /-- The requests that were answered, the first one first. -/
  turns : List Turn := []

namespace Desk

open Responder

/-- What can happen, in any order. -/
inductive Event where
  | handOver (m : Outgoing)
  /-- The writer is gone. -/
  | abandon
  /-- The responder is told to shut down. -/
  | close
  /-- The responder takes its next step, in an exchange in which anything may have happened. -/
  | answer (waited : Duration) (x : Exchange)

/-- A responder has taken an address. -/
def start? (settings : Settings) (address : String) (n : Network) : Option Desk :=
  match Courier.open settings address n with
  | .ok (.responder responder, _) => some { responder }
  | _ => none

/-- Notes what the next step of the responder does in the exchange. -/
def note (d : Desk) (x : Exchange) : Desk :=
  match d.asked, d.responder.answer? with
  | some request, some message =>
    let sent := (x.reply d.responder.server (message.elim [] Outgoing.bytes)).1.isOk
    { d with asked := none, turns := d.turns ++ [⟨request, message, sent⟩] }
  | asked, _ => { d with asked := asked <|> d.responder.taken? x }

/-- The desk after an event; nothing when it cannot happen. -/
def handle? (d : Desk) : Event → Option Desk
  | .handOver m => do
    return { d with responder := ← d.responder.handOver? m, given := d.given ++ [m] }
  | .abandon => some { d with responder := { d.responder with abandoned := true } }
  | .close => some { d with responder := { d.responder with abandoned := true, shutdown := true } }
  | .answer waited x => do
    let (responder, _) ← d.responder.step? waited x
    return { d.note x with responder }

/-- The desk after events. -/
def run? (settings : Settings) (address : String) (n : Network) (events : List Event) :
    Option Desk := do
  events.foldlM handle? (← start? settings address n)

/-- The messages in replies, and whether the reply was sent. -/
def offersOf (turns : List Turn) : List (Outgoing × Bool) :=
  turns.filterMap (fun t => t.message.map (fun m => (m, t.sent)))

/-- The messages whose reply was sent. -/
def sentOf (turns : List Turn) : List Outgoing :=
  ((offersOf turns).filter (fun o => o.2)).map (fun o => o.1)

/-- The counters after the messages were released one by one. -/
def tallyOf (stepsPerRelease : UInt64) (messages : List Outgoing) : Tally :=
  messages.foldl (fun t m => t.release (UInt64.ofNat m.bytes.length) stepsPerRelease) {}

/-- The request that waits for its reply fits what the responder is doing. -/
def Fits (phase : Phase) (asked : Option Bytes) : Prop :=
  match phase with
  | .listening | .dismissing | .finished => asked = none
  | .refusing => ∃ request, asked = some request ∧ request ≠ stepRequest
  | .serving | .parting => asked = some stepRequest
  | .releasing => ∃ request, asked = some request

/-- The account of a desk. -/
structure Orderly (settings : Settings) (d : Desk) : Prop where
  given : d.given = sentOf d.turns ++ d.responder.kept
  accepted : d.responder.accepted = UInt64.ofNat d.given.length
  tally : d.responder.tally = tallyOf (UInt64.ofNat settings.aggregation) (sentOf d.turns)
  /-- Other requests get empty replies. -/
  refused : ∀ t ∈ d.turns, t.request ≠ stepRequest → t.message = none
  /-- A request for a message gets an empty reply when no more messages will come, only. -/
  dismissed : ∀ t ∈ d.turns, t.request = stepRequest → t.message = none →
    d.responder.shutdown ∨ d.responder.abandoned
  /-- After a reply that failed the same message is offered. -/
  repeated : (offersOf d.turns).IsChain (fun o o' => o.2 = false → o'.1 = o.1)
  held : ∀ m, (offersOf d.turns).getLast? = some (m, false) → d.responder.held = some m
  fits : Fits d.responder.phase d.asked
  leaving : d.responder.phase.isLeaving → d.responder.shutdown ∨ d.responder.abandoned
  steps : d.responder.stepsPerRelease = UInt64.ofNat settings.aggregation
  capacity : d.responder.outbox.capacity = max settings.queueDepth 1
  room : d.responder.outbox.messages.length ≤ d.responder.outbox.capacity

section Account

variable {settings : Settings} {d d' : Desk}

theorem offersOf_append (turns turns' : List Turn) :
    offersOf (turns ++ turns') = offersOf turns ++ offersOf turns' := List.filterMap_append

theorem offersOf_singleton (t : Turn) :
    offersOf [t] = (t.message.map (fun m => (m, t.sent))).toList := by
  cases h : t.message <;> simp [offersOf, h]

theorem sentOf_append_singleton (turns : List Turn) (t : Turn) : sentOf (turns ++ [t]) =
    sentOf turns ++ if t.sent then t.message.toList else [] := by
  rw [sentOf, sentOf, offersOf_append, offersOf_singleton, List.filter_append, List.map_append]
  cases hmessage : t.message <;> cases hsent : t.sent <;> simp

theorem tallyOf_append_singleton (steps : UInt64) (messages : List Outgoing) (m : Outgoing) :
    tallyOf steps (messages ++ [m]) =
      (tallyOf steps messages).release (UInt64.ofNat m.bytes.length) steps := by
  rw [tallyOf, List.foldl_append]
  rfl

theorem orderly_start {address : String} {n : Network} (h : start? settings address n = some d) :
    Orderly settings d := by
  unfold start? Courier.open at h
  cases hdelivery : settings.delivery with
  | fast =>
    simp only [hdelivery] at h
    cases hbind : n.broadcast.bind address <;> rw [hbind] at h <;> cases h
  | reliable =>
    simp only [hdelivery] at h
    cases hserve : n.exchange.serve address settings.timeoutDuration settings.queueDepth with
    | error f =>
      rw [hserve] at h
      cases h
    | ok opened =>
      rw [hserve] at h
      cases h
      exact {
        given := rfl
        accepted := rfl
        tally := rfl
        refused := nofun
        dismissed := nofun
        repeated := .nil
        held := nofun
        fits := rfl
        leaving := nofun
        steps := rfl
        capacity := rfl
        room := Nat.zero_le _ }

theorem Orderly.handOver (h : Orderly settings d) {m : Outgoing}
    (hd : d.handle? (.handOver m) = some d') : Orderly settings d' := by
  simp only [handle?, Option.bind_eq_bind, Option.bind_eq_some_iff] at hd
  obtain ⟨responder, hgiven, hd⟩ := hd
  cases hd
  simp only [handOver?, Outbox.trySend] at hgiven
  by_cases hroom : d.responder.outbox.messages.length < d.responder.outbox.capacity
  · simp only [hroom, if_true] at hgiven
    cases hgiven
    exact { h with
      given := by
        rw [h.given]
        simp [kept]
      accepted := by
        simp only [h.accepted, List.length_append, List.length_singleton]
        rw [UInt64.ofNat_add]
        rfl
      room := by
        rw [List.length_append]
        exact hroom }
  · simp [hroom] at hgiven

theorem Orderly.abandon (h : Orderly settings d) :
    Orderly settings { d with responder := { d.responder with abandoned := true } } :=
  { h with
    dismissed := fun _ _ _ _ => .inr rfl
    leaving := fun _ => .inr rfl }

theorem Orderly.close (h : Orderly settings d) : Orderly settings
    { d with responder := { d.responder with abandoned := true, shutdown := true } } :=
  { h with
    dismissed := fun _ _ _ _ => .inr rfl
    leaving := fun _ => .inr rfl }

/-- The responder goes on without replying; its messages stay, one of them perhaps in hand now. -/
theorem Orderly.go (h : Orderly settings d) {held : Option Outgoing} {messages : List Outgoing}
    {phase : Phase} {asked : Option Bytes} (hkept : held.toList ++ messages = d.responder.kept)
    (hheld : ∀ m, d.responder.held = some m → held = some m)
    (hroom : messages.length ≤ d.responder.outbox.capacity) (hfits : Fits phase asked)
    (hleaving : phase.isLeaving → d.responder.shutdown ∨ d.responder.abandoned) :
    Orderly settings { d with
      responder := { d.responder with held, outbox := { d.responder.outbox with messages }, phase }
      asked } :=
  { h with
    given := h.given.trans (congrArg _ hkept.symm)
    held := fun m hm => hheld m (h.held m hm)
    fits := hfits
    leaving := hleaving
    room := hroom }

/-- The request is answered with an empty reply, and all messages stay. -/
theorem Orderly.dismiss (h : Orderly settings d) {request : Bytes} (ok : Bool) (phase : Phase)
    (hrequest : request = stepRequest → d.responder.shutdown ∨ d.responder.abandoned)
    (hfits : Fits phase none)
    (hleaving : phase.isLeaving → d.responder.shutdown ∨ d.responder.abandoned) :
    Orderly settings { d with
      responder := { d.responder with phase }
      asked := none
      turns := d.turns ++ [⟨request, none, ok⟩] } := by
  have hoffers : offersOf (d.turns ++ [⟨request, none, ok⟩]) = offersOf d.turns := by
    rw [offersOf_append, offersOf_singleton]
    exact List.append_nil _
  exact { h with
    given := by
      rw [h.given, sentOf_append_singleton]
      simp [kept]
    tally := by
      rw [h.tally, sentOf_append_singleton]
      simp
    refused := by
      intro t ht hne
      rcases List.mem_append.mp ht with ht | ht
      · exact h.refused t ht hne
      · rw [List.mem_singleton.mp ht]
    dismissed := by
      intro t ht hstep hnone
      rcases List.mem_append.mp ht with ht | ht
      · exact h.dismissed t ht hstep hnone
      · rw [List.mem_singleton.mp ht] at hstep
        exact hrequest hstep
    repeated := hoffers ▸ h.repeated
    held := by
      rw [hoffers]
      exact h.held
    fits := hfits
    leaving := hleaving }

/-- **The request is answered with the message in hand**, which leaves the responder if the reply
is sent and stays in hand if it fails. -/
theorem Orderly.offer (h : Orderly settings d) {m : Outgoing} (ok : Bool)
    (hheld : d.responder.held = some m) : Orderly settings { d with
      responder := d.responder.replied m ok
      asked := none
      turns := d.turns ++ [⟨stepRequest, some m, ok⟩] } := by
  have hoffers : offersOf (d.turns ++ [⟨stepRequest, some m, ok⟩]) =
      offersOf d.turns ++ [(m, ok)] := by
    rw [offersOf_append, offersOf_singleton]
    rfl
  have hrefused : ∀ t ∈ d.turns ++ [⟨stepRequest, some m, ok⟩],
      t.request ≠ stepRequest → t.message = none := by
    intro t ht hne
    rcases List.mem_append.mp ht with ht | ht
    · exact h.refused t ht hne
    · rw [List.mem_singleton.mp ht] at hne
      exact absurd rfl hne
  have hdismissed : ∀ t ∈ d.turns ++ [⟨stepRequest, some m, ok⟩], t.request = stepRequest →
      t.message = none → d.responder.shutdown ∨ d.responder.abandoned := by
    intro t ht hstep hnone
    rcases List.mem_append.mp ht with ht | ht
    · exact h.dismissed t ht hstep hnone
    · rw [List.mem_singleton.mp ht] at hnone
      cases hnone
  -- What failed before is what was in hand.
  have hrepeated : (offersOf d.turns ++ [(m, ok)]).IsChain
      (fun o o' => o.2 = false → o'.1 = o.1) := by
    refine h.repeated.append (.singleton _) ?_
    rintro ⟨m', ok'⟩ hlast o ho hfailed
    cases ho
    obtain rfl : ok' = false := hfailed
    exact Option.some.inj (hheld.symm.trans (h.held m' hlast))
  cases ok with
  | false =>
    exact { h with
      given := by
        rw [h.given, sentOf_append_singleton]
        simp [kept, replied]
      tally := by
        rw [sentOf_append_singleton]
        simpa [replied] using h.tally
      refused := hrefused
      dismissed := hdismissed
      repeated := hoffers ▸ hrepeated
      held := by
        intro m' hm'
        rw [hoffers, List.getLast?_concat] at hm'
        cases hm'
        exact hheld
      fits := rfl
      leaving := by simp [Responder.replied, Phase.isLeaving] }
  | true =>
    exact { h with
      given := by
        rw [h.given, sentOf_append_singleton]
        simp [kept, replied, hheld]
      tally := by
        rw [sentOf_append_singleton]
        simp only [if_true, Option.toList_some, tallyOf_append_singleton]
        rw [← h.tally, ← h.steps]
        rfl
      refused := hrefused
      dismissed := hdismissed
      repeated := hoffers ▸ hrepeated
      held := by
        intro m' hm'
        rw [hoffers, List.getLast?_concat] at hm'
        cases hm'
      fits := rfl
      leaving := by simp [Responder.replied, Phase.isLeaving] }

/-- The responder has replied to the request, and the reply is noted. -/
theorem note_of_replies (message : Option Outgoing) {request : Bytes} {x x' : Exchange} {ok : Bool}
    (hasked : d.asked = some request) (hanswer : d.responder.answer? = some message)
    (hreply : d.responder.Replies x (message.elim [] Outgoing.bytes) ok x') :
    d.note x = { d with asked := none, turns := d.turns ++ [⟨request, message, ok⟩] } := by
  obtain ⟨result, hreply, hok⟩ := hreply
  simp only [note, hasked, hanswer, hreply, hok]

/-- The responder has not replied. A request that it has taken is noted. -/
theorem note_of_taken? {x : Exchange} (taken : Option Bytes)
    (hanswer : d.responder.answer? = none) (htaken : d.responder.taken? x = taken) :
    d.note x = { d with asked := d.asked <|> taken } := by
  unfold note
  rw [hanswer, htaken]
  cases d.asked <;> rfl

/-- **A step of the responder** keeps the account. -/
theorem Orderly.answer (h : Orderly settings d) {waited : Duration} {x : Exchange}
    (hd : d.handle? (.answer waited x) = some d') : Orderly settings d' := by
  simp only [handle?, Option.bind_eq_bind, Option.bind_eq_some_iff] at hd
  obtain ⟨⟨r, x'⟩, hstep, hd⟩ := hd
  cases hd
  have hfits := h.fits
  have hleaving := h.leaving
  cases moves_of_step? hstep with
  | close hphase hshutdown =>
    rw [hphase] at hfits
    rw [note_of_taken? none (by simp [answer?, hphase])
      (by simp [taken?, hphase, hshutdown]), show d.asked = none from hfits]
    exact h.go rfl (fun _ => id) h.room rfl (fun _ => .inl hshutdown)
  | take hphase hshutdown htake =>
    rename_i request
    rw [hphase] at hfits
    rw [note_of_taken? (some request) (by simp [answer?, hphase])
      (by simp [taken?, hphase, hshutdown, htake, Except.toOption]),
      show d.asked = none from hfits]
    refine h.go rfl (fun _ => id) h.room ?_ ?_
    · by_cases hrequest : request = stepRequest
      · rw [if_pos hrequest, hrequest]
        rfl
      · rw [if_neg hrequest]
        exact ⟨request, rfl, hrequest⟩
    · split <;> nofun
  | refuse hphase hreply =>
    rw [hphase] at hfits
    obtain ⟨request, hasked, hother⟩ := hfits
    rw [note_of_replies none hasked (by rw [answer?, hphase]) hreply]
    exact h.dismiss _ _ (fun heq => absurd heq hother) rfl nofun
  | grasp hphase hheld hmessages =>
    rw [hphase] at hfits
    rw [note_of_taken? none (by simp [answer?, hphase, hheld])
      (by simp [taken?, hphase]), show d.asked = some stepRequest from hfits]
    have hroom := h.room
    rw [hmessages] at hroom
    refine h.go (by simp [kept, hheld, hmessages]) (by simp [hheld]) (Nat.le_of_succ_le hroom) ?_ ?_
    · simp only [hphase]
      rfl
    · simp [hphase, Phase.isLeaving]
  | part hphase hheld hmessages hdone =>
    rw [hphase] at hfits
    rw [note_of_taken? none (by simp [answer?, hphase, hheld])
      (by simp [taken?, hphase]), show d.asked = some stepRequest from hfits]
    exact h.go rfl (fun _ => id) h.room rfl (fun _ => hdone)
  | offer hphase hheld hreply =>
    rename_i m ok
    rw [hphase] at hfits
    rw [note_of_replies (some m) hfits (by simp [answer?, hphase, hheld]) hreply]
    exact h.offer ok hheld
  | goodbye hphase hreply =>
    rw [hphase] at hfits hleaving
    rw [note_of_replies none hfits (by rw [answer?, hphase]) hreply]
    exact h.dismiss _ _ (fun _ => hleaving rfl) rfl (fun _ => hleaving rfl)
  | turn hphase htake =>
    rename_i request
    rw [hphase] at hfits hleaving
    rw [note_of_taken? (some request) (by simp [answer?, hphase])
      (by simp [taken?, hphase, htake, Except.toOption]), show d.asked = none from hfits]
    exact h.go rfl (fun _ => id) h.room ⟨request, rfl⟩ (fun _ => hleaving rfl)
  | leave hphase hnone =>
    rw [hphase] at hfits hleaving
    have htaken : d.responder.taken? x = none := by
      rw [taken?, hphase]
      cases htake : (x.takeRequest d.responder.server).1 with
      | error f => rfl
      | ok request =>
        cases request with
        | none => rfl
        | some request => exact absurd htake (hnone request)
    rw [note_of_taken? none (by simp [answer?, hphase]) htaken, show d.asked = none from hfits]
    exact h.go rfl (fun _ => id) h.room rfl (fun _ => hleaving rfl)
  | release hphase hreply =>
    rw [hphase] at hfits hleaving
    obtain ⟨request, hasked⟩ := hfits
    rw [note_of_replies none hasked (by rw [answer?, hphase]) hreply]
    exact h.dismiss _ _ (fun _ => hleaving rfl) rfl (fun _ => hleaving rfl)
  | giveUp hphase hreply =>
    rw [hphase] at hfits hleaving
    obtain ⟨request, hasked⟩ := hfits
    rw [note_of_replies none hasked (by rw [answer?, hphase]) hreply]
    exact h.dismiss _ _ (fun _ => hleaving rfl) rfl (fun _ => hleaving rfl)

/-- **One event** keeps the account. -/
theorem Orderly.handle (h : Orderly settings d) {e : Event} (hd : d.handle? e = some d') :
    Orderly settings d' := by
  cases e with
  | handOver m => exact h.handOver hd
  | abandon =>
    cases hd
    exact h.abandon
  | close =>
    cases hd
    exact h.close
  | answer waited x => exact h.answer hd

theorem Orderly.events (h : Orderly settings d) {events : List Event}
    (hd : events.foldlM handle? d = some d') : Orderly settings d' := by
  induction events generalizing d with
  | nil =>
    cases hd
    exact h
  | cons e rest ih =>
    rw [List.foldlM_cons] at hd
    obtain ⟨d₁, he, hrest⟩ := Option.bind_eq_some_iff.mp hd
    exact ih (h.handle he) hrest

/-- **A run** keeps the account. -/
theorem orderly_run {address : String} {n : Network} {events : List Event}
    (h : run? settings address n events = some d) : Orderly settings d := by
  obtain ⟨d₀, hstart, hevents⟩ := Option.bind_eq_some_iff.mp h
  exact (orderly_start hstart).events hevents

/-! ## What the account says -/

theorem released_tallyOf (steps : UInt64) (messages : List Outgoing) :
    (tallyOf steps messages).released = UInt64.ofNat messages.length := by
  induction messages using List.reverseRecOn with
  | nil => rfl
  | append_singleton rest m ih =>
    rw [tallyOf_append_singleton, List.length_append, List.length_singleton, UInt64.ofNat_add, ← ih]
    rfl

/-- As many messages have been released as were handed over just if all of them were sent: the
counters cannot have gone round in between, for there is no room for so many messages. -/
theorem Orderly.isDrained_iff (h : Orderly settings d) (hdepth : settings.queueDepth + 1 < 2 ^ 64) :
    d.responder.isDrained ↔ sentOf d.turns = d.given := by
  have hkept : d.responder.kept.length < 2 ^ 64 := by
    have hroom := h.room
    have hheld : d.responder.held.toList.length ≤ 1 := by cases d.responder.held <;> simp
    rw [h.capacity] at hroom
    rw [kept, List.length_append]
    omega
  have hlength := congrArg List.length h.given
  rw [List.length_append] at hlength
  rw [isDrained, beq_iff_eq, h.tally, released_tallyOf, h.accepted, ← UInt64.toNat_inj,
    UInt64.toNat_ofNat', UInt64.toNat_ofNat']
  constructor
  · intro heq
    have hnone : d.responder.kept = [] := by
      rw [← List.length_eq_zero_iff]
      omega
    rw [h.given, hnone, List.append_nil]
  · intro heq
    rw [heq]

/-- A request that is no request for a message is answered as soon as the reply need not wait, with
an empty one, and no message goes. -/
theorem Orderly.refuses (h : Orderly settings d) {request : Bytes} (hasked : d.asked = some request)
    (hother : request ≠ stepRequest) (x : Exchange) :
    ∃ ok d', d.handle? (.answer d.responder.limit x) = some d' ∧ d'.given = d.given ∧
      d'.turns = d.turns ++ [⟨request, none, ok⟩] ∧ d'.responder.kept = d.responder.kept := by
  have hfits := h.fits
  rw [hasked] at hfits
  obtain ⟨ok, x', hreply⟩ := reply?_limit d.responder x []
  have hnote (hanswer : d.responder.answer? = some none) :=
    note_of_replies _ hasked hanswer (replies_of_reply? hreply)
  cases hphase : d.responder.phase with
  | refusing =>
    refine ⟨ok, { d.note x with responder := { d.responder with phase := .listening } }, ?_, ?_⟩
    · simp only [handle?, step?, hphase, hreply]
      rfl
    · rw [hnote (by rw [answer?, hphase])]
      exact ⟨rfl, rfl, rfl⟩
  | releasing =>
    refine ⟨ok, { d.note x with
      responder := { d.responder with phase := if ok then .dismissing else .finished } }, ?_, ?_⟩
    · simp only [handle?, step?, hphase, hreply]
      cases ok <;> rfl
    · rw [hnote (by rw [answer?, hphase])]
      exact ⟨rfl, rfl, rfl⟩
  | serving | parting =>
    rw [hphase] at hfits
    exact absurd (Option.some.inj hfits) hother
  | listening | dismissing | finished =>
    rw [hphase] at hfits
    cases hfits

end Account

end Desk

end Stepcast
