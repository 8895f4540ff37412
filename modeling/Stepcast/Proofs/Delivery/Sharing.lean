import Stepcast.Delivery.Courier
import Stepcast.Proofs.Delivery.Clients
import Stepcast.Session.Reading
import Stepcast.Session.Writing

/-!
# Several readers of one writer

The messages of a writer wait in one queue, and each request takes the next one from it. So the
readers of a writer share its messages: a message goes to the reader whose request comes first in
turn, and to no other.

The invariant, `Shares`, gives each message that has left the responder to one reader. What has come
to a reader, with the reply that waits for it, is its share, in order.

Main statements: `Shares.answer`, `shared_run`, `length_arrivalsAt_add_le`,
`Session.second_reader_misses_step`.
-/

namespace Stepcast

/-! ## A writer with any number of readers -/

/-- The responder of a writer, and the links of the readers that have come to it. A link may ask
and receive at any moment, which is more than the calls of a reader do. -/
structure Outlet where
  network : Network
  responder : Responder
  links : List Link := []
  /-- The messages that were handed over. -/
  given : List Outgoing := []
  /-- The messages that have come, with the numbers of the links that brought them. -/
  arrivals : List (Nat × Bytes) := []

namespace Outlet

open Exchange Responder

/-- What can happen, in any order. -/
inductive Event where
  /-- A reader comes, with its settings. -/
  | connect (settings : Settings)
  /-- The writer hands over a message. -/
  | handOver (m : Outgoing)
  /-- The writer lets the responder go. -/
  | letGo
  /-- The responder takes its next step. -/
  | answer (waited : Duration)
  /-- A reader asks. -/
  | ask (link : Nat)
  /-- A reader takes in what has come. -/
  | receive (link : Nat)
  /-- A reader has found the end of the stream. -/
  | finish (link : Nat)

/-- A writer has taken its address, and no reader has come. -/
def start? (settings : Settings) (address : String) : Option Outlet :=
  match Courier.open settings address {} with
  | .ok (.responder responder, network) => some { network, responder }
  | _ => none

/-- The outlet after an event; nothing when it cannot happen. -/
def handle? (address : String) (o : Outlet) : Event → Option Outlet
  | .connect settings =>
    if settings.delivery = .reliable then
      let (l, network) := Reader.connect settings address o.network
      some { o with network, links := o.links ++ [l] }
    else none
  | .handOver m => do
    return { o with responder := ← o.responder.handOver? m, given := o.given ++ [m] }
  | .letGo => some { o with responder := { o.responder with abandoned := true, shutdown := true } }
  | .answer waited => do
    let (responder, exchange) ← o.responder.step? waited o.network.exchange
    return { o with responder, network := { o.network with exchange } }
  | .ask i => do
    let (l, network) := (← o.links[i]?).request o.network
    return { o with network, links := o.links.set i l }
  | .receive i => do
    let (messages, gone, l, network) := (← o.links[i]?).receive o.network
    return { o with
      network
      links := o.links.set i (if gone then { l with lost := true } else l)
      arrivals := o.arrivals ++ messages.map (fun m => (i, m)) }
  | .finish i => do
    return { o with links := o.links.set i { ← o.links[i]? with ended := true } }

/-- The outlet after events. -/
def run? (settings : Settings) (address : String) (events : List Event) : Option Outlet := do
  events.foldlM (handle? address) (← start? settings address)

/-- The messages that a link has brought. -/
def arrivalsAt (o : Outlet) (link : Nat) : List Bytes :=
  (o.arrivals.filter (fun a => a.1 = link)).map Prod.snd

/-- The messages for a link among all deliveries. -/
def share (deliveries : List (Nat × Outgoing)) (link : Nat) : List Bytes :=
  ((deliveries.filter (fun d => d.1 = link)).map (fun d => d.2.bytes)).filter (fun m => m ≠ [])

/-- The messages that left the responder were delivered, each to one link. -/
structure Shares (o : Outlet) (deliveries : List (Nat × Outgoing)) : Prop where
  ready : o.responder.Ready o.network.exchange
  clients : ∀ i, (o.network.exchange.clients.at? i).isSome ↔ i < o.links.length
  next : o.network.exchange.nextClient = o.links.length
  channel : ∀ i (l : Link), o.links[i]? = some l → ∃ outstanding, l.channel = .client i outstanding
  given : o.given = deliveries.map Prod.snd ++ o.responder.kept
  shared : ∀ i, o.arrivalsAt i ++ o.network.exchange.unread i = share deliveries i
  released : o.responder.tally.released = UInt64.ofNat deliveries.length
  accepted : o.responder.accepted = UInt64.ofNat o.given.length

section Shares

variable {o o' : Outlet} {deliveries : List (Nat × Outgoing)}

theorem share_append_singleton (client : Nat) (m : Outgoing) (link : Nat) :
    share (deliveries ++ [(client, m)]) link =
      share deliveries link ++
        if link = client then [m.bytes].filter (fun b => b ≠ []) else [] := by
  simp only [share, List.filter_append, List.map_append]
  by_cases hlink : client = link
  · simp [hlink]
  · simp [hlink, Ne.symm hlink]

theorem shares_start {settings : Settings} {address : String}
    (h : start? settings address = some o) : Shares o [] := by
  unfold start? Courier.open at h
  cases hdelivery : settings.delivery with
  | fast =>
    rw [hdelivery] at h
    cases h
  | reliable =>
    rw [hdelivery] at h
    cases h
    exact {
      ready := fun _ => ⟨_, Table.at?_put_self .., rfl, fun i hi => by simp at hi⟩
      clients := fun i => by simp
      next := rfl
      channel := fun i l hl => by simp at hl
      given := rfl
      shared := fun i => rfl
      released := rfl
      accepted := rfl }

theorem Shares.connect (h : Shares o deliveries) {settings : Settings} {address : String}
    (ho : o.handle? address (.connect settings) = some o') : Shares o' deliveries := by
  by_cases hdelivery : settings.delivery = .reliable
  · have hfresh : o.network.exchange.clients.at? o.network.exchange.nextClient = none := by
      have hnot := (h.clients o.network.exchange.nextClient).not
      simpa [h.next] using hnot
    cases hconnect : o.network.exchange.connect address settings.timeoutDuration with
    | mk client exchange =>
      obtain ⟨hclient, hnext, hclients, hwaiting, htends⟩ := connect_spec hfresh hconnect
      simp only [handle?, hdelivery, if_true, Reader.connect, hconnect] at ho
      cases ho
      exact { h with
        ready := fun hne => htends _ _ (h.ready hne)
        clients := by
          intro i
          rw [hclients, h.clients, h.next, List.length_append, List.length_singleton]
          omega
        next := by
          rw [hnext, h.next, List.length_append, List.length_singleton]
        channel := by
          intro i l hl
          rcases Nat.lt_trichotomy i o.links.length with hlt | rfl | hgt
          · rw [List.getElem?_append_left hlt] at hl
            exact h.channel i l hl
          · rw [List.getElem?_concat_length] at hl
            cases hl
            exact ⟨false, by rw [hclient, h.next]⟩
          · rw [List.getElem?_eq_none (by simp; omega)] at hl
            cases hl
        shared := by
          intro i
          rw [← h.shared i]
          simp only [unread, hwaiting]
          rfl }
  · simp [handle?, hdelivery] at ho

theorem Shares.handOver (h : Shares o deliveries) {m : Outgoing} {address : String}
    (ho : o.handle? address (.handOver m) = some o') : Shares o' deliveries := by
  simp only [handle?, Option.bind_eq_bind, Option.bind_eq_some_iff] at ho
  obtain ⟨responder, hgiven, ho⟩ := ho
  cases ho
  simp only [handOver?, Outbox.trySend] at hgiven
  by_cases hroom : o.responder.outbox.messages.length < o.responder.outbox.capacity
  · simp only [hroom, if_true] at hgiven
    cases hgiven
    exact { h with
      given := by simp [h.given, kept]
      accepted := by
        simp only [h.accepted, List.length_append, List.length_singleton]
        rw [UInt64.ofNat_add]
        rfl }
  · simp [hroom] at hgiven

theorem Shares.letGo (h : Shares o deliveries) {address : String}
    (ho : o.handle? address .letGo = some o') : Shares o' deliveries := by
  cases ho
  exact { h with }

theorem Shares.quiet (h : Shares o deliveries) {network : Network} {responder : Responder}
    (hquiet : Quiet o.network.exchange network.exchange) (hready : responder.Ready network.exchange)
    (hkept : responder.kept = o.responder.kept)
    (hreleased : responder.tally.released = o.responder.tally.released)
    (haccepted : responder.accepted = o.responder.accepted) :
    Shares { o with network, responder } deliveries where
  ready := hready
  clients := by
    intro i
    rw [hquiet.isSome, h.clients]
  next := hquiet.next.trans h.next
  channel := h.channel
  given := by rw [hkept, h.given]
  shared := by
    intro i
    rw [← h.shared i]
    simp only [unread, hquiet.waiting]
    rfl
  released := hreleased.trans h.released
  accepted := haccepted.trans h.accepted

/-- **A step of the responder** gives the message that it takes out to one link. -/
theorem Shares.answer (h : Shares o deliveries) {waited : Duration} {address : String}
    (ho : o.handle? address (.answer waited) = some o') : ∃ deliveries', Shares o' deliveries' := by
  simp only [handle?, Option.bind_eq_bind, Option.bind_eq_some_iff] at ho
  obtain ⟨⟨responder, exchange⟩, hstep, ho⟩ := ho
  cases ho
  obtain ⟨hready, haccepted, heffect⟩ := step?_spec h.ready hstep
  cases heffect with
  | rests hquiet hkept hreleased =>
    exact ⟨deliveries, h.quiet hquiet hready hkept hreleased haccepted⟩
  | dismisses client hdelivers hkept hreleased =>
    refine ⟨deliveries, hready, ?_, hdelivers.next.trans h.next, h.channel, ?_, ?_,
      hreleased.trans h.released, haccepted.trans h.accepted⟩
    · intro i
      rw [hdelivers.isSome, h.clients]
    · rw [hkept, h.given]
    · intro i
      rw [hdelivers.unread, ← h.shared i]
      simp [arrivalsAt]
  | delivers client m hdelivers hkept hreleased =>
    refine ⟨deliveries ++ [(client, m)], hready, ?_, hdelivers.next.trans h.next, h.channel, ?_, ?_,
      ?_, haccepted.trans h.accepted⟩
    · intro i
      rw [hdelivers.isSome, h.clients]
    · simp [h.given, hkept]
    · intro i
      rw [hdelivers.unread, share_append_singleton, ← h.shared i, List.append_assoc]
      rfl
    · rw [hreleased, h.released, List.length_append, List.length_singleton, UInt64.ofNat_add]
      rfl

theorem channel_set {i : Nat} {l' : Link} (h : Shares o deliveries)
    (hl' : ∃ outstanding, l'.channel = .client i outstanding) (j : Nat) (l : Link)
    (hl : (o.links.set i l')[j]? = some l) : ∃ outstanding, l.channel = .client j outstanding := by
  rw [List.getElem?_set] at hl
  by_cases hij : i = j
  · subst hij
    simp only [if_true] at hl
    split at hl
    · cases hl
      exact hl'
    · cases hl
  · rw [if_neg hij] at hl
    exact h.channel j l hl

theorem Shares.ask (h : Shares o deliveries) {i : Nat} {address : String}
    (ho : o.handle? address (.ask i) = some o') : Shares o' deliveries := by
  simp only [handle?, Option.bind_eq_bind, Option.bind_eq_some_iff] at ho
  obtain ⟨l, hl, ho⟩ := ho
  obtain ⟨outstanding, hchannel⟩ := h.channel i l hl
  cases hrequest : l.request o.network with
  | mk l' network =>
    obtain ⟨hchannel', hquiet, htends⟩ := Link.request_spec hchannel hrequest
    rw [hrequest] at ho
    cases ho
    have hnew : Shares { o with network } deliveries :=
      h.quiet hquiet (fun hne => htends _ _ (h.ready hne)) rfl rfl rfl
    exact { hnew with
      clients := by simpa using hnew.clients
      next := by simpa using hnew.next
      channel := channel_set h hchannel' }

theorem Shares.receive (h : Shares o deliveries) {i : Nat} {address : String}
    (ho : o.handle? address (.receive i) = some o') : Shares o' deliveries := by
  simp only [handle?, Option.bind_eq_bind, Option.bind_eq_some_iff] at ho
  obtain ⟨l, hl, ho⟩ := ho
  obtain ⟨outstanding, hchannel⟩ := h.channel i l hl
  cases hreceive : l.receive o.network with
  | mk messages rest =>
    obtain ⟨gone, l', network⟩ := rest
    obtain ⟨hchannel', hsame, hothers, hbrings, htends⟩ := Link.receive_spec hchannel hreceive
    rw [hreceive] at ho
    cases ho
    exact {
      ready := fun hne => htends _ _ (h.ready hne)
      clients := by
        intro j
        rw [hsame.isSome, h.clients, List.length_set]
      next := by rw [hsame.next, h.next, List.length_set]
      channel := channel_set h (by split <;> exact hchannel')
      given := h.given
      shared := by
        intro j
        rw [← h.shared j]
        simp only [arrivalsAt, List.filter_append, List.map_append, List.append_assoc]
        by_cases hj : j = i
        · subst hj
          simp [← hbrings, List.filter_map, Function.comp_def]
        · simp [hothers j hj, List.filter_map, Function.comp_def, Ne.symm hj]
      released := h.released
      accepted := h.accepted }

theorem Shares.finish (h : Shares o deliveries) {i : Nat} {address : String}
    (ho : o.handle? address (.finish i) = some o') : Shares o' deliveries := by
  simp only [handle?, Option.bind_eq_bind, Option.bind_eq_some_iff] at ho
  obtain ⟨l, hl, ho⟩ := ho
  cases ho
  exact { h with
    clients := by simpa using h.clients
    next := by simpa using h.next
    channel := channel_set h (h.channel i l hl) }

/-- **One event** keeps the messages shared out. -/
theorem Shares.handle (h : Shares o deliveries) {address : String} {e : Event}
    (ho : o.handle? address e = some o') : ∃ deliveries', Shares o' deliveries' := by
  cases e with
  | connect settings => exact ⟨deliveries, h.connect ho⟩
  | handOver m => exact ⟨deliveries, h.handOver ho⟩
  | letGo => exact ⟨deliveries, h.letGo ho⟩
  | answer waited => exact h.answer ho
  | ask i => exact ⟨deliveries, h.ask ho⟩
  | receive i => exact ⟨deliveries, h.receive ho⟩
  | finish i => exact ⟨deliveries, h.finish ho⟩

/-- **A run** shares the messages out. -/
theorem shares_run {settings : Settings} {address : String} {events : List Event}
    (h : run? settings address events = some o) : ∃ deliveries, Shares o deliveries := by
  unfold run? at h
  obtain ⟨o₀, hstart, hevents⟩ := Option.bind_eq_some_iff.mp h
  have hfirst : ∃ deliveries, Shares o₀ deliveries := ⟨[], shares_start hstart⟩
  clear hstart h
  induction events generalizing o₀ with
  | nil =>
    cases hevents
    exact hfirst
  | cons e rest ih =>
    rw [List.foldlM_cons] at hevents
    obtain ⟨o₁, he, hrest⟩ := Option.bind_eq_some_iff.mp hevents
    obtain ⟨deliveries, hshares⟩ := hfirst
    exact ih o₁ hrest (hshares.handle he)

theorem length_share_le (deliveries : List (Nat × Outgoing)) (i : Nat) :
    (share deliveries i).length ≤ (deliveries.filter (fun d => d.1 = i)).length := by
  have hle := List.length_filter_le (fun m => decide (m ≠ []))
    ((deliveries.filter (fun d => d.1 = i)).map (fun d => d.2.bytes))
  rwa [List.length_map] at hle

theorem length_filter_add_le (deliveries : List (Nat × Outgoing)) {i j : Nat} (hne : i ≠ j) :
    (deliveries.filter (fun d => d.1 = i)).length + (deliveries.filter (fun d => d.1 = j)).length ≤
      deliveries.length := by
  induction deliveries with
  | nil => simp
  | cons d rest ih =>
    by_cases hi : d.1 = i
    · simp [hi, hne]
      omega
    · by_cases hj : d.1 = j
      · simp [hj, Ne.symm hne]
        omega
      · simp [hi, hj]
        omega

/-- **No two readers receive everything.** What two readers have received together is no more than
what was handed over. -/
theorem length_arrivalsAt_add_le {settings : Settings} {address : String} {events : List Event}
    (h : run? settings address events = some o) {i j : Nat} (hne : i ≠ j) :
    (o.arrivalsAt i).length + (o.arrivalsAt j).length ≤ o.given.length := by
  obtain ⟨deliveries, hshares⟩ := shares_run h
  have hi := congrArg List.length (hshares.shared i)
  have hj := congrArg List.length (hshares.shared j)
  have hgiven := congrArg List.length hshares.given
  have hshare_i := length_share_le deliveries i
  have hshare_j := length_share_le deliveries j
  have hle := length_filter_add_le deliveries hne
  simp only [List.length_append, List.length_map] at hi hj hgiven
  omega

/-- **The readers of a writer share its messages.** However many readers there are, and in whatever
order they, the writer and its responder act: each message that has left the responder was
delivered to one link, and what has come over a link, with the message that waits for it, is what
was delivered to it, in order. A message counts as released when one reader got it. -/
theorem shared_run {settings : Settings} {address : String} {events : List Event}
    (h : run? settings address events = some o) (hmessages : ∀ m ∈ o.given, m.bytes ≠ []) :
    ∃ deliveries : List (Nat × Outgoing),
      o.given = deliveries.map Prod.snd ++ o.responder.kept ∧
      (∀ i, o.arrivalsAt i ++ o.network.exchange.unread i =
        (deliveries.filter (fun d => d.1 = i)).map (fun d => d.2.bytes)) ∧
      o.responder.tally.released = UInt64.ofNat deliveries.length ∧
      o.responder.accepted = UInt64.ofNat o.given.length := by
  obtain ⟨deliveries, hshares⟩ := shares_run h
  refine ⟨deliveries, hshares.given, ?_, hshares.released, hshares.accepted⟩
  intro i
  rw [hshares.shared i, share, List.filter_eq_self]
  intro bytes hbytes
  obtain ⟨d, hd, rfl⟩ := List.mem_map.mp hbytes
  have hmem : d.2 ∈ o.given := by
    rw [hshares.given]
    exact List.mem_append_left _ (List.mem_map_of_mem (List.mem_filter.mp hd).1)
  simpa using hmessages d.2 hmem

/-- Two readers ask before there are two messages. -/
def sampleEvents : List Event :=
  [.connect { delivery := .reliable }, .connect { delivery := .reliable }, .ask 0, .ask 1,
    .handOver (.data [7] 0 0), .handOver (.finish [9] (some 0))] ++
  List.replicate 6 (.answer .zero) ++ [.receive 0, .receive 1]

theorem shared_run_sample : ∃ o, run? { delivery := .reliable } "a" sampleEvents = some o ∧
    (o.given = [.data [7] 0 0, .finish [9] (some 0)] ∧ o.arrivalsAt 0 = [[7]] ∧
      o.arrivalsAt 1 = [[9]]) ∧
    ∃ deliveries : List (Nat × Outgoing),
      o.given = deliveries.map Prod.snd ++ o.responder.kept ∧
      (∀ i, o.arrivalsAt i ++ o.network.exchange.unread i =
        (deliveries.filter (fun d => d.1 = i)).map (fun d => d.2.bytes)) ∧
      o.responder.tally.released = UInt64.ofNat deliveries.length ∧
      o.responder.accepted = UInt64.ofNat o.given.length := by
  have hruns : (run? { delivery := .reliable } "a" sampleEvents).any (fun o =>
      o.given = [.data [7] 0 0, .finish [9] (some 0)] ∧ o.arrivalsAt 0 = [[7]] ∧
        o.arrivalsAt 1 = [[9]]) = true := by
    decide +kernel
  obtain ⟨o, hrun, ho⟩ := (Option.any_eq_true _ _).mp hruns
  have ho := of_decide_eq_true ho
  have hmessages : ∀ m ∈ o.given, m.bytes ≠ [] := by
    rw [ho.1]
    decide
  exact ⟨o, hrun, ho, shared_run hrun hmessages⟩

end Shares

end Outlet

/-! ## What a reader misses -/

namespace Session

/-- Two readers come to a writer that makes one step and closes. Both begin steps until they are
told that there are none any more. -/
def visit? (now : Moment) (limit : Duration) :
    Option (List (Except Fault (StepStatus × Option UInt64))) := do
  let settings : Settings := { address := some "a", delivery := .reliable }
  let (s, _) ← ({} : Session).enterWriter? "w" "sim" settings 0 [] now
  let (s, _) ← s.enterReader? "r" "sim" settings 1 [] now
  let (s, _) ← s.enterReader? "q" "sim" settings 1 [] now
  let (s, _) ← s.changeWriter? "w" Writer.beginStep
  let (s, _) ← s.updateWriter? "w" (·.put (.scalar "v" .uint8) [7] .sync)
  let (s, _) ← s.endWriting? "w" now
  let (s, first) ← s.beginReading? "r" .next limit now
  let (s, _) ← s.endReading? "r" now
  let (w, id) ← s.writer? "w"
  let s := s.closing "w" w id now
  let (s, second) ← s.beginReading? "q" .next limit now
  let (_, third) ← s.beginReading? "r" .next limit now
  return [first, second, third]

/-- **One reader gets the step, the other the end of the stream.** The one is not told that the
stream has ended, and the other not that there was a step. -/
theorem second_reader_misses_step :
    (visit? ⟨0, 0⟩ (.ofMillis 3000)).map (List.map Except.toOption) =
      some [some (.ready, some 0), some (.endOfStream, none), some (.broken, some 0)] := by
  decide +kernel

end Session

end Stepcast
