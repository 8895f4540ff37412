import Stepcast.Proofs.Delivery.Feed
import Stepcast.Proofs.Delivery.Runs

/-!
# Telecasts

A telecast is one writer in fast delivery, what publishes its messages, and one reader. They act one
at a time and in any order. The reader takes its messages out of the inbox one by one, with the
others in between: a message may come, or the publisher may go, while it does.

A telecast keeps what the inbox has accepted. What comes while the inbox is full is not among it.

Main definition: `Telecast.handle?`. Main statements: `Telecast.goesFor?_begin` and
`Listener.endStep?_eq`, which say that a reader that is not interrupted does what `Reader.tryBegin`
and `Reader.endStep` do at once.
-/

namespace Stepcast

/-- A writer in fast delivery, with what publishes its messages. -/
structure Station where
  writer : Writer
  publication : Publication
  /-- The finished messages that are not handed over. -/
  backlog : List Outgoing := []
  /-- Nobody has the writer any more. -/
  gone : Bool := false
  /-- What the calls so far amount to, of which none was refused. -/
  log : Writer.Log := {}
  /-- All messages that were finished so far. -/
  finished : List Outgoing := []

namespace Telecast

/-- What the reader is doing. -/
inductive Phase where
  /-- Nothing: no call is under way. -/
  | idle
  /-- It takes messages out of its inbox and has these in hand. When it is `patient` it has found
  no step before and waits for one. -/
  | taking (patient : Bool) (hand : List Bytes)
  /-- It has taken in what there was and goes to a step, if there is one. -/
  | choosing
deriving DecidableEq

/-- The messages in hand. -/
def Phase.hand : Phase → List Bytes
  | taking _ hand => hand
  | _ => []

end Telecast

/-- A reader with an inbox, and what came to it. -/
structure Listener where
  reader : Reader
  inbox : Nat
  phase : Telecast.Phase := .idle
  /-- The messages that the inbox has accepted. -/
  accepted : List Outgoing := []
  /-- The steps that the reader was let into. -/
  exposed : List Exposure := []
  /-- What `begin_step` said, call by call. -/
  outcomes : List (Except Fault StepStatus) := []

/-- A network, the writer if it has come, and the reader if it has. -/
structure Telecast where
  network : Network := {}
  station : Option Station := none
  listener : Option Listener := none

/-- The reader with one link takes in the messages that it took out of its inbox. Afterwards the
writer may be `gone`. -/
def Reader.absorb (r : Reader) (messages : List Bytes) (gone : Bool) :
    Reader × Except Fault Unit :=
  match r.links with
  | [l] =>
    match takeIn r.archive l messages with
    | (archive, l, .ok ()) =>
      ({ r with archive, links := [if gone && !l.ended then { l with lost := true } else l] },
        .ok ())
    | (archive, l, .error f) => ({ r with archive, links := [l] }, .error f)
  | _ => (r, .ok ())

/-! ## The writer -/

namespace Station

/-- A call on a writer that has handed over what it finished before; nothing when the call is
refused. -/
def call? (s : Station) (c : Writer.Call) : Option Station :=
  match s.gone, s.backlog, s.writer.act c with
  | false, [], (writer, .ok messages) =>
    some { s with
      writer
      backlog := messages
      log := s.log.note c
      finished := s.finished ++ messages }
  | _, _, _ => none

/-- The publication as its courier would be. -/
def turn? (s : Station) (act : Courier → Courier) : Option Station :=
  match act (.publication s.publication) with
  | .publication publication => some { s with publication }
  | .responder _ => none

/-- A closed writer lets its publication go. -/
def letGo? (s : Station) : Option Station :=
  if s.writer.stage = .closed && s.backlog.isEmpty then s.turn? .close else none

/-- The writer goes, closed or not. -/
def leave? (s : Station) : Option Station := do
  if !s.backlog.isEmpty then none
  return { ← s.turn? .abandon with gone := true }

end Station

/-! ## The reader -/

namespace Listener

/-- The messages that are offered at an address come to the inbox, if it takes them. -/
def hear (l : Listener) (b : Broadcast) (address : String) (messages : List Outgoing) : Listener :=
  if l.inbox ∈ b.takers address then { l with accepted := l.accepted ++ messages } else l

/-- The reader takes in the messages in hand. After it has waited it does so once more. -/
def absorb (l : Listener) (patient : Bool) (hand : List Bytes) (gone : Bool) : Listener :=
  match l.reader.absorb hand gone with
  | (reader, .ok ()) =>
    { l with reader, phase := if patient then .taking false [] else .choosing }
  | (reader, .error f) => { l with reader, phase := .idle, outcomes := l.outcomes ++ [.error f] }

/-- The reader goes on after this came out of its inbox. When there are no more messages, it takes
in those in hand. -/
def take (l : Listener) (patient : Bool) (hand : List Bytes) :
    Except Fault (Option Bytes) → Listener
  | .ok (some message) => { l with phase := .taking patient (hand ++ [message]) }
  | .ok none => l.absorb patient hand false
  | .error _ => l.absorb patient hand true

/-- `begin_step` returns. -/
def finishBegin (l : Listener) (outcome : Except Fault StepStatus) : Listener :=
  { l with phase := .idle, outcomes := l.outcomes ++ [outcome] }

/-- The reader goes to the next step, if there is one. Otherwise it says why not, or waits for more
when its time has not passed. -/
def choose (l : Listener) (expired : Bool) (now : Moment) : Listener :=
  match l.reader.choose .next with
  | some step =>
    let reader := (l.reader.skipTo step).enter step now
    let entered : Listener := { l with reader, exposed := l.exposed ++ [⟨step, reader⟩] }
    entered.finishBegin (.ok .ready)
  | none =>
    if l.reader.isDone then l.finishBegin (.ok l.reader.lastStatus)
    else if expired then l.finishBegin (.ok .notReady)
    else { l with phase := .taking true [] }

def beginStep? (l : Listener) : Option Listener :=
  match l.phase, l.reader.checkBegin with
  | .idle, .ok () => some { l with phase := .taking false [] }
  | _, _ => none

/-- There is nothing to ask for over an inbox. -/
def endStep? (l : Listener) (now : Moment) : Option Listener :=
  match l.phase, l.reader.stage, l.reader.currentStep with
  | .idle, .active, some step => some { l with reader := l.reader.leave step now }
  | _, _, _ => none

end Listener

namespace Telecast

/-- What can happen. -/
inductive Event where
  | openWriter (now : Moment)
  | openReader (now : Moment)
  | call (c : Writer.Call)
  /-- The writer hands over the next message. -/
  | handOver
  /-- The publication works beside the writer. -/
  | publish
  | letGo
  | leave
  | beginStep
  /-- The reader goes on with its call. -/
  | proceed (expired : Bool) (now : Moment)
  | endStep (now : Moment)

/-! ## Coming -/

/-- The writer takes its endpoint. -/
def openWriter? (crew : Crew) (t : Telecast) (now : Moment) : Option Telecast :=
  let settings := crew.writers 0
  let opened : Except Fault (Courier × Network) := do
    settings.validate
    Courier.open settings (← settings.endpointOfRank 0) t.network
  match t.station, opened with
  | none, .ok (.publication publication, network) =>
    let writer := Writer.create crew.name settings 0 (crew.operators 0) now
    some { t with network, station := some { writer, publication } }
  | _, _ => none

/-- The reader takes an inbox. -/
def openReader? (crew : Crew) (t : Telecast) (now : Moment) : Option Telecast :=
  match t.listener, Reader.open crew.name crew.settings 1 crew.inverses now t.network with
  | none, (network, .ok reader) =>
    match reader.links.map Link.channel with
    | [.inbox inbox] => some { t with network, listener := some { reader, inbox } }
    | _ => none
  | _, _ => none

/-! ## Publishing -/

/-- The publication has worked, and these messages were offered. -/
def air? (t : Telecast) (s : Station) (offered : List Outgoing)
    (worked : Option (Publication × Broadcast)) : Option Telecast := do
  let (publication, broadcast) ← worked
  return {
    network := { t.network with broadcast }
    station := some { s with publication }
    listener := t.listener.map (·.hear t.network.broadcast s.publication.address offered) }

/-- The writer hands over a message. A direct publication offers it at once. -/
def handOver? (t : Telecast) : Option Telecast := do
  let s ← t.station
  match s.backlog with
  | [] => none
  | m :: backlog =>
    t.air? { s with backlog } (if s.publication.direct then [m] else [])
      (s.publication.handOver? t.network.broadcast m)

/-- The publication offers the next message of its queue, or gives up its address. -/
def publish? (t : Telecast) : Option Telecast := do
  let s ← t.station
  t.air? s s.publication.outbox.messages.head?.toList (s.publication.step? t.network.broadcast)

/-! ## Runs -/

/-- The writer does something on its own. -/
def changeStation? (t : Telecast) (act : Station → Option Station) : Option Telecast := do
  return { t with station := some (← act (← t.station)) }

/-- The reader does something on its own. -/
def changeListener? (t : Telecast) (act : Listener → Option Listener) : Option Telecast := do
  return { t with listener := some (← act (← t.listener)) }

/-- The reader goes on with its call. A link that is done brings nothing more. -/
def proceed? (t : Telecast) (expired : Bool) (now : Moment) : Option Telecast := do
  let l ← t.listener
  match l.phase with
  | .idle => none
  | .taking patient hand =>
    let (got, broadcast) :=
      if l.reader.isDone then (.ok none, t.network.broadcast)
      else t.network.broadcast.receive l.inbox
    return { t with
      network := { t.network with broadcast }
      listener := some (l.take patient hand got) }
  | .choosing => return { t with listener := some (l.choose expired now) }

/-- The telecast after an event; nothing when it cannot happen. -/
def handle? (crew : Crew) (t : Telecast) : Event → Option Telecast
  | .openWriter now => t.openWriter? crew now
  | .openReader now => t.openReader? crew now
  | .call c => t.changeStation? (·.call? c)
  | .handOver => t.handOver?
  | .publish => t.publish?
  | .letGo => t.changeStation? Station.letGo?
  | .leave => t.changeStation? Station.leave?
  | .beginStep => t.changeListener? Listener.beginStep?
  | .proceed expired now => t.proceed? expired now
  | .endStep now => t.changeListener? (·.endStep? now)

/-- The telecast after events, when nobody had come before. -/
def run? (crew : Crew) (events : List Event) : Option Telecast := events.foldlM (handle? crew) {}

end Telecast

/-! ## Without interruption -/

/-- The listener when `begin_step` has come to a result, or has to wait. -/
def Listener.tried (l : Listener) (step? : Option UInt64) (reader : Reader) :
    Except Fault (Option StepStatus) → Listener
  | .ok (some status) =>
    { l with
      reader
      phase := .idle
      exposed := l.exposed ++ (step?.map fun step => ⟨step, reader⟩).toList
      outcomes := l.outcomes ++ [.ok status] }
  | .ok none => { l with reader, phase := .taking true [] }
  | .error f => { l with reader, phase := .idle, outcomes := l.outcomes ++ [.error f] }

section Alone

variable {t t' : Telecast} {l : Listener} {link : Link} {r : Reader} {n : Network} {b : Broadcast}
  {i : Inbox} {id : Nat} {expired patient : Bool} {now : Moment} {hand : List Bytes}

theorem Broadcast.receiveAll_of_nil (hsorted : Table.Sorted b.inboxes)
    (hi : b.inboxes.at? id = some i) (hnil : i.messages = []) :
    b.receiveAll id = ([], b.isCutOff id i, b) := by
  have hsame : b.inboxes.put id { i with messages := [] } = b.inboxes :=
    Table.put_eq_self hsorted (hnil ▸ hi)
  simp only [receiveAll, hi, hnil, hsame]

/-- What is left after the oldest message is taken comes out as it would have. -/
theorem Broadcast.receiveAll_of_cons {message : Bytes} {rest : List Bytes}
    (hsorted : Table.Sorted b.inboxes) (hi : b.inboxes.at? id = some i)
    (hcons : i.messages = message :: rest) : ∃ b', b.receive id = (.ok (some message), b') ∧
      b'.inboxes.at? id = some { i with messages := rest } ∧ Table.Sorted b'.inboxes ∧
      b.receiveAll id = (message :: (b'.receiveAll id).1, (b'.receiveAll id).2) := by
  refine ⟨{ b with inboxes := b.inboxes.put id { i with messages := rest } }, ?_,
    Table.at?_put_self .., hsorted.put id _, ?_⟩
  · simp only [receive, hi, hcons]
  · simp only [receiveAll, hi, Table.at?_put_self, hcons, Table.put_put hsorted]
    rfl

/-- Over an inbox `Reader.receive` takes in all that comes out of it. -/
theorem Reader.receive_eq_absorb (hlinks : r.links = [link]) (hchannel : link.channel = .inbox id) :
    r.receive n = ((r.absorb (link.receive n).1 (link.receive n).2.1).1, (link.receive n).2.2.2,
      (r.absorb (link.receive n).1 (link.receive n).2.1).2) := by
  have hsame : (link.receive n).2.2.1 = link := by
    rw [Link.receive, hchannel]
    cases link.isDone <;> rfl
  rcases hreceive : link.receive n with ⟨messages, gone, link', n'⟩
  rw [hreceive] at hsame
  obtain rfl : link' = link := hsame
  simp only [Reader.receive, hlinks, List.length_singleton, List.range_one, Reader.receiveLinks,
    Reader.receiveLink, List.getElem?_cons_zero, Reader.receiveFrom, hreceive, Reader.absorb,
    List.set_cons_zero]
  rcases Reader.takeIn r.archive link' messages with ⟨archive, link'', f | ⟨⟩⟩ <;> rfl

namespace Telecast

/-- The reader goes on `n` times, and nothing happens in between. -/
def goesFor? (expired : Bool) (now : Moment) : Nat → Telecast → Option Telecast
  | 0, t => some t
  | n + 1, t => (t.proceed? expired now).bind (goesFor? expired now n)

theorem goesFor?_add {m : Nat} (n : Nat) (h : goesFor? expired now m t = some t') :
    goesFor? expired now (m + n) t = goesFor? expired now n t' := by
  induction m generalizing t with
  | zero =>
    cases h
    rw [Nat.zero_add]
  | succ m ih =>
    obtain ⟨t₁, hstep, hrest⟩ := Option.bind_eq_some_iff.mp h
    rw [Nat.succ_add, goesFor?, hstep, Option.bind_some, ih hrest]

/-- Taking the messages one by one takes in all that is in the inbox. -/
theorem goesFor?_taking (messages : List Bytes) : ∀ {t : Telecast} {l : Listener} {i : Inbox}
    {hand : List Bytes}, t.listener = some l → l.phase = .taking patient hand →
    l.reader.isDone = false → t.network.broadcast.inboxes.at? l.inbox = some i →
    i.messages = messages → Table.Sorted t.network.broadcast.inboxes →
    goesFor? expired now (messages.length + 1) t = some
      { t with
        network :=
          { t.network with broadcast := (t.network.broadcast.receiveAll l.inbox).2.2 }
        listener := some (l.absorb patient
          (hand ++ (t.network.broadcast.receiveAll l.inbox).1)
          (t.network.broadcast.receiveAll l.inbox).2.1) } := by
  induction messages with
  | nil =>
    intro t l i hand hl hphase hgoing hi hnil hsorted
    rw [Broadcast.receiveAll_of_nil hsorted hi hnil, List.append_nil]
    have hreceive : t.network.broadcast.receive l.inbox =
        (if t.network.broadcast.isCutOff l.inbox i then .error (.closed .publisher) else .ok none,
          t.network.broadcast) := by
      simp only [Broadcast.receive, hi, hnil]
    cases hoff : t.network.broadcast.isCutOff l.inbox i <;>
      simp [goesFor?, proceed?, hl, hphase, hgoing, hreceive, hoff, Listener.take]
  | cons message rest ih =>
    intro t l i hand hl hphase hgoing hi hcons hsorted
    obtain ⟨b', hreceive, hi', hsorted', hall⟩ :=
      Broadcast.receiveAll_of_cons hsorted hi hcons
    have hstep : t.proceed? expired now = some
        { t with
          network := { t.network with broadcast := b' }
          listener := some { l with phase := .taking patient (hand ++ [message]) } } := by
      simp [proceed?, hl, hphase, hgoing, hreceive, Listener.take]
    rw [List.length_cons, goesFor?, hstep, Option.bind_some,
      @ih _ { l with phase := .taking patient (hand ++ [message]) } _ (hand ++ [message]) rfl rfl
        hgoing hi' rfl hsorted', hall]
    simp [Listener.absorb]

/-- **Without interruption `begin_step` is `Reader.tryBegin`**, until it has to wait. -/
theorem goesFor?_begin (hl : t.listener = some l) (hphase : l.phase = .taking false [])
    (hlinks : l.reader.links = [link]) (hchannel : link.channel = .inbox l.inbox)
    (hi : t.network.broadcast.inboxes.at? l.inbox = some i)
    (hsorted : Table.Sorted t.network.broadcast.inboxes) : ∃ n step?,
    goesFor? false now n t = some
      { t with
        network := (l.reader.tryBegin .next now t.network).2.1
        listener := some (l.tried step? (l.reader.tryBegin .next now t.network).1
          (l.reader.tryBegin .next now t.network).2.2) } := by
  -- All messages are taken in at first.
  obtain ⟨k, hk⟩ : ∃ k, goesFor? false now k t = some
      { t with
        network := (link.receive t.network).2.2.2
        listener := some
          (l.absorb false (link.receive t.network).1 (link.receive t.network).2.1) } := by
    by_cases hdone : l.reader.isDone = true
    · have hlink : link.isDone = true := by simpa [Reader.isDone, hlinks] using hdone
      refine ⟨1, ?_⟩
      simp [goesFor?, proceed?, hl, hphase, hdone, Link.receive, hlink, Listener.take]
    · have hlink : link.isDone = false := by simpa [Reader.isDone, hlinks] using hdone
      refine ⟨_,
        (goesFor?_taking i.messages hl hphase (by simpa using hdone) hi rfl hsorted).trans ?_⟩
      simp [Link.receive, hlink, hchannel]
  have hreceive := Reader.receive_eq_absorb (n := t.network) hlinks hchannel
  unfold Reader.tryBegin
  rw [hreceive]
  rcases habsorb : l.reader.absorb (link.receive t.network).1 (link.receive t.network).2.1 with
    ⟨r, f | ⟨⟩⟩
  · refine ⟨k, none, ?_⟩
    rw [hk]
    simp [Listener.absorb, habsorb, Listener.tried]
  · have hchoosing : l.absorb false (link.receive t.network).1 (link.receive t.network).2.1 =
        { l with reader := r, phase := .choosing } := by
      simp [Listener.absorb, habsorb]
    rw [hchoosing] at hk
    have hchoose : goesFor? false now (k + 1) t = some
        { t with
          network := (link.receive t.network).2.2.2
          listener := some
            (({ l with reader := r, phase := .choosing } : Listener).choose false now) } := by
      rw [goesFor?_add 1 hk]
      rfl
    refine ⟨k + 1, r.choose .next, hchoose.trans ?_⟩
    cases hstep : r.choose .next with
    | some step => simp [Listener.choose, hstep, Listener.tried, Listener.finishBegin]
    | none =>
      by_cases hdone : r.isDone = true
      · simp [Listener.choose, hstep, hdone, Listener.tried, Listener.finishBegin]
      · simp [Listener.choose, hstep, hdone, Listener.tried]

end Telecast

/-- **`end_step` is `Reader.endStep`**, which asks for nothing over an inbox. -/
theorem Listener.endStep?_eq {l' : Listener} (h : l.endStep? now = some l')
    (hlinks : l.reader.links = [link]) (hchannel : link.channel = .inbox id) (n : Network) :
    l.reader.endStep now n = (l'.reader, n, .ok ()) := by
  unfold endStep? at h
  split at h
  · rename_i step hphase hactive hcurrent
    cases h
    have hrequest : link.request n = (link, n) := by
      rw [Link.request, hchannel]
      cases link.isDone <;> rfl
    have hrest : (l.reader.leave step now).links = [link] := hlinks
    simp only [Reader.endStep, Reader.ensureOpen, hactive, hcurrent, hrest, Reader.requestAll,
      hrequest]
    rw [← hrest]
    rfl
  · cases h

end Alone

end Stepcast
