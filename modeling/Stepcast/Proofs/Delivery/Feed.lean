import Stepcast.Delivery.Courier
import Stepcast.Proofs.Delivery.Writing
import Stepcast.Reader

/-!
# Feeds

A feed is one reader with the writers of all ranks it reads from, in reliable delivery. Writers,
their responders and the reader act one at a time and in any order. An event is one call on a
writer, or one operation on the network: the reader's `begin_step` and `end_step` go on link by
link, with the others in between.

A writer that finished messages hands them over one by one before it is called again. A closed
writer lets its responder go when all messages have been released, or when the limit for that may
have passed, if there is one.
-/

namespace Stepcast

/-- Who takes part in a feed, and with which settings. -/
structure Crew where
  name : String
  /-- The ranks of the writers, in the order of the reader's links. -/
  ranks : List UInt32
  /-- The settings of the reader. -/
  settings : Settings
  /-- The operators of the reader. -/
  inverses : Operators
  /-- The settings of each writer. -/
  writers : UInt32 → Settings
  operators : UInt32 → Operators

/-- The writer of one rank, with what carries its messages. -/
structure Sender where
  writer : Writer
  responder : Responder
  /-- The finished messages that are not handed over. -/
  backlog : List Outgoing := []
  /-- The calls so far, of which none was refused. -/
  calls : List Writer.Call := []
  /-- The drafts that were finished so far. -/
  drafts : List Draft := []

/-- A step that the reader was let into, and the reader as it was then. -/
structure Exposure where
  step : UInt64
  reader : Reader

namespace Feed

/-- What the reader is doing. -/
inductive Phase where
  /-- Nothing: no call is under way. -/
  | idle
  /-- It has begun a step and takes in what has come, from the given link on. -/
  | looking (link : Nat)
  /-- There is no step yet; it asks over the given link. -/
  | asking (link : Nat)
  /-- It takes in what has come since over the given link. -/
  | awaiting (link : Nat)
  /-- It has ended a step, or has just been opened, and asks over the links from the given one
  on. -/
  | renewing (link : Nat)
deriving DecidableEq

end Feed

/-- A network, the writers that have come, and the reader. -/
structure Feed where
  network : Network
  senders : Table UInt32 Sender := []
  reader : Reader
  phase : Feed.Phase := .renewing 0
  /-- The steps that the reader was let into. -/
  exposed : List Exposure := []
  /-- What `begin_step` said, call by call. -/
  outcomes : List (Except Fault StepStatus) := []

namespace Feed

/-- What can happen. -/
inductive Event where
  /-- A writer comes. -/
  | openWriter (rank : UInt32) (now : Moment)
  | call (rank : UInt32) (c : Writer.Call)
  /-- A writer hands over the next message. -/
  | handOver (rank : UInt32)
  /-- A closed writer lets its responder go. -/
  | letGo (rank : UInt32)
  /-- A responder takes its next step. -/
  | answer (rank : UInt32) (waited : Duration)
  | beginStep
  /-- The reader goes on with its call. -/
  | proceed (expired : Bool) (now : Moment)
  | endStep (now : Moment)

/-- The reader has its links to all ranks, and has not asked for anything. -/
def start? (crew : Crew) (now : Moment) : Option Feed :=
  match Reader.connectAll crew.settings [] {} crew.ranks with
  | (network, .ok links) =>
    some
      { network
        reader :=
          { name := crew.name, delivery := crew.settings.delivery, operators := crew.inverses, links
            monitor :=
              if crew.settings.monitor then some { started := now.instant } else none } }
  | (_, .error _) => none

/-! ## Writers -/

def putSender (f : Feed) (rank : UInt32) (s : Sender) : Feed :=
  { f with senders := f.senders.put rank s }

/-- A writer takes its endpoint. -/
def openWriter? (crew : Crew) (f : Feed) (rank : UInt32) (now : Moment) : Option Feed :=
  let settings := crew.writers rank
  let opened : Except Fault (Courier × Network) := do
    settings.validate
    Courier.open settings (← settings.endpointOfRank rank) f.network
  match opened with
  | .ok (.responder responder, network) =>
    if rank ∈ crew.ranks && (f.senders.at? rank).isNone then
      let writer := Writer.create crew.name settings rank (crew.operators rank) now
      some ({ f with network }.putSender rank { writer, responder })
    else none
  | _ => none

/-- A call on a writer that has handed over what it finished before; nothing when the call is
refused. -/
def call? (s : Sender) (c : Writer.Call) : Option Sender :=
  match s.backlog, s.writer.act c with
  | [], (writer, .ok messages) =>
    some { s with
      writer
      backlog := messages
      calls := s.calls ++ [c]
      drafts := s.drafts ++ (s.writer.finishes? c).toList }
  | _, _ => none

/-- The next message goes to the responder, if there is room for it. -/
def handOver? (s : Sender) : Option Sender :=
  match s.backlog with
  | [] => none
  | m :: backlog => do return { s with responder := ← s.responder.handOver? m, backlog }

/-- The responder is told that nothing more comes. -/
def letGo? (settings : Settings) (s : Sender) : Option Sender :=
  if s.writer.stage = .closed && s.backlog.isEmpty &&
      (s.responder.isDrained || settings.drainLimit.isSome) then
    some { s with responder := { s.responder with abandoned := true, shutdown := true } }
  else none

/-- The sender of a rank changes on its own. -/
def change? (f : Feed) (rank : UInt32) (act : Sender → Option Sender) : Option Feed := do
  return f.putSender rank (← act (← f.senders.at? rank))

/-- The responder of a rank takes its next step. -/
def answer? (f : Feed) (rank : UInt32) (waited : Duration) : Option Feed := do
  let s ← f.senders.at? rank
  let (responder, exchange) ← s.responder.step? waited f.network.exchange
  let network := { f.network with exchange }
  return { f with network }.putSender rank { s with responder }

/-! ## The reader -/

/-- The reader takes in what has come over a link. A refused message ends the call. -/
def takeIn (f : Feed) (link : Nat) (next : Phase) : Feed :=
  match f.reader.receiveLink link f.network with
  | (reader, network, .ok ()) => { f with reader, network, phase := next }
  | (reader, network, .error e) =>
    { f with reader, network, phase := .idle, outcomes := f.outcomes ++ [.error e] }

/-- The reader asks over a link. -/
def ask (f : Feed) (link : Nat) (next : Phase) : Feed :=
  let (reader, network) := f.reader.requestLink link f.network
  { f with reader, network, phase := next }

/-- `begin_step` returns. -/
def finishBegin (f : Feed) (outcome : Except Fault StepStatus) : Feed :=
  { f with phase := .idle, outcomes := f.outcomes ++ [outcome] }

/-- The reader goes to the next step, if there is one. Otherwise it says why not, or goes on asking
when its time has not passed. -/
def choose (f : Feed) (expired : Bool) (now : Moment) : Feed :=
  match f.reader.choose .next with
  | some step =>
    let reader := (f.reader.skipTo step).enter step now
    let entered : Feed := { f with reader, exposed := f.exposed ++ [⟨step, reader⟩] }
    entered.finishBegin (.ok .ready)
  | none =>
    if f.reader.isDone then f.finishBegin (.ok f.reader.lastStatus)
    else if expired then f.finishBegin (.ok .notReady)
    else { f with phase := .asking 0 }

/-- The reader goes on with its call. -/
def proceed? (f : Feed) (expired : Bool) (now : Moment) : Option Feed :=
  let links := f.reader.links.length
  match f.phase with
  | .idle => none
  | .looking i =>
    if i < links then some (f.takeIn i (.looking (i + 1))) else some (f.choose expired now)
  | .asking i =>
    if i < links then some (f.ask i (.awaiting i)) else some { f with phase := .looking 0 }
  | .awaiting i => some (f.takeIn i (.asking (i + 1)))
  | .renewing i =>
    if i < links then some (f.ask i (.renewing (i + 1))) else some { f with phase := .idle }

def beginStep? (f : Feed) : Option Feed :=
  match f.phase, f.reader.checkBegin with
  | .idle, .ok () => some { f with phase := .looking 0 }
  | _, _ => none

def endStep? (f : Feed) (now : Moment) : Option Feed :=
  match f.phase, f.reader.stage, f.reader.currentStep with
  | .idle, .active, some step =>
    some { f with reader := f.reader.leave step now, phase := .renewing 0 }
  | _, _, _ => none

/-! ## Runs -/

/-- The feed after an event; nothing when it cannot happen. -/
def handle? (crew : Crew) (f : Feed) : Event → Option Feed
  | .openWriter rank now => f.openWriter? crew rank now
  | .call rank c => f.change? rank (call? · c)
  | .handOver rank => f.change? rank handOver?
  | .letGo rank => f.change? rank (letGo? (crew.writers rank))
  | .answer rank waited => f.answer? rank waited
  | .beginStep => f.beginStep?
  | .proceed expired now => f.proceed? expired now
  | .endStep now => f.endStep? now

/-- The feed after events. -/
def run? (crew : Crew) (now : Moment) (events : List Event) : Option Feed := do
  events.foldlM (handle? crew) (← start? crew now)

end Feed

end Stepcast
