import Stepcast.Archive
import Stepcast.Moment
import Stepcast.Monitor
import Stepcast.Operator
import Stepcast.Reader.Link
import Stepcast.Settings
import Stepcast.Stage

/-!
# Readers

A reader takes in the messages of all writer ranks and goes through the steps that they hold. A
step is complete when every rank contributed to it, or when nothing more can come.

Main definitions: `Reader.choose` says which step comes next, `Reader.tryBegin` goes there.
-/

namespace Stepcast

/-- The step that a reader asks for. -/
inductive StepMode where
  /-- The oldest complete step after the current one. -/
  | next
  /-- The newest complete step. -/
  | latest
deriving Repr, DecidableEq

/-- What became of the wish for a step. -/
inductive StepStatus where
  | ready
  /-- No new step yet. -/
  | notReady
  | endOfStream
  /-- A writer is gone without having ended the stream. -/
  | broken
deriving Repr, DecidableEq

/-- The reading end of a stream. -/
structure Reader where
  name : String
  delivery : DeliveryMode
  operators : Operators
  /-- The links to the writer ranks, by rank. -/
  links : List Link
  archive : Archive := {}
  stage : Stage := .idle
  /-- The step that was entered last. -/
  currentStep : Option UInt64 := none
  /-- The blocks that the active step had when it was entered. -/
  currentBlocks : Option (List Block) := none
  monitor : Option Monitor := none

namespace Reader

/-! ## Opening -/

/-- Connects to the endpoint of a writer rank. -/
def connect (s : Settings) (endpoint : String) (n : Network) : Link × Network :=
  match s.delivery with
  | .fast =>
    let (id, broadcast) := n.broadcast.subscribe endpoint s.queueDepth
    ({ channel := .inbox id }, { n with broadcast })
  | .reliable =>
    let (id, exchange) := n.exchange.connect endpoint s.timeoutDuration
    ({ channel := .client id false }, { n with exchange })

/-- Connects to the writer ranks one after the other; a failure gives up the links before it. -/
def connectAll (s : Settings) (links : List Link) (n : Network) :
    List UInt32 → Network × Except Fault (List Link)
  | [] => (n, .ok links)
  | rank :: ranks =>
    match s.endpointOfRank rank with
    | .error f => (links.foldl (fun n l => l.disconnect n) n, .error f)
    | .ok endpoint =>
      let (l, n) := connect s endpoint n
      connectAll s (links ++ [l]) n ranks

/-- Sends requests over the links one after the other. -/
def requestAll : List Link → Network → List Link × Network
  | [], n => ([], n)
  | l :: rest, n =>
    let (l, n) := l.request n
    let (rest, n) := requestAll rest n
    (l :: rest, n)

/-- The ranks that a reader connects to: `writers` of them and one at least, of which 32 bits
count. -/
def writerRanks (writers : Nat) : List UInt32 :=
  (List.range (max writers 1 % UInt32.size)).map UInt32.ofNat

/-- Opens a reader for `writers` ranks. -/
def «open» (name : String) (s : Settings) (writers : Nat) (operators : Operators) (now : Moment)
    (n : Network) : Network × Except Fault Reader :=
  match s.validate with
  | .error f => (n, .error f)
  | .ok () =>
    match connectAll s [] n (writerRanks writers) with
    | (n, .error f) => (n, .error f)
    | (n, .ok links) =>
      let (links, n) := requestAll links n
      (n, .ok
        { name, delivery := s.delivery, operators, links
          monitor := if s.monitor then some { started := now.instant } else none })

/-! ## Receiving -/

/-- All links are done. -/
def isDone (r : Reader) : Bool := r.links.all Link.isDone

/-- Takes in messages that came over a link, until one is refused. -/
def takeIn (a : Archive) (l : Link) : List Bytes → Archive × Link × Except Fault Unit
  | [] => (a, l, .ok ())
  | message :: rest =>
    match a.put message with
    | (a, .ok (.endOfStream _)) => takeIn a { l with ended := true } rest
    | (a, .ok _) => takeIn a l rest
    | (a, .error f) => (a, l, .error f)

/-- Takes in what has come over a link. Without an end of the stream, a writer that has no more is
lost; a refused message is reported before that is found out. -/
def receiveFrom (a : Archive) (l : Link) (n : Network) :
    Archive × Link × Network × Except Fault Unit :=
  let (messages, gone, l, n) := l.receive n
  match takeIn a l messages with
  | (a, l, .ok ()) => (a, if gone && !l.ended then { l with lost := true } else l, n, .ok ())
  | (a, l, .error f) => (a, l, n, .error f)

/-- Takes in what has come over the link with the given number. -/
def receiveLink (r : Reader) (i : Nat) (n : Network) : Reader × Network × Except Fault Unit :=
  match r.links[i]? with
  | none => (r, n, .ok ())
  | some l =>
    let (archive, l, n, result) := receiveFrom r.archive l n
    ({ r with archive, links := r.links.set i l }, n, result)

/-- Sends a request over the link with the given number. -/
def requestLink (r : Reader) (i : Nat) (n : Network) : Reader × Network :=
  match r.links[i]? with
  | none => (r, n)
  | some l =>
    let (l, n) := l.request n
    ({ r with links := r.links.set i l }, n)

/-- Takes in what has come over the links with the given numbers, until a message is refused. -/
def receiveLinks (r : Reader) (n : Network) : List Nat → Reader × Network × Except Fault Unit
  | [] => (r, n, .ok ())
  | i :: rest =>
    match r.receiveLink i n with
    | (r, n, .ok ()) => r.receiveLinks n rest
    | (r, n, .error f) => (r, n, .error f)

/-- Takes in what has come. -/
def receive (r : Reader) (n : Network) : Reader × Network × Except Fault Unit :=
  r.receiveLinks n (List.range r.links.length)

/-! ## Choosing a step -/

/-- The live steps past the current one, in increasing order. -/
def candidates (r : Reader) : List UInt64 :=
  r.archive.liveSteps.filter (fun s => r.currentStep.all (· < s))

/-- Every rank contributed to the step, or nothing more can come. -/
def isComplete (r : Reader) (step : UInt64) : Bool :=
  r.isDone || r.links.length ≤ r.archive.rankCount step

/-- The step to go to. In fast delivery an incomplete step may never be completed and is passed
over; in reliable delivery it is waited for. -/
def choose (r : Reader) (mode : StepMode) : Option UInt64 :=
  match mode, r.delivery with
  | .next, .fast => r.candidates.find? r.isComplete
  | .next, .reliable => r.candidates.head?.filter r.isComplete
  | .latest, _ => r.candidates.reverse.find? r.isComplete

/-- Erases the steps before the chosen one. -/
def skipTo (r : Reader) (step : UInt64) : Reader :=
  { r with archive := (r.candidates.takeWhile (· < step)).foldl Archive.erase r.archive }

/-- Counts the steps that were missed on the way to `step`, and the age of its oldest block. -/
def countEntry (m : Monitor) (current : Option UInt64) (step : UInt64) (blocks : List Block)
    (now : Moment) : Monitor :=
  let expected := current.elim 0 (fun c => c.toNat + 1)
  let m := m.recordDropped (step.toNat - expected)
  match (blocks.filterMap (·.timestamp)).min? with
  | some t => m.recordTimestamp now.millis.toInt t.toInt
  | none => m

/-- Goes to a live step. -/
def enter (r : Reader) (step : UInt64) (now : Moment) : Reader :=
  let blocks := r.archive.blocks? step
  { r with
    monitor := r.monitor.map (fun m => countEntry m r.currentStep step (blocks.getD []) now)
    currentStep := some step
    currentBlocks := blocks
    stage := .active }

/-- `countEntry` where sums and differences are checked. -/
def countEntry? (m : Monitor) (current : Option UInt64) (step : UInt64) (blocks : List Block)
    (now : Moment) : Option Monitor := do
  let expected := current.elim 0 (fun c => c.toNat + 1)
  let m ← m.recordDropped? (step.toNat - expected)
  match (blocks.filterMap (·.timestamp)).min? with
  | some t => m.recordTimestamp? now.millis.toInt t.toInt
  | none => return m

/-- `enter` where sums and differences are checked, the step after the current one too. -/
def enter? (r : Reader) (step : UInt64) (now : Moment) : Option Reader := do
  let blocks := r.archive.blocks? step
  guard (r.currentStep.elim 0 (fun c => c.toNat + 1) < UInt64.size)
  match r.monitor with
  | none => return r.enter step now
  | some m =>
    let m ← countEntry? m r.currentStep step (blocks.getD []) now
    return { r.enter step now with monitor := some m }

/-- The oldest block of the active step has an age of 64 bits. -/
def ageFits (r : Reader) (now : Moment) : Bool :=
  r.monitor.isNone || (((r.currentBlocks.getD []).filterMap (·.timestamp)).min?).all (fun t =>
    Monitor.AgeFits now.millis.toInt t.toInt)

/-- What to say when there is no step to go to and nothing more can come. -/
def lastStatus (r : Reader) : StepStatus :=
  if r.links.any (·.lost) then .broken else .endOfStream

/-- Takes in what has come and goes to the next step, if there is one. Nothing when there may be
one later. -/
def tryBegin (r : Reader) (mode : StepMode) (now : Moment) (n : Network) :
    Reader × Network × Except Fault (Option StepStatus) :=
  match r.receive n with
  | (r, n, .error f) => (r, n, .error f)
  | (r, n, .ok ()) =>
    match r.choose mode with
    | some step => ((r.skipTo step).enter step now, n, .ok (some .ready))
    | none => (r, n, .ok (if r.isDone then some r.lastStatus else none))

/-! ## What is allowed when -/

def ensureOpen (r : Reader) : Except Fault Unit :=
  if r.stage = .closed then .error (.closed (.stream r.name)) else .ok ()

/-- A step can be begun. -/
def checkBegin (r : Reader) : Except Fault Unit := do
  r.ensureOpen
  if r.stage = .active then throw (.argument (.stepActive r.name r.currentStep))

/-- The blocks of the active step, which the operation needs. -/
def stepBlocks (r : Reader) (operation : String) : Except Fault (List Block) := do
  r.ensureOpen
  match r.currentBlocks, r.stage with
  | some blocks, .active => return blocks
  | _, _ => throw (.argument (.outsideStep r.name operation))

/-! ## Ending -/

/-- Lets the active step go. -/
def leave (r : Reader) (step : UInt64) (now : Moment) : Reader :=
  let bytes := (r.currentBlocks.getD []).foldr (fun b n => b.size + n) 0
  { r with
    monitor := r.monitor.map (·.endStep now.instant bytes)
    currentBlocks := none
    archive := r.archive.erase step
    stage := .idle }

/-- Ends the active step and asks for more. -/
def endStep (r : Reader) (now : Moment) (n : Network) : Reader × Network × Except Fault Unit :=
  match r.ensureOpen with
  | .error f => (r, n, .error f)
  | .ok () =>
    match r.stage, r.currentStep with
    | .active, some step =>
      let r := r.leave step now
      let (links, n) := requestAll r.links n
      ({ r with links }, n, .ok ())
    | _, _ => (r, n, .error (.argument (.noActiveStep r.name)))

/-- Closes the reader. The attributes and the current step stay known. -/
def close (r : Reader) (n : Network) : Reader × Network :=
  if r.stage = .closed then (r, n)
  else
    ({ r with stage := .closed, currentBlocks := none, archive := r.archive.clear, links := [] },
      r.links.foldl (fun n l => l.disconnect n) n)

/-- `close` where sums are checked: a reader that closes reports its statistics. -/
def close? (r : Reader) (now : Moment) (n : Network) : Option (Reader × Network) :=
  if r.stage = .closed || r.monitor.all (fun m => (m.report? now.instant).isSome) then
    some (r.close n)
  else none

end Reader

end Stepcast
