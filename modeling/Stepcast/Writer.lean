import Stepcast.Delivery.Outgoing
import Stepcast.Message.Draft
import Stepcast.Moment
import Stepcast.Monitor
import Stepcast.Settings
import Stepcast.Stage

/-!
# Writers

A writer takes blocks step by step. The steps of a batch share one draft; when the batch is full,
or the writer closes, the draft is finished and goes out as one message. The attributes go out
once, with the first message.

A writer does not send anything itself: `endStep` and `close` give the messages that are to be
handed over, in order.
-/

namespace Stepcast

/-- When the payload of a put goes into the message. -/
inductive PutMode where
  | sync
  /-- With the next `performPuts` or `endStep`. -/
  | deferred
deriving Repr, DecidableEq

/-- The writing end of a stream in one process. -/
structure Writer where
  name : String
  settings : Settings
  operators : Operators
  draft : Draft
  attributes : Attributes := []
  attributesSent : Bool := false
  /-- The deferred puts of the step, the oldest first. -/
  deferred : List (Variable × Bytes) := []
  stage : Stage := .idle
  /-- The step that was begun last. -/
  currentStep : Option UInt64 := none
  /-- The steps that ended since the last message. -/
  batchSteps : Nat := 0
  batchFirst : UInt64 := 0
  /-- The size of the draft when the step was begun. -/
  stepStart : Nat := 0
  monitor : Option Monitor := none

namespace Writer

/-- A new writer of the given rank. -/
def create (name : String) (settings : Settings) (rank : UInt32) (operators : Operators)
    (now : Moment) : Writer :=
  { name, settings, operators, draft := { rank }
    monitor := if settings.monitor then some { started := now.instant } else none }

def rank (w : Writer) : UInt32 := w.draft.rank

/-! ## What is allowed when -/

def ensureOpen (w : Writer) : Except Fault Unit :=
  if w.stage = .closed then .error (.closed (.stream w.name)) else .ok ()

/-- The active step, which the operation needs. -/
def activeStep (w : Writer) (operation : String) : Except Fault UInt64 := do
  w.ensureOpen
  match w.stage, w.currentStep with
  | .active, some step => return step
  | _, _ => throw (.argument (.outsideStep w.name operation))

/-! ## Attributes -/

/-- Sets an attribute of the stream. After the first message it is not sent any more. -/
def defineAttribute (w : Writer) (name : String) (a : Attribute) : Except Fault Writer := do
  w.ensureOpen
  return { w with attributes := w.attributes.put name a }

/-! ## Steps -/

/-- Begins the next step; the first one is 0. -/
def beginStep (w : Writer) : Except Fault Writer := do
  w.ensureOpen
  if w.stage = .active then throw (.argument (.stepActive w.name w.currentStep))
  let step := w.currentStep.elim 0 (· + 1)
  let w := if w.batchSteps = 0 then { w with draft := w.draft.open, batchFirst := step } else w
  return { w with currentStep := some step, stepStart := w.draft.size, stage := .active }

/-- Puts a block of a variable. -/
def put (w : Writer) (v : Variable) (payload : Bytes) (mode : PutMode) :
    Writer × Except Fault Unit :=
  match w.activeStep "put" with
  | .error f => (w, .error f)
  | .ok step =>
    match mode with
    | .sync =>
      let (draft, result) := w.draft.put w.operators v step payload
      ({ w with draft }, result)
    | .deferred =>
      if payload.length ≠ v.payloadSize then
        (w, .error (.argument (.payloadSize v.name payload.length v.payloadSize)))
      else ({ w with deferred := w.deferred ++ [(v, payload)] }, .ok ())

/-- Puts a block given as values, which must have the type of the variable. -/
def putValues (w : Writer) (v : Variable) (type : ElementType) (values : List Scalar)
    (mode : PutMode) : Writer × Except Fault Unit :=
  match v.checkValues type with
  | .error f => (w, .error f)
  | .ok () => w.put v (Scalar.store type values) mode

/-- Puts blocks until one fails; those after it are lost. -/
def putAll (operators : Operators) (step : UInt64) :
    Draft → List (Variable × Bytes) → Draft × Except Fault Unit
  | d, [] => (d, .ok ())
  | d, (v, payload) :: rest =>
    match d.put operators v step payload with
    | (d, .ok ()) => putAll operators step d rest
    | (d, .error f) => (d, .error f)

/-- Puts the deferred blocks. -/
def performPuts (w : Writer) : Writer × Except Fault Unit :=
  match w.activeStep "perform_puts" with
  | .error f => (w, .error f)
  | .ok step =>
    let (draft, result) := putAll w.operators step w.draft w.deferred
    ({ w with draft, deferred := [] }, result)

/-! ## Messages -/

/-- Finishes the draft as one message. -/
def flush (w : Writer) : Writer × Outgoing :=
  let (bytes, draft) := w.draft.finish
  ({ w with draft, batchSteps := 0 }, .data bytes w.batchFirst (w.currentStep.getD 0))

/-- Attaches what goes with the step besides its blocks, and counts it. -/
def completeStep (w : Writer) (step : UInt64) (now : Moment) : Writer :=
  let draft := if w.attributesSent then w.draft else w.draft.attachAttributes w.attributes
  let draft := draft.attachTimestamp step now.millis
  { w with
    draft
    attributesSent := true
    batchSteps := w.batchSteps + 1
    monitor := w.monitor.map (·.endStep now.instant (draft.size - w.stepStart))
    stage := .idle }

/-- Ends the step and finishes the message with the last step of a batch. -/
def endStep (w : Writer) (now : Moment) : Writer × Except Fault (List Outgoing) :=
  match w.activeStep "end_step" with
  | .error f => (w, .error f)
  | .ok step =>
    match w.performPuts with
    | (w, .error f) => (w, .error f)
    | (w, .ok ()) =>
      let w := w.completeStep step now
      if w.settings.aggregation ≤ w.batchSteps then
        let (w, m) := w.flush
        (w, .ok [m])
      else (w, .ok [])

/-- Finishes the message of a batch that is not full, and ends the stream. -/
def finish (w : Writer) : Writer × List Outgoing :=
  let (w, messages) :=
    if 0 < w.batchSteps then
      let (w, m) := w.flush
      (w, [m])
    else (w, [])
  ({ w with stage := .closed },
    messages ++ [.finish (Frame.endRecord w.currentStep) w.currentStep])

/-- Closes the writer. An active step is ended first; if that fails, the writer stays open. -/
def close (w : Writer) (now : Moment) : Writer × Except Fault (List Outgoing) :=
  match w.stage with
  | .closed => (w, .ok [])
  | .idle =>
    let (w, messages) := w.finish
    (w, .ok messages)
  | .active =>
    match w.endStep now with
    | (w, .error f) => (w, .error f)
    | (w, .ok messages) =>
      let (w, rest) := w.finish
      (w, .ok (messages ++ rest))

end Writer

end Stepcast
