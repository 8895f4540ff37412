import Stepcast.Message.Contents

/-!
# The archive of received messages

A reader keeps the messages it receives whole, and lists for each live step the blocks that point
into them. A message may carry several steps, so it is kept as long as a live step has a block in
it. Steps that were erased do not come back: blocks at or below the watermark are ignored.
-/

namespace Stepcast

/-- What a received message turned out to be. -/
inductive Outcome where
  /-- Blocks were added, to these steps. -/
  | data (blocks : Nat) (steps : List UInt64)
  | endOfStream (final : Option UInt64)
  | empty
deriving Repr, DecidableEq

/-- The received messages and what they hold. -/
structure Archive where
  buffers : Table Nat Bytes := []
  /-- The blocks of each live step, in the order of their arrival. -/
  steps : Table UInt64 (List Block) := []
  minStep : Option UInt64 := none
  maxStep : Option UInt64 := none
  /-- The highest erased step. -/
  watermark : Option UInt64 := none
  attributes : Attributes := []
  attributesReceived : Bool := false
  /-- The highest last step that an end record named. -/
  finalStep : Option UInt64 := none
  endSignals : Nat := 0
  nextKey : Nat := 0

namespace Archive

/-- The next step number; the greatest one stays. -/
def successor (n : UInt64) : UInt64 := if n = 0xFFFFFFFFFFFFFFFF then n else n + 1

/-- The greater of two step numbers, where one is given. -/
def maxOption : Option UInt64 → Option UInt64 → Option UInt64
  | some a, some b => some (max a b)
  | some a, none => some a
  | none, b => b

/-! ## Receiving -/

/-- The block comes too late. -/
def isLate (a : Archive) (b : Block) : Bool := a.watermark.any (fun w => b.step ≤ w)

/-- The archive with one more block. -/
def addBlock (a : Archive) (b : Block) : Archive :=
  { a with
    minStep := some (a.minStep.elim b.step (min b.step))
    maxStep := some (a.maxStep.elim b.step (max b.step))
    steps := a.steps.put b.step ((a.steps.at? b.step).getD [] ++ [b]) }

/-- The archive with the attributes of a message, if they are the first. -/
def addAttributes (a : Archive) (attributes : Option Attributes) : Archive :=
  match attributes with
  | some attributes =>
    if a.attributesReceived then a else { a with attributes, attributesReceived := true }
  | none => a

/-- The archive with the contents of the message `buffer`. -/
def addContents (a : Archive) (key : Nat) (buffer : Bytes) (contents : Contents) :
    Archive × Outcome :=
  let a := a.addAttributes contents.attributes
  let blocks := contents.blocks.filter (fun b => !a.isLate b)
  if blocks.isEmpty then (a, .data 0 [])
  else
    let a := { a with buffers := a.buffers.put key buffer }
    let steps := Table.keys (Table.ofEntries (blocks.map (fun b => (b.step, ()))))
    (blocks.foldl addBlock a, .data blocks.length steps)

/-- Receives a data message. Its key is used up even if its contents are refused. -/
def putData (a : Archive) (buffer : Bytes) : Archive × Except Fault Outcome :=
  match Frame.index buffer with
  | .error f => (a, .error f)
  | .ok (offset, entries) =>
    let key := a.nextKey
    let a := { a with nextKey := key + 1 }
    match Contents.ofIndex key offset entries with
    | .error f => (a, .error f)
    | .ok contents =>
      let (a, outcome) := a.addContents key buffer contents
      (a, .ok outcome)

/-- Receives a message. A message without bytes is ignored. -/
def put (a : Archive) (buffer : Bytes) : Archive × Except Fault Outcome :=
  if buffer.isEmpty then (a, .ok .empty)
  else
    let final? := if buffer.length < Frame.controlThreshold then Frame.finalStep? buffer else none
    match final? with
    | some final =>
      ({ a with
          endSignals := a.endSignals + 1
          finalStep := maxOption a.finalStep final }, .ok (.endOfStream final))
    | none => a.putData buffer

/-! ## Erasing -/

/-- A live step has a block in the message. -/
def isReferenced (steps : Table UInt64 (List Block)) (key : Nat) : Bool :=
  steps.any (fun e => e.2.any (fun b => b.buffer == key))

/-- Drops a step, and the messages that only it needed. -/
def erase (a : Archive) (step : UInt64) : Archive :=
  let erased := (a.steps.at? step).getD []
  let steps := a.steps.without step
  let isReleased (key : Nat) : Bool :=
    erased.any (fun b => b.buffer == key) && !isReferenced steps key
  let next := successor step
  { a with
    steps
    buffers := a.buffers.filter (fun e => !isReleased e.1)
    minStep := some (steps.head?.elim next (fun e => min e.1 next))
    watermark := maxOption a.watermark (some step) }

/-- Drops all steps and messages, and the watermark with them. -/
def clear (a : Archive) : Archive :=
  { a with buffers := [], steps := [], minStep := none, maxStep := none, watermark := none }

/-! ## Looking -/

/-- The blocks of a live step. -/
def blocks? (a : Archive) (step : UInt64) : Option (List Block) := a.steps.at? step

/-- The message with the given key. -/
def buffer? (a : Archive) (key : Nat) : Option Bytes := a.buffers.at? key

/-- The bytes of a block. -/
def stored? (a : Archive) (b : Block) : Option Bytes :=
  (a.buffer? b.buffer).map (fun bytes => slice bytes b.position b.size)

/-- The live steps, in increasing order. -/
def liveSteps (a : Archive) : List UInt64 := a.steps.keys

def latestStep (a : Archive) : Option UInt64 := a.liveSteps.getLast?

/-- The first live step, or the first one past `current`. -/
def nextStepAfter (a : Archive) (current : Option UInt64) : Option UInt64 :=
  match current with
  | some c => a.liveSteps.find? (fun s => successor c ≤ s)
  | none => a.liveSteps.head?

/-- The number of ranks that contributed to a step. -/
def rankCount (a : Archive) (step : UInt64) : Nat :=
  (((a.blocks? step).getD []).map (·.rank)).eraseDups.length

end Archive

end Stepcast
