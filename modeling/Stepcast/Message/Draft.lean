import Stepcast.Message.Contents
import Stepcast.Operator

/-!
# Drafts

A draft is the message that a writer is filling. Blocks are appended to its payload and recorded
under their steps until the draft is finished. Putting a block opens a message when none is open;
attributes can be attached to a draft that is not open, and opening forgets them.
-/

namespace Stepcast

/-- The message that a rank is filling. -/
structure Draft where
  rank : UInt32
  /-- The payload so far; none while no message is open. -/
  payload : Option Bytes := none
  /-- The records of each step, in the order in which the blocks were put. -/
  records : Table UInt64 (List Record) := []
  attributes : Option Attributes := none

namespace Draft

/-- A new open message. -/
def «open» (d : Draft) : Draft := { rank := d.rank, payload := some [] }

/-- Opens a message unless one is open. -/
def ensureOpen (d : Draft) : Draft := if d.payload.isSome then d else d.open

/-- The bytes of the open message so far, its header included. -/
def size (d : Draft) : Nat := d.payload.elim 0 (fun p => headerSize + p.length)

/-- Something was put or attached. -/
def hasData (d : Draft) : Bool := !d.records.isEmpty || d.attributes.isSome

/-! ## Putting -/

/-- The record of a block of `v` whose stored form has `size` bytes at `position`. -/
def recordOf (v : Variable) (size position : Nat) : Record :=
  { name := v.name
    type := v.type
    box := v.selection
    shape := if v.shape.isEmpty then none else some v.shape
    size, position
    layout := .native
    compression := v.operator.map (·.id)
    params := v.operator.elim [] (·.params)
    timestamp := none }

/-- The draft with a stored block of `v` at its end. -/
def append (d : Draft) (v : Variable) (step : UInt64) (stored : Bytes) : Draft :=
  let payload := d.payload.getD []
  let record := recordOf v stored.length (headerSize + payload.length)
  { d with
    payload := some (payload ++ stored)
    records := d.records.put step ((d.records.at? step).getD [] ++ [record]) }

/-- Puts a block of `v`. A payload of the wrong size leaves the draft as it was; an operator that
fails leaves it open. -/
def put (operators : Operators) (d : Draft) (v : Variable) (step : UInt64) (payload : Bytes) :
    Draft × Except Fault Unit :=
  if payload.length ≠ v.payloadSize then
    (d, .error (.argument (.payloadSize v.name payload.length v.payloadSize)))
  else
    let d := d.ensureOpen
    match operators.store v payload with
    | .ok stored => (d.append v step stored, .ok ())
    | .error f => (d, .error f)

/-- `put` where products are checked. -/
def put? (operators : Operators) (d : Draft) (v : Variable) (step : UInt64) (payload : Bytes) :
    Option (Draft × Except Fault Unit) :=
  v.payloadSize?.map (fun _ => d.put operators v step payload)

/-- Puts a block given as values, which must have the type of `v`. -/
def putValues (operators : Operators) (d : Draft) (v : Variable) (step : UInt64)
    (type : ElementType) (values : List Scalar) : Draft × Except Fault Unit :=
  match v.checkValues type with
  | .ok () => d.put operators v step (Scalar.store type values)
  | .error f => (d, .error f)

/-! ## Attaching -/

/-- The attributes to be sent with the message, in place of any attached before. -/
def attachAttributes (d : Draft) (attributes : Attributes) : Draft :=
  { d with attributes := some attributes }

/-- Marks the blocks of a step that were put so far with the time `now`. -/
def attachTimestamp (d : Draft) (step : UInt64) (now : Int64) : Draft :=
  match d.records.at? step with
  | some records =>
    { d with records := d.records.put step (records.map ({ · with timestamp := some now })) }
  | none => d

/-! ## Finishing -/

/-- The records of a step under the rank. -/
def rankMap (rank : UInt32) (records : List Record) : Tree :=
  .map [(toString rank, .list (records.map Record.toTree))]

/-- The index of the message. -/
def index (d : Draft) : Tree :=
  let attributes := d.attributes.toList.map (fun a => (attributesKey, a.toTree))
  let steps := d.records.map (fun (step, records) => (toString step, rankMap d.rank records))
  .map (Table.ofEntries (attributes ++ steps))

/-- The finished message, and a draft without an open one. -/
def finish (d : Draft) : Bytes × Draft :=
  let d := d.ensureOpen
  (Frame.compose (d.payload.getD []) d.index, { rank := d.rank })

end Draft

end Stepcast
