import Stepcast.Layout
import Stepcast.Variable

/-!
# Block records

A message describes each block by a record: the variable it belongs to, the box it covers, where
its bytes lie in the message, and how they are arranged and stored. In the message a record is a
map with keys of one or two letters.
-/

namespace Stepcast

/-- The number of bytes before the payload of a message. -/
def headerSize : Nat := 16

/-- The description of a block. -/
structure Record where
  name : String
  type : ElementType
  box : Box
  /-- The extents of the whole array; none for local arrays and single elements. -/
  shape : Option Dims
  /-- The stored bytes. -/
  size : Nat
  /-- Where the stored bytes begin in the message. -/
  position : Nat
  layout : Layout
  /-- The operator that stored the bytes. -/
  compression : Option String
  params : Params
  /-- When the writer ended the step, in milliseconds. -/
  timestamp : Option Int64
deriving DecidableEq

namespace Record

/-- The size of the block before its operator was applied. -/
def decodedSize (r : Record) : Nat := r.box.byteSize r.type

/-- `decodedSize` where products are checked. -/
def decodedSize? (r : Record) : Option Nat := r.box.byteSize? r.type

/-! ## Writing -/

/-- The record as a map. -/
def toTree (r : Record) : Tree :=
  let required : List (String × Tree) :=
    [("C", .ofDims r.box.count), ("I", .uint (UInt64.ofNat r.size)), ("L", .uint r.layout.bits),
      ("N", .text r.name), ("O", .ofDims r.box.start), ("P", .uint (UInt64.ofNat r.position)),
      ("Y", .text r.type.tag)]
  let shape := r.shape.toList.map (fun dims => ("S", Tree.ofDims dims))
  let timestamp := r.timestamp.toList.map (fun t => ("W", Tree.int t))
  let operator := r.compression.toList.flatMap (fun id =>
    [("Z", Tree.text id), ("ZP", .map (r.params.map (fun (k, v) => (k, Tree.text v))))])
  .map (Table.ofEntries (required ++ shape ++ timestamp ++ operator))

/-! ## Reading -/

def field (t : Tree) (key : String) (step : UInt64) : Except Fault Tree :=
  match t.at? key with
  | some value => .ok value
  | none => .error (.protocol (.missingField step key))

def dimsField (t : Tree) (key : String) (step : UInt64) : Except Fault Dims := do
  match (← field t key step).toDims? with
  | some dims => return dims
  | none => throw (.protocol (.fieldNotDims step key))

def uintField (t : Tree) (key : String) (step : UInt64) : Except Fault UInt64 := do
  match (← field t key step).toUInt? with
  | some n => return n
  | none => throw (.protocol (.fieldNotUInt step key))

def nameField (t : Tree) (step : UInt64) : Except Fault String := do
  match (← field t "N" step).toText? with
  | some name => return name
  | none => throw (.protocol .nameNotText)

def typeField (t : Tree) (step : UInt64) : Except Fault ElementType := do
  match (← field t "Y" step).toText? with
  | none => throw (.protocol .typeNotText)
  | some tag =>
    match ElementType.ofTag? tag with
    | some type => return type
    | none => throw (.protocol (.unknownType tag))

/-- The box of the block `name`, with one start for each extent. -/
def boxField (t : Tree) (name : String) (step : UInt64) : Except Fault Box := do
  let start ← dimsField t "O" step
  let count ← dimsField t "C" step
  if start.length ≠ count.length then throw (.protocol (.boxRank name step))
  else return ⟨start, count⟩

def shapeField (t : Tree) : Except Fault (Option Dims) :=
  match t.at? "S" with
  | none => .ok none
  | some value =>
    match value.toDims? with
    | some dims => .ok (some dims)
    | none => .error (.protocol .shapeNotDims)

/-- The parameters in a map; values that are not text are passed over. -/
def readParams (t : Tree) : Params :=
  (t.toMap?.getD []).filterMap (fun (k, v) => v.toText?.map (fun s => (k, s)))

def timestampField (t : Tree) : Option Int64 :=
  match t.at? "W" with
  | some (.int ms) => some ms
  | _ => none

/-- The block lies in the payload, which ends at `stop`, and without an operator it has the size of
its box. -/
def check (r : Record) (step : UInt64) (stop : Nat) : Except Fault Unit :=
  if r.position < headerSize || stop < r.position + r.size then
    .error (.protocol (.outsidePayload r.name step r.position r.size stop))
  else if r.compression.isNone && r.size ≠ r.decodedSize then
    .error (.protocol (.blockSize r.name step r.size r.decodedSize))
  else .ok ()

/-- `check` where products are checked: the box of a block without an operator is measured. -/
def check? (r : Record) (step : UInt64) (stop : Nat) : Option (Except Fault Unit) :=
  if r.position < headerSize || stop < r.position + r.size || r.compression.isSome then
    some (r.check step stop)
  else r.decodedSize?.map (fun _ => r.check step stop)

/-- The record in a map of a message whose payload ends at `stop`. -/
def ofTree (step : UInt64) (stop : Nat) (t : Tree) : Except Fault Record := do
  let name ← nameField t step
  let type ← typeField t step
  let box ← boxField t name step
  let shape ← shapeField t
  let size ← uintField t "I" step
  let position ← uintField t "P" step
  let record : Record :=
    { name, type, box, shape
      size := size.toNat
      position := position.toNat
      layout := ((t.at? "L").bind Tree.toUInt?).elim Layout.native Layout.ofBits
      compression := (t.at? "Z").bind Tree.toText?
      params := (t.at? "ZP").elim [] readParams
      timestamp := timestampField t }
  record.check step stop
  return record

end Record

end Stepcast
