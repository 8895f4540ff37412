import Stepcast.Box.Copy
import Stepcast.Reader

/-!
# Access to the active step

Which variables the active step holds, and their data. `get` assembles a selection from all blocks
of a variable; of several blocks that hold the same position, the last one counts.
-/

namespace Stepcast

/-- The variable that a block belongs to, with the whole array selected. A block without a shape
stands for itself. -/
def Block.variable (b : Block) : Variable :=
  let shape := b.shape.getD []
  let selection := if shape.isEmpty then b.box else ⟨List.replicate shape.length 0, shape⟩
  { name := b.name, type := b.type, shape, selection }

namespace Reader

/-! ## Looking -/

/-- The blocks of a variable in the current step. -/
def blocksOf (r : Reader) (name : String) : List Block :=
  (r.currentBlocks.getD []).filter (fun b => b.name = name)

def blockCount (r : Reader) (name : String) : Nat := (r.blocksOf name).length

/-- The variable as its first block describes it. -/
def inquire (r : Reader) (name : String) : Option Variable :=
  (r.blocksOf name).head?.map Block.variable

/-- The variables of the current step by name, each as its first block describes it. -/
def catalog (r : Reader) : Table String Variable :=
  Table.ofEntries (((r.currentBlocks.getD []).reverse).map (fun b => (b.name, b.variable)))

/-! ## Data -/

/-- The bytes of a block as they were put. -/
def payload (r : Reader) (b : Block) : Except Fault Bytes := do
  let some stored := r.archive.stored? b | throw (.protocol (.bufferReleased b.name b.step))
  match b.compression with
  | none => return stored
  | some id =>
    let o ← r.operators.find id
    let bytes ← (o.invert stored b.decodedSize b.params).mapError (Fault.operator id)
    if bytes.length ≠ b.decodedSize then
      throw (.protocol (.decodedSize b.name bytes.length b.decodedSize))
    return bytes

/-- Copies the part of a block that lies in a box to `target`, the stored form of that box. -/
def copyBlock (r : Reader) (b : Block) (box : Box) (target : Bytes) :
    Except Fault (Nat × Bytes) := do
  let bytes ← r.payload b
  let source : Source := { bytes, box := b.box, layout := b.layout }
  source.copyOverlap b.type target box

/-- Copies from one block after the other, until one fails. Gives what was copied before in any
case. -/
def copyBlocks (r : Reader) (v : Variable) (copied : Nat) (target : Bytes) :
    List Block → Bytes × Except Fault Nat
  | [] => (target, .ok copied)
  | b :: rest =>
    if b.type ≠ v.type then
      (target, .error (.argument (.requestedType v.name b.type.tag v.type.tag)))
    else
      match r.copyBlock b v.selection target with
      | .ok (n, target) => r.copyBlocks v (copied + n) target rest
      | .error f => (target, .error f)

/-- Fills `target` with the selected part of a variable, as far as the blocks of the active step
cover it. Gives the new target and the number of bytes copied. -/
def get (r : Reader) (v : Variable) (target : Bytes) : Bytes × Except Fault Nat :=
  match r.stepBlocks "get" with
  | .error f => (target, .error f)
  | .ok blocks =>
    if target.length < v.payloadSize then
      (target, .error (.argument (.destinationSize v.name target.length v.payloadSize)))
    else
      match blocks.filter (fun b => b.name = v.name) with
      | [] => (target, .error (.argument (.absentVariable v.name r.currentStep)))
      | found => r.copyBlocks v 0 target found

/-- The selected elements of a variable; those that no block covers are zero. -/
def getValues (r : Reader) (v : Variable) (type : ElementType) : Except Fault (List Scalar) := do
  v.checkValues type
  let (bytes, result) := r.get v (List.replicate v.payloadSize 0)
  let _ ← result
  return Scalar.load type v.selection.size bytes

/-- Copies the block of a variable with the given index as a whole. -/
def getBlock (r : Reader) (name : String) (index : Nat) (target : Bytes) :
    Except Fault (Nat × Bytes) := do
  let blocks ← r.stepBlocks "get_block"
  let some b := (blocks.filter (fun b => b.name = name))[index]?
    | throw (.argument (.absentBlock name index))
  r.copyBlock b b.box target

end Reader

end Stepcast
