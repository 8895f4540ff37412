import Stepcast.Box.Odometer
import Stepcast.Element
import Stepcast.Fault
import Stepcast.Layout

/-!
# Copying between boxes

A block holds the elements of one box, a selection asks for those of another. `copyOverlap` copies
the elements at the common positions. A block in native arrangement is copied in runs along the
last dimension; any other element by element, with the bytes of its scalars reversed where the byte
order differs.

The bytes that the two boxes need are counted exactly. No byte string is as long as a box of more
bytes than a 64-bit word can count, so such a box is refused.
-/

namespace Stepcast

/-- `target` with the bytes of `source` at `read + order 0`, …, `read + order (count - 1)` in place
of those from `write` on. -/
def copyBytes (source : Array UInt8) (order : Nat → Nat) (read write : Nat) :
    (count : Nat) → (target : Array UInt8) → Array UInt8
  | 0, target => target
  | count + 1, target =>
    let b := source.getD (read + order count) 0
    copyBytes source order read write count (target.setIfInBounds (write + count) b)

/-- Where the byte at place `i` comes from when every unit of bytes is turned round. -/
def reversedPlace (unit i : Nat) : Nat := i / unit * unit + (unit - 1 - i % unit)

/-- A block as it lies in a message. -/
structure Source where
  bytes : Bytes
  box : Box
  layout : Layout

namespace Source

/-- Bytes have to be reversed on the way. -/
def swaps (s : Source) (t : ElementType) : Bool := s.layout.needsSwap && 1 < t.swapUnit

/-- The elements along the last dimension can be copied in one piece. -/
def contiguous (s : Source) (t : ElementType) : Bool := s.layout.rowMajor && !s.swaps t

/-- Where each byte of an element comes from. -/
def order (s : Source) (t : ElementType) : Nat → Nat :=
  if s.swaps t then reversedPlace t.swapUnit else id

/-- The number of bytes before the element at a position of the block. -/
def place (s : Source) (t : ElementType) (position : Dims) : Nat :=
  Box.offset position s.box.start (Box.strides s.layout.rowMajor s.box.count) * t.size

/-- Copies `run` bytes at `position` from the block, whose bytes are `bytes`, to a selection of the
box `box`. -/
def copyRun (s : Source) (t : ElementType) (run : Nat) (box : Box) (bytes : Array UInt8)
    (target : Array UInt8) (position : Dims) : Array UInt8 :=
  let write := Box.offset position box.start (Box.strides true box.count) * t.size
  copyBytes bytes (s.order t) (s.place t position) write run target

/-- The number of leading coordinates that walk, and the bytes that are copied at each position. -/
def runs (s : Source) (t : ElementType) (common : Box) : Nat × Nat :=
  if s.contiguous t then
    (common.count.length - 1, (common.count.getLast?.getD 1).toNat * t.size)
  else (common.count.length, t.size)

/-- Copies the elements at the positions that the block shares with the box `box` to `target`, the
stored form of that box. Gives the number of bytes copied and the new target. -/
def copyOverlap (s : Source) (t : ElementType) (target : Bytes) (box : Box) :
    Except Fault (Nat × Bytes) :=
  let sourceNeeded := s.box.size * t.size
  let targetNeeded := box.size * t.size
  if s.bytes.length < sourceNeeded then
    .error (.argument (.sourceSize s.bytes.length sourceNeeded))
  else if target.length < targetNeeded then
    .error (.argument (.targetSize target.length targetNeeded))
  else if s.box.start.length ≠ box.start.length then
    .error (.argument (.boxDimensions box.start.length s.box.start.length))
  else
    match s.box.overlap box with
    | none => .ok (0, target)
    | some common =>
      let (limit, run) := s.runs t common
      let positions := common.walk limit
      let copied := positions.foldl (s.copyRun t run box s.bytes.toArray) target.toArray
      .ok (positions.length * run, copied.toList)

end Source

end Stepcast
