import Stepcast.Box

/-!
# Walking through a box

The positions of a box are visited like the readings of an odometer: the last coordinate counts up
first, and a coordinate that runs out goes back to its start and lets the one before it count. Only
the first `limit` coordinates move.
-/

namespace Stepcast

namespace Box

/-! ## Where a position is stored -/

/-- The distance between neighbours in each dimension, when the last index runs fastest. -/
def rowStrides : Dims → List Nat
  | [] => []
  | _ :: rest => elementCount rest :: rowStrides rest

/-- The distance between neighbours in each dimension, when the first index runs fastest and
`inner` elements lie before a step. -/
def columnStrides (inner : Nat) : Dims → List Nat
  | [] => []
  | c :: rest => inner :: columnStrides (inner * c.toNat) rest

def strides (rowMajor : Bool) (count : Dims) : List Nat :=
  if rowMajor then rowStrides count else columnStrides 1 count

/-- The number of elements stored before the one at a position. -/
def offset (position start : Dims) (strides : List Nat) : Nat :=
  match position, start, strides with
  | p :: ps, s :: ss, w :: ws => (p.toNat - s.toNat) * w + offset ps ss ws
  | _, _, _ => 0

/-! ## Moving on -/

/-- The first `limit` coordinates set back to their start. -/
def rewind (limit : Nat) (position start : Dims) : Dims :=
  start.take limit ++ position.drop limit

/-- The next position of the box `start`, `count`, when only the first `limit` coordinates move. -/
def advance (limit : Nat) (position start count : Dims) : Option Dims :=
  match limit, position, start, count with
  | limit + 1, p :: ps, s :: ss, c :: cs =>
    match advance limit ps ss cs with
    | some next => some (p :: next)
    | none =>
      if p.toNat + 1 < s.toNat + c.toNat then some ((p + 1) :: rewind limit ps ss) else none
  | _, _, _, _ => none

/-- The positions that were `visited`, latest first, then a position and those that follow it,
`fuel` of them at most. -/
def walkFrom (limit : Nat) (start count : Dims) :
    (fuel : Nat) → (position : Dims) → (visited : List Dims) → List Dims
  | 0, _, visited => visited.reverse
  | fuel + 1, position, visited =>
    match advance limit position start count with
    | some next => walkFrom limit start count fuel next (position :: visited)
    | none => (position :: visited).reverse

/-- The positions of a box with the coordinates from `limit` on at their start. There are as many
as the product of the first `limit` extents. -/
def walk (limit : Nat) (b : Box) : List Dims :=
  walkFrom limit b.start b.count (elementCount (b.count.take limit)) b.start []

end Box

end Stepcast
