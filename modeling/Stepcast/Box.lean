/-!
# Boxes

A box is a range of positions in an array: in each dimension a first index and an extent. A box
without dimensions holds one position. `Box.overlap` intersects two boxes.
-/

namespace Stepcast

/-- The extents of a box, one for each dimension. -/
abbrev Dims := List UInt64

/-- The number of positions in a box with the given extents. -/
def elementCount : (count : Dims) → Nat
  | [] => 1
  | n :: rest => n.toNat * elementCount rest

/-- `elementCount` where products are checked, one extent after the other: nothing once a product
has more than 64 bits. -/
def elementCount? (count : Dims) : Option Nat :=
  count.foldlM (fun n extent =>
    if n * extent.toNat < UInt64.size then some (n * extent.toNat) else none) 1

/-- A range of positions in each dimension. -/
structure Box where
  start : Dims
  count : Dims
deriving Repr, DecidableEq

namespace Box

/-- The number of positions in the box. -/
def size (b : Box) : Nat := elementCount b.count

/-- The position lies in the box. -/
def Contains (b : Box) (position : Dims) : Prop :=
  position.length = b.start.length ∧ b.start.length = b.count.length ∧
    ∀ d (hp : d < position.length) (hs : d < b.start.length) (hc : d < b.count.length),
      b.start[d].toNat ≤ position[d].toNat ∧
        position[d].toNat < b.start[d].toNat + b.count[d].toNat

/-! ## Overlap -/

/-- The common part of two ranges; nothing when it is empty or a range ends past the largest
index. -/
def overlapRange (start₁ count₁ start₂ count₂ : UInt64) : Option (UInt64 × UInt64) :=
  let stop₁ := start₁.toNat + count₁.toNat
  let stop₂ := start₂.toNat + count₂.toNat
  if UInt64.size ≤ stop₁ || UInt64.size ≤ stop₂ then none
  else
    let low := max start₁ start₂
    let high := UInt64.ofNat (min stop₁ stop₂)
    if low < high then some (low, high - low) else none

/-- The starts and the extents of the common part of two boxes, dimension by dimension. -/
def overlapDims : Dims → Dims → Dims → Dims → Option (Dims × Dims)
  | [], [], [], [] => some ([], [])
  | s₁ :: ss₁, c₁ :: cs₁, s₂ :: ss₂, c₂ :: cs₂ => do
    let (s, c) ← overlapRange s₁ c₁ s₂ c₂
    let (ss, cs) ← overlapDims ss₁ cs₁ ss₂ cs₂
    return (s :: ss, c :: cs)
  | _, _, _, _ => none

/-- The positions that lie in both boxes, as a box; nothing when there are none. -/
def overlap (a b : Box) : Option Box :=
  (overlapDims a.start a.count b.start b.count).map (fun (start, count) => ⟨start, count⟩)

end Box

end Stepcast
