import Stepcast.Bytes

/-!
# Layouts

How the elements of a block are arranged: which index runs fastest, and in which order the bytes
of a scalar stand. Selections are always filled in row-major order with the least significant byte
first.
-/

namespace Stepcast

/-- The arrangement of the elements of a block. -/
structure Layout where
  rowMajor : Bool
  littleEndian : Bool
deriving Repr, DecidableEq

namespace Layout

/-- The arrangement in which blocks are written. -/
def native : Layout := ⟨true, true⟩

/-- The layout as flags: bit 0 for row-major, bit 1 for little-endian. -/
def bits (l : Layout) : UInt64 := (if l.rowMajor then 1 else 0) + (if l.littleEndian then 2 else 0)

/-- The layout with the given flags; other bits mean nothing. -/
def ofBits (n : UInt64) : Layout := ⟨n % 2 = 1, n / 2 % 2 = 1⟩

/-- The bytes of each scalar have to be reversed. -/
def needsSwap (l : Layout) : Bool := !l.littleEndian

theorem ofBits_bits (l : Layout) : ofBits l.bits = l := by
  rcases l with ⟨_ | _, _ | _⟩ <;> decide

end Layout

end Stepcast
