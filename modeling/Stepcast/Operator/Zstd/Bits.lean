import Stepcast.Bytes

/-!
# Bit streams

Entropy-coded data is read bit by bit. A stream is the list of its bits in the order in which they
are read. Codes are stored from the last byte to the first, each from its high bit down, behind a
one that marks where they start; the shares of a state table are stored in the order of the bytes,
low bits first.
-/

namespace Stepcast

namespace Zstd

/-- The bits of a byte in front of others, the high one first. -/
def pushByte (bits : List Bool) (b : UInt8) : List Bool :=
  (List.range 8).foldl (fun bits i => b.toNat.testBit i :: bits) bits

/-- The bits after the mark, from the last byte to the first. The last byte must hold the mark. -/
def backwardBits? (input : Bytes) : Option (List Bool) :=
  match input.getLast? with
  | none => none
  | some last =>
    if last = 0 then none
    else some (((input.foldl pushByte []).dropWhile (fun bit => !bit)).drop 1)

/-- Reads `width` bits, the high one first, behind those of `value`. -/
def readBits? : (width value : Nat) → List Bool → Option (Nat × List Bool)
  | 0, value, bits => some (value, bits)
  | width + 1, value, bit :: bits => readBits? width (2 * value + bit.toNat) bits
  | _ + 1, _, [] => none

/-- The `width` bits from `position` on, the low one first. At most 24 bits can be read, and there
are zeros after the last byte. -/
def bitsAt (input : Bytes) (position width : Nat) : Nat :=
  leValue (slice input (position / 8) 4) >>> (position % 8) % (1 <<< width)

end Zstd

end Stepcast
