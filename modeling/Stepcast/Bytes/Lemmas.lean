import Mathlib.Algebra.Ring.Nat
import Stepcast.Bytes

/-!
# The range of little-endian words, and parts of byte strings

A word of `w` bytes holds the numbers below `256 ^ w`: every byte string denotes one of them, and
reading what was written gives the number back up to that modulus. The power is the ring's, so that
the statements meet the lemmas on powers. A part of a joined byte string lies in one of the two.

Main statements: `leValue_leBytes`, `leValue_lt`, `slice_append_left`, `slice_append_right`.
-/

namespace Stepcast

/-- **Reading undoes writing**, up to the width. -/
theorem leValue_leBytes (width n : Nat) : leValue (leBytes width n) = n % 256 ^ width := by
  induction width generalizing n with
  | zero => simp [leBytes, leValue, Nat.mod_one]
  | succ width ih =>
    rw [leBytes, leValue, ih, Nat.pow_succ, Nat.mul_comm (256 ^ width) 256, Nat.mod_mul]
    simp

theorem leValue_lt (bytes : Bytes) : leValue bytes < 256 ^ bytes.length := by
  induction bytes with
  | nil => simp [leValue]
  | cons b rest ih =>
    have hb := b.toNat_lt
    simp only [leValue, List.length_cons, Nat.pow_succ]
    omega

/-! ## Parts of byte strings -/

theorem slice_append_left {bytes : Bytes} (more : Bytes) {offset size : Nat}
    (h : offset + size ≤ bytes.length) :
    slice (bytes ++ more) offset size = slice bytes offset size := by
  rw [slice, slice, List.drop_append_of_le_length (by omega),
    List.take_append_of_le_length (by rw [List.length_drop]; omega)]

theorem slice_append_right (before bytes : Bytes) (offset size : Nat) :
    slice (before ++ bytes) (before.length + offset) size = slice bytes offset size := by
  rw [slice, slice, ← List.drop_drop, List.drop_left]

theorem getElem?_slice {bytes : Bytes} {offset size k : Nat} (h : k < size) :
    (slice bytes offset size)[k]? = bytes[offset + k]? := by
  rw [slice, List.getElem?_take_of_lt h, List.getElem?_drop]

theorem slice_zero_length (bytes : Bytes) : slice bytes 0 bytes.length = bytes := by
  rw [slice, List.drop_zero, List.take_length]

end Stepcast
