/-!
# Byte strings and little-endian words

Everything that is stored or sent is a list of bytes. Integers are written least significant byte
first: `leBytes w n` is the `w`-byte form of `n`, and `leValue` reads a byte string of any length.

Main statement: `leBytes_leValue`, writing undoes reading.
-/

namespace Stepcast

/-- A byte string. -/
abbrev Bytes := List UInt8

/-- The `width` low-order bytes of `n`, least significant first. -/
def leBytes : (width : Nat) → (n : Nat) → Bytes
  | 0, _ => []
  | width + 1, n => UInt8.ofNat n :: leBytes width (n / 256)

/-- The number that a byte string denotes, least significant byte first. -/
def leValue : Bytes → Nat
  | [] => 0
  | b :: rest => b.toNat + 256 * leValue rest

/-- The `size` bytes from `offset` on, or fewer where the byte string ends. -/
def slice (bytes : Bytes) (offset size : Nat) : Bytes := (bytes.drop offset).take size

/-- The first `size` bytes and those after them; nothing when there are fewer. -/
def split? (size : Nat) (bytes : Bytes) : Option (Bytes × Bytes) :=
  let head := bytes.take size
  if head.length < size then none else some (head, bytes.drop size)

/-! ## Laws -/

@[simp] theorem length_leBytes (width n : Nat) : (leBytes width n).length = width := by
  induction width generalizing n with
  | zero => rfl
  | succ width ih => simp [leBytes, ih]

/-- **Writing undoes reading.** -/
theorem leBytes_leValue (bytes : Bytes) : leBytes bytes.length (leValue bytes) = bytes := by
  induction bytes with
  | nil => rfl
  | cons b rest ih =>
    have hb := b.toNat_lt
    have hdiv : (b.toNat + 256 * leValue rest) / 256 = leValue rest := by omega
    have hlow : UInt8.ofNat (b.toNat + 256 * leValue rest) = b := by
      apply UInt8.toNat_inj.mp
      simp
    rw [List.length_cons, leBytes, leValue, hdiv, ih, hlow]

@[simp] theorem length_slice (bytes : Bytes) (offset size : Nat) :
    (slice bytes offset size).length = min size (bytes.length - offset) := by
  simp [slice]

end Stepcast
