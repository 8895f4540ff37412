import Stepcast.Bytes

/-!
# Element types

The types that the elements of a variable can have, their sizes, and the tags by which messages
name them. An element is stored least significant byte first; the two parts of a complex number are
stored one after the other, so its bytes are swapped in units of half its size.
-/

namespace Stepcast

/-- The type of one element. -/
inductive ElementType where
  | int8 | int16 | int32 | int64
  | uint8 | uint16 | uint32 | uint64
  | float | double | complexFloat | complexDouble
deriving Repr, DecidableEq

namespace ElementType

/-- The bytes of one element. -/
def size : ElementType → Nat
  | int8 | uint8 => 1
  | int16 | uint16 => 2
  | int32 | uint32 | float => 4
  | int64 | uint64 | double | complexFloat => 8
  | complexDouble => 16

/-- The bytes of the scalar to which byte order applies. -/
def swapUnit : ElementType → Nat
  | complexFloat => 4
  | complexDouble => 8
  | t => t.size

/-- The tag that names the type in a message. -/
def tag : ElementType → String
  | int8 => "int8_t"
  | int16 => "int16_t"
  | int32 => "int32_t"
  | int64 => "int64_t"
  | uint8 => "uint8_t"
  | uint16 => "uint16_t"
  | uint32 => "uint32_t"
  | uint64 => "uint64_t"
  | float => "float"
  | double => "double"
  | complexFloat => "float complex"
  | complexDouble => "double complex"

/-- The name that settings and reports use for the type. -/
def label : ElementType → String
  | int8 => "Int8"
  | int16 => "Int16"
  | int32 => "Int32"
  | int64 => "Int64"
  | uint8 => "UInt8"
  | uint16 => "UInt16"
  | uint32 => "UInt32"
  | uint64 => "UInt64"
  | float => "Float"
  | double => "Double"
  | complexFloat => "ComplexFloat"
  | complexDouble => "ComplexDouble"

def all : List ElementType :=
  [int8, int16, int32, int64, uint8, uint16, uint32, uint64, float, double, complexFloat,
    complexDouble]

/-- The type with the given tag. -/
def ofTag? (s : String) : Option ElementType := all.find? (fun t => t.tag = s)

theorem ofTag?_tag (t : ElementType) : ofTag? t.tag = some t := by cases t <;> rfl

theorem size_pos (t : ElementType) : 0 < t.size := by cases t <;> decide

/-- An element holds a whole number of swap units. -/
theorem swapUnit_dvd_size (t : ElementType) : t.swapUnit ∣ t.size := by cases t <;> decide

/-- The type has a sign. -/
def isSigned : ElementType → Bool
  | int8 | int16 | int32 | int64 => true
  | _ => false

/-- The elements are whole numbers. -/
def isWhole : ElementType → Bool
  | float | double | complexFloat | complexDouble => false
  | _ => true

end ElementType

/-! ## Values -/

/-- An element in the hands of a program: a whole number, or the IEEE bits of a real one. -/
inductive Scalar where
  | whole (n : Int)
  | real (bits : Nat)
deriving Repr, DecidableEq

namespace Scalar

/-- The element all of whose bytes are zero. -/
def zero (t : ElementType) : Scalar := if t.isWhole then whole 0 else real 0

/-- The stored form of an element; negative numbers are stored in two's complement. -/
def bytes (t : ElementType) : Scalar → Bytes
  | whole n => leBytes t.size (n % (1 <<< (8 * t.size) : Nat)).toNat
  | real bits => leBytes t.size bits

/-- The element with the given stored form. -/
def ofBytes (t : ElementType) (b : Bytes) : Scalar :=
  let n := leValue b
  if t.isWhole then
    if t.isSigned && 1 <<< (8 * t.size) ≤ 2 * n then whole ((n : Int) - (1 <<< (8 * t.size) : Nat))
    else whole n
  else real n

/-- The stored form of elements, one after the other. -/
def store (t : ElementType) (values : List Scalar) : Bytes := values.flatMap (bytes t)

/-- The elements `seen`, latest first, and `count` more from stored bytes; those that the bytes do
not cover whole are zero. -/
def loadAfter (t : ElementType) (seen : List Scalar) : (count : Nat) → Bytes → List Scalar
  | 0, _ => seen.reverse
  | count + 1, b =>
    match split? t.size b with
    | some (head, rest) => loadAfter t (ofBytes t head :: seen) count rest
    | none => seen.reverse ++ List.replicate (count + 1) (zero t)

/-- `count` elements from stored bytes. -/
def load (t : ElementType) (count : Nat) (b : Bytes) : List Scalar := loadAfter t [] count b

/-! ### Lengths -/

end Scalar

end Stepcast
