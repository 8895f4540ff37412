import Stepcast.Variable

/-!
# Operators

An operator changes the bytes of a block before they are sent, and a reader inverts it. Operators
are looked up by name in a registry that the two sides share.
-/

namespace Stepcast

/-- A pair of functions on the bytes of a block. They may fail, and then give a reason. -/
structure Operator where
  /-- The stored form of bytes, given the type and the extents of the block. -/
  operate : Bytes → ElementType → Dims → Params → Except String Bytes
  /-- The bytes of a stored form, given the number of bytes that should come out. -/
  invert : Bytes → Nat → Params → Except String Bytes

/-- Operators by name. -/
abbrev Operators := Table String Operator

namespace Operators

/-- The operator with a given name. -/
def find (operators : Operators) (id : String) : Except Fault Operator :=
  match operators.at? id with
  | some o => .ok o
  | none => .error (.configuration (.unknownOperator id))

/-- The stored form of a payload of `v`: the payload itself, unless `v` has an operator. -/
def store (operators : Operators) (v : Variable) (payload : Bytes) : Except Fault Bytes :=
  match v.operator with
  | none => .ok payload
  | some spec => do
    let o ← operators.find spec.id
    (o.operate payload v.type v.selection.count spec.params).mapError (Fault.operator spec.id)

end Operators

end Stepcast
