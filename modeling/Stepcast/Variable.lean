import Stepcast.Box
import Stepcast.Element
import Stepcast.Fault
import Stepcast.Table

/-!
# Variables

A variable is a named array of elements, or a single one. It may have a shape, the extents of the
whole array, and it selects a box: the part that a writer contributes or that a reader asks for.
Its size in bytes is a 64-bit product.
-/

namespace Stepcast

/-! ## Sizes -/

namespace Box

/-- The bytes of the elements in a box, as a product of 64 bits: one that has more wraps around. -/
def byteSize (b : Box) (type : ElementType) : Nat := b.size * type.size % UInt64.size

/-- `byteSize` where products are checked. -/
def byteSize? (b : Box) (type : ElementType) : Option Nat := do
  let n ← elementCount? b.count
  if n * type.size < UInt64.size then some (n * type.size) else none

end Box

/-! ## Variables -/

/-- Free-form text parameters. -/
abbrev Params := Table String String

/-- The operator applied to every block of a variable. -/
structure OperatorSpec where
  id : String
  params : Params
deriving DecidableEq

/-- A named array. The shape is empty for local arrays and single elements, the extents of the
selection for single elements. -/
structure Variable where
  name : String
  type : ElementType
  shape : Dims := []
  selection : Box := ⟨[], []⟩
  operator : Option OperatorSpec := none
deriving DecidableEq

namespace Variable

def isScalar (v : Variable) : Bool := v.selection.count.isEmpty

/-- The bytes of the selected elements. -/
def payloadSize (v : Variable) : Nat := v.selection.byteSize v.type

/-- `payloadSize` where products are checked. -/
def payloadSize? (v : Variable) : Option Nat := v.selection.byteSize? v.type

/-! ## Validity -/

/-- The first dimension, counted from `dimension`, in which the box leaves the shape. -/
def firstBeyond (dimension : Nat) :
    Dims → Dims → Dims → Option (UInt64 × UInt64 × UInt64 × Nat)
  | s :: ss, c :: cs, g :: gs =>
    if g.toNat < s.toNat + c.toNat then some (s, c, g, dimension)
    else firstBeyond (dimension + 1) ss cs gs
  | _, _, _ => none

/-- The selection has one start for each extent and lies within the shape, if there is one. -/
def validate (v : Variable) : Except Fault Unit :=
  let start := v.selection.start
  let count := v.selection.count
  if start.length ≠ count.length then
    .error (.argument (.startRank v.name start.length count.length))
  else if v.shape.isEmpty then .ok ()
  else if v.shape.length ≠ count.length then
    .error (.argument (.shapeRank v.name v.shape.length count.length))
  else
    match firstBeyond 0 start count v.shape with
    | some (s, c, g, dimension) => .error (.argument (.beyondShape v.name s c g dimension))
    | none => .ok ()

/-! ## Building -/

/-- A part of an array of the given shape. -/
def «global» (name : String) (type : ElementType) (shape : Dims) (selection : Box) :
    Except Fault Variable := do
  let v : Variable := { name, type, shape, selection }
  v.validate
  return v

/-- An array that belongs to one writer alone. -/
def «local» (name : String) (type : ElementType) (count : Dims) : Variable :=
  { name, type, selection := ⟨List.replicate count.length 0, count⟩ }

/-- A single element. -/
def scalar (name : String) (type : ElementType) : Variable := { name, type }

/-- The variable with another selection, if that is valid. -/
def select (v : Variable) (selection : Box) : Except Fault Variable := do
  let v := { v with selection }
  v.validate
  return v

def withOperator (v : Variable) (id : String) (params : Params) : Variable :=
  { v with operator := some ⟨id, params⟩ }

/-- Values of type `values` can be put into or read from the variable. -/
def checkValues (v : Variable) (values : ElementType) : Except Fault Unit :=
  if values = v.type then .ok ()
  else .error (.argument (.valueType v.name v.type.tag values.tag))

end Variable

end Stepcast
