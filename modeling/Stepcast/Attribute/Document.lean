import Stepcast.Attribute
import Stepcast.Json.Number

/-!
# Attributes as documents

In a document an attribute is a bare value, and its kind is the first that the value fits: a text,
a list of texts, a signed number, a list of those, an unsigned number, a double, a list of doubles.
-/

namespace Stepcast

namespace Attribute

/-- A signed number of 64 bits. -/
def readInt (j : Json) : Option Int64 :=
  (j.toInt? Int64.minValue.toInt Int64.maxValue.toInt).map Int64.ofInt

/-- An unsigned number of 64 bits. -/
def readUInt (j : Json) : Option UInt64 := (j.toNat? (UInt64.size - 1)).map UInt64.ofNat

/-- The attribute that a document holds. -/
def ofJson? (j : Json) : Option Attribute :=
  match j with
  | .text s => s.map text
  | .list items =>
    ((items.mapM Json.toText?).map texts).orElse fun _ =>
      ((items.mapM readInt).map ints).orElse fun _ =>
        (items.mapM Json.toDouble?).map floats
  | .number _ =>
    ((readInt j).map int).orElse fun _ =>
      ((readUInt j).map uint).orElse fun _ =>
        j.toDouble?.map float
  | _ => none

/-- The document of an attribute. -/
def toJson : Attribute → Json
  | text s => .ofText s
  | texts items => .list (items.map .ofText)
  | int n => .ofInt n.toInt
  | ints items => .list (items.map (fun n => .ofInt n.toInt))
  | uint n => .ofNat n.toNat
  | float bits => .ofDouble bits
  | floats items => .list (items.map .ofDouble)

end Attribute

end Stepcast
