import Stepcast.Table
import Stepcast.Tree

/-!
# Attributes

Attributes describe a stream as a whole. They are texts, numbers, or lists of one kind. In a message
they form a list of records, each with the name, a tag for the kind and the value.

Main statement: `ofTree?_toTree`.
-/

namespace Stepcast

/-- The value of an attribute. Floats are kept as their bits. -/
inductive Attribute where
  | text (value : String)
  | texts (values : List String)
  | int (value : Int64)
  | ints (values : List Int64)
  | uint (value : UInt64)
  | float (bits : UInt64)
  | floats (bits : List UInt64)
deriving DecidableEq

/-- Attributes by name. -/
abbrev Attributes := Table String Attribute

namespace Attribute

/-- The tag for the kind of the value. -/
def tag : Attribute → String
  | text _ => "string"
  | texts _ => "string[]"
  | int _ => "int64_t"
  | ints _ => "int64_t[]"
  | uint _ => "uint64_t"
  | float _ => "double"
  | floats _ => "double[]"

/-- The value as a tree. -/
def toTree : Attribute → Tree
  | text s => .text s
  | texts items => .list (items.map .text)
  | int n => .int n
  | ints items => .list (items.map .int)
  | uint n => .uint n
  | float bits => .float bits
  | floats items => .list (items.map .float)

def int? : Tree → Option Int64
  | .int n => some n
  | _ => none

def float? : Tree → Option UInt64
  | .float bits => some bits
  | _ => none

/-- The value that a tree holds according to a tag. -/
def ofTree? (tag : String) (t : Tree) : Option Attribute :=
  match tag, t with
  | "string", .text s => some (text s)
  | "string[]", .list items => (items.mapM Tree.toText?).map texts
  | "int64_t", .int n => some (int n)
  | "int64_t[]", .list items => (items.mapM int?).map ints
  | "uint64_t", .uint n => some (uint n)
  | "double", .float bits => some (float bits)
  | "double[]", .list items => (items.mapM float?).map floats
  | _, _ => none

theorem mapM_map_some {α β : Type} (f : α → β) (g : β → Option α) (h : ∀ a, g (f a) = some a)
    (items : List α) : (items.map f).mapM g = some items := by
  induction items with
  | nil => rfl
  | cons a rest ih => simp [List.mapM_cons, h, ih]

theorem ofTree?_toTree (a : Attribute) : ofTree? a.tag a.toTree = some a := by
  cases a with
  | texts items => simp [tag, toTree, ofTree?, mapM_map_some Tree.text Tree.toText? (fun _ => rfl)]
  | ints items => simp [tag, toTree, ofTree?, mapM_map_some Tree.int int? (fun _ => rfl)]
  | floats items => simp [tag, toTree, ofTree?, mapM_map_some Tree.float float? (fun _ => rfl)]
  | _ => rfl

end Attribute

namespace Attributes

/-! ## Attributes in a message -/

def nameKey : String := "N"

def valueKey : String := "V"

def tagKey : String := "Y"

/-- The records of attributes, by name. -/
def toTree (attributes : Attributes) : Tree :=
  .list (attributes.map (fun (name, a) =>
    .map [(nameKey, .text name), (valueKey, a.toTree), (tagKey, .text a.tag)]))

/-- The name and the value in a record. -/
def ofRecord? (record : Tree) : Option (String × Attribute) := do
  let name ← (← record.at? nameKey).toText?
  let tag ← (← record.at? tagKey).toText?
  let a ← Attribute.ofTree? tag (← record.at? valueKey)
  return (name, a)

/-- The attributes in a list of records. Records that are not well formed are passed over, and of
several with one name the last counts. -/
def ofTree (t : Tree) : Attributes :=
  Table.ofEntries ((t.toList?.getD []).filterMap ofRecord?)

end Attributes

end Stepcast
