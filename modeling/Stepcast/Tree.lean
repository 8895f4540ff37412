import Stepcast.Bytes
import Stepcast.Table

/-!
# Trees

A tree is the schema-free value in which a message describes its blocks: scalars, lists, and maps
from strings. Maps are tables, so a key occurs once and the keys stand in byte order. Floats are
kept as their IEEE bits.
-/

namespace Stepcast

/-- A schema-free value. -/
inductive Tree where
  | null
  | bool (value : Bool)
  | uint (value : UInt64)
  | int (value : Int64)
  | float (bits : UInt64)
  | text (value : String)
  | bytes (value : Bytes)
  | list (items : List Tree)
  | map (entries : List (String × Tree))
deriving Inhabited

namespace Tree

/-! ## Reading a tree -/

/-- The tree as an unsigned number: either kind of integer, unless it is negative. -/
def toUInt? : Tree → Option UInt64
  | uint n => some n
  | int n => if 0 ≤ n then some n.toUInt64 else none
  | _ => none

def toText? : Tree → Option String
  | text s => some s
  | _ => none

def toList? : Tree → Option (List Tree)
  | list items => some items
  | _ => none

def toMap? : Tree → Option (Table String Tree)
  | map entries => some entries
  | _ => none

/-- The value under a key, when the tree is a map that has the key. -/
def at? (t : Tree) (key : String) : Option Tree := t.toMap?.bind (Table.at? · key)

/-- The tree as the extents of a box. -/
def toDims? (t : Tree) : Option (List UInt64) := t.toList?.bind (List.mapM toUInt?)

/-! ## Building a tree -/

/-- The extents of a box as a tree. -/
def ofDims (dims : List UInt64) : Tree := list (dims.map uint)

/-- The map with `value` under `key`; nothing when the tree is not a map. -/
def put? (t : Tree) (key : String) (value : Tree) : Option Tree :=
  t.toMap?.map (fun entries => map (Table.put entries key value))

end Tree

end Stepcast
