import Stepcast.Message.Record
import Stepcast.Message.Frame

/-!
# Messages apart from their times

The times at which blocks were written are all that differs between the messages of two equal runs.
`Frame.timeless` sets them to zero, so that messages can be compared.
-/

namespace Stepcast

namespace Tree

/-- The tree with a function applied to the values of a map. -/
def mapValues (f : Tree → Tree) : Tree → Tree
  | .map entries => .map (entries.map (fun (k, v) => (k, f v)))
  | t => t

/-- The tree with a function applied to the items of a list. -/
def mapItems (f : Tree → Tree) : Tree → Tree
  | .list items => .list (items.map f)
  | t => t

end Tree

/-- The map of a record with a positive time set to zero. -/
def Record.timeless (record : Tree) : Tree :=
  match record.at? "W" with
  | some (.int time) => if 0 < time then (record.put? "W" (.int 0)).getD record else record
  | _ => record

/-- The message with the times of its blocks set to zero. Bytes that are no data message stay as
they are. -/
def Frame.timeless (message : Bytes) : Bytes :=
  match Frame.index message with
  | .error _ => message
  | .ok (offset, entries) =>
    Frame.compose (slice message headerSize (offset - headerSize))
      ((Tree.map entries).mapValues (Tree.mapValues (Tree.mapItems Record.timeless)))

end Stepcast
