import Stepcast.Attribute
import Stepcast.Message.Frame
import Stepcast.Text.Numeral

/-!
# The contents of a message

The index of a data message is a map from step numbers to maps from ranks to lists of block
records. The attributes of the stream may stand beside the steps.
-/

namespace Stepcast

/-- A block of a received message. -/
structure Block extends Record where
  step : UInt64
  rank : UInt32
  /-- The message that holds the bytes. -/
  buffer : Nat
deriving DecidableEq

/-- The key of the attributes in an index. -/
def attributesKey : String := "attributes-section"

/-- What an index tells. -/
structure Contents where
  attributes : Option Attributes
  blocks : List Block

namespace Contents

/-- The blocks of one rank at a step. -/
def readRank (buffer stop : Nat) (step : UInt64) (entry : String × Tree) :
    Except Fault (List Block) := do
  let some rank := readUnsigned (UInt32.size - 1) entry.1 | throw (.protocol (.rankKey entry.1))
  let rank := UInt32.ofNat rank
  let some records := entry.2.toList? | throw (.protocol (.rankNotList step rank))
  records.mapM (fun t => do
    let record ← Record.ofTree step stop t
    return { record with step, rank, buffer })

/-- The blocks of one step, rank by rank. -/
def readStep (buffer stop : Nat) (entry : String × Tree) : Except Fault (List Block) := do
  let some step := readUnsigned (UInt64.size - 1) entry.1 | throw (.protocol (.stepKey entry.1))
  let step := UInt64.ofNat step
  let some ranks := entry.2.toMap? | throw (.protocol (.stepNotMap step))
  return (← ranks.mapM (readRank buffer stop step)).flatten

/-- The contents of an index; `buffer` names the message and `stop` is where its payload ends. -/
def ofIndex (buffer stop : Nat) (entries : Table String Tree) : Except Fault Contents := do
  let steps := entries.filter (fun e => e.1 ≠ attributesKey)
  let blocks := (← steps.mapM (readStep buffer stop)).flatten
  return ⟨(entries.at? attributesKey).map Attributes.ofTree, blocks⟩

end Contents

end Stepcast
