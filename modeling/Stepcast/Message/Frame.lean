import Stepcast.Message.Record

/-!
# Frames

A data message is a header, the payload and the index. The header holds the offset and the size of
the index, eight bytes each. The end of a stream is told by a short record of its own, which is an
index without header and payload; messages below `controlThreshold` bytes are tried as such records
first.
-/

namespace Stepcast

namespace Frame

/-- The message with a payload and an index. -/
def compose (payload : Bytes) (index : Tree) : Bytes :=
  leBytes 8 (headerSize + payload.length) ++ leBytes 8 index.encodedLength ++ payload ++
    index.encode

/-- The offset and the size of the index. -/
def header (message : Bytes) : Except Fault (Nat × Nat) :=
  if message.length < headerSize then
    .error (.protocol (.shortMessage message.length))
  else
    let offset := leValue (message.take 8)
    let size := leValue (slice message 8 8)
    if offset < headerSize || message.length < offset + size then
      .error (.protocol (.header (UInt64.ofNat offset) (UInt64.ofNat size) message.length))
    else .ok (offset, size)

/-- The offset of the index and its entries, which must be a map. -/
def index (message : Bytes) : Except Fault (Nat × Table String Tree) := do
  let (offset, size) ← header message
  let t ← (Tree.decode (slice message offset size)).mapError (fun f => .protocol (.tree f))
  match t.toMap? with
  | some entries => return (offset, entries)
  | none => throw (.protocol .rootNotMap)

/-! ## The end of a stream -/

/-- Messages of fewer bytes are tried as the end of a stream first. -/
def controlThreshold : Nat := 128

def finalStepKey : String := "final-step"

/-- The record that ends a stream whose last step is `final`. -/
def endRecord (final : Option UInt64) : Bytes :=
  Tree.encode (.map [(finalStepKey, final.elim .null .uint)])

/-- The last step that an end record names; nothing when the bytes are no end record. -/
def finalStep? (message : Bytes) : Option (Option UInt64) :=
  match Tree.decode message with
  | .ok (.map [(key, value)]) =>
    if key ≠ finalStepKey then none
    else match value with
      | .null => some none
      | value => value.toUInt?.map some
  | _ => none

end Frame

end Stepcast
