import Stepcast.Operator.Zstd.Literals
import Stepcast.Operator.Zstd.Sequences

/-!
# Blocks

The content of a frame comes in blocks: stored bytes, one repeated byte, or literals and sequences.
The output of a frame is one array, which the sequences of all its blocks may copy from.
-/

namespace Stepcast

namespace Zstd

/-- The most bytes that a block holds. -/
def blockLimit : Nat := 131072

/-- What stays from one block to the next. -/
structure Memory where
  code : Option PrefixCode := none
  tables : Option Tables := none
  recent : Recent := {}

/-- Where the output of a block ends at the latest. Literals that are not read in place are kept
behind the block where there is room for them, and a wide copy needs some room too. -/
def blockEnd (limit capacity start : Nat) (literals : Literals) : Nat :=
  let reach := limit + Literals.slack
  if !literals.inPlace && start + reach + literals.bytes.length + Literals.slack < capacity then
    start + reach
  else capacity

/-- The output after a block of literals and sequences. The blocks of the frame hold `limit` bytes
at most. -/
def packed? (limit capacity : Nat) (m : Memory) (input : Bytes) (output : Array UInt8) :
    Option (Memory × Array UInt8) := do
  let size := input.length
  if limit < size || size < 2 then none
  else
    let (literals, input) ← Literals.read? (min limit (capacity - output.size)) m.code input
    let (count, input) ← sequenceCount? input
    let m := { m with code := literals.code }
    let last := blockEnd limit capacity output.size literals
    if count = 0 then
      if input.isEmpty then some (m, output ++ literals.bytes) else none
    else
      let (tables, input) ← tables? m.tables input
      let (states, bits) ← tables.start? (← backwardBits? input)
      let (rest, recent, output) ←
        tables.run? last count states bits m.recent literals.bytes output
      if last < output.size + rest.length then none
      else some ({ m with tables := some tables, recent }, output ++ rest)

/-- The output after a block of the given type and size, and what follows it. -/
def block? (limit capacity : Nat) (m : Memory) (kind size : Nat) (input : Bytes)
    (output : Array UInt8) : Option (Memory × Array UInt8 × Bytes) :=
  match kind with
  | 0 => do
    let (content, rest) ← split? size input
    if capacity < output.size + size then none else return (m, output ++ content, rest)
  | 1 =>
    match input with
    | [] => none
    | b :: rest =>
      if capacity < output.size + size then none
      else some (m, output ++ List.replicate size b, rest)
  | 2 => do
    let (content, rest) ← split? size input
    let (m, output) ← packed? limit capacity m content output
    return (m, output, rest)
  | _ => none

/-- The output after the blocks up to the last one, and what follows it. `fuel` bounds the number of
blocks. -/
def blocks? (limit capacity : Nat) : (fuel : Nat) → Memory → Bytes → Array UInt8 →
    Option (Array UInt8 × Bytes)
  | 0, _, _, _ => none
  | fuel + 1, m, input, output => do
    let (head, input) ← split? 3 input
    let head := leValue head
    let (m, output, input) ← block? limit capacity m (head / 2 % 4) (head / 8) input output
    if head % 2 = 1 then some (output, input) else blocks? limit capacity fuel m input output

end Zstd

end Stepcast
