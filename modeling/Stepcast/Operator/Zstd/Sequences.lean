import Stepcast.Operator.Output
import Stepcast.Operator.Zstd.StateTable

/-!
# Sequences

After its literals a block has sequences: some literals to take, and how much of the output to copy
from how far back. The three numbers of a sequence are coded with a state table each and some bits
of their own. Distances that were used lately have short codes.
-/

namespace Stepcast

namespace Zstd

/-! ## Codes and numbers -/

/-- The least number of a code and the bits that are added to it. -/
structure Span where
  base : Nat
  width : Nat
deriving Repr, DecidableEq, Inhabited

/-- Spans side by side from `base` on. -/
def spans (base : Nat) : (widths : List Nat) → List Span
  | [] => []
  | width :: rest => ⟨base, width⟩ :: spans (base + 1 <<< width) rest

/-- What is coded by a number of a sequence. -/
inductive Field where
  | literals | distance | copied
deriving Repr, DecidableEq

namespace Field

/-- The spans of the codes. -/
def spans : Field → List Span
  | literals =>
    Zstd.spans 0 (List.replicate 16 0 ++
      [1, 1, 1, 1, 2, 2, 3, 3, 4, 6, 7, 8, 9, 10, 11, 12, 13, 14, 15, 16])
  | distance => Zstd.spans 1 (List.range 32)
  | copied =>
    Zstd.spans 3 (List.replicate 32 0 ++
      [1, 1, 1, 1, 2, 2, 3, 3, 4, 4, 5, 7, 8, 9, 10, 11, 12, 13, 14, 15, 16])

/-- The base-2 logarithm of the size of the largest table. -/
def maxLog : Field → Nat
  | literals => 9
  | distance => 8
  | copied => 9

/-- The table of a block that describes none. -/
def usualTable : Field → StateTable
  | literals =>
    .ofShares 6
      ([4, 3] ++ List.replicate 11 2 ++ [1, 1, 1] ++ List.replicate 9 2 ++ [3, 2] ++
        List.replicate 5 1 ++ List.replicate 4 StateTable.rare)
  | distance =>
    .ofShares 5
      (List.replicate 6 1 ++ [2, 2, 2] ++ List.replicate 15 1 ++ List.replicate 5 StateTable.rare)
  | copied =>
    .ofShares 6
      ([1, 4, 3] ++ List.replicate 6 2 ++ List.replicate 37 1 ++ List.replicate 7 StateTable.rare)

/-- The table of a field in the given mode, and what follows it. `before` is the table of an earlier
block. -/
def table? (f : Field) (mode : Nat) (before : Option StateTable) (input : Bytes) :
    Option (StateTable × Bytes) :=
  match mode with
  | 0 => some (f.usualTable, input)
  | 1 =>
    match input with
    | b :: rest => if b.toNat < f.spans.length then some (.single b.toNat, rest) else none
    | [] => none
  | 2 => StateTable.read? f.maxLog f.spans.length input
  | _ => before.map (fun table => (table, input))

end Field

/-! ## Distances -/

/-- The distances that were used last. -/
structure Recent where
  first : Nat := 1
  second : Nat := 4
  third : Nat := 8
deriving Repr, DecidableEq

namespace Recent

/-- The distance that a number stands for. One to three are recent distances, the first of them left
out when no literals were taken; any other is a new distance. -/
def resolve (r : Recent) (n : Nat) (noLiterals : Bool) : Recent :=
  if 3 < n then ⟨n - 3, r.first, r.second⟩
  else
    match n + noLiterals.toNat with
    | 1 => r
    | 2 => ⟨r.second, r.first, r.third⟩
    | 3 => ⟨r.third, r.first, r.second⟩
    | _ => ⟨r.first - 1, r.first, r.second⟩

end Recent

/-! ## The header -/

/-- The tables of a block. -/
structure Tables where
  literals : StateTable
  distance : StateTable
  copied : StateTable

/-- The number of sequences, and what follows it. -/
def sequenceCount? : Bytes → Option (Nat × Bytes)
  | [] => none
  | b :: input =>
    if b < 128 then some (b.toNat, input)
    else if b < 255 then
      match input with
      | low :: rest => some ((b.toNat - 128) * 256 + low.toNat, rest)
      | [] => none
    else
      match input with
      | low :: high :: rest => some (leValue [low, high] + 0x7F00, rest)
      | _ => none

/-- The tables of a block, and what follows them. -/
def tables? (before : Option Tables) (input : Bytes) : Option (Tables × Bytes) := do
  let modes :: input := input | none
  let modes := modes.toNat
  if modes % 4 ≠ 0 then none
  else
    let old (f : Tables → StateTable) : Option StateTable := before.map f
    let (literals, input) ← Field.literals.table? (modes / 64) (old Tables.literals) input
    let (distance, input) ← Field.distance.table? (modes / 16 % 4) (old Tables.distance) input
    let (copied, input) ← Field.copied.table? (modes / 4 % 4) (old Tables.copied) input
    return ({ literals, distance, copied }, input)

/-! ## Running -/

/-- Moves literals to the output. -/
def takeLiterals? : (count : Nat) → Bytes → Array UInt8 → Option (Bytes × Array UInt8)
  | 0, literals, output => some (literals, output)
  | count + 1, b :: literals, output => takeLiterals? count literals (output.push b)
  | _ + 1, [], _ => none

/-- One state for each table. -/
structure States where
  literals : Nat
  distance : Nat
  copied : Nat

namespace Tables

def start? (t : Tables) (bits : List Bool) : Option (States × List Bool) := do
  let (literals, bits) ← t.literals.start? bits
  let (distance, bits) ← t.distance.start? bits
  let (copied, bits) ← t.copied.start? bits
  return ({ literals, distance, copied }, bits)

def next? (t : Tables) (s : States) (bits : List Bool) : Option (States × List Bool) := do
  let (literals, bits) ← t.literals.next? s.literals bits
  let (copied, bits) ← t.copied.next? s.copied bits
  let (distance, bits) ← t.distance.next? s.distance bits
  return ({ literals, distance, copied }, bits)

/-- The span of the code that a state stands for. -/
def span (f : Field) (t : StateTable) (state : Nat) : Span :=
  f.spans.getD (t.cell state).symbol default

/-- Runs `count` sequences, which have to use up the bits. Gives the literals that are left, the
recent distances and the output, which ends at `room` at the latest. -/
def run? (t : Tables) (room : Nat) : (count : Nat) → States → List Bool → Recent → Bytes →
    Array UInt8 → Option (Bytes × Recent × Array UInt8)
  | 0, _, bits, recent, literals, output =>
    if bits.isEmpty then some (literals, recent, output) else none
  | count + 1, s, bits, recent, literals, output => do
    let distanceSpan := span .distance t.distance s.distance
    let copiedSpan := span .copied t.copied s.copied
    let literalSpan := span .literals t.literals s.literals
    let (distance, bits) ← readBits? distanceSpan.width 0 bits
    let (copied, bits) ← readBits? copiedSpan.width 0 bits
    let (taken, bits) ← readBits? literalSpan.width 0 bits
    let copied := copiedSpan.base + copied
    let taken := literalSpan.base + taken
    let recent := recent.resolve (distanceSpan.base + distance) (taken = 0)
    if room < output.size + taken + copied then none
    else
      let (literals, output) ← takeLiterals? taken literals output
      if recent.first = 0 || output.size < recent.first then none
      else
        let output := copyBack recent.first copied output
        if count = 0 then run? t room 0 s bits recent literals output
        else
          let (s, bits) ← t.next? s bits
          run? t room count s bits recent literals output

end Tables

end Zstd

end Stepcast
