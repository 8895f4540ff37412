import Stepcast.Operator.Zstd.Bits

/-!
# State tables

Symbols are read by a machine whose states stand for symbols. A symbol has as many states as its
share of the table, so that going on from one of them takes fewer bits the more there are. A table
is stored as the shares of the symbols, and the states are spread by a fixed rule.
-/

namespace Stepcast

namespace Zstd

/-- One state of a table. -/
structure Cell where
  symbol : Nat
  /-- The bits that are read to go on. -/
  width : Nat
  /-- What they are added to. -/
  base : Nat
deriving Repr, DecidableEq, Inhabited

/-- A table of `2 ^ log` states. -/
structure StateTable where
  log : Nat
  cells : Array Cell

namespace StateTable

/-! ## From shares to states -/

/-- The share of a symbol that has one state but not even a full share. -/
def rare : Int := -1

/-- The symbols of the states that the shares give. Symbols with a full share are spread over the
table with a fixed step, around the rare ones at its end. -/
def spread (log : Nat) (shares : List Int) : Array Nat :=
  let size := 1 <<< log
  let symbols := shares.zipIdx
  let last := symbols.filterMap (fun (share, symbol) => if share = rare then some symbol else none)
  let others := symbols.flatMap (fun (share, symbol) => List.replicate share.toNat symbol)
  let step := size / 2 + size / 8 + 3
  let places := ((List.range size).map (fun i => i * step % size)).filter
    (· < size - last.length)
  let placed := places.zip others ++ last.zipIdx.map (fun (symbol, i) => (size - 1 - i, symbol))
  placed.foldl (fun table (place, symbol) => table.setIfInBounds place symbol)
    (Array.replicate size 0)

/-- The states of a table, given their symbols. The states of a symbol with share `n` are numbered
from `n` on, and those with more bits to read come first. -/
def number (log : Nat) (shares : List Int) (symbols : Array Nat) : Array Cell :=
  let first : Array Nat := (shares.map (fun share => share.natAbs)).toArray
  let (_, cells) := symbols.foldl
    (fun (next, cells) symbol =>
      let n := next.getD symbol 1
      let width := log - n.log2
      (next.setIfInBounds symbol (n + 1), cells.push ⟨symbol, width, (n <<< width) - (1 <<< log)⟩))
    (first, (#[] : Array Cell))
  cells

def ofShares (log : Nat) (shares : List Int) : StateTable :=
  { log, cells := number log shares (spread log shares) }

/-- The table with one state. -/
def single (symbol : Nat) : StateTable := { log := 0, cells := #[⟨symbol, 0, 0⟩] }

/-! ## Reading shares -/

/-- The length of a run of zeros after a zero, and where it ends: pairs of bits are added up to the
first that is not three. `fuel` bounds their number. -/
def zeroRun (input : Bytes) : (fuel position count : Nat) → Nat × Nat
  | 0, position, count => (count, position)
  | fuel + 1, position, count =>
    match bitsAt input position 2 with
    | 3 => zeroRun input fuel (position + 2) (count + 3)
    | n => (count + n, position + 2)

/-- A number up to `remaining + 1`, and where it ends. Small ones take one bit less where all of
them do not need the full width. -/
def share (input : Bytes) (position remaining : Nat) : Nat × Nat :=
  let width := (remaining + 1).log2
  let spare := 2 * (1 <<< width) - 2 - remaining
  let low := bitsAt input position width
  if low < spare then (low, position + width)
  else
    let full := bitsAt input position (width + 1)
    (if full < 1 <<< width then full else full - spare, position + width + 1)

/-- The shares after `seen`, which come latest first, up to a sum of `remaining`, and where they
end. There are `limit` of them at most. -/
def shares? (input : Bytes) (limit : Nat) :
    (fuel position remaining : Nat) → (seen : List Int) → Option (List Int × Nat)
  | 0, _, _, _ => none
  | fuel + 1, position, remaining, seen =>
    if remaining = 0 then some (seen.reverse, position)
    else if limit ≤ seen.length then none
    else
      let (n, position) := share input position remaining
      if n = 0 then shares? input limit fuel position (remaining - 1) (rare :: seen)
      else if n = 1 then
        let (zeros, position) := zeroRun input limit position 0
        shares? input limit fuel position remaining (List.replicate (zeros + 1) 0 ++ seen)
      else shares? input limit fuel position (remaining - (n - 1)) (Int.ofNat (n - 1) :: seen)

/-- A table of at most `2 ^ maxLog` states for at most `limit` symbols, and what follows it. -/
def read? (maxLog limit : Nat) (input : Bytes) : Option (StateTable × Bytes) := do
  let log := bitsAt input 0 4 + 5
  if maxLog < log then none
  else
    let (shares, position) ← shares? input limit (limit + 1) 4 (1 <<< log) []
    let (_, rest) ← split? ((position + 7) / 8) input
    return (ofShares log shares, rest)

/-! ## Running -/

def cell (t : StateTable) (state : Nat) : Cell := t.cells.getD state default

/-- The first state. -/
def start? (t : StateTable) (bits : List Bool) : Option (Nat × List Bool) := readBits? t.log 0 bits

/-- The state after another. -/
def next? (t : StateTable) (state : Nat) (bits : List Bool) : Option (Nat × List Bool) :=
  let c := t.cell state
  (readBits? c.width 0 bits).map (fun (n, bits) => (c.base + n, bits))

end StateTable

end Zstd

end Stepcast
