import Stepcast.Operator.Zstd.StateTable

/-!
# Prefix codes

Literals are coded with codes of different lengths, none of which begins another: a binary tree with
a byte at every leaf. A code is stored as the weights of its symbols. A symbol of weight `w` takes
the `2 ^ (w - 1)`-th part of the code space, in the order of the weights and then of the symbols,
and the weight of the last symbol is what the others leave over.
-/

namespace Stepcast

namespace Zstd

/-- A code for bytes. -/
inductive PrefixCode where
  | leaf (symbol : UInt8)
  | node (zero one : PrefixCode)

namespace PrefixCode

/-- The longest code of a symbol. -/
def maxLength : Nat := 12

/-! ## Weights -/

/-- The symbols that two machines give by turns, after those `seen`, which come latest first. They
stop when there are too few bits to go on. `fuel` bounds their number. -/
def takeTurns? (t : StateTable) :
    (fuel first second : Nat) → List Bool → (seen : List Nat) → Option (List Nat)
  | 0, _, _, _, _ => none
  | fuel + 1, first, second, bits, seen =>
    let seen := (t.cell first).symbol :: seen
    match t.next? first bits with
    | some (first, bits) => takeTurns? t fuel second first bits seen
    | none => some ((t.cell second).symbol :: seen).reverse

/-- Weights that are coded with a state table. -/
def codedWeights? (input : Bytes) : Option (List Nat) := do
  let (table, rest) ← StateTable.read? 6 256 input
  let bits ← backwardBits? rest
  let (first, bits) ← table.start? bits
  let (second, bits) ← table.start? bits
  takeTurns? table 254 first second bits []

/-- The weights of all symbols but the last, and what follows them. -/
def weights? (input : Bytes) : Option (List Nat × Bytes) := do
  let head :: input := input | none
  if head < 128 then
    let (coded, rest) ← split? head.toNat input
    return (← codedWeights? coded, rest)
  else
    let count := head.toNat - 127
    let (packed, rest) ← split? ((count + 1) / 2) input
    let weights := packed.flatMap (fun b => [b.toNat / 16, b.toNat % 16])
    return (weights.take count, rest)

/-- The share of a weight in the code space. -/
def shareOf (weight : Nat) : Nat := (1 <<< weight) / 2

/-- The length of the longest code and the weights of all symbols. What the others leave over must
be the share of a weight, and the longest codes must come in pairs. -/
def complete? (weights : List Nat) : Option (Nat × List Nat) :=
  let total := weights.foldr (fun weight sum => shareOf weight + sum) 0
  let length := total.log2 + 1
  let left := 1 <<< length - total
  let weights := weights ++ [left.log2 + 1]
  let longest := weights.count 1
  if weights.any (maxLength < ·) || total = 0 || maxLength < length then none
  else if 1 <<< left.log2 ≠ left || longest < 2 || longest % 2 = 1 then none
  else some (length, weights)

/-! ## The tree -/

/-- Joins codes two by two. -/
def pairs : List PrefixCode → List PrefixCode
  | a :: b :: rest => node a b :: pairs rest
  | _ => []

/-- The leaves of a weight. -/
def leaves (weights : List Nat) (weight : Nat) : List PrefixCode :=
  weights.zipIdx.filterMap
    (fun (w, symbol) => if w = weight then some (leaf (UInt8.ofNat symbol)) else none)

/-- The code whose longest codes have the given length. -/
def ofWeights? (length : Nat) (weights : List Nat) : Option PrefixCode :=
  let top := (List.range length).foldl (fun codes i => pairs codes ++ leaves weights (i + 1)) []
  (pairs top).head?

/-- A stored code and what follows it. -/
def read? (input : Bytes) : Option (PrefixCode × Bytes) := do
  let (weights, rest) ← weights? input
  let (length, weights) ← complete? weights
  return (← ofWeights? length weights, rest)

/-! ## Decoding -/

/-- The symbol at the head of a stream. -/
def symbol? : PrefixCode → List Bool → Option (UInt8 × List Bool)
  | leaf symbol, bits => some (symbol, bits)
  | node zero one, bit :: bits => (if bit then one else zero).symbol? bits
  | node _ _, [] => none

/-- The bytes of a stream of exactly `count` symbols, behind those of `output`. -/
def symbols? (c : PrefixCode) : (count : Nat) → List Bool → Array UInt8 → Option (Array UInt8)
  | 0, bits, output => if bits.isEmpty then some output else none
  | count + 1, bits, output =>
    match c.symbol? bits with
    | some (symbol, bits) => symbols? c count bits (output.push symbol)
    | none => none

/-- The bytes of a stored stream of `count` symbols, behind those of `output`. -/
def stream? (c : PrefixCode) (count : Nat) (input : Bytes) (output : Array UInt8) :
    Option (Array UInt8) := do
  c.symbols? count (← backwardBits? input) output

/-- The bytes of four streams of together `count` symbols; the sizes of the first three come
before them. -/
def fourStreams? (c : PrefixCode) (count : Nat) (input : Bytes) : Option (Array UInt8) := do
  let part := (count + 3) / 4
  let (sizes, input) ← split? 6 input
  let (first, input) ← split? (leValue (slice sizes 0 2)) input
  let (second, input) ← split? (leValue (slice sizes 2 2)) input
  let (third, fourth) ← split? (leValue (slice sizes 4 2)) input
  if count < 3 * part then none
  else
    let output ← c.stream? part first #[]
    let output ← c.stream? part second output
    let output ← c.stream? part third output
    c.stream? (count - 3 * part) fourth output

end PrefixCode

end Zstd

end Stepcast
