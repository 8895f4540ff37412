import Stepcast.Operator.Output

/-!
# LZ4 blocks

A block is a row of sequences: a token with two lengths, literal bytes, and a reference to earlier
output that is copied. The last sequence has literals only. A block is stored behind the size of
its content in four bytes. The content may come out shorter than that size, but not longer.

`Lz4.decompress?` reads any block; `Lz4.compress` writes one sequence of literals.
-/

namespace Stepcast

namespace Lz4

/-- The shortest reference. -/
def minMatch : Nat := 4

/-! ## Lengths -/

/-- The sum of the bytes up to the first that is not 255, and what follows it. -/
def lengthTail? : Bytes → Option (Nat × Bytes)
  | [] => none
  | b :: rest =>
    if b = 255 then (lengthTail? rest).map (fun (n, rest) => (255 + n, rest))
    else some (b.toNat, rest)

/-- A length whose first four bits are `nibble`; 15 says that more bytes follow. -/
def length? (nibble : Nat) (input : Bytes) : Option (Nat × Bytes) :=
  if nibble = 15 then (lengthTail? input).map (fun (n, rest) => (15 + n, rest))
  else some (nibble, input)

/-- The bytes that follow a nibble of 15 to make up a length. -/
def lengthBytes (n : Nat) : Bytes := List.replicate (n / 255) 255 ++ [UInt8.ofNat (n % 255)]

/-! ## Reading -/

/-- The output after the sequences of the input. `fuel` bounds their number. -/
def sequences? (capacity : Nat) : (fuel : Nat) → Bytes → Array UInt8 → Option (Array UInt8)
  | 0, _, _ => none
  | fuel + 1, input, output => do
    let token :: input := input | none
    let (count, input) ← length? (token.toNat / 16) input
    let (literals, input) ← split? count input
    if capacity < output.size + count then none
    else
      let output := output ++ literals
      match input with
      | [] => some output
      | low :: high :: input => do
        let offset := leValue [low, high]
        let (extra, input) ← length? (token.toNat % 16) input
        let count := minMatch + extra
        if capacity < output.size + count || offset = 0 || output.size < offset then none
        else sequences? capacity fuel input (copyBack offset count output)
      | _ => none

/-- The content of a block behind its size. -/
def decompress? (input : Bytes) : Option Bytes := do
  let (size, rest) ← split? 4 input
  let output ← sequences? (leValue size) (rest.length + 1) rest #[]
  return output.toList

/-! ## Writing -/

/-- A block of literals behind its size. -/
def compress (content : Bytes) : Bytes :=
  let size := content.length
  let token := if size < 15 then [UInt8.ofNat (size * 16)] else 0xF0 :: lengthBytes (size - 15)
  leBytes 4 size ++ token ++ content

end Lz4

end Stepcast
