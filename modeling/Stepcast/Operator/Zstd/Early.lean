import Stepcast.Operator.Zstd.Block

/-!
# Early frames

Seven versions of the frame format came before the present one, and their frames can stand among the
others. Their blocks have the type and the size the other way round, and a block of its own ends a
frame. Stored blocks are read in every version, repeated bytes in version 7, and literals without
codes and sequences from version 5 on; blocks of coded data are refused.
-/

namespace Stepcast

namespace Zstd

namespace Early

/-- The format version of an early frame at the head of the input. -/
def version? (input : Bytes) : Option Nat :=
  match input with
  | 0xFD :: 0x2F :: 0xB5 :: 0x1E :: _ => some 1
  | b :: 0xB5 :: 0x2F :: 0xFD :: _ =>
    if 0x22 ≤ b.toNat ∧ b.toNat ≤ 0x27 then some (b.toNat - 0x20) else none
  | _ => none

/-! ## Frame headers -/

/-- The largest window of version 7. -/
def windowLimit : Nat := 1 <<< 27

/-- The size that the header of a frame of version 6 states, or zero, and what follows it. -/
def header6? (descriptor : Nat) (input : Bytes) : Option (Nat × Bytes) := do
  let width := match descriptor / 64 with
    | 0 => 0
    | 1 => 1
    | 2 => 2
    | _ => 8
  let (field, rest) ← split? width input
  let stated := leValue field + (if width = 2 then 256 else 0)
  if descriptor / 32 % 2 = 1 then none else some (stated, rest)

/-- The size that the header of a frame of version 7 states, or zero, and what follows it. -/
def header7? (descriptor : Nat) (input : Bytes) : Option (Nat × Bytes) := do
  let single := descriptor / 32 % 2 = 1
  let (window, rest) ← split? (if single then 0 else 1) input
  let (dictionary, rest) ← split? (if descriptor % 4 = 3 then 4 else descriptor % 4) rest
  let width := match descriptor / 64 with
    | 0 => if single then 1 else 0
    | 1 => 2
    | 2 => 4
    | _ => 8
  let (field, rest) ← split? width rest
  let stated := leValue field + (if width = 2 then 256 else 0)
  let windowByte := leValue window
  if descriptor / 8 % 2 = 1 || leValue dictionary ≠ 0 then none
  else if !single && 27 < windowByte / 8 + 10 then none
  else if single && windowLimit < stated % UInt32.size then none
  else some (stated, rest)

/-- The size that the header of a frame states, or zero, and what follows it. -/
def header? (version : Nat) (input : Bytes) : Option (Nat × Bytes) := do
  let (_, rest) ← split? 4 input
  if version ≤ 3 then some (0, rest)
  else
    let descriptor :: rest := rest | none
    let descriptor := descriptor.toNat
    if version ≤ 5 then if descriptor < 16 then some (0, rest) else none
    else if version = 6 then header6? descriptor rest
    else header7? descriptor rest

/-! ## Blocks -/

/-- A number whose high bytes come first. -/
def highFirst (bytes : Bytes) : Nat := leValue bytes.reverse

/-- The bytes of the header of plain literals, and their number. -/
def literalsSize (input : Bytes) : Nat × Nat :=
  match (input.headD 0).toNat / 16 % 4 with
  | 2 => (2, highFirst (input.take 2) % (1 <<< 12))
  | 3 => (3, highFirst (input.take 3) % (1 <<< 20))
  | _ => (1, highFirst (input.take 1) % (1 <<< 5))

/-- The content of a block of plain literals without sequences. -/
def literals? (input : Bytes) : Option Bytes := do
  let size := input.length
  let (header, count) := literalsSize input
  if size < 3 || blockLimit ≤ size then none
  else
    let (content, rest) ←
      match (input.headD 0).toNat / 64 with
      | 2 => split? count (input.drop header)
      | 3 =>
        if blockLimit < count then none
        else
          match input.drop header with
          | b :: rest => some (List.replicate count b, rest)
          | [] => none
      | _ => none
    match rest with
    | 0 :: _ => some content
    | _ => none

/-- The content of a block of `size` bytes, and what follows it. -/
def block? (version kind size : Nat) (input : Bytes) : Option (Bytes × Bytes) :=
  match kind with
  | 0 => do
    let (stored, rest) ← split? size input
    if version < 5 then none else return (← literals? stored, rest)
  | 1 => split? size input
  | _ =>
    match input with
    | b :: rest => if version = 7 then some (List.replicate size b, rest) else none
    | [] => none

/-- Whether a block ends a frame. Before version 7 any empty block does that. -/
def isEnd (version kind size : Nat) : Bool :=
  kind = 3 || (version < 7 && size = 0 && kind ≠ 2)

/-- The output after the blocks up to the one that ends the frame, and what follows it. `fuel`
bounds the number of blocks. -/
def blocks? (version capacity : Nat) : (fuel : Nat) → Bytes → Array UInt8 →
    Option (Array UInt8 × Bytes)
  | 0, _, _ => none
  | fuel + 1, input, output => do
    let (head, input) ← split? 3 input
    let head := highFirst head
    let kind := head >>> 22
    let size := head % (1 <<< 19)
    if isEnd version kind size then some (output, input)
    else
      let (content, input) ← block? version kind size input
      if capacity < output.size + content.length then none
      else blocks? version capacity fuel input (output ++ content)

/-- The content of a frame, and what follows the frame. `fuel` bounds the number of its blocks. -/
def frame? (version capacity fuel : Nat) (input : Bytes) : Option (Array UInt8 × Bytes) := do
  let (stated, rest) ← header? version input
  let (content, rest) ← blocks? version capacity fuel rest #[]
  if stated ≠ 0 && stated ≠ content.size then none else some (content, rest)

end Early

end Zstd

end Stepcast
