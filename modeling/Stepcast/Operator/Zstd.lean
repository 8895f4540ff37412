import Stepcast.Operator.Zstd.Block
import Stepcast.Operator.Zstd.Early
import Stepcast.Operator.Zstd.XxHash

/-!
# Zstandard frames

A frame is a header, blocks and, if the header says so, a checksum of the content. Frames may follow
one another, early frames stand among them, and skippable frames hold nothing.

`Zstd.decompress?` reads frames into a given capacity; `Zstd.compress` writes one frame of stored
blocks.
-/

namespace Stepcast

namespace Zstd

/-! ## Frame headers -/

def magic : Bytes := [0x28, 0xB5, 0x2F, 0xFD]

/-- What the header of a frame says. -/
structure Header where
  contentSize : Option Nat
  /-- How far back references may reach. -/
  window : Nat
  checksum : Bool

/-- The bytes of the field that names a dictionary. -/
def dictionaryWidth (descriptor : Nat) : Nat :=
  match descriptor % 4 with
  | 0 => 0
  | 1 => 1
  | 2 => 2
  | _ => 4

/-- The bytes of the field with the size of the content. -/
def contentWidth (descriptor : Nat) (single : Bool) : Nat :=
  match descriptor / 64 with
  | 0 => if single then 1 else 0
  | 1 => 2
  | 2 => 4
  | _ => 8

/-- The size of the content that stands for an unknown one. -/
def unknownSize : Nat := UInt64.size - 1

/-- The window that a byte describes: a power of two and some eighths of it. -/
def windowSize (b : Nat) : Nat :=
  let base := 1 <<< (b / 8 + 10)
  base + base / 8 * (b % 8)

/-- The header of a frame and the bytes after it. Reserved bits, windows of more than `2 ^ 31`
bytes and dictionaries are refused. -/
def header? (input : Bytes) : Option (Header × Bytes) :=
  let descriptor := (input.getD 4 0).toNat
  let single := descriptor / 32 % 2 = 1
  let window := if single then 0 else 1
  let dictionary := dictionaryWidth descriptor
  let content := contentWidth descriptor single
  let size := 5 + window + dictionary + content
  let field := leValue (slice input (5 + window + dictionary) content)
  let windowByte := (input.getD 5 0).toNat
  if input.take 4 ≠ magic || (input.take (size + 3)).length < size + 3 then none
  else if descriptor / 8 % 2 = 1 then none
  else if !single && 31 < windowByte / 8 + 10 then none
  else if leValue (slice input (5 + window) dictionary) ≠ 0 then none
  else
    let stated := if content = 2 then field + 256 else field
    let contentSize := if content = 0 || stated = unknownSize then none else some stated
    let window := if single then stated else windowSize windowByte
    some (⟨contentSize, window, descriptor / 4 % 2 = 1⟩, input.drop size)

/-! ## Frames -/

/-- The content of the frame at the head of the input, and what follows the frame. `fuel` bounds the
number of its blocks. -/
def frame? (capacity fuel : Nat) (input : Bytes) : Option (Array UInt8 × Bytes) := do
  let (header, rest) ← header? input
  let limit := min header.window blockLimit
  let (content, rest) ← blocks? limit capacity fuel {} rest #[]
  if header.contentSize.any (· ≠ content.size) then none
  else if !header.checksum then some (content, rest)
  else
    let (stored, rest) ← split? 4 rest
    let digest := (XxHash.hash content.toList).toNat % UInt32.size
    if leValue stored = digest then some (content, rest) else none

/-- The size of a skippable frame at the head of the input. -/
def skippable? (input : Bytes) : Option Nat :=
  let n := leValue (input.take 4)
  if n / 16 = 0x184D2A5 then some (8 + leValue (slice input 4 4)) else none

/-- What follows a skippable frame of `size` bytes. -/
def skip? (size : Nat) (input : Bytes) : Option Bytes := (split? size input).map Prod.snd

/-- The content of all frames behind `output`. `fuel` bounds their number and that of the blocks of
each. -/
def frames? (capacity : Nat) : (fuel : Nat) → Bytes → Array UInt8 → Option (Array UInt8)
  | 0, _, _ => none
  | fuel + 1, input, output => do
    if input.isEmpty then some output
    else if (input.take 5).length < 5 then none
    else
      let room := capacity - output.size
      let (content, rest) ←
        match Early.version? input, skippable? input with
        | some version, _ => Early.frame? version room fuel input
        | none, some size => (skip? size input).map (fun rest => (#[], rest))
        | none, none => frame? room fuel input
      frames? capacity fuel rest (output ++ content)

/-- The content of frames, which must fit into `capacity` bytes. -/
def decompress? (capacity : Nat) (input : Bytes) : Option Bytes :=
  (frames? capacity (input.length + 1) input #[]).map Array.toList

/-! ## Writing -/

/-- Stored blocks with the content, the last one marked; `fuel` bounds their number. -/
def storedBlocks : (fuel : Nat) → Bytes → Bytes
  | 0, _ => []
  | fuel + 1, content =>
    let last := content.length ≤ blockLimit
    let piece := content.take blockLimit
    leBytes 3 (piece.length * 8 + (if last then 1 else 0)) ++ piece ++
      (if last then [] else storedBlocks fuel (content.drop blockLimit))

/-- One frame with the content in stored blocks. -/
def compress (content : Bytes) : Bytes :=
  magic ++ [0xE0] ++ leBytes 8 content.length ++
    storedBlocks (content.length / blockLimit + 1) content

end Zstd

end Stepcast
