import Stepcast.Operator.Zstd.PrefixCode

/-!
# Literals

A block begins with its literals: stored bytes, one repeated byte, or coded bytes whose code comes
before them or stays from an earlier block.
-/

namespace Stepcast

namespace Zstd

/-- The literals of a block. -/
structure Literals where
  bytes : Bytes
  /-- The code for blocks that bring none. -/
  code : Option PrefixCode
  /-- They are read where they lie in the input. -/
  inPlace : Bool

namespace Literals

/-- How literals are stored. -/
inductive Kind where
  | stored | repeated | coded | codedAsBefore
deriving Repr, DecidableEq

/-- The kind of a section, and the format of its sizes, of which there are four. -/
def kind (input : Bytes) : Kind × Nat :=
  let head := (input.headD 0).toNat
  let kind : Kind := match head % 4 with
    | 0 => .stored
    | 1 => .repeated
    | 2 => .coded
    | _ => .codedAsBefore
  (kind, head / 4 % 4)

/-! ## Stored and repeated bytes -/

/-- The bytes of the header of literals without a code, and their number. -/
def plainSize (format : Nat) (input : Bytes) : Nat × Nat :=
  match format with
  | 1 => (2, leValue (input.take 2) / 16)
  | 3 => (3, leValue (input.take 3) / 16)
  | _ => (1, leValue (input.take 1) / 8)

/-- A wide copy may touch this many bytes after those that it is for. -/
def slack : Nat := 32

/-- Stored literals. They are read in place unless the block ends shortly after them. -/
def stored? (limit format : Nat) (code : Option PrefixCode) (input : Bytes) :
    Option (Literals × Bytes) := do
  let (header, size) := plainSize format input
  if limit < size then none
  else
    let (_, rest) ← split? header input
    let (bytes, rest) ← split? size rest
    return ({ bytes, code, inPlace := slack ≤ (rest.take slack).length }, rest)

/-- One literal many times. -/
def repeated? (limit format : Nat) (code : Option PrefixCode) (input : Bytes) :
    Option (Literals × Bytes) := do
  let (header, size) := plainSize format input
  let b :: rest := input.drop header | none
  if limit < size then none
  else some ({ bytes := List.replicate size b, code, inPlace := false }, rest)

/-! ## Coded bytes -/

/-- The bytes of the header of coded literals, their number and their coded size. -/
def codedSize (format : Nat) (input : Bytes) : Nat × Nat × Nat :=
  let sizes (header width : Nat) : Nat × Nat × Nat :=
    let n := leValue (input.take header) / 16
    (header, n % (1 <<< width), n >>> width)
  match format with
  | 2 => sizes 4 14
  | 3 => sizes 5 18
  | _ => sizes 3 10

/-- The fewest literals that are coded in four streams. -/
def minFourStreams : Nat := 6

/-- Coded literals, in one stream in format 0 and in four in the others. -/
def coded? (limit format : Nat) (before : Option PrefixCode) (own : Bool) (input : Bytes) :
    Option (Literals × Bytes) := do
  let (header, size, stored) := codedSize format input
  if (input.take 5).length < 5 || limit < size then none
  else if format ≠ 0 && size < minFourStreams then none
  else
    let (content, rest) ← split? stored (input.drop header)
    let (code, streams) ←
      if own then PrefixCode.read? content else before.map (fun code => (code, content))
    let bytes ←
      if format = 0 then code.stream? size streams #[] else code.fourStreams? size streams
    return ({ bytes := bytes.toList, code := some code, inPlace := false }, rest)

/-! ## Any literals -/

/-- The literals at the head of a block, `limit` of them at most, and what follows them. `before` is
the code of an earlier block. -/
def read? (limit : Nat) (before : Option PrefixCode) (input : Bytes) :
    Option (Literals × Bytes) :=
  match kind input with
  | (.stored, format) => stored? limit format before input
  | (.repeated, format) => repeated? limit format before input
  | (.coded, format) => coded? limit format before true input
  | (.codedAsBefore, format) => coded? limit format before false input

end Literals

end Zstd

end Stepcast
