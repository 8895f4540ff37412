import Stepcast.Text.Hex
import Stepcast.Text.Utf8
import Stepcast.Tree

/-!
# Trees as bytes

A tree is written as a tag byte followed by its body, all integers least significant byte first:

    0x01 null                 0x06 text   length:4 utf8
    0x02 bool   value:1       0x07 bytes  length:4 raw
    0x03 uint   value:8       0x08 list   count:4 (tree)*
    0x04 int    value:8       0x09 map    count:4 (length:2 key tree)*
    0x05 float  bits:8

Every tag is below 0x10, the least offset with which a data message can begin. Reading allows 32
levels below the root, takes any nonzero byte as true, and lets the last entry of a repeated key
count.
-/

namespace Stepcast

namespace Tree

/-! ## Writing -/

mutual

/-- The bytes of a tree. -/
def encode : Tree → Bytes
  | null => [0x01]
  | bool b => [0x02, if b then 1 else 0]
  | uint n => 0x03 :: leBytes 8 n.toNat
  | int n => 0x04 :: leBytes 8 n.toUInt64.toNat
  | float bits => 0x05 :: leBytes 8 bits.toNat
  | text s => 0x06 :: leBytes 4 (utf8 s).length ++ utf8 s
  | bytes b => 0x07 :: leBytes 4 b.length ++ b
  | list items => 0x08 :: leBytes 4 items.length ++ encodeItems items
  | map entries => 0x09 :: leBytes 4 entries.length ++ encodeEntries entries

/-- The bytes of trees, one after the other. -/
def encodeItems : List Tree → Bytes
  | [] => []
  | t :: rest => encode t ++ encodeItems rest

/-- The bytes of map entries: each key with its length, then its value. -/
def encodeEntries : List (String × Tree) → Bytes
  | [] => []
  | (key, t) :: rest =>
    leBytes 2 (utf8 key).length ++ utf8 key ++ encode t ++ encodeEntries rest

end

mutual

/-- The number of bytes that writing a tree takes. -/
def encodedLength : Tree → Nat
  | null => 1
  | bool _ => 2
  | uint _ | int _ | float _ => 9
  | text s => 5 + (utf8 s).length
  | bytes b => 5 + b.length
  | list items => 5 + itemsLength items
  | map entries => 5 + entriesLength entries

def itemsLength : List Tree → Nat
  | [] => 0
  | t :: rest => encodedLength t + itemsLength rest

def entriesLength : List (String × Tree) → Nat
  | [] => 0
  | (key, t) :: rest => 2 + (utf8 key).length + encodedLength t + entriesLength rest

end

/-! ## What can be wrong with the bytes -/

/-- The parts of an encoded tree. -/
inductive Part where
  | tag | bool | uint | int | float | textLength | text | bytesLength | bytes
  | listLength | listItems | mapLength | keyLength
deriving Repr, DecidableEq

def Part.name : Part → String
  | .tag => "tag"
  | .bool => "bool"
  | .uint => "uint"
  | .int => "int"
  | .float => "float"
  | .textLength => "string length"
  | .text => "string"
  | .bytesLength => "bytes length"
  | .bytes => "bytes"
  | .listLength => "list length"
  | .listItems => "list items"
  | .mapLength => "map length"
  | .keyLength => "key length"

/-- Why a byte string is not a tree. -/
inductive Fault where
  | tooDeep
  | truncated (part : Part) (needed available : Nat)
  | unknownTag (tag : UInt8)
  | notText (fault : Utf8.Fault)
  | trailing (count : Nat)
deriving Repr, DecidableEq

def Fault.message : Fault → String
  | .tooDeep => "index nesting too deep"
  | .truncated part needed available =>
    s!"index truncated reading {part.name}: need {needed} bytes, have {available}"
  | .unknownTag tag => s!"unknown index tag 0x{hexByte tag}"
  | .notText fault => s!"invalid UTF-8 in index: {fault.message}"
  | .trailing count => s!"index has {count} trailing bytes"

/-! ## Reading -/

/-- The next `count` bytes and the bytes after them. -/
def take (part : Part) (count : Nat) (input : Bytes) : Except Fault (Bytes × Bytes) :=
  let head := input.take count
  if head.length < count then .error (.truncated part count input.length)
  else .ok (head, input.drop count)

/-- The number in the next `width` bytes and the bytes after it. -/
def takeNumber (part : Part) (width : Nat) (input : Bytes) : Except Fault (Nat × Bytes) := do
  let (raw, rest) ← take part width input
  return (leValue raw, rest)

/-- The string in the next `count` bytes and the bytes after it. -/
def takeText (count : Nat) (input : Bytes) : Except Fault (String × Bytes) := do
  let (raw, rest) ← take .text count input
  let s ← (Utf8.read raw).mapError Fault.notText
  return (s, rest)

/-- `count` trees, each read by `one`. -/
def decodeItems (one : Bytes → Except Fault (Tree × Bytes)) :
    (count : Nat) → Bytes → Except Fault (List Tree × Bytes)
  | 0, input => .ok ([], input)
  | count + 1, input => do
    let (t, input) ← one input
    let (items, input) ← decodeItems one count input
    return (t :: items, input)

/-- `count` map entries added to `entries`, each value read by `one`. -/
def decodeEntries (one : Bytes → Except Fault (Tree × Bytes)) :
    (count : Nat) → Table String Tree → Bytes → Except Fault (Table String Tree × Bytes)
  | 0, entries, input => .ok (entries, input)
  | count + 1, entries, input => do
    let (length, input) ← takeNumber .keyLength 2 input
    let (key, input) ← takeText length input
    let (t, input) ← one input
    decodeEntries one count (entries.put key t) input

/-- The body of a tree with the given tag; `one` reads the trees inside it. -/
def decodeBody (one : Bytes → Except Fault (Tree × Bytes)) (tag : UInt8) (input : Bytes) :
    Except Fault (Tree × Bytes) :=
  match tag with
  | 0x01 => .ok (null, input)
  | 0x02 => do
    let (b, input) ← takeNumber .bool 1 input
    return (bool (b != 0), input)
  | 0x03 => do
    let (n, input) ← takeNumber .uint 8 input
    return (uint (UInt64.ofNat n), input)
  | 0x04 => do
    let (n, input) ← takeNumber .int 8 input
    return (int (UInt64.ofNat n).toInt64, input)
  | 0x05 => do
    let (n, input) ← takeNumber .float 8 input
    return (float (UInt64.ofNat n), input)
  | 0x06 => do
    let (length, input) ← takeNumber .textLength 4 input
    let (s, input) ← takeText length input
    return (text s, input)
  | 0x07 => do
    let (length, input) ← takeNumber .bytesLength 4 input
    let (b, input) ← take .bytes length input
    return (bytes b, input)
  | 0x08 => do
    let (count, input) ← takeNumber .listLength 4 input
    if input.length < count then throw (.truncated .listItems count input.length)
    let (items, input) ← decodeItems one count input
    return (list items, input)
  | 0x09 => do
    let (count, input) ← takeNumber .mapLength 4 input
    let (entries, input) ← decodeEntries one count [] input
    return (map entries, input)
  | tag => .error (.unknownTag tag)

/-- The tree at the head of the input and the bytes after it. `levels` counts the levels that may
still be entered. -/
def decodeNext : (levels : Nat) → Bytes → Except Fault (Tree × Bytes)
  | 0, _ => .error .tooDeep
  | levels + 1, input => do
    let (tag, input) ← take .tag 1 input
    decodeBody (decodeNext levels) (tag.headD 0) input

/-- The number of levels below the root that reading allows. -/
def maxDepth : Nat := 32

/-- The tree that spans all of the input. -/
def decode (input : Bytes) : Except Fault Tree := do
  let (t, rest) ← decodeNext (maxDepth + 1) input
  if rest.isEmpty then return t else throw (.trailing rest.length)

end Tree

end Stepcast
