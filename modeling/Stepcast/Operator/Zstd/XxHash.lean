import Stepcast.Bytes

/-!
# The checksum of a frame

The 64-bit hash of a byte string: four lanes take in stripes of 32 bytes, are merged, and the bytes
that fill no stripe are mixed in at the end. A frame stores the low half of it.
-/

namespace Stepcast

namespace XxHash

def prime1 : UInt64 := 0x9E3779B185EBCA87

def prime2 : UInt64 := 0xC2B2AE3D27D4EB4F

def prime3 : UInt64 := 0x165667B19E3779F9

def prime4 : UInt64 := 0x85EBCA77C2B2AE63

def prime5 : UInt64 := 0x27D4EB2F165667C5

def rotate (x : UInt64) (n : UInt64) : UInt64 := (x <<< n) ||| (x >>> (64 - n))

def round (acc lane : UInt64) : UInt64 := rotate (acc + lane * prime2) 31 * prime1

def mergeRound (acc lane : UInt64) : UInt64 := (acc ^^^ round 0 lane) * prime1 + prime4

/-- The little-endian word in the `width` bytes from `offset` on. -/
def word (bytes : Bytes) (offset width : Nat) : UInt64 :=
  UInt64.ofNat (leValue (slice bytes offset width))

/-- The four lanes after the full stripes of 32 bytes, and the bytes that are left. -/
def stripes : (count : Nat) → UInt64 × UInt64 × UInt64 × UInt64 → Bytes →
    (UInt64 × UInt64 × UInt64 × UInt64) × Bytes
  | 0, lanes, rest => (lanes, rest)
  | count + 1, (a, b, c, d), bytes =>
    stripes count
      (round a (word bytes 0 8), round b (word bytes 8 8), round c (word bytes 16 8),
        round d (word bytes 24 8))
      (bytes.drop 32)

/-- The hash after the bytes that fill no stripe, `fuel` of them at most. -/
def tail : (fuel : Nat) → UInt64 → Bytes → UInt64
  | 0, h, _ => h
  | fuel + 1, h, bytes =>
    if 8 ≤ bytes.length then
      tail fuel (rotate (h ^^^ round 0 (word bytes 0 8)) 27 * prime1 + prime4) (bytes.drop 8)
    else if 4 ≤ bytes.length then
      tail fuel (rotate (h ^^^ (word bytes 0 4 * prime1)) 23 * prime2 + prime3) (bytes.drop 4)
    else
      match bytes with
      | [] => h
      | b :: rest => tail fuel (rotate (h ^^^ (b.toUInt64 * prime5)) 11 * prime1) rest

/-- The last mixing, after which every bit of the hash depends on every bit before it. -/
def avalanche (h : UInt64) : UInt64 :=
  let h := (h ^^^ (h >>> 33)) * prime2
  let h := (h ^^^ (h >>> 29)) * prime3
  h ^^^ (h >>> 32)

/-- The 64-bit hash of bytes, with seed zero. -/
def hash (bytes : Bytes) : UInt64 :=
  let ((a, b, c, d), rest) :=
    stripes (bytes.length / 32) (prime1 + prime2, prime2, 0, 0 - prime1) bytes
  let start :=
    if bytes.length < 32 then prime5
    else
      let h := rotate a 1 + rotate b 7 + rotate c 12 + rotate d 18
      mergeRound (mergeRound (mergeRound (mergeRound h a) b) c) d
  avalanche (tail (rest.length + 1) (start + UInt64.ofNat bytes.length) rest)

end XxHash

end Stepcast
