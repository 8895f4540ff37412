import Stepcast.Bytes

/-!
# Hexadecimal digits

Bytes that have no other name are shown as two hexadecimal digits each. Reading takes digits of
either case.
-/

namespace Stepcast

/-- The value of a hexadecimal digit. -/
def hexDigit? (c : Char) : Option Nat :=
  if c.isDigit then some (c.toNat - '0'.toNat)
  else if 'a' ≤ c && c ≤ 'f' then some (c.toNat - 'a'.toNat + 10)
  else if 'A' ≤ c && c ≤ 'F' then some (c.toNat - 'A'.toNat + 10)
  else none

/-- The two lower-case hexadecimal digits of a byte. -/
def hexByte (b : UInt8) : String :=
  String.ofList [Nat.digitChar (b.toNat / 16), Nat.digitChar (b.toNat % 16)]

/-- The hexadecimal digits of bytes. -/
def hexText (bytes : Bytes) : String := String.join (bytes.map hexByte)

/-- The bytes that hexadecimal digits stand for. -/
def readHex? : List Char → Option Bytes
  | [] => some []
  | a :: b :: rest => do
    let high ← hexDigit? a
    let low ← hexDigit? b
    return UInt8.ofNat (high * 16 + low) :: (← readHex? rest)
  | [_] => none

end Stepcast
