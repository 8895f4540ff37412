/-!
# Blank characters

The characters with the Unicode property `White_Space`, and strings without them at either end.
-/

namespace Stepcast

/-- A character with the Unicode property `White_Space`. -/
def isBlank (c : Char) : Bool :=
  let n := c.toNat
  (0x09 ≤ n && n ≤ 0x0D) || n == 0x20 || n == 0x85 || n == 0xA0 || n == 0x1680 ||
    (0x2000 ≤ n && n ≤ 0x200A) || n == 0x2028 || n == 0x2029 || n == 0x202F || n == 0x205F ||
    n == 0x3000

/-- The string without blank characters at its ends. -/
def trim (s : String) : String :=
  String.ofList ((s.toList.dropWhile isBlank).reverse.dropWhile isBlank).reverse

/-- The string with the letters A to Z in lower case and all else as it was. -/
def lowerAscii (s : String) : String := String.ofList (s.toList.map Char.toLower)

end Stepcast
