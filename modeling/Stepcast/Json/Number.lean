import Stepcast.Json

/-!
# The value of a JSON number

A numeral without point and exponent is a whole number as long as it fits into 64 bits, signed or
unsigned; any other is a double. A double is computed from the digits that fit into 64 bits by one
multiplication or division by a power of ten, so its last bit can differ from the nearest double.
-/

namespace Stepcast

namespace Json

/-- What a numeral denotes. -/
inductive Number where
  | natural (n : Nat)
  | negative (n : Int)
  | real (bits : UInt64)
deriving Repr, DecidableEq

/-- The parts of a numeral. -/
structure Numeral where
  negative : Bool
  whole : List Char
  fraction : List Char
  exponent : Option (Bool × List Char)

namespace Numeral

/-- The digits and marks of a literal. -/
def ofLiteral (literal : String) : Numeral :=
  let (negative, body) := splitSign literal.toList
  let (whole, rest) := Double.splitDigits body
  let (fraction, rest) := match rest with
    | '.' :: rest => Double.splitDigits rest
    | rest => ([], rest)
  let exponent := match rest with
    | _ :: rest => some (splitSign rest)
    | [] => none
  ⟨negative, whole, fraction, exponent⟩

/-- The greatest number of 64 bits. -/
def limit : Nat := UInt64.size - 1

/-- The greatest exponent that is taken into account. -/
def exponentLimit : Nat := 0x7FFFFFFF

/-- The number of the leading digits that fit into 64 bits, continued from `n`, and how many digits
do not. -/
def fitDigits (n : Nat) : List Char → Nat × Nat
  | [] => (n, 0)
  | c :: rest =>
    let next := 10 * n + (c.toNat - '0'.toNat)
    if next ≤ limit then fitDigits next rest else (n, rest.length + 1)

/-- The quotient of a double by a power of ten. -/
def divPower (bits : UInt64) (power : Nat) : UInt64 :=
  Double.div bits (Double.ofDecimal false 1 power)

/-- The product of a double and a power of ten. -/
def mulPower (bits : UInt64) (power : Nat) : UInt64 :=
  Double.mul bits (Double.ofDecimal false 1 power)

/-- `bits * 10 ^ exponent`, by powers of at most 308; nothing when it is infinite. After `fuel`
divisions by the greatest power nothing is left. -/
def scale : (fuel : Nat) → (bits : UInt64) → (exponent : Int) → Option UInt64
  | 0, _, _ => some 0
  | fuel + 1, bits, exponent =>
    if 308 < exponent then (if bits = 0 then some 0 else none)
    else if 0 ≤ exponent then
      let product := mulPower bits exponent.toNat
      if product = Double.infinity then none else some product
    else if -308 ≤ exponent then some (divPower bits (-exponent).toNat)
    else if bits = 0 then some 0
    else scale fuel (divPower bits 308) (exponent + 308)

/-- The double of a significand and an exponent. -/
def real? (negative : Bool) (significand : Nat) (exponent : Int) : Option UInt64 :=
  (scale 4 (Double.ofNat significand) exponent).map (Double.withSign negative)

/-- What the numeral denotes; nothing when it is too large for a double. -/
def value? (n : Numeral) : Option Number :=
  let (significand, dropped) := fitDigits 0 n.whole
  if n.fraction.isEmpty && n.exponent.isNone then
    if 0 < dropped then (real? n.negative significand dropped).map .real
    else if !n.negative then some (.natural significand)
    else if 0 < significand && significand ≤ 1 <<< 63 then some (.negative (-(significand : Int)))
    else some (.real (Double.withSign true (Double.ofNat significand)))
  else
    let (significand, lost) := fitDigits significand n.fraction
    let point : Int := dropped - ((n.fraction.length - lost : Nat) : Int)
    match n.exponent with
    | none => (real? n.negative significand point).map .real
    | some (down, digits) =>
      let power := digitsValue digits
      if exponentLimit < power then
        if significand ≠ 0 && !down then none else some (.real (Double.withSign n.negative 0))
      else
        (real? n.negative significand (if down then point - power else point + power)).map .real

end Numeral

/-- What a document denotes as a number. -/
def toNumber? : Json → Option Number
  | number literal => (Numeral.ofLiteral literal).value?
  | _ => none

/-- A whole number from 0 to `limit`. -/
def toNat? (limit : Nat) (j : Json) : Option Nat :=
  match j.toNumber? with
  | some (.natural n) => if n ≤ limit then some n else none
  | _ => none

/-- A whole number from `low` to `high`. -/
def toInt? (low high : Int) (j : Json) : Option Int :=
  let inRange (n : Int) := if low ≤ n && n ≤ high then some n else none
  match j.toNumber? with
  | some (.natural n) => inRange n
  | some (.negative n) => inRange n
  | _ => none

/-- A number as a double; whole numbers are rounded to the nearest. -/
def toDouble? (j : Json) : Option UInt64 :=
  match j.toNumber? with
  | some (.natural n) => some (Double.ofNat n)
  | some (.negative n) => some (Double.ofInt n)
  | some (.real bits) => some bits
  | none => none

end Json

end Stepcast
