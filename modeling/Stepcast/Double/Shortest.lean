import Stepcast.Double

/-!
# The shortest decimal of a double

Of the decimals that read back as a given double, `shortest` takes one with the fewest digits, and
of those the nearest to the double. Reading rounds to nearest, so the decimals that read back lie
between the midpoints to the two neighbours; the midpoints themselves belong to it when the
mantissa is even.
-/

namespace Stepcast

/-- The number `digits * 10 ^ exponent`. -/
structure Decimal where
  digits : Nat
  exponent : Int
deriving Repr, DecidableEq

namespace Decimal

/-- The text of the digits. -/
def text (d : Decimal) : List Char := Nat.toDigits 10 d.digits

/-- Trailing zeros of the digits moved into the exponent; `fuel` bounds their number. -/
def strip : (fuel : Nat) → Decimal → Decimal
  | 0, d => d
  | fuel + 1, d =>
    if d.digits % 10 = 0 && d.digits ≠ 0 then strip fuel ⟨d.digits / 10, d.exponent + 1⟩ else d

end Decimal

namespace Double

/-- A positive number between its two rounding limits, all over one denominator. -/
structure Interval where
  low : Nat
  value : Nat
  high : Nat
  denominator : Nat
  closed : Bool

/-- The numbers that round to `mantissa * 2 ^ exponent`. The gap below a power of two is half the
gap above it, except among the smallest doubles. -/
def roundingInterval (mantissa : Nat) (exponent : Int) : Interval :=
  let (num, den) := ratio 1 exponent
  let narrow := mantissa = 1 <<< 52 && exponent ≠ -1074
  { low := if narrow then (4 * mantissa - 1) * num else (4 * mantissa - 2) * num
    value := 4 * mantissa * num
    high := (4 * mantissa + 2) * num
    denominator := 4 * den
    closed := mantissa % 2 = 0 }

/-- The interval in units of `10 ^ exponent`. -/
def Interval.scale (i : Interval) (exponent : Int) : Interval :=
  if 0 ≤ exponent then { i with denominator := i.denominator * Nat.pow 10 exponent.toNat }
  else
    let factor := Nat.pow 10 (-exponent).toNat
    { i with low := i.low * factor, value := i.value * factor, high := i.high * factor }

/-- The whole number `n` lies in the interval. -/
def Interval.holds (i : Interval) (n : Nat) : Bool :=
  let m := n * i.denominator
  if i.closed then i.low ≤ m && m ≤ i.high else i.low < m && m < i.high

/-- The whole number in the interval that is nearest to its value; `tieUp` decides between two that
are equally near. -/
def Interval.nearest? (i : Interval) (tieUp : Nat → Bool) : Option Nat :=
  let below := i.value / i.denominator
  let rest := i.value % i.denominator
  match i.holds below, i.holds (below + 1) with
  | true, true =>
    if 2 * rest < i.denominator then some below
    else if i.denominator < 2 * rest then some (below + 1)
    else some (if tieUp below then below + 1 else below)
  | true, false => some below
  | false, true => some (below + 1)
  | false, false => none

/-- The number of decimal digits before the point, not positive for numbers below one tenth. -/
def wholeDigits (num den : Nat) : Int :=
  if den ≤ num then (Nat.toDigits 10 (num / den)).length
  else 1 - ((Nat.toDigits 10 (den / num)).length : Int) +
    (if den ≤ num * Nat.pow 10 ((Nat.toDigits 10 (den / num)).length - 1) then 1 else 0)

/-- The first grid on which the interval has a point, from `count` digits on. -/
def firstGrid (i : Interval) (whole : Int) (tieUp : Nat → Bool) :
    (fuel : Nat) → (count : Nat) → Decimal
  | 0, _ => ⟨0, 0⟩
  | fuel + 1, count =>
    let exponent := whole - count
    match (i.scale exponent).nearest? tieUp with
    | some digits => ⟨digits, exponent⟩
    | none => firstGrid i whole tieUp fuel (count + 1)

/-- The shortest decimal that reads back as `mantissa * 2 ^ exponent`, without trailing zeros.
Seventeen digits always suffice. -/
def shortest (tieUp : Nat → Bool) (mantissa : Nat) (exponent : Int) : Decimal :=
  if mantissa = 0 then ⟨0, 0⟩
  else
    let i := roundingInterval mantissa exponent
    Decimal.strip 400 (firstGrid i (wholeDigits i.value i.denominator) tieUp 17 1)

end Double

end Stepcast
