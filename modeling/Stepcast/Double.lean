/-!
# Doubles, exactly

A double is kept as its 64 bits. `Double.value` gives the number that the bits denote as an integer
times a power of two, and `Double.ofRatio` rounds a quotient of natural numbers to the nearest
double, a tie to the even neighbour. Arithmetic is exact arithmetic followed by one rounding.
-/

namespace Stepcast

namespace Double

/-- What the bits of a double denote: `mantissa * 2 ^ exponent` where they are finite. -/
inductive Value where
  | nan
  | infinite (negative : Bool)
  | finite (negative : Bool) (mantissa : Nat) (exponent : Int)
deriving Repr, DecidableEq

/-- The number that the bits denote. -/
def value (bits : UInt64) : Value :=
  let n := bits.toNat
  let negative : Bool := 1 <<< 63 ≤ n
  let biased : Nat := (n >>> 52) % 2048
  let fraction : Nat := n % 1 <<< 52
  if biased = 2047 then (if fraction = 0 then .infinite negative else .nan)
  else if biased = 0 then .finite negative fraction (-1074)
  else .finite negative (1 <<< 52 + fraction) ((biased : Int) - 1075)

/-- The bits with the sign bit set as told. -/
def withSign (negative : Bool) (bits : UInt64) : UInt64 :=
  if negative then bits ||| 0x8000000000000000 else bits

def infinity : UInt64 := 0x7FF0000000000000

def nan : UInt64 := 0x7FF8000000000000

/-! ## Rounding -/

/-- The quotient rounded to the nearest whole number, a tie to the even one. -/
def divEven (num den : Nat) : Nat :=
  let q := num / den
  let r := num % den
  if den < 2 * r || (2 * r == den && q % 2 == 1) then q + 1 else q

/-- The greatest `e` with `2 ^ e ≤ num / den`, for positive numbers. -/
def ratioLog (num den : Nat) : Int :=
  let guess : Int := (num.log2 : Int) - den.log2
  let below := if 0 ≤ guess then num < den <<< guess.toNat else num <<< (-guess).toNat < den
  if below then guess - 1 else guess

/-- The double nearest to `num / den`, a tie to the one with even last bit; past the greatest
double, infinity. -/
def ofRatio (negative : Bool) (num den : Nat) : UInt64 :=
  if num = 0 then withSign negative 0
  else
    let exponent := max (ratioLog num den - 52) (-1074)
    let mantissa :=
      if 0 ≤ exponent then divEven num (den <<< exponent.toNat)
      else divEven (num <<< (-exponent).toNat) den
    let magnitude := (exponent + 1074).toNat <<< 52 + mantissa
    withSign negative (UInt64.ofNat (min magnitude infinity.toNat))

/-- The double nearest to a natural number. -/
def ofNat (n : Nat) : UInt64 := ofRatio false n 1

/-- The double nearest to an integer. -/
def ofInt (n : Int) : UInt64 := ofRatio (n < 0) n.natAbs 1

/-- The numerator and denominator of `mantissa * 2 ^ exponent`. -/
def ratio (mantissa : Nat) (exponent : Int) : Nat × Nat :=
  if 0 ≤ exponent then (mantissa <<< exponent.toNat, 1) else (mantissa, 1 <<< (-exponent).toNat)

/-! ## Arithmetic

For doubles that are not negative. With an operand that is not finite the result is infinite. -/

/-- The double nearest to what `f` makes of the numerators and denominators of two doubles. -/
def combine (f : Nat × Nat → Nat × Nat → Nat × Nat) (x y : UInt64) : UInt64 :=
  match value x, value y with
  | .finite _ m e, .finite _ m' e' =>
    let (num, den) := f (ratio m e) (ratio m' e')
    ofRatio false num den
  | _, _ => infinity

/-- The rounded sum. -/
def add : UInt64 → UInt64 → UInt64 :=
  combine (fun (num, den) (num', den') => (num * den' + num' * den, den * den'))

/-- The rounded product. -/
def mul : UInt64 → UInt64 → UInt64 :=
  combine (fun (num, den) (num', den') => (num * num', den * den'))

/-- The rounded quotient, by a divisor that is not zero. -/
def div : UInt64 → UInt64 → UInt64 :=
  combine (fun (num, den) (num', den') => (num * den', den * num'))

/-! ## Decimal numbers -/

/-- Powers of ten past which a double is infinite or zero whatever its digits are. -/
def decimalLimit : Int := 400

/-- The double nearest to `digits * 10 ^ exponent`. -/
def ofDecimal (negative : Bool) (digits : Nat) (exponent : Int) : UInt64 :=
  let size : Int := digits.log2 / 3 + 1
  if digits = 0 then withSign negative 0
  else if decimalLimit < exponent then withSign negative infinity
  else if exponent + size < -decimalLimit then withSign negative 0
  else if 0 ≤ exponent then ofRatio negative (digits * Nat.pow 10 exponent.toNat) 1
  else ofRatio negative digits (Nat.pow 10 (-exponent).toNat)

end Double

end Stepcast
