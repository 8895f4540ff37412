import Stepcast.Double

/-!
# Durations

A duration is a whole number of nanoseconds. Settings give durations in seconds as doubles, which
are rounded to the nearest nanosecond, a tie to the even one.
-/

namespace Stepcast

/-- A span of time in nanoseconds. -/
structure Duration where
  nanos : Nat
deriving Repr, DecidableEq, Inhabited

namespace Duration

def zero : Duration := ⟨0⟩

def ofMillis (n : Nat) : Duration := ⟨n * 1000000⟩

/-- The whole seconds of a duration. -/
def seconds (d : Duration) : Nat := d.nanos / 1000000000

/-- The nanoseconds past the whole seconds. -/
def subsecond (d : Duration) : Nat := d.nanos % 1000000000

/-- The duration of a number of seconds that is not negative and below `2 ^ 64`. -/
def ofSeconds? (bits : UInt64) : Option Duration :=
  match Double.value bits with
  | .finite negative mantissa exponent =>
    if negative && mantissa ≠ 0 then none
    else
      let (num, den) := Double.ratio mantissa exponent
      if UInt64.size * den ≤ num then none
      else some ⟨Double.divEven (num * 1000000000) den⟩
  | _ => none

/-! ## Text -/

/-- `whole` units and `part` of the unit split into `10 ^ places`, without trailing zeros. -/
def fractionText (whole part places : Nat) (unit : String) : String :=
  let digits := Nat.toDigits 10 part
  let padded := List.replicate (places - digits.length) '0' ++ digits
  let kept := (padded.reverse.dropWhile (· == '0')).reverse
  let fraction := if kept.isEmpty then "" else "." ++ String.ofList kept
  s!"{whole}{fraction}{unit}"

/-- The duration in the largest of s, ms, µs and ns in which it is at least one. -/
def text (d : Duration) : String :=
  if 0 < d.seconds then fractionText d.seconds d.subsecond 9 "s"
  else if 1000000 ≤ d.nanos then fractionText (d.nanos / 1000000) (d.nanos % 1000000) 6 "ms"
  else if 1000 ≤ d.nanos then fractionText (d.nanos / 1000) (d.nanos % 1000) 3 "µs"
  else fractionText d.nanos 0 0 "ns"

end Duration

end Stepcast
