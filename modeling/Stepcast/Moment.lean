/-!
# Moments

What the clocks show when something happens.
-/

namespace Stepcast

/-- A moment by two clocks. -/
structure Moment where
  /-- Nanoseconds on a clock that never goes back. -/
  instant : Nat
  /-- Milliseconds by the time of day. -/
  millis : Int64
deriving Repr, DecidableEq

end Stepcast
