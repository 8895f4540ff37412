import Stepcast.Double
import Stepcast.Json

/-!
# Statistics of the steps

A monitor counts the steps that went by, their bytes and the steps that were missed, and computes
rates from the times at which they ended. Times are instants in nanoseconds, read off a clock by
the caller; the ages of steps are in milliseconds. Rates, ages and shares are doubles, and every
conversion and every operation on them rounds.
-/

namespace Stepcast

/-- The number of steps over which the latest rate is taken. -/
def windowSteps : Nat := 16

/-- The counts of a stream since `started`. -/
structure Monitor where
  started : Nat
  steps : Nat := 0
  totalBytes : Nat := 0
  droppedSteps : Nat := 0
  /-- When the latest steps ended and how many bytes they had, the oldest first. -/
  window : List (Nat × Nat) := []
  /-- The sum of the ages, added one after the other. -/
  latencySum : UInt64 := 0
  latencyMax : Option UInt64 := none
  latencySamples : Nat := 0
deriving Repr, DecidableEq

/-- The statistics at one moment. -/
structure Report where
  steps : Nat
  totalBytes : Nat
  elapsedSeconds : UInt64
  stepsPerSecond : UInt64
  /-- Megabytes per second since the start. -/
  totalRate : UInt64
  /-- Megabytes per second over the latest steps. -/
  windowRate : UInt64
  /-- Milliseconds between the end of a step and its arrival. -/
  averageLatency : Option UInt64
  maxLatency : Option UInt64
  droppedSteps : Nat
  /-- The share of the steps that were missed. -/
  dropRate : UInt64
deriving Repr, DecidableEq

namespace Monitor

/-! ## Counting -/

/-- Counts a step that ended at `now`. -/
def endStep (m : Monitor) (now bytes : Nat) : Monitor :=
  let window := m.window ++ [(now, bytes)]
  { m with
    steps := m.steps + 1
    totalBytes := m.totalBytes + bytes
    window := window.drop (window.length - windowSteps) }

/-- Counts steps that were missed. -/
def recordDropped (m : Monitor) (steps : Nat) : Monitor :=
  { m with droppedSteps := m.droppedSteps + steps }

/-- Counts the age at `now` of a step marked with `timestamp`; it is not negative. -/
def recordTimestamp (m : Monitor) (now timestamp : Int) : Monitor :=
  let latency := Double.ofNat (now - timestamp).toNat
  { m with
    latencySum := Double.add m.latencySum latency
    latencyMax := some (m.latencyMax.elim latency (max latency))
    latencySamples := m.latencySamples + 1 }

/-- The age at `now` of a step marked with `timestamp` is a number of 64 bits. -/
def AgeFits (now timestamp : Int) : Prop :=
  Int64.minValue.toInt ≤ now - timestamp ∧ now - timestamp ≤ Int64.maxValue.toInt

instance (now timestamp : Int) : Decidable (AgeFits now timestamp) :=
  inferInstanceAs (Decidable (_ ∧ _))

/-- `recordDropped` where sums are checked: nothing when the sum has more than 64 bits. -/
def recordDropped? (m : Monitor) (steps : Nat) : Option Monitor :=
  if m.droppedSteps + steps < UInt64.size then some (m.recordDropped steps) else none

/-- `recordTimestamp` where differences are checked. -/
def recordTimestamp? (m : Monitor) (now timestamp : Int) : Option Monitor :=
  if AgeFits now timestamp then some (m.recordTimestamp now timestamp) else none

/-! ## Reporting -/

/-- A span of nanoseconds in seconds: the whole seconds, and the rest as a fraction of one. -/
def seconds (nanos : Nat) : UInt64 :=
  Double.add (Double.ofNat (nanos / 1000000000))
    (Double.div (Double.ofNat (nanos % 1000000000)) (Double.ofNat 1000000000))

/-- `amount` per second; zero in no time. -/
def perSecond (amount seconds : UInt64) : UInt64 :=
  if 0 < seconds then Double.div amount seconds else 0

/-- Megabytes per second: bytes per second, and then a million of them. -/
def megabytesPerSecond (bytes : Nat) (seconds : UInt64) : UInt64 :=
  Double.div (perSecond (Double.ofNat bytes) seconds) (Double.ofNat 1000000)

/-- The rate over the latest steps, which takes two of them; the first only starts the clock. -/
def windowRate (m : Monitor) : UInt64 :=
  match m.window with
  | first :: second :: rest =>
    let last := (second :: rest).getLast?.getD second
    let span := max (last.1 - first.1) 1000
    megabytesPerSecond ((second :: rest).foldr (fun sample n => sample.2 + n) 0) (seconds span)
  | _ => 0

/-- The quotient of two numbers; zero of nothing. -/
def share (part whole : Nat) : UInt64 :=
  if 0 < whole then Double.div (Double.ofNat part) (Double.ofNat whole) else 0

/-- The statistics at the instant `now`. The number of steps that were there to see is a 64-bit
sum, which wraps around. -/
def report (m : Monitor) (now : Nat) : Report :=
  let elapsed := seconds (now - m.started)
  { steps := m.steps
    totalBytes := m.totalBytes
    elapsedSeconds := elapsed
    stepsPerSecond := perSecond (Double.ofNat m.steps) elapsed
    totalRate := megabytesPerSecond m.totalBytes elapsed
    windowRate := m.windowRate
    averageLatency :=
      if 0 < m.latencySamples then some (Double.div m.latencySum (Double.ofNat m.latencySamples))
      else none
    maxLatency := m.latencyMax
    droppedSteps := m.droppedSteps
    dropRate := share m.droppedSteps ((m.steps + m.droppedSteps) % UInt64.size) }

/-- `report` where sums are checked: nothing when the steps that went by and those that were missed
are together more than 64 bits can count. -/
def report? (m : Monitor) (now : Nat) : Option Report :=
  if m.steps + m.droppedSteps < UInt64.size then some (m.report now) else none

end Monitor

/-- The report as a document. -/
def Report.toJson (r : Report) : Json :=
  Json.ofMembers
    [("steps", Json.ofNat r.steps),
      ("total_bytes", Json.ofNat r.totalBytes),
      ("elapsed_secs", Json.ofDouble r.elapsedSeconds),
      ("steps_per_second", Json.ofDouble r.stepsPerSecond),
      ("total_rate_mbps", Json.ofDouble r.totalRate),
      ("window_rate_mbps", Json.ofDouble r.windowRate),
      ("average_latency_ms", Json.ofOption Json.ofDouble r.averageLatency),
      ("max_latency_ms", Json.ofOption Json.ofDouble r.maxLatency),
      ("dropped_steps", Json.ofNat r.droppedSteps),
      ("drop_rate", Json.ofDouble r.dropRate)]

end Stepcast
