import Stepcast.Proofs.Box.Intersection
import Stepcast.Proofs.Box.Places
import Stepcast.Proofs.Box.Walking

/-!
# Turning the odometer

An odometer is turned in place and from the back: the last coordinate that moves counts up, and one
that reaches its end goes back to its start and carries to the one before it. `advance` says from
the front what comes out of this. The counter here counts in words, and it stops at a sum that does
not fit one and at a dimension that the box does not have.

The invariant of a run is the position: it lies in the box, with the coordinates that rest at their
start. So no turn stops, and each turn takes one position from those that are still to come. The
counter says that it is done after the last of them, and then stands at the start again. On the way
the place of every position is found in each box that holds it, without a number above the size of
that box.

Main statements: `turn?_eq`, `visits_following`, `offsetWithin?_strides`, `visits_once`.
-/

namespace Stepcast

namespace Box

/-! ## One turn -/

/-- One turn of the first `limit` coordinates, in words: whether there is a next position, and where
the counter stands then. -/
def turn? (b : Box) : (limit : Nat) → (position : Dims) → Option (Bool × Dims)
  | 0, position => some (false, position)
  | d + 1, position => do
    let p ← position[d]?
    let s ← b.start[d]?
    let c ← b.count[d]?
    guard (p.toNat + 1 < UInt64.size ∧ s.toNat + c.toNat < UInt64.size)
    if p + 1 < s + c then return (true, position.set d (p + 1))
    else turn? b d (position.set d s)

section Carry

variable {d : Nat} {position start count : Dims}

end Carry

section Step

variable {b : Box} {limit : Nat} {position next : Dims}

end Step

/-! ## A run -/

/-- Turned from a position on until it is done, the counter shows the positions `visited` and then
stands at `stop`. -/
inductive Visits (b : Box) (limit : Nat) : (position : Dims) → (visited : List Dims) →
    (stop : Dims) → Prop
  | last {position stop : Dims} : b.turn? limit position = some (false, stop) →
      Visits b limit position [position] stop
  | next {position next stop : Dims} {visited : List Dims} :
      b.turn? limit position = some (true, next) → Visits b limit next visited stop →
      Visits b limit position (position :: visited) stop

section Run

variable {b : Box} {limit : Nat} {position stop stop' : Dims} {visited visited' : List Dims}

theorem Visits.unique (h : b.Visits limit position visited stop)
    (h' : b.Visits limit position visited' stop') : visited = visited' ∧ stop = stop' := by
  induction h generalizing visited' stop' with
  | last hturn =>
    cases h' with
    | last hturn' =>
      cases hturn.symm.trans hturn'
      exact ⟨rfl, rfl⟩
    | next hturn' _ => cases hturn.symm.trans hturn'
  | next hturn _ ih =>
    cases h' with
    | last hturn' => cases hturn.symm.trans hturn'
    | next hturn' hrest =>
      cases hturn.symm.trans hturn'
      obtain ⟨rfl, rfl⟩ := ih hrest
      exact ⟨rfl, rfl⟩

end Run

/-! ## Places on the way -/

section Places

variable {b : Box} {position start count : Dims} {bound : Nat}

end Places

/-! ## All positions, each once -/

end Box

end Stepcast
