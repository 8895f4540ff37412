/-!
# Stages

Where a writer or a reader is in its life: between steps, within one, or closed.
-/

namespace Stepcast

/-- The stage of a writer or a reader. -/
inductive Stage where
  | idle
  /-- Within a step. -/
  | active
  | closed
deriving Repr, DecidableEq

end Stepcast
