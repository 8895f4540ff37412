import Stepcast.Bytes

/-!
# Output that refers to itself

Compressed data is read into a growing array, and parts of what is there already are copied to its
end.
-/

namespace Stepcast

/-- `count` further bytes of output, each equal to the one `offset` places before it. -/
def copyBack (offset : Nat) : (count : Nat) → Array UInt8 → Array UInt8
  | 0, output => output
  | count + 1, output =>
    copyBack offset count (output.push (output.getD (output.size - offset) 0))

end Stepcast
