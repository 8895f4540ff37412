import Stepcast.Operator
import Stepcast.Operator.Lz4
import Stepcast.Operator.Zstd
import Stepcast.Text.Numeral

/-!
# The standard operators

The operators that every registry starts with: `lz4`, and `zstd` with an optional level.
-/

namespace Stepcast

namespace Operators

/-- The level that the parameters ask for, if any; it must be a number of 32 bits. -/
def checkLevel (params : Params) : Except String Unit :=
  match params.at? "level" with
  | none => .ok ()
  | some level =>
    match readSigned Int32.minValue.toInt Int32.maxValue.toInt level with
    | some _ => .ok ()
    | none => .error s!"invalid zstd level `{level}`"

def zstd : Operator where
  operate payload _ _ params := do
    checkLevel params
    return Zstd.compress payload
  invert stored expected _ :=
    match Zstd.decompress? expected stored with
    | some payload => .ok payload
    | none => .error "zstd decompression failed"

def lz4 : Operator where
  operate payload _ _ _ := .ok (Lz4.compress payload)
  invert stored _ _ :=
    match Lz4.decompress? stored with
    | some payload => .ok payload
    | none => .error "lz4 decompression failed"

/-- The registry of the standard operators. -/
def standard : Operators := [("lz4", lz4), ("zstd", zstd)]

end Operators

end Stepcast
