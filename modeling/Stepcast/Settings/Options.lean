import Stepcast.Settings
import Stepcast.Table

/-!
# Settings from named options

Options are pairs of texts. The name of an option may be spelled in any case, some options have two
names, and names that mean nothing are passed over. Blanks around a value do not count. Options are
taken in the order of their names, so of two names of one setting the later one decides.
-/

namespace Stepcast

/-- The settings that an option can name. -/
inductive Setting where
  | address | port | timeout | aggregation | delivery | rendezvousReaders | doubleBuffer
  | queueDepth | verbosity | monitor | handshakeTimeout | drainTimeout
deriving Repr, DecidableEq

/-- The setting that an option's name stands for. -/
def Setting.ofName? (name : String) : Option Setting :=
  match lowerAscii name with
  | "ipaddress" | "address" => some .address
  | "port" => some .port
  | "timeout" => some .timeout
  | "combiningsteps" | "aggregationfactor" => some .aggregation
  | "transportmode" | "deliverymode" => some .delivery
  | "rendezvousreadercount" => some .rendezvousReaders
  | "doublebuffer" | "threading" => some .doubleBuffer
  | "queuedepth" => some .queueDepth
  | "verbose" | "verbosity" => some .verbosity
  | "monitor" => some .monitor
  | "handshaketimeout" => some .handshakeTimeout
  | "draintimeout" => some .drainTimeout
  | _ => none

namespace Settings

/-! ## Values -/

/-- The value that `read` finds in the text, or a fault that shows text and name. -/
def readValue {α : Type} (read : String → Option α) (name value : String) : Except Fault α :=
  match read (trim value) with
  | some a => .ok a
  | none => .error (.configuration (.badValue value name))

/-- A number of 64 bits. -/
def readCount (name value : String) : Except Fault Nat :=
  readValue (readUnsigned (UInt64.size - 1)) name value

/-- The truth value that a word stands for. -/
def readSwitch (name value : String) : Except Fault Bool :=
  match lowerAscii (trim value) with
  | "true" | "yes" | "on" | "1" => .ok true
  | "false" | "no" | "off" | "0" => .ok false
  | _ => .error (.configuration (.badSwitch value name))

/-- The settings with one of them read from the text of an option. -/
def assign (s : Settings) (setting : Setting) (name value : String) : Except Fault Settings :=
  match setting with
  | .address => return { s with address := some (trim value) }
  | .port => do
    let port ← readValue (readUnsigned 65535) name value
    return { s with port := some (UInt16.ofNat port) }
  | .timeout => return { s with timeout := ← readValue Double.read name value }
  | .aggregation => return { s with aggregation := ← readCount name value }
  | .delivery => return { s with delivery := ← DeliveryMode.parse (trim value) }
  | .rendezvousReaders => return { s with rendezvousReaders := ← readCount name value }
  | .doubleBuffer => return { s with doubleBuffer := ← readSwitch name value }
  | .queueDepth => return { s with queueDepth := ← readCount name value }
  | .verbosity => do
    let verbosity ← readValue (readUnsigned 255) name value
    return { s with verbosity := UInt8.ofNat verbosity }
  | .monitor => return { s with monitor := ← readSwitch name value }
  | .handshakeTimeout =>
    return { s with handshakeTimeout := some (← readValue Double.read name value) }
  | .drainTimeout => return { s with drainTimeout := some (← readValue Double.read name value) }

/-- The settings with one option taken into account. -/
def applyOption (s : Settings) (option : String × String) : Except Fault Settings :=
  match Setting.ofName? option.1 with
  | some setting => s.assign setting option.1 option.2
  | none => .ok s

/-- The settings that the options describe. -/
def ofOptions (options : Table String String) : Except Fault Settings := do
  let s ← options.foldlM applyOption {}
  s.validate
  return s

end Settings

end Stepcast
