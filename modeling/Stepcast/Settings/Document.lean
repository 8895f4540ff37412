import Stepcast.Json.Number
import Stepcast.Settings

/-!
# Settings as a document

Settings are kept as a JSON object. Members that are missing have their default, members of other
names are passed over, and no member may occur twice. A list of values in the order of the members
is read as well.
-/

namespace Stepcast

namespace Settings

/-! ## Reading -/

/-- The names of the members, in the order in which they are written. -/
def memberNames : List String :=
  ["address", "port", "timeout_secs", "aggregation_factor", "delivery",
    "rendezvous_reader_count", "double_buffer", "queue_depth", "verbosity", "monitor",
    "handshake_timeout_secs", "drain_timeout_secs"]

/-- What `read` finds, or nothing for null. -/
def optional? {α : Type} (read : Json → Option α) (j : Json) : Option (Option α) :=
  if j.isNull then some none else (read j).map some

def deliveryOfName? (name : String) : Option DeliveryMode :=
  [DeliveryMode.fast, .reliable].find? (fun mode => mode.name = name)

/-- A delivery mode: its name, or an object whose only member has that name and no value. -/
def delivery? : Json → Option DeliveryMode
  | .text s => s.bind deliveryOfName?
  | .object [(some name, .null)] => deliveryOfName? name
  | _ => none

/-- The settings with the value of one member; members of other names change nothing. -/
def setMember? (s : Settings) (name : String) (value : Json) : Option Settings :=
  match name with
  | "address" => return { s with address := ← optional? Json.toText? value }
  | "port" => do
    let port ← optional? (Json.toNat? 65535) value
    return { s with port := port.map UInt16.ofNat }
  | "timeout_secs" => return { s with timeout := ← value.toDouble? }
  | "aggregation_factor" => return { s with aggregation := ← value.toNat? (UInt64.size - 1) }
  | "delivery" => return { s with delivery := ← delivery? value }
  | "rendezvous_reader_count" =>
    return { s with rendezvousReaders := ← value.toNat? (UInt64.size - 1) }
  | "double_buffer" => return { s with doubleBuffer := ← value.toBool? }
  | "queue_depth" => return { s with queueDepth := ← value.toNat? (UInt64.size - 1) }
  | "verbosity" => return { s with verbosity := UInt8.ofNat (← value.toNat? 255) }
  | "monitor" => return { s with monitor := ← value.toBool? }
  | "handshake_timeout_secs" =>
    return { s with handshakeTimeout := ← optional? Json.toDouble? value }
  | "drain_timeout_secs" => return { s with drainTimeout := ← optional? Json.toDouble? value }
  | _ => some s

/-- The settings with the values of members; `seen` are the names that occurred before. -/
def setMembers? (s : Settings) (seen : List String) :
    List (Option String × Json) → Option Settings
  | [] => some s
  | (none, _) :: _ => none
  | (some name, value) :: rest =>
    if seen.contains name then none
    else do
      let s ← s.setMember? name value
      s.setMembers? (if memberNames.contains name then name :: seen else seen) rest

/-- The settings that a document describes. -/
def ofJson? : Json → Option Settings
  | .object members => setMembers? {} [] members
  | .list items =>
    if items.length ≤ memberNames.length then
      setMembers? {} [] ((memberNames.map some).zip items)
    else none
  | _ => none

/-! ## Writing -/

/-- The document of the settings. -/
def toJson (s : Settings) : Json :=
  Json.ofMembers (memberNames.zip
    [Json.ofOption Json.ofText s.address,
      Json.ofOption (fun port => Json.ofNat port.toNat) s.port,
      Json.ofDouble s.timeout,
      Json.ofNat s.aggregation,
      Json.ofText s.delivery.name,
      Json.ofNat s.rendezvousReaders,
      Json.bool s.doubleBuffer,
      Json.ofNat s.queueDepth,
      Json.ofNat s.verbosity.toNat,
      Json.bool s.monitor,
      Json.ofOption Json.ofDouble s.handshakeTimeout,
      Json.ofOption Json.ofDouble s.drainTimeout])

end Settings

end Stepcast
