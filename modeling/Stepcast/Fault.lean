import Stepcast.Double.Text
import Stepcast.Duration
import Stepcast.Tree.Codec

/-!
# Faults

Everything that can go wrong, by cause. A fault belongs to one of eight kinds, which decides how
its message opens and whether the stream can go on after it.

Main definitions: `Fault`, `Fault.kind`, `Fault.message`.
-/

namespace Stepcast

/-! ## Kinds -/

/-- The kinds of faults. -/
inductive FaultKind where
  | configuration
  | protocol
  | transport
  | operator (id : String)
  | argument
  | timeout
  | closed
  | system
deriving Repr, DecidableEq

namespace FaultKind

/-- The message of a fault of this kind. -/
def describe (kind : FaultKind) (detail : String) : String :=
  match kind with
  | configuration => s!"configuration error: {detail}"
  | protocol => s!"protocol error: {detail}"
  | transport => s!"transport error: {detail}"
  | operator id => s!"operator `{id}` failed: {detail}"
  | argument => s!"invalid argument: {detail}"
  | timeout => s!"timed out: {detail}"
  | closed => s!"closed: {detail}"
  | system => detail

/-- Trying again cannot help after a fault of this kind. -/
def isFatal : FaultKind → Bool
  | configuration | protocol | closed => true
  | _ => false

end FaultKind

/-- A step number that may be missing. -/
def optionText : Option UInt64 → String
  | some n => s!"Some({n})"
  | none => "None"

/-! ## Causes -/

/-- What is wrong with the settings of a stream, or with the use of its limits. -/
inductive ConfigurationFault where
  | unknownDelivery (text : String)
  | badValue (value key : String)
  | badSwitch (value key : String)
  | badSeconds (what : String) (seconds : UInt64)
  | zeroAggregation
  | zeroQueueDepth
  | noPort (rank : UInt32)
  | noAddress
  | unknownOperator (id : String)
  | longAnnouncement (stream : String) (size limit : Nat)
  | longName (stream : String) (limit : Nat)
  | noSlot (limit : Nat)

def ConfigurationFault.detail : ConfigurationFault → String
  | unknownDelivery text => s!"unsupported delivery mode `{text}` (expected fast or reliable)"
  | badValue value key => s!"invalid value `{value}` for {key}"
  | badSwitch value key => s!"invalid value `{value}` for {key} (expected true or false)"
  | badSeconds what seconds =>
    s!"{what} must be a non-negative number of seconds, got {Double.plain seconds}"
  | zeroAggregation => "aggregation factor must be at least 1"
  | zeroQueueDepth => "queue depth must be at least 1"
  | noPort rank => s!"no port left for writer rank {rank}"
  | noAddress => "stream requires an address"
  | unknownOperator id => s!"no operator registered as `{id}`"
  | longAnnouncement stream size limit =>
    s!"stream name `{stream}` is {size} bytes, the limit is {limit}"
  | longName stream limit => s!"stream name `{stream}` exceeds {limit} bytes"
  | noSlot limit => s!"process already opened {limit} streams, the limit"

/-- What is wrong with received bytes. -/
inductive ProtocolFault where
  | tree (fault : Tree.Fault)
  | rootNotMap
  | stepKey (key : String)
  | stepNotMap (step : UInt64)
  | rankKey (key : String)
  | rankNotList (step : UInt64) (rank : UInt32)
  | shortMessage (size : Nat)
  | header (offset size : UInt64) (length : Nat)
  | missingField (step : UInt64) (key : String)
  | fieldNotDims (step : UInt64) (key : String)
  | fieldNotUInt (step : UInt64) (key : String)
  | nameNotText
  | typeNotText
  | unknownType (tag : String)
  | boxRank (name : String) (step : UInt64)
  | shapeNotDims
  | outsidePayload (name : String) (step : UInt64) (position size stop : Nat)
  | blockSize (name : String) (step : UInt64) (size needed : Nat)
  | bufferReleased (name : String) (step : UInt64)
  | decodedSize (name : String) (size expected : Nat)
  | shortAnnouncement (size : Nat)
  | announcementMode (tag : UInt8)
  | announcementName (fault : Utf8.Fault)

def ProtocolFault.detail : ProtocolFault → String
  | tree fault => fault.message
  | rootNotMap => "index root is not a map"
  | stepKey key => s!"invalid step key `{key}`"
  | stepNotMap step => s!"step {step} is not a rank map"
  | rankKey key => s!"invalid rank key `{key}`"
  | rankNotList step rank => s!"step {step} rank {rank} is not a list"
  | shortMessage size => s!"message of {size} bytes is shorter than the header"
  | header offset size length =>
    s!"header points outside message: offset {offset} size {size} in {length} bytes"
  | missingField step key => s!"step {step} block record missing `{key}`"
  | fieldNotDims step key => s!"step {step} field `{key}` is not dims"
  | fieldNotUInt step key => s!"step {step} field `{key}` is not a uint"
  | nameNotText => "block name is not a string"
  | typeNotText => "block type is not a string"
  | unknownType tag => s!"unsupported type `{tag}`"
  | boxRank name step => s!"block {name} at step {step}: start and count differ in rank"
  | shapeNotDims => "block shape is not dims"
  | outsidePayload name step position size stop =>
    s!"block {name} at step {step} lies outside the payload ({position}+{size} > {stop})"
  | blockSize name step size needed =>
    s!"block {name} at step {step} holds {size} bytes, its box needs {needed}"
  | bufferReleased name step => s!"buffer of {name} at step {step} released while the step is live"
  | decodedSize name size expected => s!"block {name} decoded to {size} bytes, expected {expected}"
  | shortAnnouncement size => s!"announcement of {size} bytes is truncated"
  | announcementMode tag => s!"unknown announcement mode 0x{hexByte tag}"
  | announcementName fault => s!"announcement name is not UTF-8: {fault.message}"

/-- What the network refuses. -/
inductive TransportFault where
  | publisherBound (address : String)
  | replierBound (address : String)
  | unanswered
  | nothingToAnswer
  | noReplier (address : String)

def TransportFault.detail : TransportFault → String
  | publisherBound address => s!"address {address} already has a publisher"
  | replierBound address => s!"address {address} already has a replier"
  | unanswered => "previous request was not answered"
  | nothingToAnswer => "reply without a pending request"
  | noReplier address => s!"no replier bound at {address}"

/-- How a call contradicts the state or the data it is about. -/
inductive ArgumentFault where
  | startRank (name : String) (start count : Nat)
  | shapeRank (name : String) (shape count : Nat)
  | beyondShape (name : String) (start count shape : UInt64) (dimension : Nat)
  | payloadSize (name : String) (size needed : Nat)
  | valueType (name actual values : String)
  | sourceSize (size needed : Nat)
  | targetSize (size needed : Nat)
  | boxDimensions (selection block : Nat)
  | stepActive (stream : String) (step : Option UInt64)
  | outsideStep (stream operation : String)
  | noActiveStep (stream : String)
  | destinationSize (name : String) (size needed : Nat)
  | requestedType (name actual requested : String)
  | absentVariable (name : String) (step : Option UInt64)
  | absentBlock (name : String) (index : Nat)
  | poolRank (rank : UInt32) (size : Nat)
  | broadcastRoot (root : UInt32) (size : Nat)

def ArgumentFault.detail : ArgumentFault → String
  | startRank name start count =>
    s!"variable {name}: start has {start} dimensions, count has {count}"
  | shapeRank name shape count =>
    s!"variable {name}: shape has {shape} dimensions, count has {count}"
  | beyondShape name start count shape dimension =>
    s!"variable {name}: box {start}+{count} exceeds shape {shape} in dimension {dimension}"
  | payloadSize name size needed =>
    s!"variable {name}: payload has {size} bytes, selection needs {needed}"
  | valueType name actual values => s!"variable {name} is {actual}, values are {values}"
  | sourceSize size needed => s!"source holds {size} bytes, its box needs {needed}"
  | targetSize size needed => s!"destination holds {size} bytes, selection needs {needed}"
  | boxDimensions selection block =>
    s!"selection has {selection} dimensions, block has {block}"
  | stepActive stream step =>
    s!"stream {stream}: begin_step while step {optionText step} is active"
  | outsideStep stream operation => s!"stream {stream}: {operation} outside begin_step/end_step"
  | noActiveStep stream => s!"stream {stream}: end_step without an active step"
  | destinationSize name size needed =>
    s!"variable {name}: destination has {size} bytes, selection needs {needed}"
  | requestedType name actual requested => s!"variable {name} is {actual}, requested as {requested}"
  | absentVariable name step => s!"variable {name} not present in step {optionText step}"
  | absentBlock name index => s!"variable {name} has no block {index}"
  | poolRank rank size => s!"rank {rank} outside pool of {size}"
  | broadcastRoot root size => s!"broadcast root {root} outside group of {size}"

/-- What was waited for in vain. -/
inductive TimeoutFault where
  | rendezvous (stream : String) (announced expected : Nat)
  | replyNotCollected (address : String) (limit : Duration)
  | requestNotAccepted (address : String) (limit : Duration)

def TimeoutFault.detail : TimeoutFault → String
  | rendezvous stream announced expected =>
    s!"stream `{stream}`: {announced} of {expected} applications announced"
  | replyNotCollected address limit => s!"reply on {address} not collected within {limit.text}"
  | requestNotAccepted address limit => s!"request to {address} not accepted within {limit.text}"

/-- What is no longer there. -/
inductive ClosedFault where
  | publisher
  | replier (address : String)
  | stream (name : String)

def ClosedFault.detail : ClosedFault → String
  | publisher => "publisher went away"
  | replier address => s!"replier at {address} went away"
  | stream name => name

/-! ## Faults -/

/-- A fault with its cause. Operators and the system give their reasons as text. -/
inductive Fault where
  | configuration (cause : ConfigurationFault)
  | protocol (cause : ProtocolFault)
  | transport (cause : TransportFault)
  | operator (id reason : String)
  | argument (cause : ArgumentFault)
  | timeout (cause : TimeoutFault)
  | closed (cause : ClosedFault)
  | system (reason : String)

namespace Fault

def kind : Fault → FaultKind
  | configuration _ => .configuration
  | protocol _ => .protocol
  | transport _ => .transport
  | operator id _ => .operator id
  | argument _ => .argument
  | timeout _ => .timeout
  | closed _ => .closed
  | system _ => .system

def detail : Fault → String
  | configuration cause => cause.detail
  | protocol cause => cause.detail
  | transport cause => cause.detail
  | operator _ reason => reason
  | argument cause => cause.detail
  | timeout cause => cause.detail
  | closed cause => cause.detail
  | system reason => reason

/-- The fault as a sentence. -/
def message (f : Fault) : String := f.kind.describe f.detail

def isFatal (f : Fault) : Bool := f.kind.isFatal

end Fault

end Stepcast
