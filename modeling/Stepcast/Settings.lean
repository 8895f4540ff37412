import Stepcast.Fault

/-!
# Settings of a stream

What is decided once, when a stream is opened: its address, how messages are delivered, how many
steps share a message, and how long to wait. `Settings.validate` says which settings can be used,
`Settings.endpointOfRank` which endpoint each writer rank owns.
-/

namespace Stepcast

/-- How finished messages reach the readers. -/
inductive DeliveryMode where
  /-- Published to whoever listens at that moment. -/
  | fast
  /-- Kept until a reader asks for it. -/
  | reliable
deriving Repr, DecidableEq

namespace DeliveryMode

/-- The mode that a word names, in any case. -/
def parse (word : String) : Except Fault DeliveryMode :=
  match lowerAscii word with
  | "fast" | "subscribe" | "pubsub" => .ok fast
  | "reliable" | "request" | "reqrep" => .ok reliable
  | other => .error (.configuration (.unknownDelivery other))

def name : DeliveryMode → String
  | fast => "fast"
  | reliable => "reliable"

end DeliveryMode

/-- The settings of a stream. Times are seconds, as doubles. -/
structure Settings where
  /-- Host or full address of the endpoint. -/
  address : Option String := none
  port : Option UInt16 := none
  /-- How long publishing and requesting may take. -/
  timeout : UInt64 := Double.ofNat 5
  /-- The steps that share one message. -/
  aggregation : Nat := 1
  delivery : DeliveryMode := .fast
  /-- The readers that a publishing writer waits for. -/
  rendezvousReaders : Nat := 1
  /-- Publish beside the writer instead of at the end of its steps. -/
  doubleBuffer : Bool := true
  /-- The messages that fit into a queue. -/
  queueDepth : Nat := 64
  verbosity : UInt8 := 0
  /-- Keep statistics of the steps. -/
  monitor : Bool := false
  /-- When discovery gives up; never, if not given. -/
  handshakeTimeout : Option UInt64 := none
  /-- When closing gives up on readers that ask for nothing; never, if not given. -/
  drainTimeout : Option UInt64 := none

namespace Settings

/-! ## Times -/

/-- The number of seconds as a duration, or a fault that names the setting. -/
def checkSeconds (what : String) (seconds : UInt64) : Except Fault Duration :=
  match Duration.ofSeconds? seconds with
  | some d => .ok d
  | none => .error (.configuration (.badSeconds what seconds))

/-- The number of seconds as a duration; zero where it is none. -/
def secondsOrZero (seconds : UInt64) : Duration := (Duration.ofSeconds? seconds).getD .zero

def timeoutDuration (s : Settings) : Duration := secondsOrZero s.timeout

def handshakeLimit (s : Settings) : Option Duration := s.handshakeTimeout.map secondsOrZero

def drainLimit (s : Settings) : Option Duration := s.drainTimeout.map secondsOrZero

/-- The settings can be used: at least one step in a message, room in the queue, and times that
are not negative. -/
def validate (s : Settings) : Except Fault Unit := do
  if s.aggregation = 0 then throw (.configuration .zeroAggregation)
  if s.queueDepth = 0 then throw (.configuration .zeroQueueDepth)
  let _ ← checkSeconds "timeout" s.timeout
  if let some seconds := s.handshakeTimeout then
    let _ ← checkSeconds "handshake timeout" seconds
  if let some seconds := s.drainTimeout then
    let _ ← checkSeconds "drain timeout" seconds

/-! ## Endpoints -/

/-- The address, which must not be empty. -/
def host (s : Settings) : Except Fault String :=
  match s.address.filter (fun a => !a.isEmpty) with
  | some a => .ok a
  | none => .error (.configuration .noAddress)

/-- The endpoint of the stream: the address, with the port if there is one. -/
def endpoint (s : Settings) : Except Fault String := do
  let host ← s.host
  match s.port with
  | some port => return s!"{host}:{port}"
  | none => return host

/-- The endpoint of one writer rank. Rank 0 has the endpoint of the stream; the others take the
ports after it, or the rank as a suffix where there is no port. -/
def endpointOfRank (s : Settings) (rank : UInt32) : Except Fault String := do
  if rank = 0 then s.endpoint
  else match s.port with
    | some port =>
      let shifted := port.toUInt32 + rank
      if 65535 < shifted then throw (.configuration (.noPort rank))
      return s!"{← s.host}:{shifted}"
    | none => return s!"{← s.endpoint}/{rank}"

/-- `endpointOfRank` where sums are checked: nothing when port and rank have no sum of 32 bits. -/
def endpointOfRank? (s : Settings) (rank : UInt32) : Option (Except Fault String) :=
  if s.port.any (fun port => UInt32.size ≤ port.toNat + rank.toNat) then none
  else some (s.endpointOfRank rank)

/-! ## Diagnostics -/

/-- The least severe level that is reported. -/
def levelOfVerbosity (verbosity : UInt8) : String :=
  if verbosity = 0 then "warn"
  else if verbosity = 1 then "info"
  else if verbosity = 2 then "debug"
  else "trace"

end Settings

end Stepcast
