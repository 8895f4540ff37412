import Stepcast.Reader.Access
import Stepcast.Session

/-!
# Reading in a session

A reader that waits for a step takes in what comes and sends requests, link by link, until there is
a step, or the end, or nothing more to come.
-/

namespace Stepcast

namespace Session

/-- The reader that acts under a name. -/
def reader? (s : Session) (name : String) : Option Reader := do
  let .reader r ← s.parties.at? name | none
  return r

def putReader (s : Session) (name : String) (r : Reader) : Session :=
  { s with parties := s.parties.put name (.reader r) }

/-! ## Waiting for a step -/

/-- Sends a request over each of the given links and takes in what comes back at once, until a
message is refused. -/
def requestLinks (s : Session) (r : Reader) :
    List Nat → Session × Reader × Except Fault Unit
  | [] => (s, r, .ok ())
  | i :: rest =>
    let (r, network) := r.requestLink i s.network
    let s := s.onward network
    match r.receiveLink i s.network with
    | (r, network, .ok ()) => { s with network }.requestLinks r rest
    | (r, network, .error f) => ({ s with network }, r, .error f)

/-- Tries to go to a step, and up to `rounds` times sends requests and tries again. -/
def seekStep (mode : StepMode) (now : Moment) :
    (rounds : Nat) → Session → Reader → Session × Reader × Except Fault StepStatus
  | rounds, s, r =>
    match r.tryBegin mode now s.network with
    | (r, network, .error f) => ({ s with network }, r, .error f)
    | (r, network, .ok (some status)) => ({ s with network }, r, .ok status)
    | (r, network, .ok none) =>
      let s := { s with network }
      match rounds with
      | 0 => (s, r, .ok .notReady)
      | rounds + 1 =>
        match s.requestLinks r (List.range r.links.length) with
        | (s, r, .error f) => (s, r, .error f)
        | (s, r, .ok ()) => seekStep mode now rounds s r

/-- The messages that couriers carry or are to be handed. -/
def pendingCount (s : Session) : Nat :=
  let carried (c : Courier) : Nat :=
    match c with
    | .publication p => p.outbox.messages.length
    | .responder r => r.outbox.messages.length + r.held.toList.length
  s.couriers.foldr (fun e n => carried e.2 + n) s.backlogSize

/-- Goes to a step within a limit. Every round of requests but the last brings a message or loses a
link, which bounds their number; when nothing came, the limit passes. -/
def beginReading (s : Session) (r : Reader) (mode : StepMode) (limit : Duration) (now : Moment) :
    Session × Reader × Except Fault StepStatus :=
  match r.checkBegin with
  | .error f => (s, r, .error f)
  | .ok () =>
    if limit = .zero then s.seekStep mode now 0 r
    else
      let rounds (s : Session) : Nat := s.pendingCount + 2 * r.links.length + 1
      match s.seekStep mode now (rounds s) r with
      | (s, r, .ok .notReady) =>
        let s := s.settle limit
        s.seekStep mode now (rounds s) r
      | found => found

/-! ## Acts of a reader -/

/-- Begins a step; gives the status and the step that the reader is at then. -/
def beginReading? (s : Session) (name : String) (mode : StepMode) (limit : Duration)
    (now : Moment) : Option (Session × Except Fault (StepStatus × Option UInt64)) := do
  let r ← s.reader? name
  let (s, r, result) := s.beginReading r mode limit now
  let s := (s.putReader name r).settle .zero
  return (s, result.map (fun status => (status, r.currentStep)))

/-- Ends the step of a reader. -/
def endReading? (s : Session) (name : String) (now : Moment) :
    Option (Session × Except Fault Unit) := do
  let r ← s.reader? name
  let (r, network, result) := r.endStep now s.network
  return ((s.putReader name r).onward network, result)

/-- Closes a reader. -/
def closeReader? (s : Session) (name : String) : Option Session := do
  let r ← s.reader? name
  let (r, network) := r.close s.network
  return (s.putReader name r).onward network

end Session

end Stepcast
