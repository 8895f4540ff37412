import Stepcast.Session

/-!
# Writing in a session

What writers do: their messages go to their couriers, in the order in which they are finished.
-/

namespace Stepcast

namespace Session

/-- The writer that acts under a name, and its courier. -/
def writer? (s : Session) (name : String) : Option (Writer × Nat) := do
  let .writer w id ← s.parties.at? name | none
  return (w, id)

def putWriter (s : Session) (name : String) (w : Writer) (id : Nat) : Session :=
  { s with parties := s.parties.put name (.writer w id) }

/-- An act that changes the writer unless it is refused. -/
def changeWriter? (s : Session) (name : String) (act : Writer → Except Fault Writer) :
    Option (Session × Except Fault Unit) := do
  let (w, id) ← s.writer? name
  match act w with
  | .ok w => return (s.putWriter name w id, .ok ())
  | .error f => return (s, .error f)

/-- An act that may change the writer even if it is refused. -/
def updateWriter? (s : Session) (name : String) (act : Writer → Writer × Except Fault Unit) :
    Option (Session × Except Fault Unit) := do
  let (w, id) ← s.writer? name
  let (w, result) := act w
  return (s.putWriter name w id, result)

/-- Ends the step of a writer and hands over the message that it may have finished. -/
def endWriting? (s : Session) (name : String) (now : Moment) :
    Option (Session × Except Fault Unit) := do
  let (w, id) ← s.writer? name
  let (w, result) := w.endStep now
  let s := s.putWriter name w id
  match result with
  | .error f => return (s, .error f)
  | .ok messages => return (← s.handOverAll? w id messages, .ok ())

end Session

end Stepcast
