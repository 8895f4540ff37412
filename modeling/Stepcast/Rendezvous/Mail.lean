import Stepcast.Fault

/-!
# Mail between processes

The processes of a pool send each other letters with a tag. A letter waits until a receive for its
addressee, sender and tag takes it; of several such letters the oldest is taken first. A receive
takes one letter over its life.
-/

namespace Stepcast

/-- What a letter and a receive have to agree on. -/
structure MailKey where
  dest : UInt32
  source : UInt32
  tag : UInt32
deriving Repr, DecidableEq

/-- A letter on its way. -/
structure Letter where
  key : MailKey
  body : Bytes
deriving DecidableEq

/-- The letters that no receive has taken, the oldest first. -/
abbrev Mail := List Letter

namespace Mail

/-- The bodies that wait for one key, the oldest first. -/
def waiting (m : Mail) (key : MailKey) : List Bytes :=
  (m.filter (fun l => l.key = key)).map (·.body)

/-- Sends a letter in a pool of `size` processes. -/
def send (m : Mail) (size : UInt32) (key : MailKey) (body : Bytes) : Except Fault Mail :=
  if size ≤ key.dest then .error (.argument (.poolRank key.dest size.toNat))
  else .ok (m ++ [⟨key, body⟩])

/-- The oldest letter for a key, and the mail without it. -/
def take? (m : Mail) (key : MailKey) : Option (Bytes × Mail) :=
  match m with
  | [] => none
  | l :: rest =>
    if l.key = key then some (l.body, rest)
    else (take? rest key).map (fun (body, rest) => (body, l :: rest))

end Mail

/-- A receive for one letter. -/
structure Receive where
  key : MailKey
  /-- The letter came, or the receive was cancelled. -/
  done : Bool := false
deriving Repr, DecidableEq

namespace Receive

/-- Posts a receive in a pool of `size` processes. -/
def post (size : UInt32) (key : MailKey) : Except Fault Receive :=
  if size ≤ key.source then .error (.argument (.poolRank key.source size.toNat))
  else .ok { key }

/-- Takes the letter of the receive, if it has come and was not taken before. -/
def test (r : Receive) (m : Mail) : Option Bytes × Receive × Mail :=
  if r.done then (none, r, m)
  else
    match m.take? r.key with
    | some (body, m) => (some body, { r with done := true }, m)
    | none => (none, r, m)

def cancel (r : Receive) : Receive := { r with done := true }

end Receive

end Stepcast
