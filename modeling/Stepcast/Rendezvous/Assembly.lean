import Stepcast.Rendezvous.Coordinator
import Stepcast.Rendezvous.Group

/-!
# A pool of processes

All processes of a run with their mail, the groups they form and what each of them knows. The ranks
of the pool are numbered through the groups in order. One call of one process is one step.
-/

namespace Stepcast

/-- The processes of a run. -/
structure Assembly where
  mail : Mail := []
  groups : List Group
  members : List Coordinator

namespace Assembly

/-- A pool in which nothing has happened yet. -/
def ofGroups (sizes : List Nat) (settings : RendezvousSettings) : Assembly :=
  let size := sizes.foldr (· + ·) 0
  { groups := sizes.map Group.ofSize
    members := (List.range size).map (fun rank =>
      { rank := UInt32.ofNat rank, poolSize := UInt32.ofNat size, settings }) }

/-- The group of a process and its rank there, where `sizes` are the sizes of the groups. -/
def placeOf : (sizes : List Nat) → (process : Nat) → Option (Nat × Nat)
  | [], _ => none
  | size :: rest, process =>
    if process < size then some (0, process)
    else (placeOf rest (process - size)).map (fun (g, rank) => (g + 1, rank))

def poolSize (a : Assembly) : UInt32 := UInt32.ofNat a.members.length

/-- A process sends a letter of its own making. -/
def send (a : Assembly) (process : Nat) (dest tag : UInt32) (body : Bytes) :
    Except Fault Unit × Assembly :=
  match a.mail.send a.poolSize ⟨dest, UInt32.ofNat process, tag⟩ body with
  | .ok mail => (.ok (), { a with mail })
  | .error f => (.error f, a)

/-- A process opens a stream. Its group broadcasts the rank of the group's first process; nothing
happens when the process has to wait for that, or does not exist. -/
def start? (a : Assembly) (process : Nat) (role : Role) (stream : String) :
    Option (Except Fault Unit × Assembly) := do
  let c ← a.members[process]?
  let (index, rank) ← placeOf (a.groups.map Group.size) process
  let group ← a.groups[index]?
  match c.takeSlot stream with
  | .error f => return (.error f, a)
  | .ok _ =>
    let (master, g) ← group.broadcast rank c.rank 0
    let (c, announced) := c.start role stream master (UInt32.ofNat group.size)
    let a := { a with groups := a.groups.set index g, members := a.members.set process c }
    match announced with
    | .ok letters => return (.ok (), { a with mail := a.mail ++ letters })
    | .error f => return (.error f, a)

/-- A process looks whether a stream is settled. -/
def wait? (a : Assembly) (process : Nat) (stream : String) :
    Option (Except Fault Unit × Assembly) := do
  let c ← a.members[process]?
  let (result, c, mail) := c.wait a.mail stream
  return (result, { a with mail, members := a.members.set process c })

/-- A process closes a stream. -/
def finalize? (a : Assembly) (process : Nat) : Option (Bool × Assembly) := do
  let c ← a.members[process]?
  let (last, c) := c.finalize
  return (last, { a with members := a.members.set process c })

end Assembly

end Stepcast
