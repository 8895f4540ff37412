import Stepcast.Fault

/-!
# Groups

The processes of one application form a group. In a collective broadcast the root sends a value to
the other members one by one, and each of them takes the next value from its inbox.
-/

namespace Stepcast

/-- The inboxes of the members of a group. -/
structure Group where
  inboxes : List (List UInt32)
deriving Repr, DecidableEq

namespace Group

/-- A group with nothing sent. -/
def ofSize (size : Nat) : Group := ⟨List.replicate size []⟩

def size (g : Group) : Nat := g.inboxes.length

/-- Puts a value into the inbox of a member. -/
def push (g : Group) (member : Nat) (value : UInt32) : Group :=
  ⟨g.inboxes.modify member (· ++ [value])⟩

/-- Takes the next value from the inbox of a member, if there is one. -/
def pop? (g : Group) (member : Nat) : Option (UInt32 × Group) :=
  match g.inboxes[member]? with
  | some (value :: rest) => some (value, ⟨g.inboxes.set member rest⟩)
  | _ => none

/-- The members to whom the root sends, in order. -/
def others (g : Group) (root : Nat) : List Nat := (List.range g.size).filter (· ≠ root)

/-- The part of `member` in a broadcast: the root sends its value, the others take one. Nothing
when the member has to wait. -/
def broadcast (g : Group) (member : Nat) (value root : UInt32) :
    Option (Except Fault UInt32 × Group) :=
  if g.size ≤ root.toNat then some (.error (.argument (.broadcastRoot root g.size)), g)
  else if member = root.toNat then
    some (.ok value, (g.others member).foldl (fun g other => g.push other value) g)
  else (g.pop? member).map (fun (value, g) => (.ok value, g))

end Group

end Stepcast
