import Stepcast.Fault

/-!
# Announcements

A process that opens a stream announces to every other one which side of the stream it takes, which
process leads its group, how large the group is and what the stream is called. All announcements of
a run have one length: the name is filled up with zero bytes, and reading ends it at the first one.
-/

namespace Stepcast

/-- The side of a stream that a process takes. -/
inductive Role where
  | writer
  | reader
deriving Repr, DecidableEq

namespace Role

/-- The byte that stands for the side. -/
def tag : Role → UInt8
  | writer => 0x77
  | reader => 0x72

def ofTag? (b : UInt8) : Option Role :=
  if b = 0x77 then some writer else if b = 0x72 then some reader else none

theorem ofTag?_tag (r : Role) : ofTag? r.tag = some r := by cases r <;> rfl

end Role

/-- What a process tells about a stream that it opens. -/
structure Announcement where
  role : Role
  /-- The pool rank of the process that leads the group. -/
  master : UInt32
  groupSize : UInt32
  stream : String
deriving DecidableEq

namespace Announcement

/-- The bytes before the name. -/
def fixedSize : Nat := 9

/-- The announcement in `fixedSize + maxName` bytes. -/
def encode (a : Announcement) (maxName : Nat) : Except Fault Bytes :=
  let name := utf8 a.stream
  if maxName < name.length then
    .error (.configuration (.longAnnouncement a.stream name.length maxName))
  else
    .ok (a.role.tag :: leBytes 4 a.master.toNat ++ leBytes 4 a.groupSize.toNat ++ name ++
      List.replicate (maxName - name.length) 0)

/-- The announcement that the bytes hold. -/
def decode (bytes : Bytes) : Except Fault Announcement :=
  if bytes.length < fixedSize then .error (.protocol (.shortAnnouncement bytes.length))
  else
    let tag := bytes.headD 0
    match Role.ofTag? tag with
    | none => .error (.protocol (.announcementMode tag))
    | some role =>
      match Utf8.read ((bytes.drop fixedSize).takeWhile (· != 0)) with
      | .error f => .error (.protocol (.announcementName f))
      | .ok stream =>
        .ok
          { role
            master := UInt32.ofNat (leValue (slice bytes 1 4))
            groupSize := UInt32.ofNat (leValue (slice bytes 5 4))
            stream }

end Announcement

end Stepcast
