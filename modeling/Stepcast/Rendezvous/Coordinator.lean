import Stepcast.Rendezvous.Announcement
import Stepcast.Rendezvous.Mail
import Stepcast.Settings
import Stepcast.Table

/-!
# Finding the partners of a stream

Each process announces every stream that it opens to all processes, itself included, and tags the
announcement with the number of streams it opened before: its slot. Receives for every process and
every slot are posted when the first stream is opened, so whatever is announced later finds one.

A stream is settled when the expected number of groups has announced it and each group is there as
a whole.
-/

namespace Stepcast

/-! ## Limits -/

/-- The limits of discovery, the same for all processes. -/
structure RendezvousSettings where
  /-- The streams that a process can open. -/
  maxStreams : Nat := 64
  /-- The bytes of the longest name. -/
  maxName : Nat := 128
  /-- The groups, writing and reading ones, that take part in a stream. -/
  expectedGroups : Nat := 2
  /-- When waiting gives up; never, if not given. -/
  timeout : Option Duration := none

namespace RendezvousSettings

/-- The usual limits with the timeout of a stream's settings. -/
def ofSettings (s : Settings) : Except Fault RendezvousSettings := do
  s.validate
  return { timeout := s.handshakeLimit }

end RendezvousSettings

/-! ## Who takes part -/

/-- A set of ranks. -/
abbrev RankSet := Table UInt32 Unit

/-- The ranks of each group, by the rank of its master. -/
abbrev RankMap := Table UInt32 RankSet

namespace RankMap

/-- The map with `rank` in the group of `master`. -/
def add (m : RankMap) (master rank : UInt32) : RankMap :=
  m.put master (((m.at? master).getD []).put rank ())

/-- The ranks in all groups. -/
def rankCount (m : RankMap) : Nat := m.foldr (fun e n => e.2.length + n) 0

end RankMap

/-- How many take part in a stream. -/
structure Topology where
  writerRanks : Nat := 1
  readerRanks : Nat := 1
  writerGroups : Nat := 1
  readerGroups : Nat := 1
deriving Repr, DecidableEq

/-! ## The coordinator of a process -/

/-- What a process knows about the streams. -/
structure Coordinator where
  rank : UInt32
  poolSize : UInt32
  settings : RendezvousSettings
  /-- The receives for all processes and slots, slot by slot. -/
  receives : List Receive := []
  nextSlot : Nat := 0
  openStreams : Nat := 0
  writers : Table String RankMap := []
  readers : Table String RankMap := []
  groupSizes : Table String (Table UInt32 UInt32) := []

namespace Coordinator

/-- One receive for each process and slot. -/
def allReceives (c : Coordinator) : List Receive :=
  (List.range c.settings.maxStreams).flatMap (fun slot =>
    (List.range c.poolSize.toNat).map (fun peer =>
      { key := ⟨c.rank, UInt32.ofNat peer, UInt32.ofNat slot⟩ }))

/-! ### Opening a stream -/

/-- Takes the next slot for a stream, and posts the receives if none are. The room that is set aside
for them is not represented: their number, the product of slots and processes, is taken in 32 bits,
and checked arithmetic stops where it has more. -/
def takeSlot (c : Coordinator) (stream : String) : Except Fault (UInt32 × Coordinator) :=
  if c.settings.maxName < (utf8 stream).length then
    .error (.configuration (.longName stream c.settings.maxName))
  else if c.settings.maxStreams ≤ c.nextSlot then
    .error (.configuration (.noSlot c.settings.maxStreams))
  else
    .ok (UInt32.ofNat c.nextSlot,
      { c with
        receives := if c.receives.isEmpty then c.allReceives else c.receives
        nextSlot := c.nextSlot + 1
        openStreams := c.openStreams + 1 })

/-- The letters that announce a stream under a slot, one for each process. -/
def letters (c : Coordinator) (slot : UInt32) (body : Bytes) : List Letter :=
  (List.range c.poolSize.toNat).map (fun dest => ⟨⟨UInt32.ofNat dest, c.rank, slot⟩, body⟩)

/-- Opens a stream. `master` is what the broadcast in the group gave; it takes place after the slot
is taken. -/
def start (c : Coordinator) (role : Role) (stream : String) (master : Except Fault UInt32)
    (groupSize : UInt32) : Coordinator × Except Fault (List Letter) :=
  match c.takeSlot stream with
  | .error f => (c, .error f)
  | .ok (slot, c) =>
    let announced := do
      let body ← Announcement.encode { role, master := ← master, groupSize, stream }
        c.settings.maxName
      return c.letters slot body
    (c, announced)

/-! ### Taking in announcements -/

/-- Notes what the process `peer` announced. -/
def note (c : Coordinator) (peer : UInt32) (a : Announcement) : Coordinator :=
  let add (maps : Table String RankMap) : Table String RankMap :=
    maps.put a.stream (((maps.at? a.stream).getD []).add a.master peer)
  let sizes := ((c.groupSizes.at? a.stream).getD []).put a.master a.groupSize
  let c := { c with groupSizes := c.groupSizes.put a.stream sizes }
  match a.role with
  | .writer => { c with writers := add c.writers }
  | .reader => { c with readers := add c.readers }

/-- Notes a letter; one that is no announcement is dropped. -/
def noteLetter (c : Coordinator) (letter : UInt32 × Bytes) : Coordinator :=
  match Announcement.decode letter.2 with
  | .ok a => c.note letter.1 a
  | .error _ => c

/-- Tests receives one after the other. Gives the letters that came, the receives and the mail. -/
def testAll : List Receive → Mail → List (UInt32 × Bytes) × List Receive × Mail
  | [], m => ([], [], m)
  | r :: rest, m =>
    let (body, r, m) := r.test m
    let (letters, rest, m) := testAll rest m
    (body.toList.map (fun b => (r.key.source, b)) ++ letters, r :: rest, m)

/-- Takes in all letters that have come. -/
def poll (c : Coordinator) (m : Mail) : Coordinator × Mail :=
  let (letters, receives, m) := testAll c.receives m
  (letters.foldl noteLetter { c with receives }, m)

/-! ### Agreement -/

/-- The writing groups of a stream. -/
def writerMap (c : Coordinator) (stream : String) : RankMap := (c.writers.at? stream).getD []

/-- The reading groups of a stream. -/
def readerMap (c : Coordinator) (stream : String) : RankMap := (c.readers.at? stream).getD []

/-- The masters of the groups that announced a stream. -/
def masters (c : Coordinator) (stream : String) : List UInt32 :=
  Table.keys (Table.ofEntries
    ((c.writerMap stream ++ c.readerMap stream).map (fun e => (e.1, ()))))

/-- The ranks that announced a stream under a master. -/
def announcedCount (c : Coordinator) (stream : String) (master : UInt32) : Nat :=
  (((c.writerMap stream).at? master).getD []).length +
    (((c.readerMap stream).at? master).getD []).length

/-- The expected number of groups announced the stream, each of them as a whole. -/
def converged (c : Coordinator) (stream : String) : Bool :=
  let sizes := (c.groupSizes.at? stream).getD []
  (c.masters stream).length == c.settings.expectedGroups &&
    (c.groupSizes.at? stream).isSome &&
    (c.masters stream).all (fun master =>
      (sizes.at? master).any (fun size => c.announcedCount stream master == size.toNat))

/-- Takes in what has come and says whether the stream is settled. -/
def wait (c : Coordinator) (m : Mail) (stream : String) :
    Except Fault Unit × Coordinator × Mail :=
  let (c, m) := c.poll m
  let result :=
    if c.converged stream then .ok ()
    else .error (.timeout
      (.rendezvous stream (c.masters stream).length c.settings.expectedGroups))
  (result, c, m)

def topology (c : Coordinator) (stream : String) : Topology :=
  { writerRanks := (c.writerMap stream).rankCount
    readerRanks := (c.readerMap stream).rankCount
    writerGroups := (c.writerMap stream).length
    readerGroups := (c.readerMap stream).length }

/-! ### Closing a stream -/

/-- Closes one stream. With the last one everything is forgotten, and the answer is true. -/
def finalize (c : Coordinator) : Bool × Coordinator :=
  let openStreams := c.openStreams - 1
  if 0 < openStreams then (false, { c with openStreams })
  else (true, { rank := c.rank, poolSize := c.poolSize, settings := c.settings })

end Coordinator

end Stepcast
