import Stepcast.Proofs.Rendezvous.Announcements
import Stepcast.Rendezvous.Coordinator

/-!
# Openings that fail

An opening takes a slot and counts the stream as open, and only then the group agrees on its master.
If that fails, no process is told of the stream, but the slot is gone and the stream stays counted:
nobody opened it, so nobody closes it. The coordinator then keeps what it knows when the last stream
that was really opened is closed. An opening that fails for its name, or because no slot is left,
changes nothing.

A `Life` counts what happened since the coordinator last forgot everything. All streams that were
counted as open were closed since or are still counted (`Balanced`).

Main statements: `start_cases`, `Life.Balanced.use`, `Life.openings_run`.
-/

namespace Stepcast

namespace Coordinator

/-! ## One opening -/

/-- The coordinator with the next slot taken. -/
def withSlot (c : Coordinator) : Coordinator :=
  { c with
    receives := if c.receives.isEmpty then c.allReceives else c.receives
    nextSlot := c.nextSlot + 1
    openStreams := c.openStreams + 1 }

/-- No slot is taken just if the name is too long or no slot is left. -/
theorem takeSlot_cases (c : Coordinator) (stream : String) :
    ((c.settings.maxName < (utf8 stream).length ∨ c.settings.maxStreams ≤ c.nextSlot) ∧
      ∃ f, c.takeSlot stream = .error f) ∨
    (utf8 stream).length ≤ c.settings.maxName ∧ c.nextSlot < c.settings.maxStreams ∧
      c.takeSlot stream = .ok (UInt32.ofNat c.nextSlot, c.withSlot) := by
  unfold takeSlot
  split
  · next hlong => exact .inl ⟨.inl hlong, _, rfl⟩
  · next hfits =>
    split
    · next hnone => exact .inl ⟨.inr hnone, _, rfl⟩
    · next hslot => exact .inr ⟨Nat.le_of_not_lt hfits, Nat.lt_of_not_le hslot, rfl⟩

/-- **What opening a stream can do**: it fails before it takes a slot, or afterwards because the
group has no master, or it succeeds. -/
theorem start_cases (c : Coordinator) (role : Role) (stream : String)
    (master : Except Fault UInt32) (groupSize : UInt32) :
    ((c.settings.maxName < (utf8 stream).length ∨ c.settings.maxStreams ≤ c.nextSlot) ∧
      ∃ f, c.start role stream master groupSize = (c, .error f)) ∨
    ((utf8 stream).length ≤ c.settings.maxName ∧ c.nextSlot < c.settings.maxStreams ∧
      ((∃ f, master = .error f ∧ c.start role stream master groupSize = (c.withSlot, .error f)) ∨
        ∃ letters, c.start role stream master groupSize = (c.withSlot, .ok letters))) := by
  unfold start
  obtain ⟨hwhy, f, hslot⟩ | ⟨hname, hleft, hslot⟩ := takeSlot_cases c stream
  · rw [hslot]
    exact .inl ⟨hwhy, f, rfl⟩
  · rw [hslot]
    refine .inr ⟨hname, hleft, ?_⟩
    cases master with
    | error f => exact .inl ⟨f, rfl, rfl⟩
    | ok m =>
      let a : Announcement := { role, master := m, groupSize, stream }
      obtain ⟨body, hbody⟩ : ∃ body, a.encode c.settings.maxName = .ok body :=
        Announcement.encode_eq_ok_iff.mpr hname
      refine .inr ⟨c.withSlot.letters (UInt32.ofNat c.nextSlot) body, ?_⟩
      show (c.withSlot, (a.encode c.settings.maxName >>= fun body =>
        .ok (c.withSlot.letters (UInt32.ofNat c.nextSlot) body))) = _
      rw [hbody]
      rfl

theorem finalize_of_openStreams_le {c : Coordinator} (h : c.openStreams ≤ 1) : c.finalize =
    (true, { rank := c.rank, poolSize := c.poolSize, settings := c.settings }) :=
  if_neg (by omega)

theorem finalize_of_lt_openStreams {c : Coordinator} (h : 1 < c.openStreams) :
    c.finalize = (false, { c with openStreams := c.openStreams - 1 }) :=
  if_pos (by omega)

/-! ## Openings and closings -/

/-- What a process does with its coordinator. -/
inductive Use where
  /-- It opens a stream; `master` is what the broadcast in the group gives. -/
  | start (role : Role) (stream : String) (master : Except Fault UInt32) (groupSize : UInt32)
  | finalize

/-- A coordinator, with what happened since it last forgot everything. -/
structure Life where
  coordinator : Coordinator
  /-- The openings that succeeded. -/
  opened : Nat
  /-- The openings that failed and took a slot. -/
  stranded : Nat := 0
  closed : Nat := 0

namespace Life

/-- A coordinator, with the streams that it counts as open. -/
def of (c : Coordinator) : Life := { coordinator := c, opened := c.openStreams }

def use (l : Life) : Use → Life
  | .start role stream master groupSize =>
    match l.coordinator.start role stream master groupSize with
    | (c, .ok _) => { l with coordinator := c, opened := l.opened + 1 }
    | (c, .error _) => { l with
        coordinator := c, stranded := l.stranded + (c.nextSlot - l.coordinator.nextSlot) }
  | .finalize =>
    match l.coordinator.finalize with
    | (true, c) => { coordinator := c, opened := 0 }
    | (false, c) => { l with coordinator := c, closed := l.closed + 1 }

def run (l : Life) (uses : List Use) : Life := uses.foldl use l

/-- The streams that were counted as open were closed or are still counted. -/
def Balanced (l : Life) : Prop := l.coordinator.openStreams + l.closed = l.opened + l.stranded

theorem balanced_of (c : Coordinator) : (of c).Balanced := rfl

/-- **What a process does keeps the balance.** -/
theorem Balanced.use {l : Life} (h : l.Balanced) (u : Use) : (l.use u).Balanced := by
  unfold Balanced at h
  cases u with
  | start role stream master groupSize =>
    rw [Life.use]
    obtain ⟨-, f, hstart⟩ | ⟨-, -, ⟨f, -, hstart⟩ | ⟨letters, hstart⟩⟩ :=
      start_cases l.coordinator role stream master groupSize
    · rw [hstart]
      show _ = l.opened + (l.stranded + (l.coordinator.nextSlot - l.coordinator.nextSlot))
      rwa [Nat.sub_self]
    · rw [hstart]
      show l.coordinator.openStreams + 1 + l.closed =
        l.opened + (l.stranded + (l.coordinator.nextSlot + 1 - l.coordinator.nextSlot))
      omega
    · rw [hstart]
      show l.coordinator.openStreams + 1 + l.closed = l.opened + 1 + l.stranded
      omega
  | finalize =>
    rw [Life.use]
    by_cases hopen : l.coordinator.openStreams ≤ 1
    · rw [finalize_of_openStreams_le hopen]
      rfl
    · rw [finalize_of_lt_openStreams (Nat.lt_of_not_le hopen)]
      show l.coordinator.openStreams - 1 + (l.closed + 1) = l.opened + l.stranded
      omega

theorem Balanced.run {l : Life} (h : l.Balanced) (uses : List Use) : (l.run uses).Balanced := by
  induction uses generalizing l with
  | nil => exact h
  | cons u rest ih => exact ih (h.use u)

/-- **What failed openings leave behind**, for every coordinator and whatever its process does with
it. An opening fails before it takes a slot, and then nothing changes, or because the broadcast in
its group fails: then no letter is written and nothing that was learned changes, but a slot is gone
and one more stream counts as open. So closing a stream closes the last one just if as many streams
were closed as were opened and stranded together. -/
theorem openings_run (c : Coordinator) (uses : List Use) :
    let l := (of c).run uses
    let d := l.coordinator
    (∀ role stream master groupSize f d',
      d.start role stream master groupSize = (d', .error f) →
        d' = d ∧ (d.settings.maxName < (utf8 stream).length ∨
          d.settings.maxStreams ≤ d.nextSlot) ∨
        master = .error f ∧ d'.nextSlot = d.nextSlot + 1 ∧
          d'.openStreams = d.openStreams + 1 ∧ d'.writers = d.writers ∧
          d'.readers = d.readers ∧ d'.groupSizes = d.groupSizes) ∧
    (d.finalize.1 = true ↔ l.opened + l.stranded ≤ l.closed + 1) ∧
    (l.stranded = 0 → (d.finalize.1 = true ↔ l.opened ≤ l.closed + 1)) := by
  intro l d
  have hbalanced : d.openStreams + l.closed = l.opened + l.stranded := (balanced_of c).run uses
  have hfinalize : d.finalize.1 = true ↔ l.opened + l.stranded ≤ l.closed + 1 := by
    by_cases hopen : d.openStreams ≤ 1
    · rw [finalize_of_openStreams_le hopen]
      exact ⟨fun _ => by omega, fun _ => rfl⟩
    · rw [finalize_of_lt_openStreams (Nat.lt_of_not_le hopen)]
      exact ⟨nofun, fun hle => by omega⟩
  refine ⟨fun role stream master groupSize f d' herror => ?_, hfinalize, fun hnone => ?_⟩
  · obtain ⟨hwhy, f', hstart⟩ | ⟨-, -, ⟨f', hmaster, hstart⟩ | ⟨letters, hstart⟩⟩ :=
      start_cases d role stream master groupSize
    · rw [hstart] at herror
      cases herror
      exact .inl ⟨rfl, hwhy⟩
    · rw [hstart] at herror
      cases herror
      exact .inr ⟨hmaster, rfl, rfl, rfl, rfl, rfl⟩
    · rw [hstart] at herror
      cases herror
  · rw [hfinalize, hnone, Nat.add_zero]

/-- A process opens a stream, which fails as a member of its group is gone, and then another one.
Closing that one, the only one that was ever opened, does not close the last one. -/
theorem stranded_opening :
    let c : Coordinator := { rank := 0, poolSize := 1, settings := {} }
    let failed := c.start .writer "a" (.error (.system "group member went away")) 1
    let opened := failed.1.start .writer "b" (.ok 0) 1
    failed.2.toOption.isNone ∧ c.nextSlot = 0 ∧ failed.1.nextSlot = 1 ∧
      c.openStreams = 0 ∧ failed.1.openStreams = 1 ∧
      opened.2.toOption.isSome ∧ opened.1.finalize.1 = false := by
  decide

end Life

end Coordinator

end Stepcast
