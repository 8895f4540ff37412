import Stepcast.Proofs.Rendezvous.Traffic
import Stepcast.Rendezvous.Assembly

/-!
# The names under which processes are known

Processes take slots, announce streams, poll and close streams, in any order and whatever streams
others open: no plan says who takes which side. Every letter on its way then reads as an
announcement that its sender made, cut at the first zero character of the name; polling notes
nothing but what such letters tell. So a process stands under the names that it announced, as long
as these hold no zero character, and under the beginning of one that does.

Main statements: `Genuine.step`, `recorded_names`.
-/

namespace Stepcast

/-! ## Letters of a process -/

/-- The announcement as it reads to the others. -/
def Announcement.received (a : Announcement) : Announcement :=
  { a with stream := untilZero a.stream }

namespace Coordinator

variable {c c' : Coordinator} {slot master size : UInt32} {role : Role} {stream : String}
  {letters : List Letter} {l : Letter}

/-- A letter of a process tells what the process announces, up to the zero character. -/
theorem received_of_announce (h : c.announce slot role stream master size = .ok letters)
    (hl : l ∈ letters) : l.key.source = c.rank ∧ Announcement.decode l.body =
      .ok (Announcement.received ⟨role, master, size, stream⟩) := by
  obtain ⟨body, hbody, rfl⟩ := Gathering.announce_eq_ok h
  obtain ⟨hsource, -, rfl⟩ := Gathering.mem_letters hl
  exact ⟨hsource, Announcement.decode_of_encode_eq hbody⟩

/-- Whoever gets a letter of a process that starts a stream notes the process under the name up to
the zero character. -/
theorem noteLetter_of_start (h : c.start role stream (.ok master) size = (c', .ok letters))
    (hl : l ∈ letters) (d : Coordinator) : d.noteLetter (l.key.source, l.body) =
      d.note c.rank (Announcement.received ⟨role, master, size, stream⟩) := by
  cases hslot : c.takeSlot stream with
  | error f =>
    rw [start, hslot] at h
    cases h
  | ok taken =>
    obtain ⟨slot, c₁⟩ := taken
    rw [start_eq hslot] at h
    obtain ⟨-, hannounce⟩ := Prod.mk.inj h
    obtain ⟨hsource, hdecode⟩ := received_of_announce hannounce hl
    have hrank : c₁.rank = c.rank := by rw [(Gathering.takeSlot_eq_ok hslot).2.2]
    rw [noteLetter, hdecode, hsource, hrank]

end Coordinator

/-! ## Processes without a plan -/

/-- Processes with all that they announced. -/
structure Roster where
  members : UInt32 → Coordinator
  /-- The letters that are to be sent. -/
  unsent : Mail := []
  mail : Mail := []
  /-- The announcements that were made, with the processes that made them. -/
  announced : List (UInt32 × Announcement) := []

namespace Roster

/-- The processes before anything has happened. -/
def initial (settings : RendezvousSettings) (poolSize : UInt32) : Roster :=
  { members := fun p => { rank := p, poolSize, settings } }

/-- A process is now `c`. -/
def setMember (w : Roster) (p : UInt32) (c : Coordinator) : Roster :=
  { w with members := Function.update w.members p c }

theorem members_setMember (w : Roster) (p : UInt32) (c : Coordinator) (q : UInt32) :
    (w.setMember p c).members q = if q = p then c else w.members q :=
  Function.update_apply ..

/-- What can happen next. -/
inductive Step (poolSize : UInt32) : Roster → Roster → Prop
  | takeSlot {w : Roster} {p slot : UInt32} {stream : String} {c : Coordinator} :
      (w.members p).takeSlot stream = .ok (slot, c) → Step poolSize w (w.setMember p c)
  /-- A process makes up its announcements, whatever the broadcast of its group gave. -/
  | announce {w : Roster} {p slot master size : UInt32} {role : Role} {stream : String}
      {letters : List Letter} :
      (w.members p).announce slot role stream master size = .ok letters →
      Step poolSize w { w with
        unsent := w.unsent ++ letters
        announced := (p, ⟨role, master, size, stream⟩) :: w.announced }
  /-- One announcement is sent. -/
  | send {w : Roster} {l : Letter} {before after : List Letter} {mail : Mail} :
      w.unsent = before ++ l :: after → w.mail.send poolSize l.key l.body = .ok mail →
      Step poolSize w { w with mail, unsent := before ++ after }
  | poll {w : Roster} (p : UInt32) : Step poolSize w
      { w.setMember p ((w.members p).poll w.mail).1 with mail := ((w.members p).poll w.mail).2 }
  | finalize {w : Roster} (p : UInt32) :
      Step poolSize w (w.setMember p (w.members p).finalize.2)

/-- The states that the processes can come to. -/
inductive Reachable (settings : RendezvousSettings) (poolSize : UInt32) : Roster → Prop
  | initial : Reachable settings poolSize (initial settings poolSize)
  | step {w w' : Roster} :
      Reachable settings poolSize w → Step poolSize w w' → Reachable settings poolSize w'

/-! ## What is on its way and what is noted -/

/-- A process announced what reads as `x.2`. -/
def Announced (w : Roster) (x : UInt32 × Announcement) : Prop :=
  ∃ a, (x.1, a) ∈ w.announced ∧ x.2 = a.received

/-- Letters read as announcements of their senders, and no process knows of anything else. -/
structure Genuine (w : Roster) : Prop where
  rank : ∀ p, (w.members p).rank = p
  unsent : ∀ l ∈ w.unsent, ∃ a, Announcement.decode l.body = .ok a ∧ w.Announced (l.key.source, a)
  mail : ∀ l ∈ w.mail, ∃ a, Announcement.decode l.body = .ok a ∧ w.Announced (l.key.source, a)
  knows : ∀ p, ∃ N, (w.members p).Knows N ∧ ∀ x, N x → w.Announced x

theorem genuine_initial (settings : RendezvousSettings) (poolSize : UInt32) :
    (initial settings poolSize).Genuine where
  rank := fun _ => rfl
  unsent := fun _ hl => absurd hl List.not_mem_nil
  mail := fun _ hl => absurd hl List.not_mem_nil
  knows := fun _ => ⟨_, Coordinator.knows_nothing rfl rfl rfl, fun _ h => h.elim⟩

variable {w w' : Roster} {p : UInt32} {c : Coordinator}

theorem Genuine.setMember (h : w.Genuine) (hrank : c.rank = (w.members p).rank)
    (hknows : ∃ N, c.Knows N ∧ ∀ x, N x → w.Announced x) : (w.setMember p c).Genuine where
  rank := by
    intro q
    rw [members_setMember]
    split
    · rename_i hq
      rw [hq, hrank, h.rank]
    · exact h.rank q
  unsent := h.unsent
  mail := h.mail
  knows := by
    intro q
    rw [members_setMember]
    split
    · exact hknows
    · exact h.knows q

theorem Genuine.announce {slot master size : UInt32} {role : Role} {stream : String}
    {letters : List Letter} (h : w.Genuine)
    (hannounce : (w.members p).announce slot role stream master size = .ok letters) :
    Genuine { w with
      unsent := w.unsent ++ letters
      announced := (p, ⟨role, master, size, stream⟩) :: w.announced } := by
  have hkept : ∀ x, w.Announced x → Announced { w with
      unsent := w.unsent ++ letters
      announced := (p, ⟨role, master, size, stream⟩) :: w.announced } x := by
    intro x hx
    obtain ⟨a, ha, hreceived⟩ := hx
    exact ⟨a, List.mem_cons_of_mem _ ha, hreceived⟩
  exact {
    rank := h.rank
    unsent := fun l hl => by
      rcases List.mem_append.mp hl with hl | hl
      · obtain ⟨a, hdecode, ha⟩ := h.unsent l hl
        exact ⟨a, hdecode, hkept _ ha⟩
      · obtain ⟨hsource, hdecode⟩ := Coordinator.received_of_announce hannounce hl
        exact ⟨_, hdecode, _, by rw [hsource, h.rank]; exact List.mem_cons_self, rfl⟩
    mail := fun l hl => by
      obtain ⟨a, hdecode, ha⟩ := h.mail l hl
      exact ⟨a, hdecode, hkept _ ha⟩
    knows := fun q => by
      obtain ⟨N, hknows, hN⟩ := h.knows q
      exact ⟨N, hknows, fun x hx => hkept x (hN x hx)⟩ }

/-- What a poll adds to what is known is told by letters of the mail. -/
theorem Genuine.knows_poll (h : w.Genuine) (p : UInt32) :
    ∃ N, ((w.members p).poll w.mail).1.Knows N ∧ ∀ x, N x → w.Announced x := by
  obtain ⟨N, hknows, hN⟩ := h.knows p
  refine ⟨_, hknows.poll_told w.mail, fun ⟨peer, a⟩ hx => ?_⟩
  rcases hx with hx | ⟨body, hbody, hdecode⟩
  · exact hN _ hx
  · obtain ⟨l, hl, hsource, rfl⟩ := (Coordinator.testAll_subset _ _).2 _ hbody
    obtain ⟨a', hdecode', ha⟩ := h.mail l hl
    obtain rfl : a = a' := Except.ok.inj (hdecode.symm.trans hdecode')
    obtain rfl : l.key.source = peer := hsource
    exact ha

theorem Genuine.step {poolSize : UInt32} (h : w.Genuine) (hstep : Step poolSize w w') :
    w'.Genuine := by
  cases hstep with
  | @takeSlot p slot stream c hslot =>
    obtain ⟨-, -, rfl⟩ := Gathering.takeSlot_eq_ok hslot
    obtain ⟨N, hknows, hN⟩ := h.knows p
    exact h.setMember rfl ⟨N, hknows.of_tables rfl rfl rfl, hN⟩
  | announce hannounce => exact h.announce hannounce
  | @send l before after mail hunsent hsend =>
    have hsub : before ++ after ⊆ w.unsent :=
      hunsent ▸ ((List.sublist_cons_self l after).append_left before).subset
    rw [Gathering.send_eq_ok hsend]
    exact { h with
      unsent := fun l' hl' => h.unsent l' (hsub hl')
      mail := fun l' hl' => by
        rcases List.mem_append.mp hl' with hl' | hl'
        · exact h.mail l' hl'
        · obtain rfl := List.mem_singleton.mp hl'
          exact h.unsent l' (hunsent ▸ List.mem_append_right _ List.mem_cons_self) }
  | poll p =>
    have hsetup := Coordinator.sameSetup_poll (w.members p) w.mail
    have hmember := h.setMember hsetup.rank (h.knows_poll p)
    exact { hmember with
      mail := fun l hl => h.mail l ((Coordinator.testAll_subset _ _).1 l hl) }
  | finalize p =>
    obtain ⟨N, hknows, hN⟩ := h.knows p
    rcases (w.members p).finalize_eq with heq | heq
    · rw [heq]
      exact h.setMember rfl ⟨N, hknows.of_tables rfl rfl rfl, hN⟩
    · rw [heq]
      exact h.setMember rfl ⟨_, Coordinator.knows_nothing rfl rfl rfl, fun _ hx => hx.elim⟩

theorem Reachable.genuine {settings : RendezvousSettings} {poolSize : UInt32}
    (h : Reachable settings poolSize w) : w.Genuine := by
  induction h with
  | initial => exact genuine_initial settings poolSize
  | step _ hstep ih => exact ih.step hstep

theorem Genuine.recorded (h : w.Genuine) {q master : UInt32} {role : Role} {name : String}
    (hq : q ∈ Table.keys (((w.members p).mapOf role name).ranks master)) :
    ∃ a, (q, a) ∈ w.announced ∧ a.role = role ∧ a.master = master ∧ untilZero a.stream = name := by
  obtain ⟨N, hknows, hN⟩ := h.knows p
  obtain ⟨size, hx⟩ := (hknows.mem_ranks role name master q).mp hq
  obtain ⟨a, ha, hreceived⟩ := hN _ hx
  obtain ⟨hrole, hmaster, -, hname⟩ := Announcement.mk.inj hreceived
  exact ⟨a, ha, hrole.symm, hmaster.symm, hname.symm⟩

/-! ## The names -/

/-- **Announcements read back up to the first zero character of their names.** They have all one
length, and a name that is within the limit reads back as it was just if it holds no zero character.
Whoever gets a letter of a process that starts a stream notes the process under the name as it
reads, and in every state that processes can come to they stand in each other's tables only under
what they announced, cut in this way. -/
theorem recorded_names (a : Announcement) (maxName : Nat) {settings : RendezvousSettings}
    {poolSize : UInt32} {w : Roster} (h : Reachable settings poolSize w) :
    ((∃ bytes, a.encode maxName = .ok bytes) ↔ (utf8 a.stream).length ≤ maxName) ∧
    (∀ bytes, a.encode maxName = .ok bytes → bytes.length = 9 + maxName ∧
      Announcement.decode bytes = .ok { a with stream := untilZero a.stream } ∧
      (Announcement.decode bytes = .ok a ↔ '\x00' ∉ a.stream.toList)) ∧
    (∀ (c c' d : Coordinator) (letters : List Letter),
      c.start a.role a.stream (.ok a.master) a.groupSize = (c', .ok letters) →
      ∀ l ∈ letters, d.noteLetter (l.key.source, l.body) =
        d.note c.rank { a with stream := untilZero a.stream }) ∧
    ∀ p role name master q, q ∈ Table.keys (((w.members p).mapOf role name).ranks master) →
      ∃ b, (q, b) ∈ w.announced ∧ b.role = role ∧ b.master = master ∧
        untilZero b.stream = name ∧ (name = b.stream ↔ '\x00' ∉ b.stream.toList) := by
  refine ⟨Announcement.encode_eq_ok_iff, fun bytes hbytes => ?_,
    fun c c' d letters hstart l hl => Coordinator.noteLetter_of_start hstart hl d,
    fun p role name master q hq => ?_⟩
  · have hdecode := Announcement.decode_of_encode_eq hbytes
    refine ⟨Announcement.length_of_encode hbytes, hdecode, ?_⟩
    rw [hdecode, Except.ok.injEq, ← untilZero_eq_self_iff]
    exact ⟨fun heq => congrArg Announcement.stream heq, fun heq => by rw [heq]⟩
  · obtain ⟨b, hb, hrole, hmaster, rfl⟩ := h.genuine.recorded hq
    exact ⟨b, hb, hrole, hmaster, rfl, untilZero_eq_self_iff⟩

/-- A name with a zero character inside. -/
def sampleName : String := "a\x00b"

/-- The announcement of the only process of a run. -/
def sampleAnnouncement : Announcement := ⟨.writer, 0, 1, sampleName⟩

/-- The bytes of the announcement. -/
def sampleBytes : Bytes := [0x77, 0, 0, 0, 0, 1, 0, 0, 0, 0x61, 0, 0x62, 0]

/-- The coordinator of the process with a slot taken. -/
def sampleMember : Coordinator :=
  { rank := 0, poolSize := 1, settings := { maxStreams := 1, maxName := 4 }, nextSlot := 1
    openStreams := 1, receives := [{ key := ⟨0, 0, 0⟩ }] }

/-- The process has taken a slot. -/
def sampleStarted : Roster := (initial { maxStreams := 1, maxName := 4 } 1).setMember 0 sampleMember

/-- The process has announced the stream to itself and has polled. -/
def sampleRoster : Roster :=
  { sampleStarted.setMember 0 (sampleMember.poll [⟨⟨0, 0, 0⟩, sampleBytes⟩]).1 with
    announced := [(0, sampleAnnouncement)] }

theorem reachable_sampleRoster : Reachable { maxStreams := 1, maxName := 4 } 1 sampleRoster := by
  have hstarted : Reachable { maxStreams := 1, maxName := 4 } 1 sampleStarted :=
    .step .initial (@Step.takeSlot 1 _ 0 0 sampleName sampleMember rfl)
  have hannounced := hstarted.step (@Step.announce 1 sampleStarted 0 0 0 1 .writer sampleName
    [⟨⟨0, 0, 0⟩, sampleBytes⟩] rfl)
  have hsent := hannounced.step (.send (show _ = [] ++ _ :: [] from rfl) rfl)
  exact hsent.step (.poll 0)

theorem recorded_names_sample :
    Announcement.decode sampleBytes = .ok ⟨.writer, 0, 1, untilZero sampleName⟩ ∧
    (Announcement.decode sampleBytes = .ok sampleAnnouncement ↔ '\x00' ∉ sampleName.toList) ∧
    ∃ b, (0, b) ∈ sampleRoster.announced ∧ b.role = .writer ∧ b.master = 0 ∧
      untilZero b.stream = "a" ∧ ("a" = b.stream ↔ '\x00' ∉ b.stream.toList) :=
  have hbytes : sampleAnnouncement.encode 4 = .ok sampleBytes := by rfl
  have ⟨_, hread, _, hrecorded⟩ := recorded_names sampleAnnouncement 4 reachable_sampleRoster
  ⟨(hread sampleBytes hbytes).2.1, (hread sampleBytes hbytes).2.2,
    hrecorded 0 .writer "a" 0 0 (by decide +kernel)⟩

/-- A name with a zero character inside does not read back, and the process that announced it is
known under another one. -/
theorem cut_name :
    ((sampleAnnouncement.encode 4).toOption.bind fun bytes =>
      (Announcement.decode bytes).toOption) = some ⟨.writer, 0, 1, "a"⟩ ∧
    (do
      let (_, a) ← (Assembly.ofGroups [1] { expectedGroups := 1 }).start? 0 .writer sampleName
      let (result, a) ← a.wait? 0 sampleName
      let c ← a.members[0]?
      return (result.toOption, Table.keys ((c.writerMap sampleName).ranks 0),
        Table.keys ((c.writerMap "a").ranks 0))) = some (none, [], [0]) := by
  decide +kernel

end Roster

end Stepcast
