import Stepcast.Proofs.Delivery.Listening
import Stepcast.Proofs.Delivery.Offers
import Stepcast.Proofs.Endpoints

/-!
# Stations and inboxes

The messages of a writer wait with the writer, then in the queue of its publication, and those that
the inbox accepts wait in it. A publication that is told that nothing more comes offers what it has
before it gives up its address.

Main statements: `Broadcast.Receives.publish`, `Broadcast.Receives.receive`, `Station.Works.call`.
-/

namespace Stepcast

/-! ## Inboxes -/

namespace Broadcast

variable {b : Broadcast} {address : String} {message : Bytes} {id : Nat}

theorem bind_eq_ok {b' : Broadcast} (h : b.bind address = .ok b') : b'.inboxes = b.inboxes ∧
    (b'.topic address).subscribers = (b.topic address).subscribers := by
  unfold bind at h
  split at h
  · cases h
  · cases h
    refine ⟨rfl, ?_⟩
    rw [topic, Table.at?_put_self]
    rfl

/-- The inbox has these messages. The publisher knows of it, unless it was cut off. -/
structure Receives (b : Broadcast) (address : String) (inbox : Nat) (waiting : List Outgoing)
    (cut : Prop) : Prop where
  messages : ∃ i, b.inboxes.at? inbox = some i ∧ i.address = address ∧
    i.messages = waiting.map Outgoing.bytes
  known : (b.topic address).subscribers = [inbox] ∨ (b.topic address).subscribers = [] ∧ cut

section Receives

variable {inbox : Nat} {waiting : List Outgoing} {cut cut' : Prop}

theorem Receives.imp (h : Receives b address inbox waiting cut) (hcut : cut → cut') :
    Receives b address inbox waiting cut' :=
  ⟨h.messages, h.known.imp_right (And.imp_right hcut)⟩

theorem Receives.congr {b' : Broadcast} (h : Receives b address inbox waiting cut)
    (hinboxes : b'.inboxes = b.inboxes)
    (htopic : (b'.topic address).subscribers = (b.topic address).subscribers) :
    Receives b' address inbox waiting cut :=
  ⟨hinboxes ▸ h.messages, htopic ▸ h.known⟩

theorem receives_subscribe (b : Broadcast) (address : String) (depth : Nat)
    (hnone : (b.topic address).subscribers = []) :
    Receives (b.subscribe address depth).2 address (b.subscribe address depth).1 [] False := by
  refine ⟨⟨_, Table.at?_put_self .., rfl, rfl⟩, .inl ?_⟩
  rw [topic, subscribe, Table.at?_put_self, Option.getD_some, hnone]
  rfl

/-- **A message that is offered** goes to the end of the inbox, or is missed. -/
theorem Receives.publish (h : Receives b address inbox waiting cut) (m : Outgoing) :
    Receives (b.publish address m.bytes).2 address inbox
      (waiting ++ if inbox ∈ b.takers address then [m] else []) cut := by
  obtain ⟨i, hi, haddress, hmessages⟩ := h.messages
  constructor
  · refine ⟨_, by rw [at?_inboxes_publish, hi, Option.map_some], ?_⟩
    split
    · exact ⟨haddress, by simp [Inbox.push, hmessages]⟩
    · exact ⟨haddress, by rw [List.append_nil, hmessages]⟩
  · rw [topic_publish]
    rcases h.known with hknown | ⟨hnone, hcut⟩
    · have hpresent : b.isPresent inbox = true := by rw [isPresent, hi]; rfl
      exact .inl (by simp [hknown, hpresent])
    · exact .inr ⟨by rw [hnone]; rfl, hcut⟩

theorem Receives.unbind (h : Receives b address inbox waiting cut) (hcut : cut') :
    Receives (b.unbind address) address inbox waiting cut' :=
  ⟨h.messages, .inr ⟨by rw [topic_unbind], hcut⟩⟩

/-- **What comes out of the inbox** is the oldest message. When there is none, the inbox may say
that it was cut off. -/
theorem Receives.receive (h : Receives b address inbox waiting cut) :
    (∃ m rest b', waiting = m :: rest ∧ b.receive inbox = (.ok (some m.bytes), b') ∧
      Receives b' address inbox rest cut) ∨
    waiting = [] ∧ ∃ got, b.receive inbox = (got, b) ∧
      (got = .ok none ∨ cut ∧ ∃ f, got = .error f) := by
  obtain ⟨i, hi, haddress, hmessages⟩ := h.messages
  cases waiting with
  | nil =>
    have hreceive : b.receive inbox =
        (if b.isCutOff inbox i then .error (.closed .publisher) else .ok none, b) := by
      simp only [Broadcast.receive, hi]
      rw [hmessages]
      rfl
    refine .inr ⟨rfl, _, hreceive, ?_⟩
    rcases h.known with hknown | ⟨hnone, hcut⟩
    · exact .inl (by simp [isCutOff, haddress, hknown])
    · have hoff : b.isCutOff inbox i = true := by simp [isCutOff, haddress, hnone]
      exact .inr ⟨hcut, .closed .publisher, if_pos hoff⟩
  | cons m rest =>
    have hreceive : b.receive inbox = (.ok (some m.bytes),
        { b with
          inboxes := b.inboxes.put inbox { i with messages := rest.map Outgoing.bytes } }) := by
      simp only [Broadcast.receive, hi, hmessages, List.map_cons]
    exact .inl ⟨m, rest, _, rfl, hreceive,
      ⟨_, Table.at?_put_self .., haddress, rfl⟩, h.known⟩

end Receives

end Broadcast

/-! ## The writer -/

/-- A writer in fast delivery and one reader that reads from it alone. -/
structure Crew.Casts (crew : Crew) : Prop where
  alone : crew.ranks = [0]
  reading : crew.settings.delivery = .fast
  writing : (crew.writers 0).delivery = .fast
  /-- The writer has the address of the reader. -/
  address : (crew.writers 0).address = crew.settings.address ∧
    (crew.writers 0).port = crew.settings.port

/-- Where the messages are published. -/
def Crew.endpoint (crew : Crew) : String := (crew.settings.endpointOfRank 0).toOption.getD ""

namespace Station

/-- The messages that are to be offered, the next one first. -/
def queued (s : Station) : List Outgoing := s.publication.outbox.messages ++ s.backlog

/-- The writer has done what its log says. Its publication stays until there is nothing more to
offer. -/
structure Works (crew : Crew) (s : Station) : Prop where
  keeps : Writer.Keeps (crew.operators 0) 0 (crew.writers 0).aggregation s.log s.writer s.finished
  address : s.publication.address = crew.endpoint
  direct : s.publication.direct = true → s.publication.outbox.messages = []
  abandoned : s.publication.abandoned = true →
    s.backlog = [] ∧ (s.gone = true ∨ s.writer.stage = .closed)
  silent : s.publication.finished = true →
    s.publication.abandoned = true ∧ s.publication.outbox.messages = []

section Works

variable {crew : Crew} {s s' : Station}

theorem Works.queued_eq_nil (h : s.Works crew) (hfinished : s.publication.finished = true) :
    s.queued = [] := by
  obtain ⟨habandoned, houtbox⟩ := h.silent hfinished
  rw [queued, houtbox, (h.abandoned habandoned).1]
  rfl

theorem call?_eq_some {c : Writer.Call} (h : s.call? c = some s') : s.gone = false ∧
    s.backlog = [] ∧ ∃ writer messages, s.writer.act c = (writer, .ok messages) ∧
      s' = { s with
        writer
        backlog := messages
        log := s.log.note c
        finished := s.finished ++ messages } := by
  unfold call? at h
  split at h
  · rename_i writer messages hgone hbacklog hact
    exact ⟨hgone, hbacklog, writer, messages, hact, (Option.some.inj h).symm⟩
  · cases h

/-- **A call on the writer** adds to what was finished. -/
theorem Works.call (h : s.Works crew) {c : Writer.Call} (hs : s.call? c = some s') :
    s'.Works crew ∧ s'.publication = s.publication ∧ s.log.Grows s'.log ∧
      ∃ ms, s'.finished = s.finished ++ ms ∧ s'.queued = s.queued ++ ms := by
  obtain ⟨hgone, hbacklog, writer, messages, hact, rfl⟩ := call?_eq_some hs
  refine ⟨?_, rfl, ?_, messages, rfl, ?_⟩
  · exact { h with
      keeps := h.keeps.act hact (by cases c <;> rfl)
      abandoned := by
        intro habandoned
        have hclosed := (h.abandoned habandoned).2.resolve_left (by simp [hgone])
        obtain ⟨rfl, rfl⟩ := Writer.act_of_closed hclosed hact
        exact ⟨rfl, .inr hclosed⟩ }
  · exact Writer.Log.grows_note h.keeps.sent_iff.mp c
  · show s.publication.outbox.messages ++ messages = s.queued ++ messages
    rw [queued, hbacklog, List.append_nil]

/-- The publication may be told that nothing more comes, and the writer may go. -/
inductive Settles (s : Station) : Station → Prop
  | same : Settles s s
  | told (gone : Bool) : s.backlog = [] → gone = true ∨ gone = s.gone ∧ s.writer.stage = .closed →
      Settles s { s with publication := { s.publication with abandoned := true }, gone }

theorem settles_letGo (h : s.letGo? = some s') : s.Settles s' := by
  unfold letGo? at h
  split at h
  · rename_i hready
    simp only [Bool.and_eq_true, decide_eq_true_eq, List.isEmpty_iff] at hready
    obtain ⟨hclosed, hbacklog⟩ := hready
    dsimp only [turn?, Courier.close] at h
    by_cases hdirect : s.publication.direct = true
    · rw [if_pos hdirect] at h
      cases h
      exact .same
    · rw [if_neg hdirect] at h
      cases h
      exact .told s.gone hbacklog (.inr ⟨rfl, hclosed⟩)
  · cases h

theorem settles_leave (h : s.leave? = some s') : s.Settles s' := by
  unfold leave? at h
  by_cases hbacklog : s.backlog = []
  · simp only [hbacklog, List.isEmpty_nil] at h
    cases h
    exact .told true hbacklog (.inl rfl)
  · simp [hbacklog] at h

/-- **A writer that closes or goes** leaves what is to be offered as it is. -/
theorem Works.settles (h : s.Works crew) (hs : s.Settles s') :
    s'.Works crew ∧ s'.log = s.log ∧ s'.finished = s.finished ∧ s'.queued = s.queued ∧
      s'.publication.finished = s.publication.finished := by
  cases hs with
  | same => exact ⟨h, rfl, rfl, rfl, rfl⟩
  | told gone hbacklog hgone =>
    exact ⟨{ h with
      abandoned := fun _ => ⟨hbacklog, hgone.imp_right And.right⟩
      silent := fun hfinished => ⟨rfl, (h.silent hfinished).2⟩ }, rfl, rfl, rfl, rfl⟩

end Works

end Station

end Stepcast
