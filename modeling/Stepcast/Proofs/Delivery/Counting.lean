import Stepcast.Proofs.Delivery.Airing
import Stepcast.Proofs.Delivery.Failures

/-!
# The counters of fast delivery

A transmitter is a writer in fast delivery with what publishes its messages. The subscribers come,
go and take what they want at any time, so a message meets any subscribers, with any inboxes. What
it met is its offer: it is accepted if one of them had room for it.

The counters are a summary of the offers. The invariant of a run, `Transmits`, says besides that
what the writer finished was offered, or waits in the queue, or is not handed over yet, and that
nothing waits any more when the publication is let go. After `close` has returned just the offers
are left, so their messages are the groups of steps and the end record.

Main statements: `Transmits.perform`, `Transmits.run`, `tallies_run`.
-/

namespace Stepcast

/-- A message that was offered to the subscribers, and those that accepted it. -/
structure Offer where
  message : Outgoing
  takers : List Nat

namespace Offer

/-- At least one subscriber accepted the message. -/
def isAccepted (o : Offer) : Bool := !o.takers.isEmpty

/-- The messages of those offers that were accepted. -/
def accepted (offers : List Offer) : List Outgoing := (offers.filter isAccepted).map message

/-- The messages that nobody accepted. -/
def refused (offers : List Offer) : List Outgoing := (offers.filter (!isAccepted ·)).map message

theorem length_accepted_add_refused (offers : List Offer) :
    (accepted offers).length + (refused offers).length = offers.length := by
  rw [accepted, refused, List.length_map, List.length_map,
    ← List.length_eq_length_filter_add isAccepted]

theorem accepted_of_forall {offers : List Offer} (h : ∀ o ∈ offers, o.isAccepted = true) :
    accepted offers = offers.map message := by
  rw [accepted, List.filter_eq_self.mpr h]

end Offer

/-! ## What the counters count -/

/-- The counters of a publication sum up the offers so far. -/
structure Tally.Counts (t : Tally) (offers : List Offer) : Prop where
  released : t.released = UInt64.ofNat (Offer.accepted offers).length
  dropped : t.dropped = UInt64.ofNat (Offer.refused offers).length
  bytes : t.bytes = UInt64.ofNat ((Offer.accepted offers).map (·.bytes.length)).sum
  sentSteps : t.sentSteps = UInt64.ofNat ((Offer.accepted offers).map (·.stepCount.toNat)).sum

section Counts

variable {t : Tally} {offers : List Offer} {o : Offer}

theorem Tally.counts_nil : Tally.Counts {} [] := ⟨rfl, rfl, rfl, rfl⟩

theorem Tally.Counts.release (h : t.Counts offers) (ho : o.isAccepted = true) :
    (t.release (UInt64.ofNat o.message.bytes.length) o.message.stepCount).Counts
      (offers ++ [o]) := by
  have haccepted : Offer.accepted (offers ++ [o]) = Offer.accepted offers ++ [o.message] := by
    simp [Offer.accepted, ho]
  have hrefused : Offer.refused (offers ++ [o]) = Offer.refused offers := by
    simp [Offer.refused, ho]
  constructor
  · rw [haccepted, List.length_append, UInt64.ofNat_add, ← h.released]
    rfl
  · rw [hrefused, ← h.dropped]
    rfl
  · rw [haccepted, List.map_append, List.sum_append, UInt64.ofNat_add, ← h.bytes]
    rfl
  · rw [haccepted, List.map_append, List.sum_append, UInt64.ofNat_add, ← h.sentSteps,
      List.map_singleton, List.sum_singleton, UInt64.ofNat_toNat]
    rfl

theorem Tally.Counts.drop (h : t.Counts offers) (ho : o.isAccepted = false) :
    t.drop.Counts (offers ++ [o]) := by
  have haccepted : Offer.accepted (offers ++ [o]) = Offer.accepted offers := by
    simp [Offer.accepted, ho]
  have hrefused : Offer.refused (offers ++ [o]) = Offer.refused offers ++ [o.message] := by
    simp [Offer.refused, ho]
  constructor
  · rw [haccepted, ← h.released]
    rfl
  · rw [hrefused, List.length_append, UInt64.ofNat_add, ← h.dropped]
    rfl
  · rw [haccepted, ← h.bytes]
    rfl
  · rw [haccepted, ← h.sentSteps]
    rfl

/-- **Publishing a message** counts its offer, and leaves the rest of the publication as it is. -/
theorem Publication.publish_counts {p : Publication} (h : p.tally.Counts offers) (b : Broadcast)
    (m : Outgoing) : ∃ tally, (p.publish b m).1 = { p with tally } ∧
      tally.Counts (offers ++ [⟨m, b.takers p.address⟩]) := by
  refine ⟨_, rfl, ?_⟩
  split
  · next hnone => exact h.drop (by simp [Offer.isAccepted, List.eq_nil_of_length_eq_zero hnone])
  · next hsome =>
    refine h.release (o := ⟨m, b.takers p.address⟩) ?_
    simpa [Offer.isAccepted] using hsome

end Counts

/-! ## Transmitters -/

/-- A writer in fast delivery with what publishes its messages, and what has happened so far. -/
structure Transmitter where
  writer : Writer
  publication : Publication
  /-- The finished messages that are not handed over. -/
  backlog : List Outgoing := []
  /-- The calls on the writer, and what came of them. -/
  events : List Writer.Event := []
  /-- The messages that were offered to the subscribers. -/
  offers : List Offer := []

namespace Transmitter

/-- A writer takes its endpoint; nothing when it cannot, or when delivery is not fast. -/
def open? (name : String) (settings : Settings) (rank : UInt32) (operators : Operators)
    (now : Moment) (n : Network) : Option Transmitter :=
  let opened : Except Fault (Courier × Network) := do
    settings.validate
    Courier.open settings (← settings.endpointOfRank rank) n
  match opened with
  | .ok (.publication publication, _) =>
    some { writer := Writer.create name settings rank operators now, publication }
  | _ => none

/-- What a transmitter does. A message that is published then meets the subscribers as they are. -/
inductive Act where
  | call (c : Writer.Call)
  /-- The writer hands over the next message. -/
  | handOver (b : Broadcast)
  /-- The publication works beside the writer. -/
  | work (b : Broadcast)
  /-- The closed writer has handed over everything. -/
  | letGo

/-- The transmitter after an act; nothing when it cannot happen. A call has to wait until what the
one before finished is handed over. -/
def perform? (t : Transmitter) : Act → Option Transmitter
  | .call c =>
    match t.backlog with
    | [] =>
      let (writer, result) := t.writer.act c
      some { t with
        writer
        backlog := result.toOption.getD []
        events := t.events ++ [(c, result)] }
    | _ :: _ => none
  | .handOver b =>
    match t.backlog with
    | [] => none
    | m :: backlog => do
      let (publication, _) ← t.publication.handOver? b m
      let offers := if t.publication.direct then [⟨m, b.takers t.publication.address⟩] else []
      return { t with publication, backlog, offers := t.offers ++ offers }
  | .work b => do
    let (publication, _) ← t.publication.step? b
    let offers := t.publication.outbox.messages.head?.toList.map fun m =>
      ⟨m, b.takers t.publication.address⟩
    return { t with publication, offers := t.offers ++ offers }
  | .letGo =>
    match t.backlog, Courier.close (.publication t.publication) with
    | [], .publication publication =>
      if t.writer.stage = .closed then some { t with publication } else none
    | _, _ => none

/-- The transmitter after some acts. -/
def run? (t : Transmitter) (acts : List Act) : Option Transmitter := acts.foldlM perform? t

/-- `close` has returned: everything is handed over, and what works beside the writer is done. -/
def HasReturned (t : Transmitter) : Prop :=
  t.writer.stage = .closed ∧ t.backlog = [] ∧
    (t.publication.direct = true ∨ t.publication.finished = true)

end Transmitter

/-! ## What a run keeps -/

/-- The transmitter has offered what its writer finished, up to what still waits, and has counted
it. -/
structure Transmits (operators : Operators) (rank : UInt32) (size : Nat) (t : Transmitter) :
    Prop where
  keeps : Writer.Keeps operators rank size (Writer.Log.salvaged operators t.events) t.writer
    (Writer.messages t.events)
  messages_eq : Writer.messages t.events =
    t.offers.map Offer.message ++ t.publication.outbox.messages ++ t.backlog
  counts : t.publication.tally.Counts t.offers
  outbox_nil : t.publication.direct = true ∨ t.publication.finished = true →
    t.publication.outbox.messages = []
  closed : t.publication.abandoned = true → t.writer.stage = .closed ∧ t.backlog = []
  abandoned : t.publication.finished = true → t.publication.abandoned = true

section Steps

variable {operators : Operators} {rank : UInt32} {size : Nat} {t t' : Transmitter}
  {backlog : List Outgoing} {m : Outgoing} {b : Broadcast}

theorem Writer.act_closed {w : Writer} (hclosed : w.stage = .closed) (c : Writer.Call) :
    (w.act c).1.stage = .closed ∧ (w.act c).2.toOption.getD [] = [] := by
  have hidle : w.stage = .active → w.draft.payload.isSome := by
    rw [hclosed]
    exact nofun
  rcases hact : w.act c with ⟨w', f | ms⟩
  · refine ⟨?_, rfl⟩
    by_cases hserialized : isSerialized (c, .error f)
    · rw [act_eq_error hidle hact hserialized, hclosed]
    · obtain ⟨f', hf, hblock, hperform⟩ :=
        performPuts_of_not_isSerialized hact (Bool.eq_false_iff.mpr hserialized)
      have hactive := (performPuts_fails hidle hperform hblock).1
      rw [hclosed] at hactive
      cases hactive
  · obtain ⟨rfl, rfl⟩ := act_of_closed hclosed hact
    exact ⟨hclosed, rfl⟩

theorem Transmits.call (h : Transmits operators rank size t) (hbacklog : t.backlog = [])
    (c : Writer.Call) : Transmits operators rank size
      { t with
        writer := (t.writer.act c).1
        backlog := (t.writer.act c).2.toOption.getD []
        events := t.events ++ [(c, (t.writer.act c).2)] } where
  keeps := by
    rw [Writer.Log.salvaged, List.foldl_append, Writer.messages, List.flatMap_append,
      List.flatMap_singleton]
    exact h.keeps.heed rfl
  messages_eq := by
    have hmessages := h.messages_eq
    rw [hbacklog, List.append_nil] at hmessages
    rw [Writer.messages, List.flatMap_append, ← Writer.messages, hmessages]
    simp
  counts := h.counts
  outbox_nil := h.outbox_nil
  closed habandoned := Writer.act_closed (h.closed habandoned).1 c
  abandoned := h.abandoned

theorem Transmits.publish (h : Transmits operators rank size t) (publication : Publication)
    (htally : publication.tally = t.publication.tally)
    (haddress : publication.address = t.publication.address)
    (hwaiting : t.publication.outbox.messages ++ t.backlog =
      m :: (publication.outbox.messages ++ backlog))
    (hnil : publication.direct = true ∨ publication.finished = true →
      publication.outbox.messages = [])
    (hover : publication.abandoned = true → t.writer.stage = .closed ∧ backlog = [])
    (habandoned : publication.finished = true → publication.abandoned = true) (b : Broadcast) :
    Transmits operators rank size
      { t with
        publication := (publication.publish b m).1
        backlog
        offers := t.offers ++ [⟨m, b.takers t.publication.address⟩] } := by
  have hcounts : publication.tally.Counts t.offers := htally ▸ h.counts
  obtain ⟨tally, hpublish, htallies⟩ := Publication.publish_counts hcounts b m
  rw [hpublish]
  refine ⟨h.keeps, ?_, haddress ▸ htallies, hnil, hover, habandoned⟩
  rw [h.messages_eq, List.append_assoc, hwaiting]
  simp

theorem Transmits.handOver (h : Transmits operators rank size t)
    (hperform : t.perform? (.handOver b) = some t') : Transmits operators rank size t' := by
  unfold Transmitter.perform? at hperform
  dsimp only at hperform
  split at hperform
  · cases hperform
  rename_i m backlog hbacklog
  obtain ⟨⟨publication, b'⟩, hhand, hperform⟩ := Option.bind_eq_some_iff.mp hperform
  cases hperform
  -- Who has a message to hand over was not let go.
  have hkept : ¬ t.publication.abandoned = true := fun habandoned => by
    cases hbacklog.symm.trans (h.closed habandoned).2
  unfold Publication.handOver? at hhand
  split at hhand
  · next hdirect =>
    have hnil := h.outbox_nil (.inl hdirect)
    cases hhand
    rw [if_pos hdirect]
    exact h.publish t.publication rfl rfl (by rw [hnil, hbacklog]; rfl) h.outbox_nil
      (fun habandoned => absurd habandoned hkept) h.abandoned b
  · next hdirect =>
    unfold Outbox.trySend at hhand
    by_cases hroom : t.publication.outbox.messages.length < t.publication.outbox.capacity
    · simp only [if_pos hroom, if_true, Option.some.injEq, Prod.mk.injEq] at hhand
      obtain ⟨rfl, -⟩ := hhand
      rw [if_neg hdirect]
      refine ⟨h.keeps, ?_, ?_, ?_, fun habandoned => absurd habandoned hkept, h.abandoned⟩
      · rw [h.messages_eq, hbacklog]
        simp
      · simpa using h.counts
      · rintro (hnow | hfinished)
        · exact absurd hnow hdirect
        · exact absurd (h.abandoned hfinished) hkept
    · simp [if_neg hroom] at hhand

theorem Transmits.work (h : Transmits operators rank size t)
    (hperform : t.perform? (.work b) = some t') : Transmits operators rank size t' := by
  obtain ⟨⟨publication, b'⟩, hstep, hperform⟩ := Option.bind_eq_some_iff.mp hperform
  cases hperform
  unfold Publication.step? Outbox.tryReceive at hstep
  rcases houtbox : t.publication.outbox.messages with - | ⟨m, rest⟩
  · simp only [houtbox] at hstep
    split at hstep
    · next hends =>
      cases hstep
      have habandoned : t.publication.abandoned = true := ((Bool.and_eq_true _ _).mp hends).1
      refine ⟨h.keeps, ?_, ?_, fun _ => houtbox, h.closed, fun _ => habandoned⟩
      · rw [h.messages_eq, houtbox]
        simp
      · simpa using h.counts
    · cases hstep
  · simp only [houtbox] at hstep
    cases hstep
    let shorter : Publication :=
      { t.publication with outbox := { t.publication.outbox with messages := rest } }
    refine h.publish shorter rfl rfl (by rw [houtbox]; rfl) (fun hends => ?_) h.closed h.abandoned b
    cases houtbox.symm.trans (h.outbox_nil hends)

theorem Transmits.letGo (h : Transmits operators rank size t)
    (hperform : t.perform? .letGo = some t') : Transmits operators rank size t' := by
  unfold Transmitter.perform? at hperform
  dsimp only at hperform
  split at hperform
  · rename_i publication hbacklog hclose
    split at hperform
    · next hclosed =>
      cases hperform
      cases hclose
      split
      · exact ⟨h.keeps, h.messages_eq, h.counts, h.outbox_nil, h.closed, h.abandoned⟩
      · exact ⟨h.keeps, h.messages_eq, h.counts, h.outbox_nil, fun _ => ⟨hclosed, hbacklog⟩,
          fun _ => rfl⟩
    · cases hperform
  · cases hperform

/-- **One act** keeps what a transmitter has offered and counted. -/
theorem Transmits.perform (h : Transmits operators rank size t) {act : Transmitter.Act}
    (hperform : t.perform? act = some t') : Transmits operators rank size t' := by
  cases act with
  | call c =>
    unfold Transmitter.perform? at hperform
    dsimp only at hperform
    split at hperform
    · next hbacklog =>
      cases hperform
      exact h.call hbacklog c
    · cases hperform
  | handOver b => exact h.handOver hperform
  | work b => exact h.work hperform
  | letGo => exact h.letGo hperform

theorem Transmits.run (h : Transmits operators rank size t) {acts : List Transmitter.Act}
    (hrun : t.run? acts = some t') : Transmits operators rank size t' := by
  induction acts generalizing t with
  | nil =>
    cases hrun
    exact h
  | cons act rest ih =>
    obtain ⟨t₁, hact, hrest⟩ := Option.bind_eq_some_iff.mp hrun
    exact ih (h.perform hact) hrest

theorem transmits_open {name : String} {settings : Settings} {now : Moment} {n : Network}
    (hopen : Transmitter.open? name settings rank operators now n = some t) :
    0 < settings.aggregation ∧ Transmits operators rank settings.aggregation t := by
  unfold Transmitter.open? at hopen
  dsimp only at hopen
  split at hopen
  · rename_i publication network hopened
    cases hopen
    obtain ⟨_, hvalid, hopened⟩ := bind_eq_ok.mp hopened
    obtain ⟨endpoint, -, hopened⟩ := bind_eq_ok.mp hopened
    have hpos := Settings.aggregation_pos hvalid
    unfold Courier.open at hopened
    split at hopened
    · obtain ⟨broadcast, -, hopened⟩ := bind_eq_ok.mp hopened
      cases hopened
      exact ⟨hpos, .inl ⟨Writer.follows_create name settings rank operators now, hpos⟩, rfl,
        Tally.counts_nil, fun _ => rfl, nofun, nofun⟩
    · obtain ⟨⟨server, exchange⟩, -, hopened⟩ := bind_eq_ok.mp hopened
      cases hopened
  · cases hopen

end Steps

/-! ## The steps in the messages -/

section Groups

variable {n size : Nat} {data : List Outgoing}

/-- **The step count of a message** is the number of its steps. -/
theorem Writer.Packed.stepCount {operators : Operators} {rank : UInt32} {l : Log}
    {first stop : Nat} {m : Outgoing} (h : Packed operators rank l first stop m)
    (hlt : first < stop) (hword : stop - first < UInt64.size) :
    m.stepCount.toNat = stop - first := by
  obtain ⟨-, d, -, -, rfl⟩ := h
  have hcount : UInt64.ofNat (stop - 1) - UInt64.ofNat first + 1 = UInt64.ofNat (stop - first) := by
    have hsucc : stop - first = stop - 1 - first + 1 := by omega
    rw [hsucc, UInt64.ofNat_add, UInt64.ofNat_sub (Nat.le_sub_one_of_lt hlt)]
    rfl
  rw [Outgoing.stepCount, hcount, UInt64.toNat_ofNat_of_lt' hword]

theorem lt_of_group (hpos : 0 < size) {j : Nat} (hj : j < (n + size - 1) / size) :
    j * size < n := by
  have hle := (Nat.le_div_iff_mul_le hpos).mp (Nat.succ_le_of_lt hj)
  rw [Nat.succ_mul] at hle
  omega

theorem sum_groups (hpos : 0 < size) (hlength : data.length = (n + size - 1) / size)
    (hsteps : ∀ j m, data[j]? = some m →
      m.stepCount.toNat = min ((j + 1) * size) n - j * size) :
    (data.map (·.stepCount.toNat)).sum = n := by
  have hfirst (k : Nat) (hk : k ≤ data.length) :
      ((data.take k).map (·.stepCount.toNat)).sum = min (k * size) n := by
    induction k with
    | zero => simp
    | succ k ih =>
      have hbegins : k * size < n := lt_of_group hpos (hlength ▸ hk)
      rw [List.take_add_one, List.getElem?_eq_getElem hk, List.map_append, List.sum_append,
        ih (Nat.le_of_succ_le hk)]
      have hgroup := hsteps k data[k] (List.getElem?_eq_getElem hk)
      have hnext : (k + 1) * size = k * size + size := Nat.succ_mul k size
      simp only [Option.toList_some, List.map_singleton, List.sum_singleton, hgroup]
      omega
  have hall : n ≤ data.length * size := by
    have hlt := Nat.lt_mul_div_succ (n + size - 1) hpos
    rw [← hlength, Nat.mul_comm, Nat.succ_mul] at hlt
    omega
  have hsum := hfirst data.length (Nat.le_refl _)
  rwa [List.take_length, Nat.min_eq_right hall] at hsum

/-- **The step count of a message never goes below zero**, as long as the steps have different
numbers, and each message counts its steps. -/
theorem Writer.Finished.groups {operators : Operators} {rank : UInt32} {l : Log} {w : Writer}
    {ms : List Outgoing} (h : Finished operators rank size l w ms) (hpos : 0 < size)
    (hword : size < UInt64.size) :
    ∃ data, ms = data ++ [.finish (Frame.endRecord l.lastStep) l.lastStep] ∧
      data.length = (l.ended.length + size - 1) / size ∧
      ∀ j m, data[j]? = some m → ∃ bytes first last, m = .data bytes first last ∧
        first = UInt64.ofNat (j * size) ∧
        last = UInt64.ofNat (min ((j + 1) * size) l.ended.length - 1) ∧
        m.stepCount.toNat = min ((j + 1) * size) l.ended.length - j * size ∧
        (l.ended.length ≤ UInt64.size → first ≤ last) := by
  obtain ⟨data, hmessages, hlength, hpacked⟩ := h.messages
  refine ⟨data, hmessages, hlength, fun j m hj => ?_⟩
  have hbegins : j * size < l.ended.length :=
    lt_of_group hpos (hlength ▸ (List.getElem?_eq_some_iff.mp hj).1)
  have hnext : (j + 1) * size = j * size + size := Nat.succ_mul j size
  have hcount := (hpacked j m hj).stepCount (by omega) (by omega)
  obtain ⟨-, d, -, -, rfl⟩ := hpacked j m hj
  refine ⟨_, _, _, rfl, rfl, rfl, hcount, fun hnumbers => ?_⟩
  rw [UInt64.le_iff_toNat_le, UInt64.toNat_ofNat_of_lt' (by omega),
    UInt64.toNat_ofNat_of_lt' (by omega)]
  omega

end Groups

/-- **The counters of fast delivery add up.** A writer opens a stream for fast delivery, and any
calls follow, refused or not. Each message that it finishes is offered at some time to whatever
subscribers there are, in the hand of the writer or beside it. When `close` has returned, all
messages were offered, each once: a data message for each group of steps, and the end record. Then
`released` and `dropped` together are the number of these messages, `bytes` and `sentSteps` are the
bytes and the steps of those that someone accepted, and if nothing was dropped, `sentSteps` is the
number of the steps that ended. The step count of a message is the number of its steps, and it is
found without going below zero as long as the steps have different numbers. -/
theorem tallies_run {name : String} {settings : Settings} {rank : UInt32} {operators : Operators}
    {now : Moment} {n : Network} {acts : List Transmitter.Act} {t₀ t : Transmitter}
    (hopen : Transmitter.open? name settings rank operators now n = some t₀)
    (hrun : t₀.run? acts = some t) (hreturned : t.HasReturned)
    (hword : settings.aggregation < UInt64.size) :
    let log := Writer.Log.salvaged operators t.events
    let steps := log.ended.length
    let size := settings.aggregation
    let tally := t.publication.tally
    let accepted := Offer.accepted t.offers
    t.offers.map Offer.message = Writer.messages t.events ∧
    ∃ data, Writer.messages t.events =
        data ++ [.finish (Frame.endRecord log.lastStep) log.lastStep] ∧
      data.length = (steps + size - 1) / size ∧
      (∀ j m, data[j]? = some m → ∃ bytes first last, m = .data bytes first last ∧
        first = UInt64.ofNat (j * size) ∧
        last = UInt64.ofNat (min ((j + 1) * size) steps - 1) ∧
        m.stepCount.toNat = min ((j + 1) * size) steps - j * size ∧
        (steps ≤ UInt64.size → first ≤ last)) ∧
      tally.released + tally.dropped = UInt64.ofNat (data.length + 1) ∧
      tally.released = UInt64.ofNat accepted.length ∧
      tally.bytes = UInt64.ofNat (accepted.map (·.bytes.length)).sum ∧
      tally.sentSteps = UInt64.ofNat (accepted.map (·.stepCount.toNat)).sum ∧
      ((∀ o ∈ t.offers, o.isAccepted = true) → tally.sentSteps = UInt64.ofNat steps) := by
  intro log steps size tally accepted
  obtain ⟨hpos, hopened⟩ := transmits_open hopen
  have htransmits := hopened.run hrun
  obtain ⟨hclosed, hbacklog, hdone⟩ := hreturned
  have hoffers : t.offers.map Offer.message = Writer.messages t.events := by
    rw [htransmits.messages_eq, htransmits.outbox_nil hdone, hbacklog, List.append_nil,
      List.append_nil]
  rcases htransmits.keeps with ⟨hfollows, -⟩ | hfinished
  · exact absurd hclosed hfollows.stage_ne_closed
  obtain ⟨data, hmessages, hlength, hgroups⟩ := hfinished.groups hpos hword
  have hcounts := htransmits.counts
  refine ⟨hoffers, data, hmessages, hlength, hgroups, ?_, hcounts.released, hcounts.bytes,
    hcounts.sentSteps, fun hall => ?_⟩
  · rw [hcounts.released, hcounts.dropped, ← UInt64.ofNat_add,
      Offer.length_accepted_add_refused, ← t.offers.length_map, hoffers, hmessages,
      List.length_append, List.length_singleton]
  · rw [hcounts.sentSteps, Offer.accepted_of_forall hall, hoffers, hmessages, List.map_append,
      List.sum_append, sum_groups hpos hlength fun j m hj => ?_]
    · rfl
    · obtain ⟨-, -, -, -, -, -, hcount, -⟩ := hgroups j m hj
      exact hcount

/-! ### Three steps, of which the last is lost -/

section Sample

def samplePublishing : Settings := { address := some "inproc://s", aggregation := 2 }

/-- A subscriber with room for one message, and what waits for it. -/
def sampleAudience (messages : List Bytes) : Broadcast :=
  { topics := [("inproc://s", { bound := true, subscribers := [0] })]
    inboxes := [(0, { address := "inproc://s", capacity := 1, messages })]
    nextInbox := 1 }

/-- The writer closes within its third step. When the message of this step is published, the inbox
is full. -/
def sampleTransmission : List Transmitter.Act :=
  [.call .beginStep, .call (.endStep ⟨0, 10⟩), .call .beginStep, .call (.endStep ⟨0, 20⟩),
    .handOver {}, .call .beginStep, .work (sampleAudience []),
    .call (.put (.scalar "v" .uint8) [7] .deferred), .call (.close ⟨0, 30⟩), .handOver {},
    .handOver {}, .work (sampleAudience [[1]]), .letGo, .work (sampleAudience []), .work {}]

theorem tallies_run_sample : ∃ t₀ t,
    Transmitter.open? "sim" samplePublishing 0 [] ⟨0, 0⟩ {} = some t₀ ∧
    t₀.run? sampleTransmission = some t ∧ t.HasReturned ∧
    t.offers.map Offer.isAccepted = [true, false, true] ∧
    (Offer.accepted t.offers).map (·.stepCount.toNat) = [2, 0] ∧
    t.publication.tally.released = 2 ∧ t.publication.tally.dropped = 1 ∧
    t.publication.tally.sentSteps = 2 := by
  have hruns : ((Transmitter.open? "sim" samplePublishing 0 [] ⟨0, 0⟩ {}).bind
      (·.run? sampleTransmission)).any (fun t =>
        (t.writer.stage = .closed ∧ t.backlog = [] ∧ t.publication.finished = true) ∧
        (Writer.Log.salvaged [] t.events).ended.length = 3 ∧
        t.offers.map Offer.isAccepted = [true, false, true] ∧
        (Offer.accepted t.offers).map (·.stepCount.toNat) = [2, 0]) = true := by
    decide +kernel
  obtain ⟨t, hrun, ht⟩ := (Option.any_eq_true _ _).mp hruns
  obtain ⟨⟨hclosed, hbacklog, hfinished⟩, hsteps, hoffers, hcounts⟩ := of_decide_eq_true ht
  obtain ⟨t₀, hopen, hrun⟩ := Option.bind_eq_some_iff.mp hrun
  have hreturned : t.HasReturned := ⟨hclosed, hbacklog, .inr hfinished⟩
  obtain ⟨-, data, -, hlength, -, hsum, hreleased, -, hsent, -⟩ :=
    tallies_run hopen hrun hreturned (by decide)
  have haccepted := congrArg List.length hcounts
  rw [List.length_map] at haccepted
  rw [haccepted] at hreleased
  rw [hlength, hsteps, hreleased] at hsum
  have hdropped : t.publication.tally.dropped = 1 := (UInt64.add_right_inj 2).mp hsum
  rw [hcounts] at hsent
  exact ⟨t₀, t, hopen, hrun, hreturned, hoffers, hcounts, hreleased, hdropped, hsent⟩

end Sample

end Stepcast
