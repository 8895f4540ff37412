import Stepcast.Proofs.Delivery.Airing
import Stepcast.Proofs.Delivery.Completeness

/-!
# Faithfulness of a telecast

Fast delivery may lose messages, but it does not make anything up. Whatever the order of events and
whichever messages the inbox has missed, the reader is let into the steps of the messages that its
inbox has accepted, in increasing order and without leaving one out, and at each of them it has just
what the writer put there. It is told that the stream is over when the end record was accepted, and
that the writer is gone when it was not and nothing can come any more.

The invariant is `OnAir`. It says that the reader has what the accepted messages bring of a step,
and by `Writer.Keeps.at_batchOf` that is all of the step.

Main statement: `Telecast.faithful_run`.
-/

namespace Stepcast

open Feed

/-! ## Runs -/

section Runs

variable {crew : Crew} {t t' : Telecast} {event : Telecast.Event}

/-- **An event keeps the invariant.** -/
theorem OnAir.handle (h : OnAir crew t) (hcrew : crew.Casts)
    (hevent : t.handle? crew event = some t') (hfits : t.Fits crew) (hfits' : t'.Fits crew) :
    OnAir crew t' := by
  cases event with
  | openWriter now => exact h.openWriter hcrew hevent
  | openReader now => exact h.openReader hcrew hevent
  | call c => exact h.call hevent hfits'
  | handOver => exact h.handOver hevent
  | publish => exact h.publish hevent
  | letGo => exact h.settles hevent Station.settles_letGo
  | leave => exact h.settles hevent Station.settles_leave
  | beginStep =>
    exact h.changes hevent Listener.unmoved_beginStep? fun hact htuned => htuned.beginStep hact
  | proceed expired now => exact h.proceed hcrew hfits hevent
  | endStep now =>
    exact h.changes hevent Listener.unmoved_endStep? fun hact htuned => htuned.endStep hact

namespace Telecast

/-- The writer may have got one more call. -/
inductive Accounts (t t' : Telecast) : Prop
  | same : t'.log = t.log → t'.finished = t.finished → Accounts t t'
  | more (c : Writer.Call) (ms : List Outgoing) : t'.log = t.log.note c →
      t'.finished = t.finished ++ ms → Accounts t t'

theorem accounts_of_station_eq (h : t'.station = t.station) : t.Accounts t' :=
  .same (by rw [log, log, h]) (by rw [finished, finished, h])

theorem accounts_change {s s' : Station} (hs : t.station = some s) (hs' : t'.station = some s')
    (hlog : s'.log = s.log) (hfinished : s'.finished = s.finished) : t.Accounts t' :=
  .same (by rw [log, log, hs, hs']; exact hlog)
    (by rw [finished, finished, hs, hs']; exact hfinished)

theorem accounts_settles {act : Station → Option Station}
    (hchange : t.changeStation? act = some t')
    (hact : ∀ {s s'}, act s = some s' → s.Settles s') : t.Accounts t' := by
  obtain ⟨s, s', hs, hs', rfl⟩ := changeStation?_eq_some hchange
  cases hact hs' with
  | same => exact accounts_change hs rfl rfl rfl
  | told gone _ _ => exact accounts_change hs rfl rfl rfl

theorem station_changeListener? {act : Listener → Option Listener}
    (h : t.changeListener? act = some t') : t'.station = t.station := by
  obtain ⟨l, l', -, -, rfl⟩ := changeListener?_eq_some h
  rfl

/-- **What the calls amount to** changes with calls only. -/
theorem accounts_handle? (h : t.handle? crew event = some t') : t.Accounts t' := by
  cases event with
  | openWriter now =>
    simp only [handle?, openWriter?] at h
    split at h
    · rename_i hnone _
      cases h
      exact .same (by rw [log, log, hnone]; rfl) (by rw [finished, finished, hnone]; rfl)
    · cases h
  | openReader now =>
    refine accounts_of_station_eq ?_
    simp only [handle?, openReader?] at h
    split at h
    · split at h
      · cases h
        rfl
      · cases h
    · cases h
  | call c =>
    obtain ⟨s, s', hs, hcall, rfl⟩ := changeStation?_eq_some h
    obtain ⟨-, -, writer, messages, -, rfl⟩ := Station.call?_eq_some hcall
    exact .more c messages (by rw [log, log, hs]; rfl) (by rw [finished, finished, hs]; rfl)
  | handOver =>
    simp only [handle?, handOver?, Option.bind_eq_bind, Option.bind_eq_some_iff] at h
    obtain ⟨s, hs, h⟩ := h
    split at h
    · cases h
    · obtain ⟨publication, broadcast, -, rfl⟩ := air?_eq_some h
      exact accounts_change hs rfl rfl rfl
  | publish =>
    simp only [handle?, publish?, Option.bind_eq_bind, Option.bind_eq_some_iff] at h
    obtain ⟨s, hs, h⟩ := h
    obtain ⟨publication, broadcast, -, rfl⟩ := air?_eq_some h
    exact accounts_change hs rfl rfl rfl
  | letGo => exact accounts_settles h Station.settles_letGo
  | leave => exact accounts_settles h Station.settles_leave
  | beginStep => exact accounts_of_station_eq (station_changeListener? h)
  | proceed expired now =>
    refine accounts_of_station_eq ?_
    simp only [handle?, proceed?, Option.bind_eq_bind, Option.bind_eq_some_iff] at h
    obtain ⟨l, -, h⟩ := h
    split at h
    · cases h
    · cases h
      rfl
    · cases h
      rfl
  | endStep now => exact accounts_of_station_eq (station_changeListener? h)

theorem run?_append_singleton (events : List Event) (event : Event) :
    run? crew (events ++ [event]) = (run? crew events).bind (handle? crew · event) := by
  simp [run?, List.foldlM_append]

theorem sent_run {events : List Event} (hrun : run? crew events = some t) :
    t.log.sent = none ↔ t.log.ended = [] := by
  induction events using List.reverseRecOn generalizing t with
  | nil =>
    cases hrun
    exact ⟨fun _ => rfl, fun _ => rfl⟩
  | append_singleton events event ih =>
    rw [run?_append_singleton] at hrun
    obtain ⟨t₀, hrun₀, hevent⟩ := Option.bind_eq_some_iff.mp hrun
    cases accounts_handle? hevent with
    | same hlog _ => rw [hlog]; exact ih hrun₀
    | more c ms hlog _ => rw [hlog]; exact Writer.Log.sent_note (ih hrun₀) c

theorem Accounts.fits (h : t.Accounts t') (hsent : t.log.sent = none ↔ t.log.ended = [])
    (hfits : t'.Fits crew) : t.Fits crew := by
  obtain ⟨hlog', hmessages'⟩ := hfits
  cases h with
  | same hlog hfinished => exact ⟨hlog ▸ hlog', hfinished ▸ hmessages'⟩
  | more c ms hlog hfinished =>
    rw [hlog] at hlog'
    rw [hfinished] at hmessages'
    exact ⟨(Writer.Log.grows_note hsent.mp c).fits hsent.mpr hlog',
      fun m hm => hmessages' m (List.mem_append_left ms hm)⟩

end Telecast

/-- **The invariant holds along every run.** -/
theorem onAir_run (hcrew : crew.Casts) {events : List Telecast.Event}
    (hrun : Telecast.run? crew events = some t) (hfits : t.Fits crew) : OnAir crew t := by
  induction events using List.reverseRecOn generalizing t with
  | nil =>
    cases hrun
    exact onAir_start crew
  | append_singleton events event ih =>
    rw [Telecast.run?_append_singleton] at hrun
    obtain ⟨t₀, hrun₀, hevent⟩ := Option.bind_eq_some_iff.mp hrun
    have hfits₀ := (Telecast.accounts_handle? hevent).fits (Telecast.sent_run hrun₀) hfits
    exact (ih hrun₀ hfits₀).handle hcrew hevent hfits₀ hfits

end Runs

/-! ## What the messages bring -/

/-- The messages bring all of the steps that they span, from whichever rank. -/
def Brings (batchOf : Outgoing → Batch) (xs : List Written) (ms : List Outgoing) : Prop :=
  ∀ step rank, Written.at step (arrived (heard batchOf ms) rank) =
    if ∃ m ∈ ms, m.Spans step then Written.at step xs else []

section Brings

variable {crew : Crew} {t : Telecast} {l : Listener} {batchOf : Outgoing → Batch}
  {ms taken hand waiting : List Outgoing} {m : Outgoing} {step : UInt64}

/-- When each message has all of the steps that it spans, and they come in order, then together
they bring all of the steps that one of them spans. -/
theorem brings_of_ordered {xs : List Written}
    (hat : ∀ m ∈ ms, ∀ step, Written.at step (Draft.written (batchOf m)) =
      if m.Spans step then Written.at step xs else [])
    (hordered : ms.Pairwise (fun m m' => (batchOf m).Before (batchOf m'))) :
    Brings batchOf xs ms := by
  intro step rank
  induction ms with
  | nil => simp [heard, arrived, Draft.written, Written.at]
  | cons m rest ih =>
    obtain ⟨hbefore, hrest⟩ := List.pairwise_cons.mp hordered
    have hsplit : Written.at step (arrived (heard batchOf (m :: rest)) rank) =
        Written.at step (Draft.written (batchOf m)) ++
          Written.at step (arrived (heard batchOf rest) rank) := by
      rw [← List.singleton_append, arrived_heard, arrived_heard_singleton, Written.at_append]
    rw [hsplit, hat m List.mem_cons_self step]
    have hlater := ih (fun m' hm' => hat m' (List.mem_cons_of_mem m hm')) hrest
    by_cases hspans : m.Spans step
    · -- The later messages come after the step, unless there is nothing at it.
      have hnone : Written.at step xs = [] ∨
          Written.at step (arrived (heard batchOf rest) rank) = [] := by
        by_contra hboth
        obtain ⟨hxs, hmore⟩ := not_or.mp hboth
        obtain ⟨x, hx⟩ := List.exists_mem_of_ne_nil _ hxs
        obtain ⟨y, hy⟩ := List.exists_mem_of_ne_nil _ hmore
        have hx' : x ∈ Written.at step (Draft.written (batchOf m)) := by
          rw [hat m List.mem_cons_self step, if_pos hspans]
          exact hx
        obtain ⟨hxmem, hxstep⟩ := mem_at.mp hx'
        obtain ⟨hymem, hystep⟩ := mem_at.mp hy
        obtain ⟨b, hb, hyb⟩ := mem_written_flatten.mp hymem
        obtain ⟨m', hm', rfl⟩ := List.mem_map.mp hb
        have hlt := hbefore m' hm' x hxmem y hyb
        rw [hxstep, hystep] at hlt
        exact UInt64.lt_irrefl _ hlt
      rw [if_pos hspans, if_pos ⟨m, List.mem_cons_self, hspans⟩]
      rcases hnone with hnone | hnone
      · rw [hlater, hnone, ite_self, List.append_nil]
      · rw [hnone, List.append_nil]
    · rw [if_neg hspans, List.nil_append, hlater]
      simp [hspans]

theorem OnAir.at_batchOf (h : OnAir crew t) (hfits : t.Fits crew) (hm : m ∈ t.finished)
    (step : UInt64) : Written.at step (Draft.written (t.log.batchOf m)) =
      if m.Spans step then Written.at step t.written else [] := by
  have hsteps := hfits.log.steps
  rw [Telecast.written]
  rw [Telecast.log] at hsteps ⊢
  rw [Telecast.finished] at hm
  cases hs : t.station with
  | none =>
    rw [hs] at hm
    cases hm
  | some s =>
    rw [hs] at hsteps hm
    exact (h.station s hs).keeps.at_batchOf hsteps hm step

/-- **What the accepted messages bring of a step** is all that was written there. -/
theorem OnAir.brings (h : OnAir crew t) (hfits : t.Fits crew) (hms : ms.Sublist t.accepted) :
    Brings t.log.batchOf t.written ms :=
  brings_of_ordered
    (fun _ hm => h.at_batchOf hfits ((hms.trans h.accepted_sublist).subset hm))
    (((h.script hfits).sublist hms).ordered.imp And.right)

end Brings

/-! ## Faithfulness -/

namespace Telecast

/-- What the reader was shown is what its inbox has accepted. -/
structure Faithful (crew : Crew) (t : Telecast) (l : Listener) : Prop where
  /-- The inbox has accepted some of the messages, in their order. -/
  ordered : l.accepted.Sublist t.finished
  /-- The reader is let into later and later steps. -/
  increasing : l.exposed.Pairwise (fun e e' => e.step < e'.step)
  /-- At each of them it has what the writer was given for it. -/
  shows : ∀ e ∈ l.exposed, e.Shows crew (fun _ => t.written)
  /-- This is so until it ends the step. -/
  resting : l.reader.stage = .active → l.exposed.getLast?.map Exposure.reader = some l.reader
  /-- The steps are those of accepted messages. -/
  heard : ∀ e ∈ l.exposed, ∃ m ∈ l.accepted, m.Spans e.step
  /-- No step of an accepted message is passed over. -/
  gapless : ∀ e ∈ l.exposed, ∀ m ∈ l.accepted, ∀ step ≤ e.step, m.Spans step →
    Written.at step t.written ≠ [] → ∃ e' ∈ l.exposed, e'.step = step
  /-- When the inbox is empty and there is no further step, the reader has been at all of them. -/
  drained : l.phase = .idle → (∀ i ∈ t.network.broadcast.inboxes.at? l.inbox, i.messages = []) →
    ∀ status ≠ StepStatus.ready, l.outcomes.getLast? = some (.ok status) →
    ∀ step, (∃ e ∈ l.exposed, e.step = step) ↔
      (∃ m ∈ l.accepted, m.Spans step) ∧ Written.at step t.written ≠ []
  /-- No call fails. -/
  undisturbed : ∀ o ∈ l.outcomes, ∃ status, o = .ok status
  /-- The stream is over only if the end record was accepted. -/
  ended : .ok .endOfStream ∈ l.outcomes → ∃ m ∈ l.accepted, m.isEnd = true
  /-- The writer is lost only if it is gone and the end record was not accepted. -/
  lost : .ok .broken ∈ l.outcomes → t.IsSilent ∧ ∀ m ∈ l.accepted, m.isEnd = false

end Telecast

section Faithful

variable {crew : Crew} {t : Telecast} {l : Listener} {batchOf : Outgoing → Batch}
  {taken hand waiting : List Outgoing} {xs : List Written} {m : Outgoing} {e : Exposure}
  {step : UInt64}

/-- The reader was let into a step of a message that it has taken in. -/
theorem Tuned.spanned (h : Tuned crew batchOf l taken hand waiting)
    (hbrings : Brings batchOf xs taken) (he : e ∈ l.exposed) :
    (∃ m ∈ taken, m.Spans e.step) ∧ Written.at e.step xs ≠ [] := by
  obtain ⟨rank, -, hne⟩ := (h.shown.shows _ (List.mem_map_of_mem he)).nonempty
  have hbrought := hbrings e.step rank
  split at hbrought
  · rename_i hspans
    exact ⟨hspans, hbrought ▸ hne⟩
  · exact absurd hbrought hne

theorem Tuned.shows (h : Tuned crew batchOf l taken hand waiting)
    (hbrings : Brings batchOf xs taken) (he : e ∈ l.exposed) : e.Shows crew (fun _ => xs) := by
  have hspans := (h.spanned hbrings he).1
  have hshows : e.Shows crew (arrived (heard batchOf taken)) := by
    obtain ⟨hstage, hcurrent, hblocks, hholds, hnonempty⟩ :=
      h.shown.shows _ (List.mem_map_of_mem he)
    exact ⟨hstage, hcurrent, hblocks, hholds, hnonempty⟩
  exact hshows.congr fun rank _ => by rw [hbrings e.step rank, if_pos hspans]

/-- A step that was brought and is not after the current one was not passed over. -/
theorem Tuned.exposed_of_spans (h : Tuned crew batchOf l taken hand waiting)
    (hcrew : crew.ranks = [0]) (hbrings : Brings batchOf xs taken) (hm : m ∈ taken)
    (hspans : m.Spans step) (hne : Written.at step xs ≠ [])
    (hstep : ∀ y ∈ arrived (heard batchOf taken) 0, y.step = step →
      ∃ c ∈ l.reader.currentStep, y.step ≤ c) : ∃ e ∈ l.exposed, e.step = step := by
  have hbrought := hbrings step 0
  rw [if_pos ⟨m, hm, hspans⟩] at hbrought
  obtain ⟨y, hy⟩ := List.exists_mem_of_ne_nil _ (hbrought ▸ hne)
  obtain ⟨hmem, hystep⟩ := mem_at.mp hy
  obtain ⟨e, he, heq⟩ := h.shown.covered 0 (by simp [hcrew]) y hmem (hstep y hmem hystep)
  obtain ⟨e', he', rfl⟩ := List.mem_map.mp he
  exact ⟨e', he', heq.trans hystep⟩

/-- What a message has that is still to be taken in comes after the steps so far. -/
theorem Tuned.lt_of_waiting (h : Tuned crew batchOf l taken hand waiting)
    (hbrings : Brings batchOf xs taken) (hordered : l.accepted.Pairwise
      (fun m m' => (batchOf m).Before (batchOf m'))) (he : e ∈ l.exposed)
    (hm : m ∈ hand ++ waiting) (hne : Written.at step (Draft.written (batchOf m)) ≠ []) :
    e.step < step := by
  obtain ⟨⟨m₀, hm₀, hspans⟩, hshown⟩ := h.spanned hbrings he
  have hbrought := hbrings e.step 0
  rw [if_pos ⟨m₀, hm₀, hspans⟩] at hbrought
  obtain ⟨x, hx⟩ := List.exists_mem_of_ne_nil _ (hbrought ▸ hshown)
  obtain ⟨hmem, hxstep⟩ := mem_at.mp hx
  obtain ⟨b, hb, hxb⟩ := mem_written_flatten.mp hmem
  obtain ⟨m', hm', rfl⟩ := List.mem_map.mp hb
  obtain ⟨y, hy⟩ := List.exists_mem_of_ne_nil _ hne
  obtain ⟨hymem, hystep⟩ := mem_at.mp hy
  rw [h.accepted] at hordered
  rw [← hxstep, ← hystep]
  exact (List.pairwise_append.mp hordered).2.2 m' hm' m hm x hxb y hymem

/-- **What the listener was shown** is what its inbox has accepted. -/
theorem OnAir.faithful (h : OnAir crew t) (hcrew : crew.Casts) (hfits : t.Fits crew)
    (hl : t.listener = some l) : t.Faithful crew l := by
  obtain ⟨⟨taken, hand, waiting, htuned, hreceives⟩, hlost⟩ := h.listener l hl
  have haccepted : t.accepted = l.accepted := by rw [Telecast.accepted, hl]; rfl
  have hsplit := htuned.accepted
  have htaken : taken.Sublist l.accepted := hsplit ▸ List.sublist_append_left taken _
  have hbrings : Brings t.log.batchOf t.written taken :=
    h.brings hfits (haccepted ▸ htaken)
  have hordered := (h.script hfits).ordered.imp And.right
  rw [haccepted] at hordered
  exact {
    ordered := haccepted ▸ h.accepted_sublist
    increasing := by
      have hincreasing := htuned.shown.increasing
      rw [Listener.feed, List.pairwise_map] at hincreasing
      exact hincreasing
    shows := fun e he => htuned.shows hbrings he
    resting := htuned.current
    heard := by
      intro e he
      obtain ⟨⟨m, hm, hspans⟩, -⟩ := htuned.spanned hbrings he
      exact ⟨m, htaken.subset hm, hspans⟩
    gapless := by
      intro e he m hm step hle hspans hne
      rw [hsplit, List.mem_append] at hm
      rcases hm with hm | hm
      · refine htuned.exposed_of_spans hcrew.alone hbrings hm hspans hne fun y _ hystep => ?_
        obtain ⟨c, hc, hec⟩ := htuned.shown.le_currentStep (List.mem_map_of_mem he)
        exact ⟨c, hc, hystep ▸ Std.le_trans hle hec⟩
      · -- The message has something at the step, which would come after `e`.
        have hmem : m ∈ t.finished := by
          refine h.accepted_sublist.subset (haccepted ▸ hsplit ▸ ?_)
          exact List.mem_append_right taken hm
        have hall := h.at_batchOf hfits hmem step
        rw [if_pos hspans] at hall
        exact absurd hle (UInt64.not_le.mpr
          (htuned.lt_of_waiting hbrings hordered he hm (hall ▸ hne)))
    drained := by
      intro hidle hempty status hready hlast step
      obtain ⟨i, hi, -, hmessages⟩ := hreceives.messages
      have hwaiting : waiting = [] := List.map_eq_nil_iff.mp (hmessages ▸ hempty i hi)
      have hhand : hand = [] := by
        have hheld := htuned.inHand
        rw [hidle] at hheld
        exact List.map_eq_nil_iff.mp hheld.symm
      have hall : l.accepted = taken := by
        rw [hsplit, hhand, hwaiting, List.append_nil, List.append_nil]
      rw [hall]
      constructor
      · intro hx
        obtain ⟨e, he, rfl⟩ := hx
        exact htuned.spanned hbrings he
      · intro hx
        obtain ⟨⟨m, hm, hspans⟩, hne⟩ := hx
        exact htuned.exposed_of_spans hcrew.alone hbrings hm hspans hne fun y hy _ =>
          htuned.settled hidle status hready hlast y hy
    undisturbed := htuned.undisturbed
    ended := by
      intro hover
      obtain ⟨m, hm, hend⟩ := List.any_eq_true.mp (htuned.ended hover)
      exact ⟨m, htaken.subset hm, hend⟩
    lost := by
      intro hover
      obtain ⟨hsilent, hend⟩ := hlost (htuned.lost hover)
      exact ⟨hsilent, fun m hm => by simpa using List.any_eq_false.mp hend m hm⟩ }

/-- **Fast delivery is faithful**, in whichever order the writer, its publication and the reader
act, and whatever the inbox misses. -/
theorem Telecast.faithful_run {crew : Crew} (hcrew : crew.Casts) {events : List Telecast.Event}
    {t : Telecast} (hrun : Telecast.run? crew events = some t) (hfits : t.Fits crew) :
    ∀ l ∈ t.listener, t.Faithful crew l :=
  fun _ hl => (onAir_run hcrew hrun hfits).faithful hcrew hfits hl

end Faithful

/-! ### A step that is missed, and a block that cannot be read -/

namespace Telecast

section Sample

/-- There is room for one message in the inbox and in the queue of the publication. -/
def sampleCrew : Crew :=
  { name := "s"
    ranks := [0]
    settings := { address := some "a", queueDepth := 1 }
    inverses := []
    writers := fun _ => { address := some "a", queueDepth := 1 }
    operators := fun _ => [] }

/-- The writer puts a variable at a step, and its message is offered. -/
def airs (v : Variable) (byte : UInt8) : List Event :=
  [.call .beginStep, .call (.put v [byte] .sync), .call (.endStep ⟨0, 0⟩), .handOver, .publish]

/-- The writer closes, the end record is offered and the address given up. -/
def signsOff : List Event :=
  [.call (.close ⟨0, 0⟩), .handOver, .publish, .letGo, .publish]

/-- The reader begins a step for which there is at most one message. -/
def listens : List Event := .beginStep :: List.replicate 3 (.proceed false ⟨0, 0⟩)

/-- The second message comes while the inbox is full. The end record and the end of the publication
are found by the same call. -/
def sampleEvents : List Event :=
  [.openReader ⟨0, 0⟩, .openWriter ⟨0, 0⟩] ++
    airs (.scalar "v" .uint8) 7 ++ airs (.scalar "v" .uint8) 8 ++ listens ++ [.endStep ⟨0, 0⟩] ++
    airs (.scalar "v" .uint8) 9 ++ listens ++ [.endStep ⟨0, 0⟩] ++ signsOff ++ listens

theorem sampleCrew_casts : sampleCrew.Casts := ⟨rfl, rfl, rfl, rfl, rfl⟩

theorem faithful_run_sample : ∃ t l, run? sampleCrew sampleEvents = some t ∧
    t.listener = some l ∧ t.finished.length = 4 ∧ l.accepted.length = 3 ∧
    l.exposed.map Exposure.step = [0, 2] ∧
    l.outcomes.map Except.toOption = [some .ready, some .ready, some .endOfStream] ∧
    t.Faithful sampleCrew l := by
  have hruns : (run? sampleCrew sampleEvents).any (fun t =>
      t.log.ended = [7, 8, 9].map (fun byte => ([(.scalar "v" .uint8, [byte])], ⟨0, 0⟩)) ∧
      t.log.sent = some [] ∧ (∀ m ∈ t.finished, m.bytes.length < 2 ^ 64) ∧
      t.finished.length = 4 ∧ t.listener.any (fun l => l.accepted.length = 3 ∧
        l.exposed.map Exposure.step = [0, 2] ∧
        l.outcomes.map Except.toOption = [some .ready, some .ready, some .endOfStream])) =
      true := by
    decide +kernel
  obtain ⟨t, hrun, ht⟩ := (Option.any_eq_true _ _).mp hruns
  obtain ⟨hended, hsent, hmessages, hfinished, hany⟩ := of_decide_eq_true ht
  obtain ⟨l, hl, hlistener⟩ := (Option.any_eq_true _ _).mp hany
  obtain ⟨haccepted, hexposed, houtcomes⟩ := of_decide_eq_true hlistener
  refine ⟨t, l, hrun, hl, hfinished, haccepted, hexposed, houtcomes,
    faithful_run sampleCrew_casts hrun ⟨⟨?_, ?_, ?_, ?_⟩, hmessages⟩ l hl⟩
  · have hv : (Variable.scalar "v" .uint8).Fits :=
      ⟨rfl, by decide, by decide, by decide, fun _ h => nomatch h⟩
    intro e he
    rw [hended] at he
    obtain ⟨byte, -, rfl⟩ := List.mem_map.mp he
    exact ⟨by simp, fun p hp => List.mem_singleton.mp hp ▸ hv⟩
  · intro a ha
    rw [hsent] at ha
    cases ha
    exact ⟨by decide, (fun e he => nomatch he), fun e he => nomatch he⟩
  · rw [hended]
    decide
  · rw [hended]
    decide

/-- **A writer publishes a block that no reader can read.** The message is accepted and refused as a
whole, and its step never comes. -/
theorem unfaithful_run : sampleCrew.Casts ∧ ∃ t l,
    run? sampleCrew ([.openReader ⟨0, 0⟩, .openWriter ⟨0, 0⟩] ++ airs Feed.misfit 7 ++
      listens.take 3 ++ [.beginStep, .proceed false ⟨0, 0⟩, .proceed true ⟨0, 0⟩]) = some t ∧
    t.listener = some l ∧ (∃ m ∈ l.accepted, m.Spans 0) ∧ Written.at 0 t.written ≠ [] ∧
    l.exposed.map Exposure.step = [] ∧
    l.outcomes.map Except.toOption = [none, some .notReady] ∧ ¬ t.Faithful sampleCrew l := by
  refine ⟨sampleCrew_casts, ?_⟩
  have hruns : (run? sampleCrew ([.openReader ⟨0, 0⟩, .openWriter ⟨0, 0⟩] ++ airs Feed.misfit 7 ++
      listens.take 3 ++ [.beginStep, .proceed false ⟨0, 0⟩, .proceed true ⟨0, 0⟩])).any (fun t =>
        (Written.at 0 t.written).length = 1 ∧ t.listener.any (fun l =>
          (∃ m ∈ l.accepted, m.Spans 0) ∧ l.exposed.map Exposure.step = [] ∧
          l.outcomes.map Except.toOption = [none, some .notReady] ∧ l.phase = .idle ∧
          l.outcomes.getLast?.bind Except.toOption = some .notReady ∧
          (t.network.broadcast.inboxes.at? l.inbox).all (·.messages = []))) = true := by
    decide +kernel
  obtain ⟨t, hrun, ht⟩ := (Option.any_eq_true _ _).mp hruns
  obtain ⟨hlength, hany⟩ := of_decide_eq_true ht
  obtain ⟨l, hl, hlistener⟩ := (Option.any_eq_true _ _).mp hany
  obtain ⟨haccepted, hexposed, houtcomes, hidle, hlast, hempty⟩ := of_decide_eq_true hlistener
  have hwritten : Written.at 0 t.written ≠ [] := List.ne_nil_of_length_eq_add_one hlength
  refine ⟨t, l, hrun, hl, haccepted, hwritten, hexposed, houtcomes, fun hfaithful => ?_⟩
  obtain ⟨o, ho, hstatus⟩ := Option.bind_eq_some_iff.mp hlast
  cases o with
  | error f => cases hstatus
  | ok status =>
    cases hstatus
    have hdrained := hfaithful.drained hidle
      (fun i hi => of_decide_eq_true ((Option.all_eq_true _ _).mp hempty i hi)) .notReady
      (by decide) ho 0
    obtain ⟨e, he, -⟩ := hdrained.mpr ⟨haccepted, hwritten⟩
    rw [List.map_eq_nil_iff.mp hexposed] at he
    cases he

end Sample

end Telecast

end Stepcast
