import Stepcast.Proofs.Delivery.Stations

/-!
# What is on the air

What the inbox has accepted and what may come yet are, in this order, some of the finished messages.
Once the publication has given up its address nothing more comes.

The invariant `OnAir` says this and that the listener follows what its inbox has accepted. It is
kept by every event, as long as what the writer finishes fits.

Main statements: `OnAir.offer`, `OnAir.publish`, `OnAir.proceed`.
-/

namespace Stepcast

open Broadcast

/-! ## The telecast -/

namespace Telecast

/-- What the calls on the writer amount to. -/
def log (t : Telecast) : Writer.Log := t.station.elim {} Station.log

/-- The blocks of the steps that the writer has ended. -/
def written (t : Telecast) : List Written := t.log.written

def finished (t : Telecast) : List Outgoing := t.station.elim [] Station.finished

def queued (t : Telecast) : List Outgoing := t.station.elim [] Station.queued

def accepted (t : Telecast) : List Outgoing := t.listener.elim [] Listener.accepted

/-- The publication has given up its address. -/
def IsSilent (t : Telecast) : Prop := ∃ s ∈ t.station, s.publication.finished = true

/-- What the writer was given and what it finished fits into the widths of messages and of step
numbers. -/
structure Fits (crew : Crew) (t : Telecast) : Prop where
  log : t.log.Fits (crew.writers 0).aggregation
  messages : ∀ m ∈ t.finished, m.bytes.length < 2 ^ 64

end Telecast

/-- The listener follows what its inbox has accepted. A writer that is gone has not ended the
stream, as far as can be heard. -/
structure Listener.Hears (crew : Crew) (log : Writer.Log) (b : Broadcast) (silent : Prop)
    (l : Listener) : Prop where
  tuned : ∃ taken hand waiting, Tuned crew log.batchOf l taken hand waiting ∧
    b.Receives crew.endpoint l.inbox waiting silent
  lost : l.isLost = true → silent ∧ l.accepted.any Outgoing.isEnd = false

/-- What was accepted and what may come yet are some of the finished messages, and the listener
follows. -/
structure OnAir (crew : Crew) (t : Telecast) : Prop where
  station : ∀ s ∈ t.station, s.Works crew
  ordered : (t.accepted ++ t.queued).Sublist t.finished
  vacant : t.listener = none → (t.network.broadcast.topic crew.endpoint).subscribers = []
  listener : ∀ l ∈ t.listener, l.Hears crew t.log t.network.broadcast t.IsSilent

section OnAir

variable {crew : Crew} {t t' : Telecast} {s s' : Station} {l l' : Listener} {ms : List Outgoing}

theorem onAir_start (crew : Crew) : OnAir crew {} where
  station := fun _ hs => nomatch hs
  ordered := .slnil
  vacant := fun _ => rfl
  listener := fun _ hl => nomatch hl

theorem OnAir.accepted_sublist (h : OnAir crew t) : t.accepted.Sublist t.finished :=
  (List.sublist_append_left ..).trans h.ordered

/-- **What was accepted is a script.** -/
theorem OnAir.script (h : OnAir crew t) (hfits : t.Fits crew) :
    Script (crew.operators 0) 0 t.log.batchOf t.accepted := by
  refine Script.sublist ?_ h.accepted_sublist
  obtain ⟨hlog, hmessages⟩ := hfits
  rw [Telecast.log] at hlog ⊢
  rw [Telecast.finished] at hmessages ⊢
  cases hs : t.station with
  | none => exact ⟨(fun _ hm => nomatch hm), .nil⟩
  | some s =>
    rw [hs] at hlog hmessages
    exact (h.station s hs).keeps.script hlog hmessages

/-! ### Coming -/

theorem Settings.aggregation_pos {settings : Settings} (h : settings.validate = .ok ()) :
    0 < settings.aggregation := by
  unfold Settings.validate at h
  by_contra hzero
  rw [if_pos (Nat.eq_zero_of_not_pos hzero)] at h
  cases h

theorem Crew.endpoint_eq {address : String}
    (h : crew.settings.endpointOfRank 0 = .ok address) : address = crew.endpoint := by
  rw [Crew.endpoint, h]
  rfl

theorem OnAir.openWriter (h : OnAir crew t) (hcrew : crew.Casts) {now : Moment}
    (hopen : t.openWriter? crew now = some t') : OnAir crew t' := by
  unfold Telecast.openWriter? at hopen
  simp only at hopen
  split at hopen
  · rename_i p network hnone hopened
    cases hopen
    obtain ⟨_, hvalid, hopened⟩ := bind_eq_ok.mp hopened
    obtain ⟨address, haddress, hopened⟩ := bind_eq_ok.mp hopened
    have haddress' : address = crew.endpoint := by
      obtain ⟨ha, hp⟩ := hcrew.address
      rw [Settings.endpointOfRank_congr ha hp] at haddress
      exact Crew.endpoint_eq haddress
    subst haddress'
    simp only [Courier.open, hcrew.writing] at hopened
    obtain ⟨broadcast, hbind, hopened⟩ := Stepcast.bind_eq_ok.mp hopened
    cases hopened
    obtain ⟨hinboxes, htopic⟩ := Broadcast.bind_eq_ok hbind
    have hlog : t.log = {} := by rw [Telecast.log, hnone]; rfl
    have haccepted : t.accepted = [] := by
      have hsub := h.accepted_sublist
      rw [Telecast.finished, hnone] at hsub
      exact List.sublist_nil.mp hsub
    have hsilent : ¬ t.IsSilent := by
      intro hx
      obtain ⟨s, hs, -⟩ := hx
      rw [hnone] at hs
      cases hs
    exact {
      station := by
        intro s hs
        cases hs
        exact {
          keeps := .inl ⟨Writer.follows_create .., Settings.aggregation_pos hvalid⟩
          address := rfl
          direct := fun _ => rfl
          abandoned := by simp
          silent := by simp }
      ordered := by
        show (t.accepted ++ []).Sublist []
        rw [haccepted]
        exact .slnil
      vacant := fun hvacant => htopic.trans (h.vacant hvacant)
      listener := by
        intro l hl
        obtain ⟨⟨taken, hand, waiting, htuned, hreceives⟩, hlost⟩ := h.listener l hl
        rw [hlog] at htuned
        exact ⟨⟨taken, hand, waiting, htuned,
          (hreceives.congr hinboxes htopic).imp fun hx => absurd hx hsilent⟩,
          fun hx => absurd (hlost hx).1 hsilent⟩ }
  · cases hopen

theorem Reader.open_eq_ok {settings : Settings} (hfast : settings.delivery = .fast)
    {name : String} {operators : Operators} {now : Moment} {n n' : Network} {r : Reader}
    (h : Reader.open name settings 1 operators now n = (n', .ok r)) :
    ∃ address inbox broadcast, settings.endpointOfRank 0 = .ok address ∧
      n.broadcast.subscribe address settings.queueDepth = (inbox, broadcast) ∧
      n' = { n with broadcast } ∧
      r = { name
            delivery := .fast
            operators
            links := [{ channel := .inbox inbox }]
            monitor := if settings.monitor then some { started := now.instant } else none } := by
  unfold Reader.open at h
  split at h
  · cases h
  · have hranks : Reader.writerRanks 1 = [0] := by decide
    rw [hranks] at h
    cases haddress : settings.endpointOfRank 0 with
    | error f => simp [Reader.connectAll, haddress] at h
    | ok address =>
      simp only [Reader.connectAll, haddress, Reader.connect, hfast, List.nil_append,
        Reader.requestAll] at h
      cases h
      exact ⟨address, _, _, rfl, rfl, rfl, rfl⟩

theorem OnAir.openReader (h : OnAir crew t) (hcrew : crew.Casts) {now : Moment}
    (hopen : t.openReader? crew now = some t') : OnAir crew t' := by
  unfold Telecast.openReader? at hopen
  split at hopen
  · rename_i network reader hnone hopened
    obtain ⟨address, inbox, broadcast, haddress, hsubscribe, rfl, rfl⟩ :=
      Reader.open_eq_ok hcrew.reading hopened
    obtain rfl := Crew.endpoint_eq haddress
    cases hopen
    have hreceives := receives_subscribe t.network.broadcast crew.endpoint
      crew.settings.queueDepth (h.vacant hnone)
    rw [hsubscribe] at hreceives
    have haccepted : t.accepted = [] := by rw [Telecast.accepted, hnone]; rfl
    exact {
      station := h.station
      ordered := by
        have hordered := h.ordered
        rw [haccepted] at hordered
        exact hordered
      vacant := fun hx => nomatch hx
      listener := by
        intro l hl
        cases hl
        exact ⟨⟨[], [], [], tuned_open _ rfl rfl rfl rfl rfl,
          hreceives.imp False.elim⟩, fun hx => nomatch hx⟩ }
  · cases hopen

/-! ### What the writer does -/

theorem Telecast.changeStation?_eq_some {act : Station → Option Station}
    (h : t.changeStation? act = some t') :
    ∃ s s', t.station = some s ∧ act s = some s' ∧ t' = { t with station := some s' } := by
  simp only [Telecast.changeStation?, Option.bind_eq_bind, Option.bind_eq_some_iff] at h
  obtain ⟨s, hs, s', hact, heq⟩ := h
  exact ⟨s, s', hs, hact, (Option.some.inj heq).symm⟩

theorem OnAir.restation (h : OnAir crew t) (hs : t.station = some s) (hworks : s'.Works crew)
    (hbatch : ∀ m ∈ s.finished, s'.log.batchOf m = s.log.batchOf m)
    (hfinished : s'.finished = s.finished ++ ms) (hqueued : s'.queued = s.queued ++ ms)
    (hsilent : s.publication.finished = true → s'.publication.finished = true) :
    OnAir crew { t with station := some s' } := by
  have hsub := h.accepted_sublist
  have hordered := h.ordered
  rw [Telecast.finished, hs, Option.elim_some] at hsub
  rw [Telecast.finished, Telecast.queued, hs, Option.elim_some, Option.elim_some] at hordered
  have hsilent' : t.IsSilent → ({ t with station := some s' } : Telecast).IsSilent := by
    intro hx
    obtain ⟨s₀, hs₀, hx⟩ := hx
    cases hs.symm.trans hs₀
    exact ⟨s', rfl, hsilent hx⟩
  exact {
    station := fun s₀ hs₀ => Option.some.inj hs₀ ▸ hworks
    ordered := by
      show (t.accepted ++ s'.queued).Sublist s'.finished
      rw [hqueued, hfinished, ← List.append_assoc]
      exact hordered.append (.refl ms)
    vacant := h.vacant
    listener := by
      intro l hl
      obtain ⟨⟨taken, hand, waiting, htuned, hreceives⟩, hlost⟩ := h.listener l hl
      have haccepted : t.accepted = l.accepted := by rw [Telecast.accepted, hl]; rfl
      rw [Telecast.log, hs, Option.elim_some] at htuned
      exact ⟨⟨taken, hand, waiting,
        htuned.congr fun m hm => hbatch m (hsub.subset (haccepted ▸ hm)),
        hreceives.imp hsilent'⟩, fun hx => ⟨hsilent' (hlost hx).1, (hlost hx).2⟩⟩ }

theorem OnAir.call (h : OnAir crew t) {c : Writer.Call}
    (hcall : t.changeStation? (·.call? c) = some t') (hfits : t'.Fits crew) : OnAir crew t' := by
  obtain ⟨s, s', hs, hact, rfl⟩ := Telecast.changeStation?_eq_some hcall
  have hold := h.station s hs
  obtain ⟨hworks, hpublication, hgrows, ms, hfinished, hqueued⟩ := hold.call hact
  have hfit := hgrows.fits hold.keeps.sent_iff.mpr hfits.log
  exact h.restation hs hworks (fun m hm => hold.keeps.batchOf_grows hfit.steps hgrows hm)
    hfinished hqueued fun hx => hpublication ▸ hx

theorem OnAir.settles (h : OnAir crew t) {act : Station → Option Station}
    (hchange : t.changeStation? act = some t')
    (hact : ∀ {s s'}, act s = some s' → s.Settles s') : OnAir crew t' := by
  obtain ⟨s, s', hs, hs', rfl⟩ := Telecast.changeStation?_eq_some hchange
  obtain ⟨hworks, hlog, hfinished, hqueued, hsilent⟩ := (h.station s hs).settles (hact hs')
  exact h.restation hs hworks (fun m _ => hlog ▸ rfl) (hfinished.trans (List.append_nil _).symm)
    (hqueued.trans (List.append_nil _).symm) hsilent.trans

/-! ### What the publication does -/

/-- **Messages are offered**: they leave the publication, and the inbox accepts or misses them. -/
theorem OnAir.offer (h : OnAir crew t) (hs : t.station = some s) (s' : Station)
    (ms : List Outgoing) (broadcast : Broadcast) (hworks : s'.Works crew) (hlog : s'.log = s.log)
    (hfinished : s'.finished = s.finished) (hqueued : s.queued = ms ++ s'.queued)
    (hvacant : (t.network.broadcast.topic crew.endpoint).subscribers = [] →
      (broadcast.topic crew.endpoint).subscribers = [])
    (hsilent : s.publication.finished = true → s'.publication.finished = true)
    (hreceives : ∀ inbox waiting,
      t.network.broadcast.Receives crew.endpoint inbox waiting t.IsSilent →
      broadcast.Receives crew.endpoint inbox
        (waiting ++ if inbox ∈ t.network.broadcast.takers crew.endpoint then ms else [])
        (s'.publication.finished = true)) :
    OnAir crew
      { network := { t.network with broadcast }
        station := some s'
        listener := t.listener.map
          (·.hear t.network.broadcast s.publication.address ms) } := by
  rw [(h.station s hs).address]
  have hordered := h.ordered
  rw [Telecast.finished, Telecast.queued, hs, Option.elim_some, Option.elim_some, hqueued]
    at hordered
  have hlogs : t.log = s'.log := by rw [Telecast.log, hs, hlog]; rfl
  exact {
    station := fun s₀ hs₀ => Option.some.inj hs₀ ▸ hworks
    ordered := by
      show (Option.elim (t.listener.map _) [] Listener.accepted ++ s'.queued).Sublist s'.finished
      rw [hfinished]
      rw [Telecast.accepted] at hordered
      cases hl : t.listener with
      | none =>
        rw [hl] at hordered
        exact ((List.sublist_append_right ms _).append_left _).trans hordered
      | some l =>
        rw [hl] at hordered
        simp only [Option.elim_some, Option.map_some, Listener.hear] at hordered ⊢
        split
        · rwa [List.append_assoc]
        · exact ((List.sublist_append_right ms _).append_left _).trans hordered
    vacant := by
      intro hnone
      exact hvacant (h.vacant (Option.map_eq_none_iff.mp hnone))
    listener := by
      intro l' hl'
      obtain ⟨l, hl, rfl⟩ := Option.map_eq_some_iff.mp hl'
      obtain ⟨⟨taken, hand, waiting, htuned, hwaiting⟩, hlost⟩ := h.listener l hl
      have hnext := hreceives l.inbox waiting hwaiting
      rw [hlogs] at htuned
      have hlost' : l.isLost = true →
          (∃ s₀ ∈ some s', s₀.publication.finished = true) ∧ ms = [] ∧
            l.accepted.any Outgoing.isEnd = false := by
        intro hx
        obtain ⟨hgone, hend⟩ := hlost hx
        obtain ⟨s₀, hs₀, hgone⟩ := hgone
        cases hs.symm.trans hs₀
        -- A publication that has given up its address has nothing to offer.
        have hnil := (h.station s hs).queued_eq_nil hgone
        rw [hqueued] at hnil
        exact ⟨⟨s', rfl, hsilent hgone⟩, (List.append_eq_nil_iff.mp hnil).1, hend⟩
      unfold Listener.hear
      by_cases htakes : l.inbox ∈ t.network.broadcast.takers crew.endpoint
      · rw [if_pos htakes] at hnext ⊢
        refine ⟨⟨taken, hand, waiting ++ ms, htuned.hear ms, hnext.imp fun hx => ⟨s', rfl, hx⟩⟩,
          fun hx => ?_⟩
        obtain ⟨hgone, hnone, hend⟩ := hlost' hx
        exact ⟨hgone, by simpa [hnone] using hend⟩
      · rw [if_neg htakes, List.append_nil] at hnext
        rw [if_neg htakes]
        exact ⟨⟨taken, hand, waiting, htuned, hnext.imp fun hx => ⟨s', rfl, hx⟩⟩,
          fun hx => ⟨(hlost' hx).1, (hlost' hx).2.2⟩⟩ }

theorem Telecast.air?_eq_some {offered : List Outgoing} {worked : Option (Publication × Broadcast)}
    (h : t.air? s offered worked = some t') : ∃ publication broadcast,
      worked = some (publication, broadcast) ∧
      t' = {
        network := { t.network with broadcast }
        station := some { s with publication }
        listener := t.listener.map
          (·.hear t.network.broadcast s.publication.address offered) } := by
  simp only [Telecast.air?, Option.bind_eq_bind, Option.bind_eq_some_iff] at h
  obtain ⟨⟨publication, broadcast⟩, hworked, heq⟩ := h
  exact ⟨publication, broadcast, hworked, (Option.some.inj heq).symm⟩

/-- What publishing leaves of a publication. -/
theorem Publication.publish_eq (p : Publication) (b : Broadcast) (m : Outgoing) :
    ∃ tally, p.publish b m = ({ p with tally }, (b.publish p.address m.bytes).2) := ⟨_, rfl⟩

theorem Telecast.isSilent_iff (hs : t.station = some s) :
    t.IsSilent ↔ s.publication.finished = true := by
  rw [Telecast.IsSilent, hs]
  simp

/-- **The next message is offered** at the address. -/
theorem OnAir.publishNext (h : OnAir crew t) (hs : t.station = some s) {m : Outgoing}
    (hworks : s'.Works crew) (hqueued : s.queued = m :: s'.queued) (hlog : s'.log = s.log)
    (hfinished : s'.finished = s.finished)
    (hsilent : s'.publication.finished = s.publication.finished) :
    OnAir crew
      { network := { t.network with
          broadcast := (t.network.broadcast.publish s.publication.address m.bytes).2 }
        station := some s'
        listener := t.listener.map
          (·.hear t.network.broadcast s.publication.address [m]) } := by
  have haddress := (h.station s hs).address
  refine h.offer hs s' [m] _ hworks hlog hfinished hqueued ?_ (fun hx => hsilent.trans hx) ?_
  · intro hvacant
    rw [haddress, topic_publish, hvacant]
    rfl
  · intro inbox waiting hreceives
    rw [haddress]
    exact (hreceives.publish m).imp fun hx =>
      hsilent.trans ((Telecast.isSilent_iff hs).mp hx)

theorem OnAir.handOver (h : OnAir crew t) (hhand : t.handOver? = some t') : OnAir crew t' := by
  simp only [Telecast.handOver?, Option.bind_eq_bind, Option.bind_eq_some_iff] at hhand
  obtain ⟨s, hs, hhand⟩ := hhand
  split at hhand
  · cases hhand
  · rename_i m backlog hbacklog
    obtain ⟨publication, broadcast, hworked, rfl⟩ := Telecast.air?_eq_some hhand
    have hold := h.station s hs
    have habandoned : s.publication.abandoned ≠ true := by
      intro hx
      have hnil := (hold.abandoned hx).1
      rw [hbacklog] at hnil
      cases hnil
    unfold Publication.handOver? at hworked
    by_cases hdirect : s.publication.direct = true
    · obtain ⟨tally, hpublish⟩ := s.publication.publish_eq t.network.broadcast m
      rw [if_pos hdirect, hpublish] at hworked
      cases hworked
      rw [if_pos hdirect]
      refine h.publishNext hs { hold with abandoned := fun hx => absurd hx habandoned } ?_ rfl rfl
        rfl
      simp [Station.queued, hold.direct hdirect, hbacklog]
    · rw [if_neg hdirect, Outbox.trySend] at hworked
      by_cases hroom : s.publication.outbox.messages.length < s.publication.outbox.capacity
      · simp only [hroom, if_true] at hworked
        cases hworked
        rw [if_neg hdirect]
        refine h.offer hs _ [] _ { hold with
          direct := fun hx => absurd hx hdirect
          abandoned := fun hx => absurd hx habandoned
          silent := fun hx => absurd (hold.silent hx).1 habandoned } rfl rfl ?_ id id ?_
        · simp [Station.queued, hbacklog]
        · intro inbox waiting hreceives
          simpa [Telecast.isSilent_iff hs] using hreceives
      · simp [hroom] at hworked

/-- **The publication works**: it offers the next message or gives up its address. -/
theorem OnAir.publish (h : OnAir crew t) (hpublish : t.publish? = some t') : OnAir crew t' := by
  simp only [Telecast.publish?, Option.bind_eq_bind, Option.bind_eq_some_iff] at hpublish
  obtain ⟨s, hs, hpublish⟩ := hpublish
  obtain ⟨publication, broadcast, hworked, rfl⟩ := Telecast.air?_eq_some hpublish
  have hold := h.station s hs
  unfold Publication.step? Outbox.tryReceive at hworked
  cases houtbox : s.publication.outbox.messages with
  | nil =>
    simp only [houtbox] at hworked
    split at hworked
    · rename_i hgone
      simp only [Bool.and_eq_true] at hgone
      cases hworked
      refine h.offer hs _ [] _ { hold with silent := fun _ => ⟨hgone.1, houtbox⟩ } rfl rfl rfl
        (fun _ => ?_) (fun _ => rfl) ?_
      · rw [hold.address, topic_unbind]
      · intro inbox waiting hreceives
        rw [hold.address, ite_self, List.append_nil]
        exact hreceives.unbind rfl
    · cases hworked
  | cons m rest =>
    simp only [houtbox] at hworked
    obtain ⟨tally, hpublish⟩ := ({ s.publication with
      outbox := { s.publication.outbox with messages := rest } } : Publication).publish_eq
        t.network.broadcast m
    rw [hpublish] at hworked
    cases hworked
    refine h.publishNext hs { hold with
      direct := fun hx => ?_
      silent := fun hx => ?_ } ?_ rfl rfl rfl
    · have hnil := hold.direct hx
      rw [houtbox] at hnil
      cases hnil
    · have hnil := (hold.silent hx).2
      rw [houtbox] at hnil
      cases hnil
    · simp [Station.queued, houtbox]

/-! ### What the reader does -/

theorem OnAir.listen (h : OnAir crew t) (hl : t.listener = some l) (broadcast : Broadcast)
    (l' : Listener) (haccepted : l'.accepted = l.accepted)
    (hhears : l'.Hears crew t.log broadcast t.IsSilent) :
    OnAir crew
      { t with network := { t.network with broadcast }, listener := some l' } where
  station := h.station
  ordered := by
    have hordered := h.ordered
    rw [Telecast.accepted, hl, Option.elim_some, ← haccepted] at hordered
    exact hordered
  vacant := fun hnone => nomatch hnone
  listener := fun _ hl₀ => Option.some.inj hl₀ ▸ hhears

/-- What has come to the listener is what had come, and it has learned nothing of the writer. -/
structure Listener.Unmoved (l l' : Listener) : Prop where
  accepted : l'.accepted = l.accepted
  inbox : l'.inbox = l.inbox
  isLost : l'.isLost = l.isLost

theorem Listener.unmoved_beginStep? (h : l.beginStep? = some l') : l.Unmoved l' := by
  unfold Listener.beginStep? at h
  split at h
  · cases h
    exact ⟨rfl, rfl, rfl⟩
  · cases h

theorem Listener.unmoved_endStep? {now : Moment} (h : l.endStep? now = some l') :
    l.Unmoved l' := by
  unfold Listener.endStep? at h
  split at h
  · cases h
    exact ⟨rfl, rfl, rfl⟩
  · cases h

theorem Listener.unmoved_choose (l : Listener) (expired : Bool) (now : Moment) :
    l.Unmoved (l.choose expired now) := by
  unfold Listener.choose
  split
  · exact ⟨rfl, rfl, rfl⟩
  · split
    · exact ⟨rfl, rfl, rfl⟩
    · split <;> exact ⟨rfl, rfl, rfl⟩

/-- Between calls and in choosing a step the reader leaves its inbox alone. -/
theorem OnAir.retune (h : OnAir crew t) (hl : t.listener = some l) (hsame : l.Unmoved l')
    (htuned : ∀ {taken hand waiting}, Tuned crew t.log.batchOf l taken hand waiting →
      Tuned crew t.log.batchOf l' taken hand waiting) :
    OnAir crew { t with listener := some l' } := by
  obtain ⟨⟨taken, hand, waiting, hold, hreceives⟩, hgone⟩ := h.listener l hl
  refine h.listen hl t.network.broadcast l' hsame.accepted
    ⟨⟨taken, hand, waiting, htuned hold, ?_⟩, ?_⟩
  · rw [hsame.inbox]
    exact hreceives
  · rw [hsame.isLost, hsame.accepted]
    exact hgone

theorem Telecast.changeListener?_eq_some {act : Listener → Option Listener}
    (h : t.changeListener? act = some t') :
    ∃ l l', t.listener = some l ∧ act l = some l' ∧ t' = { t with listener := some l' } := by
  simp only [Telecast.changeListener?, Option.bind_eq_bind, Option.bind_eq_some_iff] at h
  obtain ⟨l, hl, l', hact, heq⟩ := h
  exact ⟨l, l', hl, hact, (Option.some.inj heq).symm⟩

theorem OnAir.changes (h : OnAir crew t) {act : Listener → Option Listener}
    (hchange : t.changeListener? act = some t')
    (hsame : ∀ {l l'}, act l = some l' → l.Unmoved l')
    (htuned : ∀ {l l' taken hand waiting}, act l = some l' →
      Tuned crew t.log.batchOf l taken hand waiting →
      Tuned crew t.log.batchOf l' taken hand waiting) : OnAir crew t' := by
  obtain ⟨l, l', hl, hact, rfl⟩ := Telecast.changeListener?_eq_some hchange
  exact h.retune hl (hsame hact) (htuned hact)

/-- **The reader takes in what it has in hand**, when there is nothing more for it. -/
theorem Listener.Hears.absorb {log : Writer.Log} {b : Broadcast} {silent : Prop}
    (hcrew : crew.Casts) (hscript : Script (crew.operators 0) 0 log.batchOf l.accepted)
    {taken hand waiting : List Outgoing} (htuned : Tuned crew log.batchOf l taken hand waiting)
    (hreceives : b.Receives crew.endpoint l.inbox waiting silent)
    (hlost : l.isLost = true → silent ∧ l.accepted.any Outgoing.isEnd = false)
    {patient : Bool} (hphase : l.phase = .taking patient (hand.map Outgoing.bytes)) {gone : Bool}
    (hgone : gone = true → silent ∧ waiting = []) :
    (l.absorb patient (hand.map Outgoing.bytes) gone).Hears crew log b silent ∧
      (l.absorb patient (hand.map Outgoing.bytes) gone).accepted = l.accepted := by
  obtain ⟨reader, habsorb, hnext, hmarked⟩ :=
    htuned.absorb hcrew.alone hscript (by simp [hphase]) gone
  simp only [Listener.absorb, habsorb]
  refine ⟨⟨⟨taken ++ hand, [], waiting, hnext _ ?_ ?_, hreceives⟩, fun hx => ?_⟩, trivial⟩
  · cases patient <;> rfl
  · cases patient <;> simp
  · rcases hmarked hx with hx | ⟨hx, hend⟩
    · exact hlost hx
    · obtain ⟨hsilent, rfl⟩ := hgone hx
      refine ⟨hsilent, ?_⟩
      show l.accepted.any Outgoing.isEnd = false
      rw [htuned.accepted, List.append_nil]
      exact hend

/-- **The reader goes on with its call.** -/
theorem OnAir.proceed (h : OnAir crew t) (hcrew : crew.Casts) (hfits : t.Fits crew) {expired : Bool}
    {now : Moment} (hproceed : t.proceed? expired now = some t') : OnAir crew t' := by
  simp only [Telecast.proceed?, Option.bind_eq_bind, Option.bind_eq_some_iff] at hproceed
  obtain ⟨l, hl, hproceed⟩ := hproceed
  obtain ⟨⟨taken, hand, waiting, htuned, hreceives⟩, hlost⟩ := h.listener l hl
  cases hphase : l.phase with
  | idle => simp [hphase] at hproceed
  | choosing =>
    simp only [hphase] at hproceed
    cases hproceed
    refine h.retune hl (l.unmoved_choose expired now) fun {taken hand waiting} hold => ?_
    have hhand := hold.inHand
    rw [hphase] at hhand
    obtain rfl := List.map_eq_nil_iff.mp hhand.symm
    exact hold.choose hcrew.alone hphase expired now
  | taking patient bytes =>
    have hhand := htuned.inHand
    rw [hphase] at hhand
    obtain rfl : bytes = hand.map Outgoing.bytes := hhand
    have hscript := h.script hfits
    rw [Telecast.accepted, hl, Option.elim_some] at hscript
    have habsorb : ∀ gone : Bool, (gone = true → t.IsSilent ∧ waiting = []) →
        (l.absorb patient (hand.map Outgoing.bytes) gone).Hears crew t.log t.network.broadcast
          t.IsSilent ∧
        (l.absorb patient (hand.map Outgoing.bytes) gone).accepted = l.accepted :=
      fun gone hgone => Listener.Hears.absorb hcrew hscript htuned hreceives hlost hphase hgone
    simp only [hphase] at hproceed
    by_cases hdone : l.reader.isDone = true
    · simp only [hdone, if_true] at hproceed
      cases hproceed
      obtain ⟨hhears, haccepted⟩ := habsorb false (by simp)
      exact h.listen hl t.network.broadcast _ haccepted hhears
    · rw [if_neg hdone] at hproceed
      rcases hreceives.receive with ⟨m, rest, broadcast, rfl, hreceive, hrest⟩ | ⟨hnone, hcase⟩
      · rw [hreceive] at hproceed
        cases hproceed
        exact h.listen hl broadcast _ rfl ⟨⟨taken, hand ++ [m], rest,
          htuned.hold hphase (by simpa using hdone), hrest⟩, hlost⟩
      · obtain ⟨got, hreceive, hgot⟩ := hcase
        rw [hreceive] at hproceed
        rcases hgot with rfl | ⟨hsilent, f, rfl⟩
        · cases hproceed
          obtain ⟨hhears, haccepted⟩ := habsorb false (by simp)
          exact h.listen hl t.network.broadcast _ haccepted hhears
        · cases hproceed
          obtain ⟨hhears, haccepted⟩ := habsorb true fun _ => ⟨hsilent, hnone⟩
          exact h.listen hl t.network.broadcast _ haccepted hhears

end OnAir

end Stepcast
