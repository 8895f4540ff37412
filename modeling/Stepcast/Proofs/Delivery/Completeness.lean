import Stepcast.Proofs.Delivery.Showing

/-!
# Completeness of a feed

Whatever the order of events, the reader is let into steps in increasing order, and at each of them
it has just what the writers put there. When it is told that the stream is over, it has been at
every step at which something was put.

The invariant `Tracked` says what has arrived on the lines, that the reader follows it, and that the
steps so far show it. What is past on every line has arrived, so the steps show all that was put.

Main statement: `complete_run`.
-/

namespace Stepcast

namespace Feed

/-- The blocks that the writers were given, by rank. -/
def written (f : Feed) (rank : UInt32) : List Written :=
  (f.senders.at? rank).elim [] Sender.written

/-- What all writers were given fits into the widths of messages and of step numbers. -/
def Fits (f : Feed) : Prop := ∀ rank s, f.senders.at? rank = some s → s.Fits

/-! ## The invariant -/

/-- What has come over the lines is what the reader follows, and the steps so far show it. -/
structure Tracked (crew : Crew) (received : UInt32 → List Batch) (f : Feed) : Prop where
  connected : Connected crew f.network.exchange f.senders f.reader.links received
  follows : Follows crew received f.reader
  shown : Shown crew received f

section Tracked

variable {crew : Crew} {received : UInt32 → List Batch} {f f' : Feed} {rank : UInt32}

theorem tracked_start {now : Moment} (hcrew : crew.Valid) (hstart : start? crew now = some f) :
    Tracked crew (fun _ => []) f := by
  have hconnected := connected_start hcrew hstart
  unfold start? at hstart
  split at hstart
  · cases hstart
    refine ⟨hconnected, ?_, ?_⟩
    · exact {
        reliable := hcrew.reading
        sound := Archive.sound_of_nil rfl rfl
        holds := fun step _ => ⟨(fun b hb => nomatch hb), fun rank _ => .nil⟩
        late := fun step ⟨w, hw, _⟩ => nomatch hw
        past := fun c hc => nomatch hc }
    · exact {
        increasing := .nil
        last := rfl
        shows := fun e he => nomatch he
        covered := fun rank _ y hy => nomatch hy
        undisturbed := fun o ho => nomatch ho
        finished := fun hover => nomatch hover
        resting := fun hactive => nomatch hactive }
  · cases hstart

/-! ## Writers -/

/-- **What happens on the side of the writers** leaves what was shown as it is. -/
theorem Tracked.senders (h : Tracked crew received f) (network : Network)
    {senders : Table UInt32 Sender}
    (hconnected : Connected crew network.exchange senders f.reader.links received) :
    Tracked crew received { f with network, senders } :=
  ⟨hconnected, h.follows, h.shown.frame network senders⟩

theorem change?_eq_some {act : Sender → Option Sender} (h : f.change? rank act = some f') :
    ∃ s s', f.senders.at? rank = some s ∧ act s = some s' ∧
      f' = { f with senders := f.senders.put rank s' } := by
  simp only [change?, putSender, Option.bind_eq_bind, Option.bind_eq_some_iff] at h
  obtain ⟨s, hs, s', hact, heq⟩ := h
  exact ⟨s, s', hs, hact, (Option.some.inj heq).symm⟩

theorem Tracked.change (h : Tracked crew received f) (hcrew : crew.Valid)
    {act : Sender → Option Sender} (hchange : f.change? rank act = some f')
    (hact : ∀ {x : Exchange} {address : String} {i : Nat} {l : Link} {s s' : Sender}
      {coming : List Batch} {first : Nat} {current : Batch} {flight : Option Outgoing},
      f'.senders.at? rank = some s' → act s = some s' →
      Line (crew.operators rank) rank x address i l s (received rank) coming first current flight →
      s'.responder.server = s.responder.server ∧
        ∃ coming' first' current', Line (crew.operators rank) rank x address i l s'
          (received rank) coming' first' current' flight) :
    Tracked crew received f' := by
  obtain ⟨s, s', hs, hs', rfl⟩ := change?_eq_some hchange
  refine h.senders f.network (h.connected.act hcrew hs fun hline => ?_)
  obtain ⟨hserver, coming', first', current', hline'⟩ := hact (Table.at?_put_self ..) hs' hline
  exact ⟨hserver, .refl .., coming', first', current', _, hline'⟩

theorem Tracked.call (h : Tracked crew received f) (hcrew : crew.Valid) {c : Writer.Call}
    (hcall : f.change? rank (call? · c) = some f') (hfits : f'.Fits) :
    Tracked crew received f' := by
  refine h.change hcrew hcall fun hs' hact hline => ?_
  obtain ⟨-, writer, messages, -, heq⟩ := call?_eq_some hact
  obtain ⟨coming', first', current', hline'⟩ := hline.call hact (hfits rank _ hs')
  exact ⟨by rw [heq], coming', first', current', hline'⟩

theorem Tracked.handOver (h : Tracked crew received f) (hcrew : crew.Valid)
    (hhand : f.change? rank handOver? = some f') : Tracked crew received f' := by
  refine h.change hcrew hhand fun _ hact hline => ?_
  obtain ⟨m, backlog, -, heq⟩ := handOver?_eq_some hact
  exact ⟨by rw [heq], _, _, _, hline.handOver hact⟩

theorem letGo?_eq_some {settings : Settings} {s s' : Sender} (h : letGo? settings s = some s') :
    s' = { s with responder := { s.responder with abandoned := true, shutdown := true } } := by
  unfold letGo? at h
  split at h
  · exact (Option.some.inj h).symm
  · cases h

theorem Tracked.letGo (h : Tracked crew received f) (hcrew : crew.Valid)
    (hgo : f.change? rank (letGo? (crew.writers rank)) = some f') (hfits : f'.Fits) :
    Tracked crew received f' := by
  have hrank : rank ∈ crew.ranks := by
    obtain ⟨s, -, hs, -⟩ := change?_eq_some hgo
    exact h.connected.member rank s hs
  refine h.change hcrew hgo fun hs' hact hline => ?_
  have heq := letGo?_eq_some hact
  have hfit := hfits rank _ hs'
  rw [heq] at hfit
  exact ⟨by rw [heq], _, _, _,
    hline.letGo (hcrew.patient rank hrank) ⟨hfit.calls, hfit.drafts, hfit.steps⟩ hact⟩

theorem Tracked.answer (h : Tracked crew received f) (hcrew : crew.Valid) {waited : Duration}
    (hanswer : f.answer? rank waited = some f') : Tracked crew received f' := by
  simp only [answer?, putSender, Option.bind_eq_bind, Option.bind_eq_some_iff] at hanswer
  obtain ⟨s, hs, ⟨r, x'⟩, hstep, heq⟩ := hanswer
  cases heq
  refine h.senders _ (h.connected.act hcrew hs fun hline => ?_)
  obtain ⟨hserver, hwithin, flight', hline'⟩ := hline.answer hstep
  exact ⟨hserver, hwithin, _, _, _, flight', hline'⟩

/-! ## The reader -/

theorem Tracked.takeIn (h : Tracked crew received f) (hcrew : crew.Valid)
    (hstage : f.reader.stage ≠ .active) (i : Nat) (next : Phase) :
    ∃ received', Tracked crew received' (f.takeIn i next) := by
  obtain ⟨r, n, received', hreceive, hconnected, hfollows, hnewer⟩ :=
    h.follows.receiveLink h.connected hcrew i
  refine ⟨received', ?_⟩
  rw [Feed.takeIn, hreceive]
  exact ⟨hconnected, hfollows, h.shown.newer hnewer hstage n next⟩

theorem Tracked.ask (h : Tracked crew received f) (hcrew : crew.Valid)
    (hstage : f.reader.stage ≠ .active) (i : Nat) (next : Phase) :
    Tracked crew received (f.ask i next) := by
  obtain ⟨r, n, hrequest, hconnected, hfollows, hnewer⟩ :=
    h.follows.requestLink h.connected hcrew i
  rw [Feed.ask, hrequest]
  exact ⟨hconnected, hfollows, h.shown.newer hnewer hstage n next⟩

theorem Tracked.turn (h : Tracked crew received f) (hstage : f.reader.stage ≠ .active)
    (phase : Phase) : Tracked crew received { f with phase } :=
  ⟨h.connected, h.follows, h.shown.turn hstage phase⟩

theorem Tracked.choose (h : Tracked crew received f) (hstage : f.reader.stage ≠ .active)
    (expired : Bool) (now : Moment) : Tracked crew received (f.choose expired now) := by
  unfold Feed.choose
  cases hchoose : f.reader.choose .next with
  | some step =>
    simp only [h.follows.skipTo_eq hchoose]
    exact ⟨h.connected, h.follows.enter h.connected hchoose now,
      h.shown.entered h.follows hchoose now⟩
  | none =>
    simp only
    by_cases hdone : f.reader.isDone = true
    · rw [if_pos hdone, h.connected.lastStatus_eq]
      exact ⟨h.connected, h.follows, h.shown.finish hstage hdone fun rank hrank y hy =>
        h.follows.le_of_choose_eq_none hdone hchoose hrank hy⟩
    · rw [if_neg hdone]
      by_cases hexpired : expired = true
      · rw [if_pos hexpired]
        exact ⟨h.connected, h.follows, h.shown.notReady hstage⟩
      · rw [if_neg hexpired]
        exact h.turn hstage (.asking 0)

theorem Tracked.stage_ne (h : Tracked crew received f) (hphase : f.phase ≠ .idle) :
    f.reader.stage ≠ .active :=
  fun hactive => hphase (h.shown.resting hactive).1

theorem Tracked.proceed (h : Tracked crew received f) (hcrew : crew.Valid) {expired : Bool}
    {now : Moment} (hproceed : f.proceed? expired now = some f') :
    ∃ received', Tracked crew received' f' := by
  unfold proceed? at hproceed
  cases hphase : f.phase with
  | idle => simp [hphase] at hproceed
  | looking i =>
    have hstage := h.stage_ne (by simp [hphase])
    simp only [hphase] at hproceed
    split at hproceed
    · cases hproceed
      exact h.takeIn hcrew hstage i _
    · cases hproceed
      exact ⟨received, h.choose hstage expired now⟩
  | asking i =>
    have hstage := h.stage_ne (by simp [hphase])
    simp only [hphase] at hproceed
    split at hproceed
    · cases hproceed
      exact ⟨received, h.ask hcrew hstage i _⟩
    · cases hproceed
      exact ⟨received, h.turn hstage _⟩
  | awaiting i =>
    have hstage := h.stage_ne (by simp [hphase])
    simp only [hphase] at hproceed
    cases hproceed
    exact h.takeIn hcrew hstage i _
  | renewing i =>
    have hstage := h.stage_ne (by simp [hphase])
    simp only [hphase] at hproceed
    split at hproceed
    · cases hproceed
      exact ⟨received, h.ask hcrew hstage i _⟩
    · cases hproceed
      exact ⟨received, h.turn hstage _⟩

theorem Tracked.beginStep (h : Tracked crew received f) (hbegin : f.beginStep? = some f') :
    Tracked crew received f' := by
  unfold beginStep? at hbegin
  split at hbegin
  · rename_i hcheck
    cases hbegin
    apply h.turn
    intro hactive
    simp [Reader.checkBegin, Reader.ensureOpen, hactive] at hcheck
  · cases hbegin

theorem Tracked.endStep (h : Tracked crew received f) {now : Moment}
    (hend : f.endStep? now = some f') : Tracked crew received f' := by
  unfold endStep? at hend
  split at hend
  · rename_i step _ _ hcurrent
    cases hend
    exact ⟨h.connected, h.follows.leave hcurrent now, h.shown.left step now _⟩
  · cases hend

/-- **An event keeps the invariant.** -/
theorem Tracked.handle (h : Tracked crew received f) (hcrew : crew.Valid) {event : Event}
    (hevent : f.handle? crew event = some f') (hfits : f'.Fits) :
    ∃ received', Tracked crew received' f' := by
  cases event with
  | openWriter rank now =>
    obtain ⟨network, senders, rfl, hconnected⟩ := h.connected.openWriter hcrew hevent
    exact ⟨received, h.senders network hconnected⟩
  | call rank c => exact ⟨received, h.call hcrew hevent hfits⟩
  | handOver rank => exact ⟨received, h.handOver hcrew hevent⟩
  | letGo rank => exact ⟨received, h.letGo hcrew hevent hfits⟩
  | answer rank waited => exact ⟨received, h.answer hcrew hevent⟩
  | beginStep => exact ⟨received, h.beginStep hevent⟩
  | proceed expired now => exact h.proceed hcrew hevent
  | endStep now => exact ⟨received, h.endStep hevent⟩

end Tracked

/-! ## Runs -/

/-- Calls have been made on a sender since. -/
structure Extends (s s' : Sender) : Prop where
  calls : s.calls <+: s'.calls
  drafts : s.drafts <+: s'.drafts

theorem Extends.of_eq {s s' : Sender} (hcalls : s'.calls = s.calls)
    (hdrafts : s'.drafts = s.drafts) : Extends s s' :=
  ⟨hcalls ▸ List.prefix_refl _, hdrafts ▸ List.prefix_refl _⟩

theorem Extends.fits {s s' : Sender} (h : Extends s s') (hfits : s'.Fits) : s.Fits where
  calls := fun c hc => hfits.calls c (h.calls.subset hc)
  drafts := fun d hd => hfits.drafts d (h.drafts.subset hd)
  steps := by
    obtain ⟨more, hmore⟩ := h.calls
    have hle := Diary.steps_le_append s.calls more
    have hsteps := hfits.steps
    rw [← hmore] at hsteps
    omega

section Runs

variable {crew : Crew} {f f' : Feed} {rank : UInt32} {s s' : Sender}

theorem senders_proceed? {expired : Bool} {now : Moment} (h : f.proceed? expired now = some f') :
    f'.senders = f.senders := by
  have htake : ∀ i next, (f.takeIn i next).senders = f.senders := by
    intro i next
    unfold Feed.takeIn
    split <;> rfl
  have hchoose : (f.choose expired now).senders = f.senders := by
    unfold Feed.choose
    split
    · rfl
    · split
      · rfl
      · split <;> rfl
  unfold proceed? at h
  cases hphase : f.phase with
  | idle => simp [hphase] at h
  | looking i =>
    simp only [hphase] at h
    split at h
    · cases h
      exact htake i _
    · cases h
      exact hchoose
  | awaiting i =>
    simp only [hphase] at h
    cases h
    exact htake i _
  | asking i =>
    simp only [hphase] at h
    split at h <;> (cases h; rfl)
  | renewing i =>
    simp only [hphase] at h
    split at h <;> (cases h; rfl)

theorem openWriter?_eq_some {now : Moment} (h : f.openWriter? crew rank now = some f') :
    ∃ network s, f.senders.at? rank = none ∧
      f' = { f with network, senders := f.senders.put rank s } := by
  unfold openWriter? at h
  simp only at h
  split at h
  · split at h
    · rename_i hnew
      simp only [Bool.and_eq_true, Option.isNone_iff_eq_none] at hnew
      exact ⟨_, _, hnew.2, (Option.some.inj h).symm⟩
    · cases h
  · cases h

theorem extends_put {senders : Table UInt32 Sender} {rank₀ : UInt32} {s₀ s₀' : Sender}
    (hs : senders.at? rank = some s) (hs₀ : senders.at? rank₀ = some s₀) (h : Extends s₀ s₀') :
    ∃ s', (senders.put rank₀ s₀').at? rank = some s' ∧ Extends s s' := by
  by_cases hrank : rank = rank₀
  · subst hrank
    cases hs₀.symm.trans hs
    exact ⟨s₀', Table.at?_put_self .., h⟩
  · exact ⟨s, (Table.at?_put_of_ne hrank ..).trans hs, .of_eq rfl rfl⟩

theorem extends_handle? {event : Event} (h : f.handle? crew event = some f')
    (hs : f.senders.at? rank = some s) : ∃ s', f'.senders.at? rank = some s' ∧ Extends s s' := by
  have hsame : f'.senders = f.senders → ∃ s', f'.senders.at? rank = some s' ∧ Extends s s' :=
    fun heq => ⟨s, heq ▸ hs, .of_eq rfl rfl⟩
  cases event with
  | openWriter rank₀ now =>
    obtain ⟨network, s₀, hnone, rfl⟩ := openWriter?_eq_some h
    have hne : rank ≠ rank₀ := by
      intro heq
      rw [heq, hnone] at hs
      cases hs
    exact ⟨s, (Table.at?_put_of_ne hne ..).trans hs, .of_eq rfl rfl⟩
  | call rank₀ c =>
    obtain ⟨s₀, s₀', hs₀, hcall, rfl⟩ := change?_eq_some h
    obtain ⟨-, writer, messages, -, rfl⟩ := call?_eq_some hcall
    exact extends_put hs hs₀ ⟨List.prefix_append .., List.prefix_append ..⟩
  | handOver rank₀ =>
    obtain ⟨s₀, s₀', hs₀, hhand, rfl⟩ := change?_eq_some h
    obtain ⟨m, backlog, -, rfl⟩ := handOver?_eq_some hhand
    exact extends_put hs hs₀ (.of_eq rfl rfl)
  | letGo rank₀ =>
    obtain ⟨s₀, s₀', hs₀, hgo, rfl⟩ := change?_eq_some h
    rw [letGo?_eq_some hgo]
    exact extends_put hs hs₀ (.of_eq rfl rfl)
  | answer rank₀ waited =>
    simp only [handle?, answer?, putSender, Option.bind_eq_bind, Option.bind_eq_some_iff] at h
    obtain ⟨s₀, hs₀, ⟨r, x'⟩, -, heq⟩ := h
    cases heq
    exact extends_put hs hs₀ (.of_eq rfl rfl)
  | beginStep =>
    simp only [handle?, beginStep?] at h
    split at h
    · cases h
      exact hsame rfl
    · cases h
  | proceed expired now => exact hsame (senders_proceed? h)
  | endStep now =>
    simp only [handle?, endStep?] at h
    split at h
    · cases h
      exact hsame rfl
    · cases h

theorem fits_of_handle? {event : Event} (h : f.handle? crew event = some f') (hfits : f'.Fits) :
    f.Fits := by
  intro rank s hs
  obtain ⟨s', hs', hextends⟩ := extends_handle? h hs
  exact hextends.fits (hfits rank s' hs')

theorem run?_append_singleton (crew : Crew) (now : Moment) (events : List Event) (event : Event) :
    run? crew now (events ++ [event]) = (run? crew now events).bind (handle? crew · event) := by
  cases hstart : start? crew now with
  | none => simp [run?, hstart]
  | some f₀ => simp [run?, hstart, List.foldlM_append]

/-- **The invariant holds along every run.** -/
theorem tracked_run (hcrew : crew.Valid) {now : Moment} {events : List Event}
    (hrun : run? crew now events = some f) (hfits : f.Fits) :
    ∃ received, Tracked crew received f := by
  induction events using List.reverseRecOn generalizing f with
  | nil =>
    obtain ⟨f₀, hstart, heq⟩ := Option.bind_eq_some_iff.mp hrun
    cases heq
    exact ⟨_, tracked_start hcrew hstart⟩
  | append_singleton events event ih =>
    rw [run?_append_singleton] at hrun
    obtain ⟨f₀, hrun₀, hevent⟩ := Option.bind_eq_some_iff.mp hrun
    obtain ⟨received, htracked⟩ := ih hrun₀ (fits_of_handle? hevent hfits)
    exact htracked.handle hcrew hevent hfits

end Runs

/-! ## What was written -/

section Settled

variable {operators : Operators} {rank : UInt32} {x : Exchange} {address : String} {client : Nat}
  {l : Link} {s : Sender} {received coming : List Batch} {first : Nat} {current : Batch}
  {flight : Option Outgoing}

theorem Line.written_eq
    (h : Line operators rank x address client l s received coming first current flight) :
    s.written = Draft.written received.flatten ++ (Draft.written coming.flatten ++
      (Draft.written current ++
        (Diary.of s.calls).deferred.map (fun p => ⟨(Diary.of s.calls).step, p.1, p.2⟩))) := by
  rw [Sender.written, Diary.blocks, h.account.performed, List.flatten_append, Draft.written_append,
    Draft.written_append]
  simp only [List.append_assoc]

theorem Line.written_eq_of_ended
    (h : Line operators rank x address client l s received coming first current flight)
    (hended : l.ended = true) : s.written = Draft.written received.flatten := by
  obtain ⟨hclosed, hcoming⟩ := h.ended hended
  have hcurrent := h.account.resting (h.account.closed hclosed)
  have hdeferred := h.account.deferred_nil (by rw [hclosed]; decide)
  rw [h.account.deferred_eq] at hdeferred
  rw [h.written_eq, hcoming, hcurrent, hdeferred]
  exact List.append_nil _

theorem Line.lt_of_mem
    (h : Line operators rank x address client l s received coming first current flight)
    (hfits : s.Fits) {y z : Written} (hy : y ∈ Draft.written received.flatten)
    (hz : z ∈ Draft.written coming.flatten ∨ z ∈ Draft.written current ∨
      z ∈ (Diary.of s.calls).deferred.map (fun p => ⟨(Diary.of s.calls).step, p.1, p.2⟩)) :
    y.step < z.step := by
  obtain ⟨b, hb, hyb⟩ := mem_written_flatten.mp hy
  have hbefore := h.account.before b (List.mem_append_left _ hb) y hyb
  rcases hz with hz | hz | hz
  · obtain ⟨b', hb', hzb⟩ := mem_written_flatten.mp hz
    exact (List.pairwise_append.mp h.account.ordered).2.2 b hb b' hb' y hyb z hzb
  · have hsince := (h.account.since z hz).1
    exact UInt64.lt_iff_toNat_lt.mpr (Nat.lt_of_lt_of_le hbefore hsince)
  · obtain ⟨p, hp, rfl⟩ := List.mem_map.mp hz
    have hactive : s.writer.stage = .active := by
      by_contra hstage
      rw [← h.account.deferred_eq, h.account.deferred_nil hstage] at hp
      cases hp
    have hlt := h.account.lt_of_active hactive
    have hsteps := hfits.steps
    have hstep := Diary.toNat_step (d := Diary.of s.calls) (by omega)
    show y.step < (Diary.of s.calls).step
    exact UInt64.lt_iff_toNat_lt.mpr (by omega)

/-- **At a step that is past everything has arrived.** -/
theorem Line.at_written
    (h : Line operators rank x address client l s received coming first current flight)
    (hfits : s.Fits) {c step : UInt64} (hstep : step ≤ c)
    (hpast : l.ended = true ∨ ∃ y ∈ Draft.written received.flatten, c ≤ y.step) :
    Written.at step s.written = Written.at step (Draft.written received.flatten) := by
  rcases hpast with hended | ⟨y, hy, hle⟩
  · rw [h.written_eq_of_ended hended]
  · have hafter : ∀ z : Written, y.step < z.step → z.step ≠ step := by
      intro z hlt heq
      exact absurd (Std.le_trans hstep hle) (UInt64.not_le.mpr (heq ▸ hlt))
    rw [h.written_eq, Written.at_append]
    apply List.append_right_eq_self.mpr
    apply Written.at_eq_nil_iff.mpr
    intro z hz
    simp only [List.mem_append] at hz
    exact hafter z (h.lt_of_mem hfits hy hz)

end Settled

/-- **When all links are past a step, all that was written there has arrived.** -/
theorem Tracked.at_written {crew : Crew} {received : UInt32 → List Batch} {f : Feed}
    (h : Tracked crew received f) (hfits : f.Fits) {c : UInt64}
    (hpast : ∀ i rank, crew.ranks[i]? = some rank →
      Past f.reader.links i (arrived received rank) c) {step : UInt64} (hstep : step ≤ c)
    {rank : UInt32} (hrank : rank ∈ crew.ranks) :
    Written.at step (f.written rank) = Written.at step (arrived received rank) := by
  obtain ⟨i, hi⟩ := List.mem_iff_getElem?.mp hrank
  obtain ⟨l, hl, hlined⟩ := h.connected.lined i rank hi
  have hpast := hpast i rank hi
  rw [written]
  rw [arrived] at hpast ⊢
  generalize hs : f.senders.at? rank = sender at hlined
  generalize harrived : received rank = batches at hlined hpast
  cases hlined with
  | absent _ _ => rfl
  | present _ hline =>
    apply hline.at_written (hfits rank _ hs) hstep
    rcases hpast with ⟨l', hl', hended⟩ | hlater
    · cases hl.symm.trans hl'
      exact .inl hended
    · exact .inr hlater

/-! ## Completeness -/

/-- What the reader was shown is complete. -/
structure Complete (crew : Crew) (f : Feed) : Prop where
  /-- The reader is let into later and later steps. -/
  increasing : f.exposed.Pairwise (fun e e' => e.step < e'.step)
  /-- At each of them it has what the writers were given for it. -/
  shows : ∀ e ∈ f.exposed, e.Shows crew f.written
  /-- This is so until it ends the step. -/
  resting : f.reader.stage = .active → f.exposed.getLast?.map Exposure.reader = some f.reader
  /-- No block that comes next is left out because it comes too late. -/
  punctual : ∀ l ∈ f.reader.links, ∀ message ∈ (l.receive f.network).1,
    f.reader.archive.discards message = []
  /-- No call fails, and no writer is taken for lost. -/
  undisturbed : ∀ o ∈ f.outcomes, o ∈ [.ok .ready, .ok .notReady, .ok .endOfStream]
  /-- When the stream is over the reader has been at the steps at which something was put. -/
  finished : .ok .endOfStream ∈ f.outcomes → ∀ step, (∃ e ∈ f.exposed, e.step = step) ↔
    ∃ rank ∈ crew.ranks, Written.at step (f.written rank) ≠ []

theorem Tracked.complete {crew : Crew} {received : UInt32 → List Batch} {f : Feed}
    (h : Tracked crew received f) (hcrew : crew.Valid) (hfits : f.Fits) : f.Complete crew := by
  have hshows : ∀ e ∈ f.exposed, e.Shows crew f.written := by
    intro e he
    obtain ⟨c, hc, hle⟩ := h.shown.le_currentStep he
    exact (h.shown.shows e he).congr fun rank hrank =>
      h.at_written hfits (h.follows.past c hc) hle hrank
  exact {
    increasing := h.shown.increasing
    shows := hshows
    resting := fun hactive => (h.shown.resting hactive).2
    punctual := fun l hl message hmessage =>
      h.follows.discards_eq_nil h.connected hcrew hl hmessage
    undisturbed := h.shown.undisturbed
    finished := by
      intro hover step
      obtain ⟨hdone, hall⟩ := h.shown.finished hover
      constructor
      · intro hx
        obtain ⟨e, he, rfl⟩ := hx
        exact (hshows e he).nonempty
      · intro hx
        obtain ⟨rank, hrank, hne⟩ := hx
        have hended : ∀ i rank, crew.ranks[i]? = some rank →
            Past f.reader.links i (arrived received rank) step :=
          fun i rank hi => .inl (h.connected.ended_of_isDone hdone hi)
        rw [h.at_written hfits hended (Std.le_refl step) hrank] at hne
        obtain ⟨y, hy⟩ := List.exists_mem_of_ne_nil _ hne
        obtain ⟨hmem, rfl⟩ := mem_at.mp hy
        exact h.shown.covered rank hrank y hmem (hall rank hrank y hmem) }

/-- **Reliable delivery is complete**, in whichever order the writers, their responders and the
reader act. -/
theorem complete_run {crew : Crew} (hcrew : crew.Valid) {now : Moment} {events : List Event}
    {f : Feed} (hrun : run? crew now events = some f) (hfits : f.Fits) : f.Complete crew := by
  obtain ⟨received, htracked⟩ := tracked_run hcrew hrun hfits
  exact htracked.complete hcrew hfits

/-! ### Two writers, and one whose block cannot be read -/

section Sample

deriving instance DecidableEq for Draft

def sampleCrew (ranks : List UInt32) : Crew :=
  { name := "s"
    ranks
    settings := { address := some "a", delivery := .reliable }
    inverses := []
    writers := fun _ => { address := some "a", delivery := .reliable }
    operators := fun _ => [] }

/-- The calls of a writer that puts these variables at its only step. -/
def sampleCalls (vs : List Variable) : List Writer.Call :=
  [.beginStep] ++ vs.map (.put · [7] .sync) ++ [.endStep ⟨0, 0⟩, .close ⟨0, 0⟩]

/-- A writer comes, is called and hands over its two messages. -/
def writes (rank : UInt32) (vs : List Variable) : List Event :=
  [.openWriter rank ⟨0, 0⟩] ++ (sampleCalls vs).dropLast.map (.call rank) ++
    [.handOver rank, .call rank (.close ⟨0, 0⟩), .handOver rank]

/-- A responder answers a request. -/
def answers (rank : UInt32) : List Event := List.replicate 3 (.answer rank .zero)

/-- The reader goes on `n` times. -/
def goesOn (n : Nat) : List Event := List.replicate n (.proceed false ⟨0, 0⟩)

/-- Rank 1 puts nothing at its step, so the reader has to wait for the end of both streams. -/
def sampleEvents : List Event :=
  writes 0 [.scalar "v" .uint8] ++ writes 1 [] ++ goesOn 3 ++ answers 0 ++ answers 1 ++
    [.beginStep] ++ goesOn 2 ++ [.proceed true ⟨0, 0⟩] ++
    [.beginStep] ++ goesOn 4 ++ answers 0 ++ goesOn 2 ++ answers 1 ++ goesOn 5 ++
    [.endStep ⟨0, 0⟩] ++ goesOn 3 ++ [.beginStep] ++ goesOn 3

/-- The drafts that the writers finish. -/
def sampleDraft : UInt32 → Draft
  | 0 =>
    { rank := 0
      payload := some [7]
      records := [(0, [{ Draft.recordOf (.scalar "v" .uint8) 1 16 with timestamp := some 0 }])]
      attributes := some [] }
  | rank => { rank, payload := some [], attributes := some [] }

theorem sampleCrew_valid {ranks : List UInt32} (h : ranks.Nodup) : (sampleCrew ranks).Valid :=
  ⟨h, rfl, fun _ _ => rfl, fun _ _ => ⟨rfl, rfl⟩, fun _ _ => rfl⟩

theorem sampleDraft_fits : ∀ rank ∈ [0, 1], (sampleDraft rank).Fits := by
  have hnone : ({} : Attributes).Fits :=
    ⟨by decide, (fun e he => nomatch he), fun e he => nomatch he⟩
  intro rank hrank
  have hrank : rank = 0 ∨ rank = 1 := by simpa using hrank
  rcases hrank with rfl | rfl
  · refine ⟨?_, by decide, ?_, by decide +kernel⟩
    · intro attributes hattributes
      cases hattributes
      exact hnone
    · intro step
      rw [Draft.recordsAt, sampleDraft, Table.at?_cons]
      split <;> simp
  · refine ⟨?_, by decide, fun step => by simp [Draft.recordsAt, sampleDraft], by decide +kernel⟩
    intro attributes hattributes
    cases hattributes
    exact hnone

theorem sampleCalls_fit {vs : List Variable} (h : ∀ v ∈ vs, v.Fits) :
    ∀ c ∈ sampleCalls vs, c.Fits := by
  intro c hc
  simp only [sampleCalls, List.mem_append, List.mem_map, List.mem_cons, List.not_mem_nil,
    or_false] at hc
  rcases hc with (rfl | ⟨v, hv, rfl⟩) | rfl | rfl
  · trivial
  · exact h v hv
  · trivial
  · trivial

theorem complete_run_sample : ∃ f, run? (sampleCrew [0, 1]) ⟨0, 0⟩ sampleEvents = some f ∧
    f.exposed.map Exposure.step = [0] ∧
    f.outcomes.map Except.toOption = [some .notReady, some .ready, some .endOfStream] ∧
    f.Complete (sampleCrew [0, 1]) := by
  have hruns : (run? (sampleCrew [0, 1]) ⟨0, 0⟩ sampleEvents).any (fun f =>
      f.exposed.map Exposure.step = [0] ∧
      f.outcomes.map Except.toOption = [some .notReady, some .ready, some .endOfStream] ∧
      f.senders.map (fun e => (e.1, e.2.calls, e.2.drafts)) =
        [(0, sampleCalls [.scalar "v" .uint8], [sampleDraft 0]),
          (1, sampleCalls [], [sampleDraft 1])]) = true := by
    decide +kernel
  obtain ⟨f, hrun, hf⟩ := (Option.any_eq_true _ _).mp hruns
  obtain ⟨hexposed, houtcomes, hsenders⟩ := of_decide_eq_true hf
  refine ⟨f, hrun, hexposed, houtcomes, complete_run (sampleCrew_valid (by decide)) hrun ?_⟩
  intro rank s hs
  have hmem := List.mem_map_of_mem (f := fun e => (e.1, e.2.calls, e.2.drafts))
    (Table.mem_of_at? hs)
  rw [hsenders] at hmem
  simp only [List.mem_cons, Prod.mk.injEq, List.not_mem_nil, or_false] at hmem
  rcases hmem with ⟨-, hcalls, hdrafts⟩ | ⟨-, hcalls, hdrafts⟩
  · have hv : (Variable.scalar "v" .uint8).Fits :=
      ⟨rfl, by decide, by decide, by decide, fun _ h => nomatch h⟩
    refine ⟨hcalls ▸ sampleCalls_fit ?_, hdrafts ▸ ?_, hcalls ▸ by decide⟩
    · exact fun v hmem => List.mem_singleton.mp hmem ▸ hv
    · exact fun d hd => List.mem_singleton.mp hd ▸ sampleDraft_fits 0 (by simp)
  · refine ⟨hcalls ▸ sampleCalls_fit ?_, hdrafts ▸ ?_, hcalls ▸ by decide⟩
    · exact fun v hmem => absurd hmem List.not_mem_nil
    · exact fun d hd => List.mem_singleton.mp hd ▸ sampleDraft_fits 1 (by simp)

/-- A selection with an extent but no start. -/
def misfit : Variable := { name := "v", type := .uint8, selection := ⟨[], [1]⟩ }

/-- **A writer takes a block that no reader can read.** Its message is refused as a whole, and the
step never comes. -/
theorem incomplete_run : (sampleCrew [0]).Valid ∧
    ∃ f, run? (sampleCrew [0]) ⟨0, 0⟩
        (writes 0 [misfit] ++ goesOn 2 ++ answers 0 ++ [.beginStep] ++ goesOn 1 ++ [.beginStep] ++
          goesOn 3 ++ answers 0 ++ goesOn 4) = some f ∧
      f.exposed.map Exposure.step = [] ∧
      f.outcomes.map Except.toOption = [none, some .endOfStream] ∧
      ¬ f.Complete (sampleCrew [0]) := by
  refine ⟨sampleCrew_valid (by decide), ?_⟩
  have hruns : (run? (sampleCrew [0]) ⟨0, 0⟩
      (writes 0 [misfit] ++ goesOn 2 ++ answers 0 ++ [.beginStep] ++ goesOn 1 ++ [.beginStep] ++
        goesOn 3 ++ answers 0 ++ goesOn 4)).any (fun f =>
      f.exposed.map Exposure.step = [] ∧
      f.outcomes.map Except.toOption = [none, some .endOfStream]) = true := by
    decide +kernel
  obtain ⟨f, hrun, hf⟩ := (Option.any_eq_true _ _).mp hruns
  obtain ⟨hexposed, houtcomes⟩ := of_decide_eq_true hf
  refine ⟨f, hrun, hexposed, houtcomes, fun hcomplete => ?_⟩
  have hfault : none ∈ f.outcomes.map Except.toOption := houtcomes ▸ List.mem_cons_self
  obtain ⟨o, ho, hnone⟩ := List.mem_map.mp hfault
  have hfine := hcomplete.undisturbed o ho
  simp only [List.mem_cons, List.not_mem_nil, or_false] at hfine
  rcases hfine with rfl | rfl | rfl <;> cases hnone

end Sample

end Feed

end Stepcast
