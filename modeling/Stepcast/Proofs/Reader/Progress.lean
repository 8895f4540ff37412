import Stepcast.Proofs.Reader.Calls
import Stepcast.Proofs.Reader.Selection

/-!
# The progress of a reader

The current step of a reader only grows. Between steps everything at the current step and before it
has been erased, and the watermark is the current step, so what comes for those steps is late
(`Archive.Cleared`). Within a step only what lies before it has been erased (`Archive.Reached`).
Messages keep the first; going to a step leads from the first to the second, and ending the step
back. A message that is refused changes nothing, so a call that fails midway keeps it too.

Main statements: `Advances.call`, `progress_run`.
-/

namespace Stepcast

namespace Archive

/-! ## Between steps and within one -/

/-- Nothing is live at the current step or before, and what comes for those steps is late. -/
structure Cleared (a : Archive) (current : Option UInt64) : Prop where
  sound : a.Sound
  watermark : a.watermark = current
  minStep : ∀ c ∈ current, a.minStep = some (successor c)
  lt_live : ∀ c ∈ current, ∀ s ∈ a.liveSteps, c < s

/-- Nothing is live before the step, and neither the step nor a later one has been erased. -/
structure Reached (a : Archive) (step : UInt64) : Prop where
  sound : a.Sound
  watermark_lt : ∀ w ∈ a.watermark, w < step
  le_live : ∀ s ∈ a.liveSteps, step ≤ s

section Cleared

variable {a : Archive} {current : Option UInt64} {step : UInt64}

/-- **Receiving adds nothing at the current step or before it.** -/
theorem Cleared.put (h : a.Cleared current) (message : Bytes) :
    (a.put message).1.Cleared current := by
  have hsound := h.sound.put message
  have hreceived := a.received_put message
  generalize (a.put message).1 = a₁ at hsound hreceived
  cases hreceived with
  | same hsame _ =>
    exact ⟨hsound, hsame.watermark.trans h.watermark,
      fun c hc => hsame.minStep.trans (h.minStep c hc),
      fun c hc s hs => h.lt_live c hc s (by rwa [liveSteps, hsame.steps] at hs)⟩
  | @added a' blocks hsame _ _ hblocks =>
    have honTime : ∀ c ∈ current, ∀ b ∈ blocks, c < b.step := by
      intro c hc b hb
      exact watermark_lt_of_onTime (hblocks b hb).2 c (h.watermark ▸ hc)
    refine ⟨hsound, ?_, fun c hc => ?_, fun c hc s hs => ?_⟩
    · rw [watermark_addBlocks]
      exact hsame.watermark.trans h.watermark
    · exact minStep_addBlocks (hsame.minStep.trans (h.minStep c hc))
        fun b hb => successor_le_of_lt (honTime c hc b hb)
    · rcases mem_liveSteps_addBlocks.mp hs with hs | ⟨b, hb, rfl⟩
      · exact h.lt_live c hc s (by rwa [liveSteps, keep, hsame.steps] at hs)
      · exact honTime c hc b hb

/-- **Erasing all that lies before a later step leads to that step.** -/
theorem Cleared.skip (h : a.Cleared current) (hstep : ∀ c ∈ current, c < step)
    {erased : List UInt64} (herased : ∀ s, s ∈ erased ↔ s ∈ a.liveSteps ∧ s < step) :
    (erased.foldl erase a).Reached step where
  sound := h.sound.foldl_erase erased
  watermark_lt := by
    refine watermark_foldl_erase_lt (fun w hw => hstep w (h.watermark ▸ hw)) fun e he => ?_
    exact ((herased e).mp he).2
  le_live := by
    intro s hs
    obtain ⟨hlive, hkept⟩ := mem_liveSteps_foldl_erase.mp hs
    exact UInt64.not_lt.mp fun hlt => hkept ((herased s).mpr ⟨hlive, hlt⟩)

/-- **Erasing the step itself clears it.** -/
theorem Reached.erase (h : a.Reached step) : (a.erase step).Cleared (some step) := by
  have hlive : ∀ s ∈ (a.erase step).liveSteps, step < s := by
    intro s hs
    obtain ⟨hs, hne⟩ := mem_liveSteps_erase.mp hs
    exact UInt64.lt_of_le_of_ne (h.le_live s hs) (Ne.symm hne)
  refine ⟨h.sound.erase step, ?_, ?_, ?_⟩
  · rw [watermark_erase]
    cases hwatermark : a.watermark with
    | none => rfl
    | some w =>
      rw [maxOption, word_max_eq_right (Std.le_of_lt (h.watermark_lt w hwatermark))]
  · intro c hc
    cases hc
    -- What is live now lies past the step, so the least step follows it.
    show some _ = _
    cases hrest : a.steps.without step with
    | nil => rfl
    | cons e rest =>
      have he : step < e.1 := by
        refine hlive e.1 ?_
        rw [liveSteps, show (a.erase step).steps = a.steps.without step from rfl, hrest]
        exact List.mem_cons_self
      exact congrArg some (word_min_eq_right (successor_le_of_lt he))
  · intro c hc
    cases hc
    exact hlive

end Cleared

end Archive

namespace Reading

/-! ## The invariant -/

/-- The exposed steps increase up to the current one, and the archive has only what lies past it, or
what lies at it within a step. -/
structure Advances (x : Reading) : Prop where
  ascending : x.exposed.Pairwise (· < ·)
  last : x.exposed.getLast? = x.reader.currentStep
  idle : x.reader.stage = .idle → x.reader.archive.Cleared x.reader.currentStep
  active : x.reader.stage = .active → ∃ c ∈ x.reader.currentStep, x.reader.archive.Reached c
  closed : x.reader.stage = .closed → x.reader.archive.buffers = []

section Advances

variable {x x' : Reading}

/-- Of a cleared archive the reader erases all that is live before the step it goes to. -/
theorem mem_skipped_iff {r : Reader} (h : r.archive.Cleared r.currentStep) {step s : UInt64} :
    s ∈ r.candidates.takeWhile (· < step) ↔ s ∈ r.archive.liveSteps ∧ s < step := by
  refine (Reader.mem_skipped h.sound.sorted).trans (and_congr_right fun hs => ?_)
  exact and_iff_right fun c hc => h.lt_live c hc s hs

theorem lt_of_choose {r : Reader} {mode : StepMode} {step : UInt64}
    (h : r.choose mode = some step) : ∀ c ∈ r.currentStep, c < step :=
  (Feed.mem_candidates.mp (Reader.mem_candidates_of_choose h)).2

theorem Advances.polled (h : x.Advances) (hidle : x.reader.stage = .idle) (hpolled : Polled x x') :
    x'.Advances := by
  have hpasses := hpolled.passes
  have hcleared : x'.reader.archive.Cleared x.reader.currentStep :=
    hpolled.archive (P := fun a => a.Cleared x.reader.currentStep)
      (fun _ message ha => ha.put message) (h.idle hidle)
  exact {
    ascending := hpasses.exposed ▸ h.ascending
    last := by rw [hpasses.exposed, hpasses.currentStep, h.last]
    idle := fun _ => hpasses.currentStep ▸ hcleared
    active := fun hactive => by
      rw [hpasses.stage, hidle] at hactive
      cases hactive
    closed := fun hclosed => by
      rw [hpasses.stage, hidle] at hclosed
      cases hclosed }

theorem Advances.enter (h : x.Advances) (hidle : x.reader.stage = .idle) {mode : StepMode}
    {step : UInt64} (hchoose : x.reader.choose mode = some step) (now : Moment) :
    (x.enter step now).Advances where
  ascending := by
    refine List.pairwise_append.mpr ⟨h.ascending, List.pairwise_singleton _ _, fun s hs t ht => ?_⟩
    rw [List.mem_singleton.mp ht]
    obtain ⟨before, c, hbefore⟩ := List.eq_nil_or_concat' x.exposed |>.resolve_left
      (List.ne_nil_of_mem hs)
    have hascending := h.ascending
    have hlast := h.last
    rw [hbefore] at hs hascending hlast
    have hcurrent : c < step := lt_of_choose hchoose c (by rw [← hlast, List.getLast?_concat]; rfl)
    rcases List.mem_append.mp hs with hs | hs
    · have hlt := (List.pairwise_append.mp hascending).2.2 s hs c (List.mem_singleton_self c)
      exact UInt64.lt_trans hlt hcurrent
    · rwa [List.mem_singleton.mp hs]
  last := List.getLast?_concat
  idle := fun hidle => by cases hidle
  active := fun _ =>
    ⟨step, rfl, (h.idle hidle).skip (lt_of_choose hchoose) fun _ => mem_skipped_iff (h.idle hidle)⟩
  closed := fun hclosed => by cases hclosed

theorem Advances.begun (h : x.Advances) {mode : StepMode} {result : Except Fault StepStatus}
    (hbegun : Begun mode x x' result) : x'.Advances := by
  cases hbegun with
  | barred _ => exact h
  | refused hidle hpolled => exact h.polled hidle hpolled
  | expired hidle hpolled => exact h.polled hidle hpolled
  | entered now hidle hpolled hchoose =>
    exact (h.polled hidle hpolled).enter (hpolled.passes.stage.trans hidle) hchoose now
  | finished hidle hpolled _ _ => exact h.polled hidle hpolled

theorem Advances.endStep (h : x.Advances) (now : Moment) (n : Network) :
    (x.call (.endStep now n)).Advances := by
  rw [Reading.call]
  rcases endStep_cases x.reader now n with heq | ⟨step, hactive, hcurrent, heq⟩ <;> rw [heq]
  · exact h
  · obtain ⟨c, hc, hreached⟩ := h.active hactive
    cases hcurrent.symm.trans hc
    exact {
      ascending := h.ascending
      last := h.last
      idle := fun _ => by
        show (x.reader.archive.erase step).Cleared x.reader.currentStep
        rw [hcurrent]
        exact hreached.erase
      active := fun hactive => by cases hactive
      closed := fun hclosed => by cases hclosed }

theorem Advances.close (h : x.Advances) (n : Network) : (x.call (.close n)).Advances := by
  rw [Reading.call, Reader.close]
  split
  · exact h
  · exact {
      ascending := h.ascending
      last := h.last
      idle := fun hidle => by cases hidle
      active := fun hactive => by cases hactive
      closed := fun _ => rfl }

/-- **A call keeps the reader advancing**, however it ends. -/
theorem Advances.call (h : x.Advances) (c : Call) : (x.call c).Advances := by
  cases c with
  | beginStep mode first later => exact h.begun (begun_beginStep x mode first later)
  | endStep now n => exact h.endStep now n
  | close n => exact h.close n

theorem Advances.run (h : x.Advances) (calls : List Call) : (x.run calls).Advances := by
  induction calls generalizing x with
  | nil => exact h
  | cons c rest ih => exact ih (h.call c)

theorem advances_open {name : String} {s : Settings} {writers : Nat} {operators : Operators}
    {now : Moment} {n n' : Network} {r : Reader}
    (h : Reader.open name s writers operators now n = (n', .ok r)) :
    Advances { reader := r } := by
  unfold Reader.open at h
  split at h
  · cases h
  · split at h
    · cases h
    · cases h
      exact {
        ascending := .nil
        last := rfl
        idle := fun _ => ⟨Archive.sound_of_nil rfl rfl, rfl, nofun, nofun⟩
        active := nofun
        closed := nofun }

/-! ## What beginning a step says -/

/-- A reader that says that a step is ready has gone past its current step; otherwise it has stayed
there. -/
def Goes (before after : Reader) (result : Except Fault StepStatus) : Prop :=
  (result = .ok .ready → ∃ step ∈ after.currentStep, ∀ c ∈ before.currentStep, c < step) ∧
    (result ≠ .ok .ready → after.currentStep = before.currentStep)

theorem goes_of_begun {mode : StepMode} {result : Except Fault StepStatus}
    (hbegun : Begun mode x x' result) : Goes x.reader x'.reader result := by
  cases hbegun with
  | barred _ => exact ⟨nofun, fun _ => rfl⟩
  | refused _ hpolled => exact ⟨nofun, fun _ => hpolled.passes.currentStep⟩
  | expired _ hpolled => exact ⟨nofun, fun _ => hpolled.passes.currentStep⟩
  | @entered _ step _ _ hpolled hchoose =>
    refine ⟨fun _ => ⟨step, rfl, fun c hc => ?_⟩, fun hne => absurd rfl hne⟩
    exact lt_of_choose hchoose c (hpolled.passes.currentStep ▸ hc)
  | finished _ hpolled _ _ =>
    refine ⟨fun hready => ?_, fun _ => hpolled.passes.currentStep⟩
    unfold Reader.lastStatus at hready
    split at hready <;> cases hready

theorem currentStep_endStep (r : Reader) (now : Moment) (n : Network) :
    (r.endStep now n).1.currentStep = r.currentStep := by
  rcases endStep_cases r now n with heq | ⟨step, -, -, heq⟩ <;> rw [heq]
  rfl

theorem currentStep_close (r : Reader) (n : Network) :
    (r.close n).1.currentStep = r.currentStep := by
  unfold Reader.close
  split <;> rfl

/-- Every message that is kept has a block at the current step or past it, and past it between
steps. -/
theorem Advances.kept (h : x.Advances) {key : Nat}
    (hkey : key ∈ Table.keys x.reader.archive.buffers) :
    ∃ b, x.reader.archive.Live b ∧ b.buffer = key ∧
      ∀ c ∈ x.reader.currentStep, c ≤ b.step ∧ (x.reader.stage = .idle → c < b.step) := by
  have hlive : ∀ {b}, x.reader.archive.Sound → x.reader.archive.Live b →
      b.step ∈ x.reader.archive.liveSteps := by
    rintro b hsound ⟨e, he, hb⟩
    exact hsound.step_eq e he b hb ▸ List.mem_map_of_mem he
  cases hstage : x.reader.stage with
  | idle =>
    have hcleared := h.idle hstage
    obtain ⟨b, hb, hbuffer⟩ := (hcleared.sound.kept_iff key).mp hkey
    refine ⟨b, hb, hbuffer, fun c hc => ?_⟩
    have hlt := hcleared.lt_live c hc b.step (hlive hcleared.sound hb)
    exact ⟨Std.le_of_lt hlt, fun _ => hlt⟩
  | active =>
    obtain ⟨c, hc, hreached⟩ := h.active hstage
    obtain ⟨b, hb, hbuffer⟩ := (hreached.sound.kept_iff key).mp hkey
    refine ⟨b, hb, hbuffer, fun c' hc' => ?_⟩
    cases Option.mem_unique hc hc'
    exact ⟨hreached.le_live b.step (hlive hreached.sound hb), nofun⟩
  | closed =>
    rw [h.closed hstage] at hkey
    cases hkey

end Advances

/-- **A reader only goes on**, whatever messages come over however many links, in either delivery
mode, and however its calls end. The current step grows with each step that is begun, also by what a
session does, and changes by nothing else. Between steps all that is live lies past the current
step, the least step follows it, and it is the watermark; within a step nothing before it is live.
So the exposed steps increase strictly, and no message is kept for steps that are left alone. -/
theorem progress_run {name : String} {s : Settings} {writers : Nat} {operators : Operators}
    {now : Moment} {n n' : Network} {r₀ : Reader}
    (hopen : Reader.open name s writers operators now n = (n', .ok r₀)) (calls : List Call) :
    let x := run { reader := r₀ } calls
    let r := x.reader
    (∀ mode first later,
      Goes r (x.beginStep mode first later).1.reader (x.beginStep mode first later).2) ∧
    (∀ (session : Session) mode limit now, Goes r (session.beginReading r mode limit now).2.1
      (session.beginReading r mode limit now).2.2) ∧
    (∀ now n, (r.endStep now n).1.currentStep = r.currentStep) ∧
    (∀ n, (r.close n).1.currentStep = r.currentStep) ∧
    (r.stage = .idle → ∀ c ∈ r.currentStep, (∀ step ∈ r.archive.liveSteps, c < step) ∧
      r.archive.minStep = some (Archive.successor c) ∧ r.archive.watermark = some c) ∧
    (r.stage = .active → ∃ c ∈ r.currentStep, ∀ step ∈ r.archive.liveSteps, c ≤ step) ∧
    (x.exposed.Pairwise (· < ·) ∧ x.exposed.getLast? = r.currentStep) ∧
    (∀ key ∈ Table.keys r.archive.buffers, ∃ b, r.archive.Live b ∧ b.buffer = key ∧
      ∀ c ∈ r.currentStep, c ≤ b.step ∧ (r.stage = .idle → c < b.step)) := by
  intro x r
  have h : x.Advances := (advances_open hopen).run calls
  refine ⟨fun mode first later => goes_of_begun (begun_beginStep x mode first later),
    fun session mode limit now => ?_, currentStep_endStep r, currentStep_close r,
    fun hidle c hc => ?_, fun hactive => ?_, ⟨h.ascending, h.last⟩, fun key => h.kept⟩
  · rcases hsession : session.beginReading r mode limit now with ⟨session', r', result⟩
    obtain ⟨first, later, x', hbegin, hreader⟩ := beginReading_eq hsession rfl
    have hbegun := begun_beginStep x mode first later
    rw [hbegin] at hbegun
    exact hreader ▸ goes_of_begun hbegun
  · have hcleared := h.idle hidle
    exact ⟨hcleared.lt_live c hc, hcleared.minStep c hc,
      hcleared.watermark.trans (Option.mem_def.mp hc)⟩
  · obtain ⟨c, hc, hreached⟩ := h.active hactive
    exact ⟨c, hc, hreached.le_live⟩

/-! ### A run over a step that is left out -/

section Sample

open Reader

/-- A refused message, then step 7 past step 5, then step 9 after a message that comes too late. -/
def sampleCalls : List Call :=
  [.beginStep .next ⟨[.take 0 (samplePublished [[1, 2, 3]])], ⟨0, 0⟩⟩ [],
    .beginStep .latest ⟨[.take 0 (samplePublished [messageAt 7, messageAt 5])], ⟨0, 0⟩⟩ [],
    .endStep ⟨0, 0⟩ {},
    .beginStep .next ⟨[.ask 0 {}], ⟨0, 0⟩⟩
      [⟨[.take 0 (samplePublished [messageAt 6, messageAt 9])], ⟨0, 0⟩⟩],
    .endStep ⟨0, 0⟩ {}]

theorem progress_run_sample : ∃ n r₀, sampleOpening = (n, .ok r₀) ∧
    let x := run { reader := r₀ } sampleCalls
    x.exposed = [7, 9] ∧ x.skipped = [5] ∧ x.reader.stage = .idle ∧
      x.reader.archive.watermark = some 9 ∧ x.reader.archive.minStep = some 10 ∧
      x.exposed.Pairwise (· < ·) := by
  have hruns : sampleOpening.2.toOption.any (fun r₀ =>
      let x := run { reader := r₀ } sampleCalls
      x.exposed = [7, 9] ∧ x.skipped = [5] ∧ x.reader.stage = .idle ∧
        x.reader.currentStep = some 9) = true := by
    decide +kernel
  obtain ⟨n, r₀, hopen, hrun⟩ := exists_opened hruns
  obtain ⟨hexposed, hskipped, hidle, hcurrent⟩ := of_decide_eq_true hrun
  obtain ⟨-, -, -, -, hcleared, -, ⟨hascending, -⟩, -⟩ := progress_run hopen sampleCalls
  obtain ⟨-, hmin, hwatermark⟩ := hcleared hidle 9 hcurrent
  exact ⟨n, r₀, hopen, hexposed, hskipped, hidle, hwatermark, hmin, hascending⟩

end Sample

end Reading

end Stepcast
