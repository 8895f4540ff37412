import Stepcast.Proofs.Reader.Progress

/-!
# The statistics of a reader

A monitor counts a step when it ends. When a step is entered, the steps between the one before and
it count as dropped, and for the first one all steps before it. So between steps every step up to
the current one has been counted once, and within a step every step before it. The bytes of a step
are counted when it ends; they are those of the blocks that the archive has for it.

The invariant is `Counts`. Which steps were entered and which were ended is read off the results of
the calls.

Main statements: `Counts.enter`, `Counts.endStep`, `accounted_run`.
-/

namespace Stepcast

namespace Reading

/-! ## What calls tell -/

/-- A step that was ended, and the blocks that were stored for it. -/
structure Ended where
  step : UInt64
  blocks : List Block

/-- The step that is entered when beginning a step ends with this result. -/
def entry (r : Reader) : Except Fault StepStatus → List UInt64
  | .ok .ready => r.currentStep.toList
  | _ => []

/-- The step that a call says is ready. -/
def entries (x : Reading) : Call → List UInt64
  | .beginStep mode first later =>
    entry (x.beginStep mode first later).1.reader (x.beginStep mode first later).2
  | .endStep _ _ | .close _ => []

/-- The step that a call ends, with the blocks that the archive has for it until then. -/
def ends (x : Reading) : Call → List Ended
  | .endStep now n =>
    match (x.reader.endStep now n).2.2, x.reader.currentStep with
    | .ok (), some step => [⟨step, (x.reader.archive.blocks? step).getD []⟩]
    | _, _ => []
  | .beginStep _ _ _ | .close _ => []

/-- What calls tell, one after the other. -/
def gather {α : Type} (tells : Reading → Call → List α) (x : Reading) : List Call → List α
  | [] => []
  | c :: rest => tells x c ++ gather tells (x.call c) rest

/-- The bytes that were stored for steps. -/
def storedBytes (ended : List Ended) : Nat :=
  ((ended.flatMap Ended.blocks).map (fun b => b.size)).sum

/-- The number of steps up to the given one. -/
def stepsTo (current : Option UInt64) : Nat := current.elim 0 (fun c => c.toNat + 1)

/-! ## The invariant -/

/-- The monitor has counted the steps that were ended and those that lie between them. -/
structure Counts (x : Reading) (entered : List UInt64) (ended : List Ended) (m : Monitor) :
    Prop where
  monitor : x.reader.monitor = some m
  steps : m.steps = ended.length
  bytes : m.totalBytes = storedBytes ended
  idle : x.reader.stage = .idle → ended.map Ended.step = entered ∧
    m.steps + m.droppedSteps = stepsTo x.reader.currentStep
  active : x.reader.stage = .active → ∃ c, x.reader.currentStep = some c ∧
    x.reader.currentBlocks = x.reader.archive.blocks? c ∧
    ended.map Ended.step ++ [c] = entered ∧ m.steps + m.droppedSteps = c.toNat

section Counts

variable {x x' : Reading} {entered : List UInt64} {ended : List Ended} {m : Monitor}

theorem storedBytes_append (ended : List Ended) (e : Ended) :
    storedBytes (ended ++ [e]) = storedBytes ended + (e.blocks.map (fun b => b.size)).sum := by
  simp [storedBytes]

theorem countEntry_spec (m : Monitor) (current : Option UInt64) (step : UInt64)
    (blocks : List Block) (now : Moment) :
    (Reader.countEntry m current step blocks now).steps = m.steps ∧
      (Reader.countEntry m current step blocks now).totalBytes = m.totalBytes ∧
      (Reader.countEntry m current step blocks now).droppedSteps =
        m.droppedSteps + (step.toNat - stepsTo current) := by
  unfold Reader.countEntry
  dsimp only
  split <;> exact ⟨rfl, rfl, rfl⟩

theorem stepsTo_le_of_choose {r : Reader} {mode : StepMode} {step : UInt64}
    (h : r.choose mode = some step) : stepsTo r.currentStep ≤ step.toNat := by
  cases hcurrent : r.currentStep with
  | none => exact Nat.zero_le _
  | some c => exact UInt64.lt_iff_toNat_lt.mp (lt_of_choose h c hcurrent)

theorem Counts.polled (h : x.Counts entered ended m) (hidle : x.reader.stage = .idle)
    (hpolled : Polled x x') : x'.Counts entered ended m := by
  have hpasses := hpolled.passes
  exact {
    monitor := hpasses.monitor.trans h.monitor
    steps := h.steps
    bytes := h.bytes
    idle := fun _ => hpasses.currentStep ▸ h.idle hidle
    active := fun hactive => by
      rw [hpasses.stage, hidle] at hactive
      cases hactive }

/-- **Entering a step** counts all steps before it that have not been counted. -/
theorem Counts.enter (h : x.Counts entered ended m) (hidle : x.reader.stage = .idle)
    {mode : StepMode} {step : UInt64} (hchoose : x.reader.choose mode = some step) (now : Moment) :
    ∃ m', (x.enter step now).Counts (entered ++ [step]) ended m' := by
  obtain ⟨hended, hsum⟩ := h.idle hidle
  have hle := stepsTo_le_of_choose hchoose
  obtain ⟨hsteps, hbytes, hdropped⟩ := countEntry_spec m x.reader.currentStep step
    (((x.reader.skipTo step).archive.blocks? step).getD []) now
  refine ⟨_, ?_, hsteps.trans h.steps, hbytes.trans h.bytes, fun hidle => (by cases hidle),
    fun _ => ⟨step, rfl, rfl, by rw [hended], ?_⟩⟩
  · show x.reader.monitor.map _ = _
    rw [h.monitor]
    rfl
  · rw [hsteps, hdropped]
    omega

/-- Beginning a step counts the step that it says is ready. -/
theorem Counts.begun (h : x.Counts entered ended m) {mode : StepMode}
    {result : Except Fault StepStatus} (hbegun : Begun mode x x' result) :
    ∃ m', x'.Counts (entered ++ entry x'.reader result) ended m' := by
  cases hbegun with
  | barred _ => exact ⟨m, by simpa [entry] using h⟩
  | refused hidle hpolled => exact ⟨m, by simpa [entry] using h.polled hidle hpolled⟩
  | expired hidle hpolled => exact ⟨m, by simpa [entry] using h.polled hidle hpolled⟩
  | entered now hidle hpolled hchoose =>
    exact (h.polled hidle hpolled).enter (hpolled.passes.stage.trans hidle) hchoose now
  | finished hidle hpolled _ _ =>
    refine ⟨m, ?_⟩
    have hnone : entry x'.reader (.ok x'.reader.lastStatus) = [] := by
      unfold Reader.lastStatus
      split <;> rfl
    rw [hnone, List.append_nil]
    exact h.polled hidle hpolled

/-- Ending a step is refused and tells nothing, or it leaves the active step and tells of it. -/
theorem endStep_tells (x : Reading) (now : Moment) (n : Network) :
    x.call (.endStep now n) = x ∧ x.ends (.endStep now n) = [] ∨
    ∃ step, x.reader.stage = .active ∧ x.reader.currentStep = some step ∧
      x.call (.endStep now n) = { x with reader := { x.reader.leave step now with
        links := (Reader.requestAll x.reader.links n).1 } } ∧
      x.ends (.endStep now n) = [⟨step, (x.reader.archive.blocks? step).getD []⟩] := by
  unfold Reading.call ends Reader.endStep
  cases x.reader.ensureOpen with
  | error f => exact .inl ⟨rfl, rfl⟩
  | ok _ =>
    dsimp only
    split
    · next step hactive hcurrent => exact .inr ⟨step, hactive, hcurrent, rfl, by rw [hcurrent]⟩
    · exact .inl ⟨rfl, rfl⟩

/-- **Ending a step** counts it, and the bytes that are stored for it. -/
theorem Counts.endStep (h : x.Counts entered ended m) (now : Moment) (n : Network) :
    ∃ m', (x.call (.endStep now n)).Counts entered (ended ++ x.ends (.endStep now n)) m' := by
  rcases endStep_tells x now n with ⟨hcall, hends⟩ | ⟨step, hactive, hcurrent, hcall, hends⟩ <;>
    rw [hcall, hends]
  · exact ⟨m, by rwa [List.append_nil]⟩
  · obtain ⟨c, hc, hblocks, hended, hsum⟩ := h.active hactive
    cases hcurrent.symm.trans hc
    have hbytes : (x.reader.currentBlocks.getD []).foldr (fun b n => b.size + n) 0 =
        (((x.reader.archive.blocks? step).getD []).map (fun b => b.size)).sum := by
      rw [hblocks, List.sum, List.foldr_map]
    refine ⟨m.endStep now.instant
      ((x.reader.currentBlocks.getD []).foldr (fun b n => b.size + n) 0), ?_⟩
    exact {
      monitor := by
        show x.reader.monitor.map _ = _
        rw [h.monitor]
        rfl
      steps := by
        show m.steps + 1 = _
        rw [h.steps, List.length_append, List.length_singleton]
      bytes := by
        show m.totalBytes + _ = _
        rw [h.bytes, hbytes, storedBytes_append]
      idle := fun _ => by
        refine ⟨by rw [List.map_append, List.map_singleton, hended], ?_⟩
        show m.steps + 1 + m.droppedSteps = stepsTo x.reader.currentStep
        rw [hcurrent, stepsTo, Option.elim_some]
        omega
      active := fun hactive => by cases hactive }

theorem Counts.close (h : x.Counts entered ended m) (n : Network) :
    (x.call (.close n)).Counts entered ended m := by
  rw [Reading.call, Reader.close]
  split
  · exact h
  · exact {
      monitor := h.monitor
      steps := h.steps
      bytes := h.bytes
      idle := fun hidle => by cases hidle
      active := fun hactive => by cases hactive }

/-- **A call keeps the account**, however it ends. -/
theorem Counts.call (h : x.Counts entered ended m) (c : Call) :
    ∃ m', (x.call c).Counts (entered ++ x.entries c) (ended ++ x.ends c) m' := by
  cases c with
  | beginStep mode first later =>
    rw [show x.ends (.beginStep mode first later) = [] from rfl, List.append_nil]
    exact h.begun (begun_beginStep x mode first later)
  | endStep now n =>
    rw [show x.entries (.endStep now n) = [] from rfl, List.append_nil]
    exact h.endStep now n
  | close n =>
    rw [show x.entries (.close n) = [] from rfl, show x.ends (.close n) = [] from rfl,
      List.append_nil, List.append_nil]
    exact ⟨m, h.close n⟩

theorem Counts.run (h : x.Counts entered ended m) (calls : List Call) :
    ∃ m', (x.run calls).Counts (entered ++ gather entries x calls) (ended ++ gather ends x calls)
      m' := by
  induction calls generalizing x entered ended m with
  | nil => exact ⟨m, by simpa [gather, Reading.run] using h⟩
  | cons c rest ih =>
    obtain ⟨m', hcall⟩ := h.call c
    obtain ⟨m'', hrest⟩ := ih hcall
    rw [List.append_assoc, List.append_assoc] at hrest
    exact ⟨m'', hrest⟩

theorem counts_open {name : String} {s : Settings} {writers : Nat} {operators : Operators}
    {now : Moment} {n n' : Network} {r : Reader} (hmonitor : s.monitor = true)
    (h : Reader.open name s writers operators now n = (n', .ok r)) :
    Counts { reader := r } [] [] { started := now.instant } := by
  unfold Reader.open at h
  split at h
  · cases h
  · split at h
    · cases h
    · cases h
      exact {
        monitor := by rw [hmonitor]; rfl
        steps := rfl
        bytes := rfl
        idle := fun _ => ⟨rfl, rfl⟩
        active := nofun }

end Counts

/-- **The statistics of a reader add up** in every run with monitoring on, whatever messages come
over however many links, in either delivery mode and with any mix of step modes. Between steps the
report has as many steps as were entered, and together with the dropped ones they are all steps up
to the current one. Within a step they are all steps before it. The bytes are those of the blocks
that were stored for the steps that were ended, which are the entered ones without the active one.
-/
theorem accounted_run {name : String} {s : Settings} {writers : Nat} {operators : Operators}
    {now : Moment} {n n' : Network} {r₀ : Reader} (hmonitor : s.monitor = true)
    (hopen : Reader.open name s writers operators now n = (n', .ok r₀)) (calls : List Call) :
    let r := (run { reader := r₀ } calls).reader
    let entered := gather entries { reader := r₀ } calls
    let ended := gather ends { reader := r₀ } calls
    ∃ m, r.monitor = some m ∧ ∀ instant,
      let report := m.report instant
      (r.stage = .idle → ended.map Ended.step = entered ∧ report.steps = entered.length ∧
        ∀ c ∈ r.currentStep, report.steps + report.droppedSteps = c.toNat + 1) ∧
      (r.stage = .active → ∃ c ∈ r.currentStep, ended.map Ended.step ++ [c] = entered ∧
        r.currentBlocks = r.archive.blocks? c ∧ report.steps + report.droppedSteps = c.toNat) ∧
      report.steps = ended.length ∧ report.totalBytes = storedBytes ended := by
  intro r entered ended
  obtain ⟨m, h⟩ := (counts_open hmonitor hopen).run calls
  refine ⟨m, h.monitor, fun instant => ⟨fun hidle => ?_, fun hactive => ?_, h.steps, h.bytes⟩⟩
  · obtain ⟨hended, hsum⟩ := h.idle hidle
    refine ⟨hended, ?_, fun c hc => ?_⟩
    · show m.steps = entered.length
      rw [h.steps]
      exact (List.length_map _).symm.trans (congrArg List.length hended)
    · rw [Option.mem_def.mp hc] at hsum
      exact hsum
  · obtain ⟨c, hc, hblocks, hended, hsum⟩ := h.active hactive
    exact ⟨c, hc, hended, hblocks, hsum⟩

/-! ### A run in which steps are skipped and lost -/

section Sample

open Reader

/-- A reader of one writer that keeps statistics, and the network in which it opened. -/
def monitoredOpening : Network × Except Fault Reader :=
  Reader.open "s" { address := some "a", monitor := true } 1 [] ⟨0, 0⟩ {}

/-- Within step 7 the seven steps before it count as dropped. After step 9 two steps were ended, and
one more was dropped between them. -/
theorem accounted_run_sample : ∃ n r₀, monitoredOpening = (n, .ok r₀) ∧
    let within := (run { reader := r₀ } (sampleCalls.take 2)).reader
    let after := (run { reader := r₀ } sampleCalls).reader
    gather entries { reader := r₀ } sampleCalls = [7, 9] ∧
    (∃ m, within.monitor = some m ∧ (m.report 0).steps + (m.report 0).droppedSteps = 7) ∧
    ∃ m, after.monitor = some m ∧ (m.report 0).steps = 2 ∧
      (m.report 0).steps + (m.report 0).droppedSteps = 10 ∧ (m.report 0).totalBytes = 4 := by
  have hruns : monitoredOpening.2.toOption.any (fun r₀ =>
      let within := (run { reader := r₀ } (sampleCalls.take 2)).reader
      let after := (run { reader := r₀ } sampleCalls).reader
      gather entries { reader := r₀ } sampleCalls = [7, 9] ∧
        within.stage = .active ∧ within.currentStep = some 7 ∧
        after.stage = .idle ∧ after.currentStep = some 9 ∧
        storedBytes (gather ends { reader := r₀ } sampleCalls) = 4) = true := by
    decide +kernel
  obtain ⟨n, r₀, hopen, hrun⟩ := exists_opened hruns
  obtain ⟨hentered, hactive, hseven, hidle, hnine, hbytes⟩ := of_decide_eq_true hrun
  obtain ⟨m, hm, hwithin⟩ := accounted_run rfl hopen (sampleCalls.take 2)
  obtain ⟨c, hc, -, -, hbefore⟩ := (hwithin 0).2.1 hactive
  cases hseven.symm.trans hc
  obtain ⟨m', hm', hafter⟩ := accounted_run rfl hopen sampleCalls
  obtain ⟨hidles, -, -, htotal⟩ := hafter 0
  obtain ⟨-, hsteps, hsum⟩ := hidles hidle
  rw [hentered] at hsteps
  exact ⟨n, r₀, hopen, hentered, ⟨m, hm, hbefore⟩, m', hm', hsteps, hsum 9 hnine,
    htotal.trans hbytes⟩

end Sample

end Reading

end Stepcast
