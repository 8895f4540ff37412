import Stepcast.Proofs.Reader.Accounting

/-!
# The numbers of a reader

Steps are counted in words of 64 bits, and any word can be a step. A step that is entered lies past
all steps that have been counted, so what a reader adds up on the way is at most the number of that
step, and fits. Two calculations go past it. After the last possible step was ended, all steps
have been counted once, and they are one more than a word can tell, so there is no report. And the
age of a step is taken from a time that a writer wrote, which can be so far away that the difference
is not a number of 64 bits.

Checked calls stop where a calculation leaves its range. That entering a step does not go past it
follows from the invariant `Counts`; when there is a report is the invariant `Reportable`.

Main statements: `enter?_eq`, `run?_eq`, `bounded_run`.
-/

namespace Stepcast

/-! ## The greatest step -/

namespace Archive

/-- The greatest step is the one that has no number of 64 bits after it. -/
theorem toNat_add_one_lt_iff {step : UInt64} : step.toNat + 1 < 2 ^ 64 ↔ step ≠ greatest := by
  have hgreatest : greatest.toNat = 2 ^ 64 - 1 := rfl
  have hmax := step.toNat_lt
  rw [ne_eq, ← UInt64.toNat_inj]
  omega

theorem toNat_successor_eq_min (step : UInt64) :
    (successor step).toNat = min (step.toNat + 1) (2 ^ 64 - 1) := by
  by_cases hstep : step = greatest
  · rw [hstep]
    rfl
  · have hlt := toNat_add_one_lt_iff.mpr hstep
    rw [toNat_successor hstep]
    omega

end Archive

namespace Reading

/-! ## Checked calls -/

/-- `enter` where sums and differences are checked. -/
def enter? (x : Reading) (step : UInt64) (now : Moment) : Option Reading :=
  ((x.reader.skipTo step).enter? step now).map (fun reader => { x.enter step now with reader })

/-- `look` where sums and differences are checked. -/
def look? (x : Reading) (mode : StepMode) (l : Look) :
    Option (Reading × Except Fault (Option StepStatus)) :=
  match x.polls l.polls with
  | (x, .error f) => some (x, .error f)
  | (x, .ok ()) =>
    match x.reader.choose mode with
    | some step => (x.enter? step l.now).map (·, .ok (some .ready))
    | none => some (x, .ok (if x.reader.isDone then some x.reader.lastStatus else none))

/-- `seek` where sums and differences are checked. -/
def seek? (x : Reading) (mode : StepMode) :
    List Look → Option (Reading × Except Fault (Option StepStatus))
  | [] => some (x, .ok none)
  | l :: rest =>
    match x.look? mode l with
    | some (x, .ok none) => x.seek? mode rest
    | found => found

/-- `beginStep` where sums and differences are checked. -/
def beginStep? (x : Reading) (mode : StepMode) (first : Look) (later : List Look) :
    Option (Reading × Except Fault StepStatus) :=
  match x.reader.checkBegin with
  | .error f => some (x, .error f)
  | .ok () => (x.seek? mode (first :: later)).map (fun found =>
      (found.1, found.2.map (·.getD .notReady)))

/-- `call` where sums and differences are checked. The step after an erased one is the greatest step
where there is none, so ending a step needs no check. -/
def call? (x : Reading) : Call → Option Reading
  | .beginStep mode first later => (x.beginStep? mode first later).map Prod.fst
  | c => some (x.call c)

/-- `run` where sums and differences are checked. -/
def run? (x : Reading) (calls : List Call) : Option Reading := calls.foldlM call? x

/-! ## The ages of steps -/

/-- The age at `now` of the oldest of the blocks, if one of them tells its time. -/
def oldestAge (blocks : List Block) (now : Moment) : List Int :=
  ((blocks.filterMap (·.timestamp)).min?.map (fun t => now.millis.toInt - t.toInt)).toList

/-- The ages that are taken while looking for a step. -/
def soughtAges (x : Reading) (mode : StepMode) : List Look → List Int
  | [] => []
  | l :: rest =>
    match x.look mode l with
    | (x, .ok (some .ready)) => oldestAge (x.reader.currentBlocks.getD []) l.now
    | (x, .ok none) => soughtAges x mode rest
    | _ => []

/-- The ages that a call takes. -/
def ages (x : Reading) : Call → List Int
  | .beginStep mode first later =>
    match x.reader.checkBegin with
    | .error _ => []
    | .ok () => x.soughtAges mode (first :: later)
  | .endStep _ _ | .close _ => []

/-- The age is a number of 64 bits. -/
def Fits (age : Int) : Prop := Int64.minValue.toInt ≤ age ∧ age ≤ Int64.maxValue.toInt

instance (age : Int) : Decidable (Fits age) := inferInstanceAs (Decidable (_ ∧ _))

/-- The result, if the ages that are taken for it fit. -/
def provided {α : Type} (ages : List Int) (result : α) : Option α :=
  if ∀ age ∈ ages, Fits age then some result else none

section Provided

variable {α β : Type}

@[simp] theorem provided_nil (a : α) : provided [] a = some a := if_pos nofun

theorem map_provided (f : α → β) (ages : List Int) (a : α) :
    (provided ages a).map f = provided ages (f a) := by
  unfold provided
  split <;> rfl

theorem provided_cases (ages : List Int) (a : α) :
    provided ages a = some a ∨ provided ages a = none := ite_eq_or_eq ..

theorem bind_provided {f : α → Option β} {ages ages' : List Int} {a : α} {b : β}
    (h : f a = provided ages' b) : (provided ages a).bind f = provided (ages ++ ages') b := by
  by_cases hages : ∀ age ∈ ages, Fits age
  · rw [provided, if_pos hages, Option.bind_some, h]
    exact if_congr ⟨fun h => List.forall_mem_append.mpr ⟨hages, h⟩,
      fun h => (List.forall_mem_append.mp h).2⟩ rfl rfl
  · rw [provided, if_neg hages, provided, if_neg (fun h => hages (List.forall_mem_append.mp h).1)]
    rfl

end Provided

section Bounds

variable {x x' : Reading} {entered : List UInt64} {ended : List Ended} {m : Monitor}

/-! ## Entering a step -/

theorem countEntry?_eq {current : Option UInt64} {step : UInt64}
    (h : m.droppedSteps + (step.toNat - stepsTo current) < 2 ^ 64) (blocks : List Block)
    (now : Moment) : Reader.countEntry? m current step blocks now =
      provided (oldestAge blocks now) (Reader.countEntry m current step blocks now) := by
  have hdropped : m.recordDropped? (step.toNat - stepsTo current) =
      some (m.recordDropped (step.toNat - stepsTo current)) := if_pos h
  unfold stepsTo at hdropped
  unfold Reader.countEntry? Reader.countEntry oldestAge
  dsimp only
  rw [hdropped]
  cases (blocks.filterMap (·.timestamp)).min? with
  | none => simp
  | some t => simp [Monitor.recordTimestamp?, Monitor.AgeFits, provided, Fits]

/-- A reader that keeps statistics can enter a step if the counts and the age of the step fit. -/
theorem readerEnter?_eq {r : Reader} {step : UInt64} (hmonitor : r.monitor = some m)
    (hcurrent : stepsTo r.currentStep < 2 ^ 64)
    (hdropped : m.droppedSteps + (step.toNat - stepsTo r.currentStep) < 2 ^ 64) (now : Moment) :
    r.enter? step now =
      provided (oldestAge ((r.archive.blocks? step).getD []) now) (r.enter step now) := by
  have hguard : r.currentStep.elim 0 (fun c => c.toNat + 1) < UInt64.size := hcurrent
  have hmap : r.enter? step now =
      (Reader.countEntry? m r.currentStep step ((r.archive.blocks? step).getD []) now).map
        (fun m => { r.enter step now with monitor := some m }) := by
    unfold Reader.enter?
    simp only [guard, hguard, if_true, hmonitor]
    exact (Option.map_eq_bind ..).symm
  rw [hmap, countEntry?_eq hdropped, map_provided]
  congr 1
  rw [Reader.enter, hmonitor]
  rfl

/-- **Entering a step** stays in range as far as the age of the step does. -/
theorem enter?_eq (h : x.Counts entered ended m) (hidle : x.reader.stage = .idle) {mode : StepMode}
    {step : UInt64} (hchoose : x.reader.choose mode = some step) (now : Moment) :
    x.enter? step now =
      provided (oldestAge ((x.enter step now).reader.currentBlocks.getD []) now)
        (x.enter step now) := by
  have hle := stepsTo_le_of_choose hchoose
  have hstep := step.toNat_lt
  obtain ⟨-, hsum⟩ := h.idle hidle
  -- What was dropped so far lies up to the current step, and what is left out now between it and
  -- the next, so together they are at most the steps before that one.
  have hdropped : m.droppedSteps + (step.toNat - stepsTo x.reader.currentStep) < 2 ^ 64 := by
    omega
  have henter := readerEnter?_eq (r := x.reader.skipTo step) h.monitor
    (Nat.lt_of_le_of_lt hle hstep) hdropped now
  rw [enter?, henter, map_provided]
  rfl

/-! ## Looking for a step -/

/-- One checked look does what a look does, with a check where a step is entered. -/
theorem look?_cases (x : Reading) (mode : StepMode) (l : Look) : ∃ x', Polled x x' ∧
    ((∃ f, x.look mode l = (x', .error f) ∧ x.look? mode l = some (x', .error f)) ∨
      (∃ step, x'.reader.choose mode = some step ∧
        x.look mode l = (x'.enter step l.now, .ok (some .ready)) ∧
        x.look? mode l = (x'.enter? step l.now).map (·, .ok (some .ready))) ∨
      ∃ status, status ≠ some .ready ∧ x.look mode l = (x', .ok status) ∧
        x.look? mode l = some (x', .ok status)) := by
  have hpolled : Polled x (x.polls l.polls).1 := polled_polls l.polls
  refine ⟨_, hpolled, ?_⟩
  unfold look look?
  rcases x.polls l.polls with ⟨x', f | ⟨⟩⟩
  · exact .inl ⟨f, rfl, rfl⟩
  · right
    dsimp only
    cases x'.reader.choose mode with
    | some step => exact .inl ⟨step, rfl, rfl, rfl⟩
    | none =>
      refine .inr ⟨_, ?_, rfl, rfl⟩
      unfold Reader.lastStatus
      split
      · split <;> exact nofun
      · exact nofun

theorem seek?_eq (h : x.Counts entered ended m) (hidle : x.reader.stage = .idle) (mode : StepMode)
    (looks : List Look) :
    x.seek? mode looks = provided (x.soughtAges mode looks) (x.seek mode looks) := by
  induction looks generalizing x with
  | nil => simp [seek?, soughtAges, seek]
  | cons l rest ih =>
    rw [seek?, seek, soughtAges]
    obtain ⟨x', hpolled, ⟨f, hlook, hlook?⟩ | ⟨step, hchoose, hlook, hlook?⟩ |
      ⟨status, hstatus, hlook, hlook?⟩⟩ := look?_cases x mode l
    · rw [hlook, hlook?, provided_nil]
    · have henter := enter?_eq (h.polled hidle hpolled) (hpolled.passes.stage.trans hidle) hchoose
        l.now
      rw [henter, map_provided] at hlook?
      rw [hlook, hlook?]
      dsimp only
      rcases provided_cases _ _ with hfits | hfits <;> rw [hfits]
    · rw [hlook, hlook?]
      cases status with
      | none => exact ih (h.polled hidle hpolled) (hpolled.passes.stage.trans hidle)
      | some status =>
        cases status with
        | ready => exact absurd rfl hstatus
        | notReady | endOfStream | broken => exact (provided_nil _).symm

/-- A checked call stops just where the age of a step does not fit. -/
theorem call?_eq (h : x.Counts entered ended m) (c : Call) :
    x.call? c = provided (x.ages c) (x.call c) := by
  cases c with
  | endStep now n => exact (provided_nil _).symm
  | close n => exact (provided_nil _).symm
  | beginStep mode first later =>
    unfold call? call beginStep? beginStep ages
    cases hcheck : x.reader.checkBegin with
    | error f => exact (provided_nil _).symm
    | ok _ =>
      have hseek := seek?_eq h (Reader.checkBegin_eq_ok.mp hcheck) mode (first :: later)
      dsimp only
      rw [hseek, map_provided, map_provided]

theorem run?_eq (h : x.Counts entered ended m) (calls : List Call) :
    x.run? calls = provided (gather ages x calls) (x.run calls) := by
  induction calls generalizing x entered ended m with
  | nil => exact (provided_nil _).symm
  | cons c rest ih =>
    obtain ⟨m', hcall⟩ := h.call c
    rw [run?, List.foldlM_cons, call?_eq h, gather]
    exact bind_provided (ih hcall)

/-! ## Reporting -/

/-- The steps that were counted are as many as a word can tell, until the greatest one was ended. -/
def Reportable (x : Reading) (ended : List Ended) : Prop := ∀ m ∈ x.reader.monitor,
  (m.steps + m.droppedSteps < 2 ^ 64 ↔ Archive.greatest ∉ ended.map Ended.step)

theorem Reportable.of_monitor_eq (h : x.Reportable ended)
    (hmonitor : x'.reader.monitor = x.reader.monitor) : x'.Reportable ended :=
  fun m hm => h m (hmonitor ▸ hm)

theorem Reportable.begun (hr : x.Reportable ended) (h : x.Counts entered ended m) {mode : StepMode}
    {result : Except Fault StepStatus} (hbegun : Begun mode x x' result) : x'.Reportable ended := by
  cases hbegun with
  | barred _ => exact hr
  | refused _ hpolled => exact hr.of_monitor_eq hpolled.passes.monitor
  | expired _ hpolled => exact hr.of_monitor_eq hpolled.passes.monitor
  | finished _ hpolled _ _ => exact hr.of_monitor_eq hpolled.passes.monitor
  | @entered y step now hidle hpolled hchoose =>
    have hidle' := hpolled.passes.stage.trans hidle
    have hy := h.polled hidle hpolled
    obtain ⟨-, hsum⟩ := hy.idle hidle'
    have hle := stepsTo_le_of_choose hchoose
    have hstep := step.toNat_lt
    have hbefore := (hr.of_monitor_eq hpolled.passes.monitor m hy.monitor).mp (by omega)
    obtain ⟨m', hentered⟩ := hy.enter hidle' hchoose now
    obtain ⟨c, -, -, -, hsum'⟩ := hentered.active rfl
    intro m'' hm''
    cases hentered.monitor.symm.trans hm''
    have hc := c.toNat_lt
    exact ⟨fun _ => hbefore, fun _ => by omega⟩

theorem Reportable.endStep (hr : x.Reportable ended) (h : x.Counts entered ended m) (now : Moment)
    (n : Network) :
    (x.call (.endStep now n)).Reportable (ended ++ x.ends (.endStep now n)) := by
  have hafter := h.endStep now n
  rcases endStep_tells x now n with ⟨hcall, hends⟩ | ⟨step, hactive, hcurrent, hcall, hends⟩
  · rw [hcall, hends, List.append_nil]
    exact hr
  · obtain ⟨c, hc, -, -, hsum⟩ := h.active hactive
    cases hcurrent.symm.trans hc
    have hstep := step.toNat_lt
    have hbefore := (hr m h.monitor).mp (by omega)
    obtain ⟨m', h'⟩ := hafter
    intro m'' hm''
    cases h'.monitor.symm.trans hm''
    have hcounted : m'.steps + m'.droppedSteps = step.toNat + 1 := by
      rw [(h'.idle (by rw [hcall]; rfl)).2, hcall]
      show stepsTo x.reader.currentStep = step.toNat + 1
      rw [hcurrent, stepsTo, Option.elim_some]
    rw [hcounted, Archive.toNat_add_one_lt_iff, hends, List.map_append, List.mem_append, not_or]
    exact ⟨fun hne => ⟨hbefore, fun hmem => hne (List.mem_singleton.mp hmem).symm⟩,
      fun hnot heq => hnot.2 (List.mem_singleton.mpr heq.symm)⟩

theorem Reportable.call (hr : x.Reportable ended) (h : x.Counts entered ended m) (c : Call) :
    (x.call c).Reportable (ended ++ x.ends c) := by
  cases c with
  | beginStep mode first later =>
    rw [show x.ends (.beginStep mode first later) = [] from rfl, List.append_nil]
    exact hr.begun h (begun_beginStep x mode first later)
  | endStep now n => exact hr.endStep h now n
  | close n =>
    rw [show x.ends (.close n) = [] from rfl, List.append_nil]
    refine hr.of_monitor_eq ?_
    rw [Reading.call, Reader.close]
    split <;> rfl

theorem Reportable.run (hr : x.Reportable ended) (h : x.Counts entered ended m)
    (calls : List Call) : (x.run calls).Reportable (ended ++ gather ends x calls) := by
  induction calls generalizing x entered ended m with
  | nil => rwa [gather, List.append_nil]
  | cons c rest ih =>
    obtain ⟨m', hcall⟩ := h.call c
    have hrest := ih (hr.call h c) hcall
    rwa [List.append_assoc] at hrest

end Bounds

/-- **Where the numbers of a reader stay in range**, in every run with monitoring on, whatever
messages come over however many links and whatever the clocks show. A run goes through if the age of
each step that is entered is a number of 64 bits, and stops at the first that is not: going past the
current step and adding up dropped steps never stops it. There is a report, which closing makes too,
until the greatest step was ended, and none after that. The step after an erased one never
overflows. -/
theorem bounded_run {name : String} {s : Settings} {writers : Nat} {operators : Operators}
    {now : Moment} {n n' : Network} {r₀ : Reader} (hmonitor : s.monitor = true)
    (hopen : Reader.open name s writers operators now n = (n', .ok r₀)) (calls : List Call) :
    let x := run { reader := r₀ } calls
    let ended := (gather ends { reader := r₀ } calls).map Ended.step
    ((∀ age ∈ gather ages { reader := r₀ } calls, Fits age) →
      run? { reader := r₀ } calls = some x) ∧
    ((∃ age ∈ gather ages { reader := r₀ } calls, ¬ Fits age) →
      run? { reader := r₀ } calls = none) ∧
    (∃ m, x.reader.monitor = some m ∧ ∀ instant, m.report? instant =
      if Archive.greatest ∈ ended then none else some (m.report instant)) ∧
    (∀ now n, x.reader.close? now n =
      if x.reader.stage ≠ .closed ∧ Archive.greatest ∈ ended then none
      else some (x.reader.close n)) ∧
    ∀ step, (Archive.successor step).toNat = min (step.toNat + 1) (2 ^ 64 - 1) := by
  intro x ended
  have hcounts := counts_open hmonitor hopen
  have hrun := run?_eq hcounts calls
  obtain ⟨m, h⟩ := hcounts.run calls
  have hfirst : Reportable { reader := r₀ } [] := by
    intro m hm
    cases hcounts.monitor.symm.trans hm
    simp
  have hreportable : x.Reportable (gather ends { reader := r₀ } calls) := hfirst.run hcounts calls
  have hreport : ∀ instant, m.report? instant =
      if Archive.greatest ∈ ended then none else some (m.report instant) := by
    intro instant
    have hiff := hreportable m h.monitor
    by_cases hgreatest : Archive.greatest ∈ ended
    · rw [if_pos hgreatest]
      exact if_neg (fun hlt => hiff.mp hlt hgreatest)
    · rw [if_neg hgreatest]
      exact if_pos (hiff.mpr hgreatest)
  refine ⟨fun hfits => ?_, fun hlarge => ?_, ⟨m, h.monitor, hreport⟩, fun now n => ?_,
    Archive.toNat_successor_eq_min⟩
  · rw [hrun]
    exact if_pos hfits
  · rw [hrun]
    exact if_neg (fun hfits => by
      obtain ⟨age, hage, hnot⟩ := hlarge
      exact hnot (hfits age hage))
  · have hmonitor' : x.reader.monitor = some m := h.monitor
    rw [Reader.close?, hmonitor', Option.all_some, hreport]
    by_cases hclosed : x.reader.stage = .closed <;>
      by_cases hgreatest : Archive.greatest ∈ ended <;> simp [hclosed, hgreatest]

/-! ### Runs that stay in range, and runs that do not -/

section Sample

open Reader

/-- A message with one element of a variable at a step, and the time of the step. -/
def stampedAt (step : UInt64) (millis : Int64) : Bytes :=
  let v : Variable := { name := "v", type := .uint8, selection := ⟨[0], [1]⟩ }
  (((({ rank := 0 } : Draft).open.put [] v step [7]).1).attachTimestamp step millis).finish.1

/-- The reader begins a step with this message, half a second after its time, and ends it. -/
def stampedCalls (step : UInt64) (millis : Int64) : List Call :=
  [.beginStep .next ⟨[.take 0 (samplePublished [stampedAt step millis])], ⟨0, 500⟩⟩ [],
    .endStep ⟨0, 500⟩ {}]

theorem bounded_run_sample : ∃ n r₀, monitoredOpening = (n, .ok r₀) ∧
    gather ages { reader := r₀ } (stampedCalls 5 0) = [500] ∧
    run? { reader := r₀ } (stampedCalls 5 0) = some (run { reader := r₀ } (stampedCalls 5 0)) ∧
    ∃ m, (run { reader := r₀ } (stampedCalls 5 0)).reader.monitor = some m ∧
      m.report? 0 = some (m.report 0) := by
  have hruns : monitoredOpening.2.toOption.any (fun r₀ =>
      gather ages { reader := r₀ } (stampedCalls 5 0) = [500] ∧
        (gather ends { reader := r₀ } (stampedCalls 5 0)).map Ended.step = [5]) = true := by
    decide +kernel
  obtain ⟨n, r₀, hopen, hrun⟩ := exists_opened hruns
  obtain ⟨hages, hended⟩ := of_decide_eq_true hrun
  obtain ⟨hfits, -, ⟨m, hm, hreport⟩, -⟩ := bounded_run rfl hopen (stampedCalls 5 0)
  refine ⟨n, r₀, hopen, hages, hfits ?_, m, hm, ?_⟩
  · rw [hages]
    decide
  · rw [hreport, if_neg]
    rw [hended]
    decide

/-- After the greatest step there is no report. A step whose time is the least number of 64 bits is
too old to be entered. -/
theorem leaves_range : ∃ n r₀, monitoredOpening = (n, .ok r₀) ∧
    (run { reader := r₀ } (stampedCalls Archive.greatest 0)).reader.monitor.any
      (fun m => (m.report? 0).isNone) = true ∧
    (run? { reader := r₀ } (stampedCalls 0 Int64.minValue)).isNone = true := by
  have hruns : monitoredOpening.2.toOption.any (fun r₀ =>
      (run { reader := r₀ } (stampedCalls Archive.greatest 0)).reader.monitor.any
        (fun m => (m.report? 0).isNone) = true ∧
      (run? { reader := r₀ } (stampedCalls 0 Int64.minValue)).isNone = true) = true := by
    decide +kernel
  obtain ⟨n, r₀, hopen, hrun⟩ := exists_opened hruns
  obtain ⟨hreport, hcall⟩ := of_decide_eq_true hrun
  exact ⟨n, r₀, hopen, hreport, hcall⟩

end Sample

end Reading

end Stepcast
