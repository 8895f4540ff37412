import Stepcast.Proofs.Archive.Operations

/-!
# Erased steps

A step is passed once it or a later one was erased. As long as the archive is not cleared, the steps
that were passed are just the late ones (`late_run`): receiving leaves the watermark as it is, and
erasing raises it to the erased step. So at a passed step no block is added any more, and an erased
step stays erased.

The lower bound on the live steps behaves less well. Receiving leaves it where it is, since it lies
at most one step past the watermark, and so do the blocks that come in time. But erasing sets it
anew from what is left and the step that is erased, whatever was erased before. So it falls when a
step is erased long after a later one.

Main statements: `erased_run`, `minStep_falls_iff`.
-/

namespace Stepcast

namespace Archive

/-- One of the operations erased the step or a later one. -/
def Passed (events : List Event) (step : UInt64) : Prop :=
  ∃ erased, Event.erase erased ∈ events ∧ step ≤ erased

section Runs

variable {a : Archive} {event : Event} {events : List Event} {step low : UInt64}

theorem passed_cons_put (message : Bytes) :
    Passed (.put message :: events) step ↔ Passed events step := by
  simp [Passed]

theorem passed_cons_erase (erased : UInt64) :
    Passed (.erase erased :: events) step ↔ step ≤ erased ∨ Passed events step := by
  simp [Passed, or_and_right, exists_or]

theorem exists_after (hclear : Event.clear ∉ events) (herased : Event.erase step ∈ events) :
    ∃ before after, events = before ++ .erase step :: after ∧ Event.clear ∉ after := by
  obtain ⟨before, after, rfl⟩ := List.append_of_mem herased
  exact ⟨before, after, rfl, fun h =>
    hclear (List.mem_append_right _ (List.mem_cons_of_mem _ h))⟩

/-! ## What comes too late -/

theorem late_put (a : Archive) (message : Bytes) (step : UInt64) :
    (a.put message).1.Late step ↔ a.Late step := by
  rw [Late, (received_put a message).watermark, Late]

/-- **Late is what was passed**, until the archive is cleared. -/
theorem late_run (hclear : Event.clear ∉ events) :
    (events.foldl handle a).Late step ↔ a.Late step ∨ Passed events step := by
  induction events generalizing a with
  | nil => simp [Passed]
  | cons event rest ih =>
    obtain ⟨hfirst, hrest⟩ := not_or.mp (mt List.mem_cons.mpr hclear)
    rw [List.foldl_cons, ih hrest]
    cases event with
    | put message => rw [handle, late_put, passed_cons_put]
    | erase erased => rw [handle, late_erase, passed_cons_erase, or_assoc]
    | clear => exact absurd rfl hfirst

theorem late_iff_passed (hclear : Event.clear ∉ events) :
    (events.foldl handle {}).Late step ↔ Passed events step := by
  have hnone : ¬ ({} : Archive).Late step := fun h => nomatch h.choose_spec.1
  rw [late_run hclear, or_iff_right hnone]

/-! ## The blocks of late steps -/

/-- What is late changes only when it is erased. -/
theorem blocks?_handle_of_late (hlate : a.Late step) (hclear : event ≠ .clear) :
    (event = .erase step → (a.handle event).blocks? step = none) ∧
    (event ≠ .erase step → (a.handle event).blocks? step = a.blocks? step) := by
  cases event with
  | put message => exact ⟨(nomatch ·), fun _ => blocks?_put_of_late hlate message⟩
  | erase erased =>
    rw [handle, blocks?_erase, ne_eq, Event.erase.injEq]
    exact ⟨fun h => if_pos h.symm, fun h => if_neg (Ne.symm h)⟩
  | clear => exact absurd rfl hclear

/-- **The blocks of a late step stay as they are until it is erased**, and then they are gone. -/
theorem blocks?_run_of_late (hlate : a.Late step) (hclear : Event.clear ∉ events) :
    (Event.erase step ∈ events → (events.foldl handle a).blocks? step = none) ∧
    (Event.erase step ∉ events → (events.foldl handle a).blocks? step = a.blocks? step) := by
  induction events generalizing a with
  | nil => exact ⟨fun h => (List.not_mem_nil h).elim, fun _ => rfl⟩
  | cons event rest ih =>
    obtain ⟨hfirst, hrest⟩ := not_or.mp (mt List.mem_cons.mpr hclear)
    obtain ⟨hgone, hkept⟩ := blocks?_handle_of_late hlate (Ne.symm hfirst)
    -- What is late stays late, so the rest of the run treats the step in the same way.
    have hlater : (a.handle event).Late step := by
      have hone : Event.clear ∉ [event] := mt List.mem_singleton.mp hfirst
      exact (late_run hone).mpr (.inl hlate)
    obtain ⟨ihgone, ihkept⟩ := ih hlater hrest
    constructor
    · intro hmem
      by_cases herased : Event.erase step ∈ rest
      · exact ihgone herased
      · have heq : event = .erase step := ((List.mem_cons.mp hmem).resolve_right herased).symm
        exact (ihkept herased).trans (hgone heq)
    · intro hnot
      obtain ⟨hne, hnone⟩ := not_or.mp (mt List.mem_cons.mpr hnot)
      exact (ihkept hnone).trans (hkept (Ne.symm hne))

theorem blocks?_run_of_erased (hclear : Event.clear ∉ events)
    (herased : Event.erase step ∈ events) :
    (events.foldl handle a).blocks? step = none := by
  obtain ⟨before, after, rfl, hafter⟩ := exists_after hclear herased
  rw [List.foldl_append, List.foldl_cons]
  generalize before.foldl handle a = a
  have hlate := (late_erase a step step).mpr (.inr (Std.le_refl step))
  obtain ⟨hgone, hkept⟩ := blocks?_run_of_late hlate hafter
  by_cases hagain : Event.erase step ∈ after
  · exact hgone hagain
  · exact (hkept hagain).trans ((blocks?_erase a step step).trans (if_pos rfl))

/-! ## The lower bound -/

/-- A bound on the live steps that is at most one step past the watermark. -/
structure Behind (a : Archive) (low : UInt64) : Prop where
  minStep : a.minStep = some low
  watermark : ∃ w ∈ a.watermark, low ≤ successor w

/-- **Receiving leaves the bound where it is.** -/
theorem Behind.put (h : a.Behind low) (message : Bytes) : (a.put message).1.Behind low := by
  have hreceived := received_put a message
  obtain ⟨w, hw, hle⟩ := h.watermark
  refine ⟨?_, w, hreceived.watermark ▸ hw, hle⟩
  generalize (a.put message).1 = a₁ at hreceived
  cases hreceived with
  | same hsame _ => exact hsame.minStep.trans h.minStep
  | added hsame _ _ hblocks =>
    refine minStep_addBlocks (hsame.minStep.trans h.minStep) fun b hb => ?_
    have honTime : w < b.step := watermark_lt_of_onTime (hblocks b hb).2 w hw
    exact Std.le_trans hle (successor_le_of_lt honTime)

/-- Erasing sets the bound to the first of the steps that are left, or to the next step. -/
theorem minStep_erase (a : Archive) (step : UInt64) : ∃ next, (a.erase step).minStep = some next ∧
    next ≤ successor step ∧ (next = successor step ∨ next ∈ (a.erase step).liveSteps) := by
  have hlive : (a.erase step).liveSteps = Table.keys (a.steps.without step) := rfl
  rw [hlive, erase]
  dsimp only
  cases a.steps.without step with
  | nil => exact ⟨_, rfl, Std.le_refl _, .inl rfl⟩
  | cons e rest =>
    refine ⟨_, rfl, Std.min_le_right, ?_⟩
    rcases Std.min_eq_or (a := e.1) (b := successor step) with h | h
    · refine .inr ?_
      rw [List.head?_cons, Option.elim_some, h]
      exact List.mem_cons_self
    · exact .inl h

theorem behind_erase (a : Archive) (step : UInt64) : ∃ next, (a.erase step).Behind next := by
  obtain ⟨next, hnext, hle, -⟩ := minStep_erase a step
  obtain ⟨w, hw, hstep⟩ : (a.erase step).Late step :=
    (late_erase a step step).mpr (.inr (Std.le_refl step))
  exact ⟨next, hnext, w, hw, Std.le_trans hle (successor_mono hstep)⟩

/-- Once a step was erased, the bound stays at most one step past the watermark. -/
theorem behind_run (h : a.Behind low) (hclear : Event.clear ∉ events) :
    ∃ low, (events.foldl handle a).Behind low := by
  induction events generalizing a low with
  | nil => exact ⟨low, h⟩
  | cons event rest ih =>
    obtain ⟨hfirst, hrest⟩ := not_or.mp (mt List.mem_cons.mpr hclear)
    cases event with
    | put message => exact ih (h.put message) hrest
    | erase step =>
      obtain ⟨next, hnext⟩ := behind_erase a step
      exact ih hnext hrest
    | clear => exact absurd rfl hfirst

theorem behind_of_erased {first : UInt64} (hclear : Event.clear ∉ events)
    (herased : Event.erase first ∈ events) : ∃ low, (events.foldl handle a).Behind low := by
  obtain ⟨before, after, rfl, hafter⟩ := exists_after hclear herased
  rw [List.foldl_append, List.foldl_cons]
  obtain ⟨low, hlow⟩ := behind_erase (before.foldl handle a) first
  exact behind_run hlow hafter

/-- **Erasing lowers the bound** just if the step after the erased one lies before it. That takes a
step that is not live and before another that was erased. -/
theorem Behind.erase (h : a.Behind low) (hsound : Sound a) (step : UInt64) :
    ∃ next, (a.erase step).minStep = some next ∧ (next < low ↔ successor step < low) ∧
      (next < low → next = successor step ∧ step ∉ a.liveSteps ∧ ∃ w ∈ a.watermark, step < w) := by
  obtain ⟨next, hnext, hle, hcases⟩ := minStep_erase a step
  have hlow : ∀ s ∈ a.liveSteps, low ≤ s := by
    intro s hs
    obtain ⟨bound, hbound, hge⟩ := hsound.min_le s hs
    cases h.minStep.symm.trans hbound
    exact hge
  -- The steps that are left are none of them below the bound.
  have heq : next < low → next = successor step := by
    intro hlt
    refine hcases.resolve_right fun hlive => ?_
    exact UInt64.not_le.mpr hlt (hlow next (mem_liveSteps_erase.mp hlive).1)
  refine ⟨next, hnext, ⟨fun hlt => heq hlt ▸ hlt, UInt64.lt_of_le_of_lt hle⟩, fun hlt => ?_⟩
  -- The bound lies at most one step past the watermark, so the erased step lies before that.
  have hsucc : successor step < low := heq hlt ▸ hlt
  refine ⟨heq hlt, fun hlive => ?_, ?_⟩
  · exact UInt64.not_le.mpr hsucc (Std.le_trans (hlow step hlive) (le_successor step))
  · obtain ⟨w, hw, hwle⟩ := h.watermark
    refine ⟨w, hw, UInt64.not_le.mp fun hwstep => ?_⟩
    exact UInt64.not_le.mpr hsucc (Std.le_trans hwle (successor_mono hwstep))

end Runs

/-- **Erased steps do not come back.** An erased step is not live. The blocks of a step that was
passed stay as they are until it is erased, and then they are gone. Of each message just the blocks
at the other steps are added, and it is kept just if there are any; if there are none, steps,
messages and bounds are as before. -/
theorem erased_run (events : List Event) (hclear : Event.clear ∉ events) :
    let a := events.foldl handle {}
    (∀ step, Event.erase step ∈ events → step ∉ a.liveSteps) ∧
    (∀ later : List Event, Event.clear ∉ later → ∀ step, Passed events step →
      (Event.erase step ∈ later → (later.foldl handle a).blocks? step = none) ∧
      (Event.erase step ∉ later → (later.foldl handle a).blocks? step = a.blocks? step)) ∧
    ∀ message, let a' := (a.put message).1
      ((∀ b ∈ (gist message).blocks, Passed events b.step) → SameBlocks a a') ∧
      ((∃ b ∈ (gist message).blocks, ¬ Passed events b.step) →
        a'.buffers = a.buffers.put a.nextKey message) ∧
      ∀ step, (Passed events step → a'.blocks? step = a.blocks? step) ∧
        (¬ Passed events step →
          a'.blocksAt step = a.blocksAt step ++ (gist message).blocksAt a.nextKey step) := by
  intro a
  have hlate : ∀ {step}, Passed events step ↔ a.Late step := (late_iff_passed hclear).symm
  simp only [hlate]
  refine ⟨fun step herased => ?_, fun later hlater step hpassed => ?_, fun message => ?_⟩
  · exact Table.at?_eq_none_iff.mp (blocks?_run_of_erased hclear herased)
  · exact blocks?_run_of_late hpassed hlater
  · exact ⟨sameBlocks_put_of_late, buffers_put_of_onTime, fun step =>
      ⟨fun hpassed => blocks?_put_of_late hpassed message, fun hopen => blocksAt_put hopen message⟩⟩

/-- Two steps of which neither is erased when a step between them is. -/
def betweenEvents : List Event := [.put (elementMessage 0 3), .put (elementMessage 0 6), .erase 4]

/-- A message with blocks before and after the erased step. -/
def mixedMessage : Bytes :=
  let v : Variable := { name := "v", type := .uint8, selection := ⟨[0], [1]⟩ }
  ((({ rank := 1 } : Draft).open.put [] v 3 [8]).1.put [] v 6 [9]).1.finish.1

theorem erased_run_sample :
    let a := betweenEvents.foldl handle {}
    let a' := (a.put mixedMessage).1
    a.liveSteps = [3, 6] ∧ (a'.erase 3).liveSteps = [6] ∧ (a'.blocksAt 3).length = 1 ∧
      (a'.blocksAt 6).length = 2 ∧ SameBlocks a (a.put (elementMessage 1 4)).1 ∧
      (((a'.erase 3).put (elementMessage 1 3)).1.blocks? 3) = none := by
  intro a a'
  have hpassed : ∀ {step}, step ≤ 4 → Passed betweenEvents step :=
    fun h => ⟨4, by simp [betweenEvents], h⟩
  have hopen : ¬ Passed betweenEvents 6 := by
    rintro ⟨erased, hmem, hle⟩
    simp only [betweenEvents, List.mem_cons, reduceCtorEq, Event.erase.injEq, false_or,
      List.not_mem_nil, or_false] at hmem
    rw [hmem] at hle
    exact absurd hle (by decide)
  obtain ⟨-, hlater, hput⟩ := erased_run betweenEvents (by simp [betweenEvents])
  have hlate := ((hput mixedMessage).2.2 3).1 (hpassed (by decide))
  have honTime := ((hput mixedMessage).2.2 6).2 hopen
  have hgone := (hlater [.put mixedMessage, .erase 3, .put (elementMessage 1 3)] (by simp) 3
    (hpassed (by decide))).1 (by simp)
  have hsteps : ∀ b ∈ (gist (elementMessage 1 4)).blocks, b.step ≤ 4 := by decide +kernel
  have hsame := (hput (elementMessage 1 4)).1 fun b hb => hpassed (hsteps b hb)
  refine ⟨by decide +kernel, by decide +kernel, ?_, ?_, hsame, hgone⟩
  · rw [blocksAt, ← blocks?, hlate]
    decide +kernel
  · rw [honTime, List.length_append]
    decide +kernel

/-- **When the lower bound falls.** From the first erasure on, receiving leaves the bound where it
is. Erasing a step lowers it just if the step after that lies before it, and then to that one; this
takes a step that is not live and comes before another that was erased. -/
theorem minStep_falls_iff (events : List Event) (hclear : Event.clear ∉ events) {first : UInt64}
    (herased : Event.erase first ∈ events) :
    let a := events.foldl handle {}
    ∃ low, a.minStep = some low ∧ (∀ message, (a.put message).1.minStep = some low) ∧
      ∀ step, ∃ next, (a.erase step).minStep = some next ∧ (next < low ↔ successor step < low) ∧
        (next < low → next = successor step ∧ step ∉ a.liveSteps ∧
          ∃ erased, Event.erase erased ∈ events ∧ step < erased) := by
  intro a
  have hsound : Sound a := sound_run (sound_of_nil rfl rfl) events
  obtain ⟨low, hlow⟩ : ∃ low, a.Behind low := behind_of_erased hclear herased
  refine ⟨low, hlow.minStep, fun message => (hlow.put message).minStep, fun step => ?_⟩
  obtain ⟨next, hnext, hiff, hfalls⟩ := hlow.erase hsound step
  refine ⟨next, hnext, hiff, fun hlt => ?_⟩
  obtain ⟨heq, hlive, w, hw, hstep⟩ := hfalls hlt
  obtain ⟨erased, hmem, hle⟩ := (late_iff_passed hclear).mp ⟨w, hw, Std.le_refl w⟩
  exact ⟨heq, hlive, erased, hmem, UInt64.lt_of_lt_of_le hstep hle⟩

/-- A message at a step that is erased. -/
def erasedEvents : List Event := [.put (elementMessage 0 5), .erase 5]

theorem minStep_falls_iff_sample :
    let a := erasedEvents.foldl handle {}
    a.minStep = some 6 ∧ (a.put (elementMessage 1 2)).1.minStep = a.minStep ∧
      ∃ next < 6, (a.erase 3).minStep = some next ∧ 3 ∉ a.liveSteps := by
  dsimp only
  have herased : Event.erase 5 ∈ erasedEvents := by simp [erasedEvents]
  obtain ⟨low, hlow, hput, herase⟩ :=
    minStep_falls_iff erasedEvents (by simp [erasedEvents]) herased
  have hmin : (erasedEvents.foldl handle {}).minStep = some 6 := by decide +kernel
  have hsame := (hput (elementMessage 1 2)).trans hlow.symm
  obtain rfl : low = 6 := Option.some.inj (hlow.symm.trans hmin)
  obtain ⟨next, hnext, hiff, hfalls⟩ := herase 3
  have hlt : next < 6 := hiff.mpr (by decide)
  exact ⟨hmin, hsame, next, hlt, hnext, (hfalls hlt).2.1⟩

/-- The bound is 6 after the only message was erased, and 4 after step 3 was erased too. -/
theorem minStep_regresses : ¬ ∀ (events : List Event) (first step low next : UInt64),
    Event.clear ∉ events → Event.erase first ∈ events →
    (events.foldl handle {}).minStep = some low →
    ((events.foldl handle {}).erase step).minStep = some next → low ≤ next := by
  intro h
  have hle := h erasedEvents 5 3 6 4 (by simp [erasedEvents]) (by simp [erasedEvents])
    (by decide +kernel) (by decide +kernel)
  exact absurd hle (by decide)

end Archive

end Stepcast
