import Stepcast.Proofs.Delivery.Arrivals

/-!
# What the reader was shown

At each step that the reader is let into it has just what has arrived there. This stays true of the
steps so far, because nothing more comes for them.

Main statements: `Shown.newer`, `Shown.entered`.
-/

namespace Stepcast

open Feed

/-- The reader of the exposure has the blocks of its step, which are those that were written
there. -/
structure Exposure.Shows (e : Exposure) (crew : Crew) (written : UInt32 → List Written) : Prop where
  stage : e.reader.stage = .active
  currentStep : e.reader.currentStep = some e.step
  currentBlocks : e.reader.currentBlocks = some (e.reader.archive.blocksAt e.step)
  holds : e.reader.archive.Holds crew.operators crew.ranks written e.step
  nonempty : ∃ rank ∈ crew.ranks, Written.at e.step (written rank) ≠ []

theorem Exposure.Shows.congr {e : Exposure} {crew : Crew} {written written' : UInt32 → List Written}
    (h : e.Shows crew written)
    (heq : ∀ rank ∈ crew.ranks,
      Written.at e.step (written' rank) = Written.at e.step (written rank)) :
    e.Shows crew written' where
  stage := h.stage
  currentStep := h.currentStep
  currentBlocks := h.currentBlocks
  holds := h.holds.congr heq
  nonempty := by
    obtain ⟨rank, hrank, hne⟩ := h.nonempty
    exact ⟨rank, hrank, (heq rank hrank).symm ▸ hne⟩

namespace Feed

/-- The steps so far show what has arrived. -/
structure Shown (crew : Crew) (received : UInt32 → List Batch) (f : Feed) : Prop where
  increasing : f.exposed.Pairwise (fun e e' => e.step < e'.step)
  last : f.exposed.getLast?.map Exposure.step = f.reader.currentStep
  shows : ∀ e ∈ f.exposed, e.Shows crew (arrived received)
  covered : ∀ rank ∈ crew.ranks, ∀ y ∈ arrived received rank,
    (∃ c ∈ f.reader.currentStep, y.step ≤ c) → ∃ e ∈ f.exposed, e.step = y.step
  undisturbed : ∀ o ∈ f.outcomes, o ∈ [.ok .ready, .ok .notReady, .ok .endOfStream]
  finished : .ok .endOfStream ∈ f.outcomes → f.reader.isDone = true ∧
    ∀ rank ∈ crew.ranks, ∀ y ∈ arrived received rank, ∃ c ∈ f.reader.currentStep, y.step ≤ c
  resting : f.reader.stage = .active → f.phase = .idle ∧
    f.exposed.getLast?.map Exposure.reader = some f.reader

section Shown

variable {crew : Crew} {received received' : UInt32 → List Batch} {f f' : Feed}

theorem Shown.le_currentStep (h : Shown crew received f) {e : Exposure} (he : e ∈ f.exposed) :
    ∃ c ∈ f.reader.currentStep, e.step ≤ c := by
  obtain ⟨before, last, heq⟩ :=
    (List.eq_nil_or_concat' f.exposed).resolve_left (List.ne_nil_of_mem he)
  have hincreasing := h.increasing
  have hlast := h.last
  rw [heq, List.getLast?_concat] at hlast
  rw [heq] at hincreasing he
  refine ⟨last.step, hlast.symm, ?_⟩
  rcases List.mem_append.mp he with he | he
  · exact Std.le_of_lt
      ((List.pairwise_append.mp hincreasing).2.2 e he last (List.mem_singleton_self last))
  · rw [List.mem_singleton.mp he]
    exact Std.le_refl _

theorem Shown.frame (h : Shown crew received f) (network : Network)
    (senders : Table UInt32 Sender) : Shown crew received { f with network, senders } :=
  ⟨h.increasing, h.last, h.shows, h.covered, h.undisturbed, h.finished, h.resting⟩

/-- **What comes later does not touch what was shown.** -/
theorem Shown.newer (h : Shown crew received f) {r : Reader}
    (hnewer : Newer received received' f.reader r) (hstage : f.reader.stage ≠ .active)
    (network : Network) (phase : Phase) :
    Shown crew received' { f with reader := r, network, phase } where
  increasing := h.increasing
  last := h.last.trans hnewer.currentStep.symm
  shows := by
    intro e he
    obtain ⟨c, hc, hle⟩ := h.le_currentStep he
    exact (h.shows e he).congr fun rank _ => hnewer.settled c hc e.step hle rank
  covered := by
    intro rank hrank y hy hbefore
    rw [hnewer.currentStep] at hbefore
    obtain ⟨c, hc, hle⟩ := hbefore
    have hat := hnewer.settled c hc y.step hle rank
    have hmem : y ∈ Written.at y.step (arrived received rank) := hat ▸ mem_at.mpr ⟨hy, rfl⟩
    exact h.covered rank hrank y (mem_at.mp hmem).1 ⟨c, hc, hle⟩
  undisturbed := h.undisturbed
  finished := by
    intro hover
    obtain ⟨hdone, hall⟩ := h.finished hover
    obtain ⟨rfl, hdone'⟩ := hnewer.finished hdone
    refine ⟨hdone', ?_⟩
    show ∀ rank ∈ crew.ranks, ∀ y ∈ arrived received' rank, ∃ c ∈ r.currentStep, y.step ≤ c
    rw [hnewer.currentStep]
    exact hall
  resting := fun hactive => absurd (hnewer.stage.symm.trans hactive) hstage

theorem Shown.turn (h : Shown crew received f) (hstage : f.reader.stage ≠ .active) (phase : Phase) :
    Shown crew received { f with phase } :=
  ⟨h.increasing, h.last, h.shows, h.covered, h.undisturbed, h.finished,
    fun hactive => absurd hactive hstage⟩

theorem Shown.notReady (h : Shown crew received f) (hstage : f.reader.stage ≠ .active) :
    Shown crew received (f.finishBegin (.ok .notReady)) where
  increasing := h.increasing
  last := h.last
  shows := h.shows
  covered := h.covered
  undisturbed := List.forall_mem_append.mpr ⟨h.undisturbed, by simp⟩
  finished := by
    intro hover
    rcases List.mem_append.mp hover with hover | hover
    · exact h.finished hover
    · simp at hover
  resting := fun hactive => absurd hactive hstage

theorem Shown.finish (h : Shown crew received f) (hstage : f.reader.stage ≠ .active)
    (hdone : f.reader.isDone = true)
    (hall : ∀ rank ∈ crew.ranks, ∀ y ∈ arrived received rank,
      ∃ c ∈ f.reader.currentStep, y.step ≤ c) :
    Shown crew received (f.finishBegin (.ok .endOfStream)) where
  increasing := h.increasing
  last := h.last
  shows := h.shows
  covered := h.covered
  undisturbed := List.forall_mem_append.mpr ⟨h.undisturbed, by simp⟩
  finished := fun _ => ⟨hdone, hall⟩
  resting := fun hactive => absurd hactive hstage

/-- The reader as it enters a step shows what was written there. -/
theorem shows_enter {r : Reader} (hfollows : Follows crew received r) {step : UInt64}
    (hchoose : r.choose .next = some step) (now : Moment) :
    Exposure.Shows ⟨step, r.enter step now⟩ crew (arrived received) := by
  obtain ⟨⟨rest, hrest⟩, -, -⟩ := hfollows.choose_eq_some hchoose
  have hcandidate : step ∈ r.candidates := hrest ▸ List.mem_cons_self
  obtain ⟨hlive, hstep⟩ := mem_candidates.mp hcandidate
  exact {
    stage := rfl
    currentStep := rfl
    currentBlocks := by
      obtain ⟨blocks, hblocks⟩ := Option.isSome_iff_exists.mp (Table.isSome_at?_iff.mpr hlive)
      show r.archive.steps.at? step = some ((r.archive.steps.at? step).getD [])
      rw [hblocks]
      rfl
    holds := hfollows.holds step (hfollows.not_late hstep)
    nonempty := (hfollows.mem_candidates_iff hstep).mp hcandidate }

/-- **The reader is let into the next step.** -/
theorem Shown.entered (h : Shown crew received f) (hfollows : Follows crew received f.reader)
    {step : UInt64} (hchoose : f.reader.choose .next = some step) (now : Moment) :
    Shown crew received
      { f with
        reader := f.reader.enter step now
        exposed := f.exposed ++ [⟨step, f.reader.enter step now⟩]
        phase := .idle
        outcomes := f.outcomes ++ [.ok .ready] } := by
  obtain ⟨⟨rest, hrest⟩, -, hfirst⟩ := hfollows.choose_eq_some hchoose
  have hstep := (mem_candidates.mp (hrest ▸ List.mem_cons_self)).2
  exact {
    increasing := by
      refine List.pairwise_append.mpr ⟨h.increasing, List.pairwise_singleton _ _, ?_⟩
      intro e he e' he'
      obtain ⟨c, hc, hle⟩ := h.le_currentStep he
      rw [List.mem_singleton.mp he']
      exact UInt64.lt_of_le_of_lt hle (hstep c hc)
    last := by
      rw [List.getLast?_concat]
      rfl
    shows := List.forall_mem_append.mpr
      ⟨h.shows, List.forall_mem_singleton.mpr (shows_enter hfollows hchoose now)⟩
    covered := by
      intro rank hrank y hy hx
      obtain ⟨c, hc, hle⟩ := hx
      cases hc
      by_cases hbefore : ∃ c ∈ f.reader.currentStep, y.step ≤ c
      · obtain ⟨e, he, heq⟩ := h.covered rank hrank y hy hbefore
        exact ⟨e, List.mem_append_left _ he, heq⟩
      · -- What was written after the current step is at a step to go to, and the first is taken.
        have hafter : ∀ c ∈ f.reader.currentStep, c < y.step := by
          intro c hc
          by_contra hlt
          exact hbefore ⟨c, hc, UInt64.not_lt.mp hlt⟩
        have hcandidate := (hfollows.mem_candidates_iff hafter).mpr
          ⟨rank, hrank, List.ne_nil_of_mem (mem_at.mpr ⟨hy, rfl⟩)⟩
        exact ⟨_, List.mem_append_right _ (List.mem_singleton_self _),
          Std.le_antisymm (hfirst y.step hcandidate) hle⟩
    undisturbed := List.forall_mem_append.mpr ⟨h.undisturbed, by simp⟩
    finished := by
      intro hover
      rcases List.mem_append.mp hover with hover | hover
      · obtain ⟨hdone, hall⟩ := h.finished hover
        refine ⟨hdone, fun rank hrank y hy => ⟨step, rfl, ?_⟩⟩
        obtain ⟨c, hc, hle⟩ := hall rank hrank y hy
        exact Std.le_trans hle (Std.le_of_lt (hstep c hc))
      · simp at hover
    resting := by
      intro _
      rw [List.getLast?_concat]
      exact ⟨rfl, rfl⟩ }

theorem Shown.left (h : Shown crew received f) (step : UInt64) (now : Moment) (phase : Phase) :
    Shown crew received { f with reader := f.reader.leave step now, phase } :=
  ⟨h.increasing, h.last, h.shows, h.covered, h.undisturbed, h.finished,
    fun hactive => nomatch hactive⟩

end Shown

end Feed

end Stepcast
