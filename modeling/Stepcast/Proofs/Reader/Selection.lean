import Mathlib.Data.Finset.Card
import Stepcast.Proofs.Archive.Erasing
import Stepcast.Proofs.Delivery.Arrivals

/-!
# Selecting a step

A reader selects a step among those that are live and past its current one, and erases the ones of
them that lie before it. What it selects is complete: each link brought blocks for it, or none of
them can bring more. When the reader asks for the next step it passes over no complete one, and in
reliable delivery over none at all; when it asks for the latest one, no complete step comes after.

Erasing steps takes away the messages that these steps need and no other step does
(`buffer?_foldl_erase`). So the messages of the selected step, of later ones and of those that are
not past the current step stay, even if a step that is erased shares them.

Main statements: `choose_eq_some_iff`, `tryBegin_eq`, `select_exact`.
-/

namespace Stepcast

namespace Archive

/-! ## Erasing several steps -/

/-- The step has a block in the message that is kept under the key. -/
def Needs (a : Archive) (step : UInt64) (key : Nat) : Prop := ∃ b ∈ a.blocksAt step, b.buffer = key

/-- The message is needed, and only by steps for which `P` is true. -/
def NeededOnlyBy (a : Archive) (P : UInt64 → Prop) (key : Nat) : Prop :=
  (∃ step, a.Needs step key) ∧ ∀ step, a.Needs step key → P step

section Erasing

variable {a : Archive} {erased : List UInt64} {step s : UInt64} {key : Nat}

theorem needs_erase : (a.erase step).Needs s key ↔ s ≠ step ∧ a.Needs s key := by
  by_cases hs : s = step
  · subst hs
    simp [Needs, blocksAt_erase_self]
  · simp [Needs, blocksAt_erase_of_ne a hs, hs]

/-- A live block belongs to a step that needs its message. -/
theorem isReferenced_iff_needs (h : Table.Sorted a.steps) :
    isReferenced a.steps key = true ↔ ∃ step, a.Needs step key := by
  rw [isReferenced_iff]
  constructor
  · rintro ⟨e, he, b, hb, hbuffer⟩
    obtain ⟨step, hmem⟩ := (live_iff h).mp ⟨e, he, hb⟩
    exact ⟨step, b, hmem, hbuffer⟩
  · rintro ⟨step, b, hmem, hbuffer⟩
    obtain ⟨e, he, hb⟩ := (live_iff h).mpr ⟨step, hmem⟩
    exact ⟨e, he, b, hb, hbuffer⟩

/-- Erasing a step releases what only this step needs. -/
theorem releases_iff (h : Table.Sorted a.steps) :
    a.releases step key = true ↔ a.NeededOnlyBy (· = step) key := by
  have hrest : isReferenced (a.steps.without step) key = true ↔
      ∃ s, s ≠ step ∧ a.Needs s key := by
    refine (isReferenced_iff_needs (a := a.erase step) (Table.sorted_without h step)).trans ?_
    simp only [needs_erase]
  have hself : (a.blocksAt step).any (fun b => b.buffer == key) = true ↔ a.Needs step key := by
    simp [Needs]
  rw [releases, Bool.and_eq_true, hself, Bool.not_eq_true', Bool.eq_false_iff, Ne, hrest]
  constructor
  · rintro ⟨hneeds, hnone⟩
    exact ⟨⟨step, hneeds⟩, fun s hs => by_contra fun hne => hnone ⟨s, hne, hs⟩⟩
  · rintro ⟨⟨s, hs⟩, honly⟩
    refine ⟨honly s hs ▸ hs, ?_⟩
    rintro ⟨t, hne, ht⟩
    exact hne (honly t ht)

theorem buffer?_erase_eq (a : Archive) (step : UInt64) (key : Nat) :
    (a.erase step).buffer? key = if a.releases step key then none else a.buffer? key := by
  rw [buffer?, buffers_erase, Table.at?_filter (fun k => !a.releases step k)]
  cases a.releases step key <;> rfl

/-- What the first step or the later ones release is what they release together. -/
theorem neededOnlyBy_cons (h : Table.Sorted a.steps) :
    a.NeededOnlyBy (· ∈ step :: erased) key ↔
      a.releases step key = true ∨ (a.erase step).NeededOnlyBy (· ∈ erased) key := by
  rw [releases_iff h]
  simp only [NeededOnlyBy, needs_erase, List.mem_cons]
  constructor
  · rintro ⟨⟨s, hs⟩, honly⟩
    by_cases hother : ∃ t, t ≠ step ∧ a.Needs t key
    · exact .inr ⟨hother, fun t ht => (honly t ht.2).resolve_left ht.1⟩
    · have honly' : ∀ t, a.Needs t key → t = step :=
        fun t ht => by_contra fun hne => hother ⟨t, hne, ht⟩
      exact .inl ⟨⟨s, hs⟩, honly'⟩
  · rintro (⟨hneeds, honly⟩ | ⟨⟨s, -, hs⟩, honly⟩)
    · exact ⟨hneeds, fun t ht => .inl (honly t ht)⟩
    · refine ⟨⟨s, hs⟩, fun t ht => ?_⟩
      by_cases heq : t = step
      · exact .inl heq
      · exact .inr (honly t ⟨heq, ht⟩)

/-- **Erasing steps takes away the messages that only they need**, and no others. -/
theorem buffer?_foldl_erase (h : Table.Sorted a.steps) :
    (a.NeededOnlyBy (· ∈ erased) key → (erased.foldl erase a).buffer? key = none) ∧
    (¬ a.NeededOnlyBy (· ∈ erased) key →
      (erased.foldl erase a).buffer? key = a.buffer? key) := by
  induction erased generalizing a with
  | nil => exact ⟨fun ⟨⟨s, hs⟩, honly⟩ => absurd (honly s hs) List.not_mem_nil, fun _ => rfl⟩
  | cons e rest ih =>
    obtain ⟨hgone, hkept⟩ := ih (a := a.erase e) (Table.sorted_without h e)
    have hfirst := buffer?_erase_eq a e key
    rw [neededOnlyBy_cons h, List.foldl_cons, not_or]
    constructor
    · intro hreleased
      by_cases hrest : (a.erase e).NeededOnlyBy (· ∈ rest) key
      · exact hgone hrest
      · rw [hkept hrest, hfirst, if_pos (hreleased.resolve_right hrest)]
    · rintro ⟨hnot, hrest⟩
      rw [hkept hrest, hfirst, if_neg hnot]

end Erasing

/-- The number of ranks at a step. -/
theorem rankCount_eq_card (a : Archive) (step : UInt64) :
    a.rankCount step = ((a.blocksAt step).map (·.rank)).toFinset.card := by
  have hranks : ((a.blocksAt step).map (·.rank)).eraseDups.toFinset =
      ((a.blocksAt step).map (·.rank)).toFinset := by
    ext rank
    simp only [List.mem_toFinset, List.mem_eraseDups]
  rw [← hranks, List.toFinset_card_of_nodup (nodup_eraseDups _)]
  rfl

end Archive

namespace Reader

variable {r : Reader} {mode : StepMode} {step s : UInt64}

/-! ## What may be selected -/

/-- The step is past the current one. -/
def IsPast (r : Reader) (step : UInt64) : Prop := ∀ c ∈ r.currentStep, c < step

/-- As many ranks as there are links have blocks at the step, or all links are done. -/
def Complete (r : Reader) (step : UInt64) : Prop :=
  (∀ l ∈ r.links, l.ended = true ∨ l.lost = true) ∨
    r.links.length ≤ ((r.archive.blocksAt step).map (·.rank)).toFinset.card

/-- The step is one to go to: it is live, past the current one and complete, and it is the first or
the last one that is. In reliable delivery no step is passed over. -/
structure Selects (r : Reader) (mode : StepMode) (step : UInt64) : Prop where
  live : step ∈ r.archive.liveSteps
  past : r.IsPast step
  complete : r.Complete step
  first : mode = .next → ∀ s ∈ r.archive.liveSteps, r.IsPast s → s < step →
    ¬ r.Complete s ∧ r.delivery ≠ .reliable
  last : mode = .latest → ∀ s ∈ r.archive.liveSteps, step < s → ¬ r.Complete s

theorem isComplete_iff : r.isComplete step = true ↔ r.Complete step := by
  have hdone : r.isDone = true ↔ ∀ l ∈ r.links, l.ended = true ∨ l.lost = true := by
    simp only [isDone, List.all_eq_true, Link.isDone, Bool.or_eq_true]
  rw [isComplete, Bool.or_eq_true, hdone, decide_eq_true_eq, Archive.rankCount_eq_card, Complete]

theorem isComplete_eq_false_iff : r.isComplete step = false ↔ ¬ r.Complete step := by
  rw [← isComplete_iff, Bool.not_eq_true]

theorem mem_candidates_iff : step ∈ r.candidates ↔ step ∈ r.archive.liveSteps ∧ r.IsPast step :=
  Feed.mem_candidates

theorem pairwise_candidates (h : Table.Sorted r.archive.steps) : r.candidates.Pairwise (· < ·) :=
  (List.pairwise_map.mpr h).filter _

section Choose

variable (h : Table.Sorted r.archive.steps)

include h

theorem find?_candidates_eq_some_iff : r.candidates.find? r.isComplete = some step ↔
    (step ∈ r.candidates ∧ r.Complete step) ∧ ∀ s ∈ r.candidates, s < step → ¬ r.Complete s := by
  have hfirst := find?_eq_some_iff_of_pairwise (R := fun s t : UInt64 => s < t)
    (fun hlt => Std.not_lt.mpr (Std.le_of_lt hlt)) (pairwise_candidates h)
    (p := r.isComplete) (x := step)
  simpa only [isComplete_iff, isComplete_eq_false_iff] using hfirst

theorem find?_reverse_eq_some_iff : r.candidates.reverse.find? r.isComplete = some step ↔
    (step ∈ r.candidates ∧ r.Complete step) ∧ ∀ s ∈ r.candidates, step < s → ¬ r.Complete s := by
  have hlast := find?_eq_some_iff_of_pairwise (R := fun s t : UInt64 => t < s)
    (fun hlt => Std.not_lt.mpr (Std.le_of_lt hlt))
    (List.pairwise_reverse.mpr (pairwise_candidates h)) (p := r.isComplete) (x := step)
  simpa only [isComplete_iff, isComplete_eq_false_iff, List.mem_reverse] using hlast

theorem head?_filter_eq_some_iff : r.candidates.head?.filter r.isComplete = some step ↔
    (step ∈ r.candidates ∧ r.Complete step) ∧ ∀ s ∈ r.candidates, ¬ s < step := by
  have hfirst := find?_eq_some_iff_of_pairwise (R := fun s t : UInt64 => s < t)
    (fun hlt => Std.not_lt.mpr (Std.le_of_lt hlt)) (pairwise_candidates h)
    (p := fun _ => true) (x := step)
  have hhead : r.candidates.find? (fun _ => true) = r.candidates.head? := by
    cases r.candidates <;> rfl
  rw [Option.filter_eq_some_iff, ← hhead, hfirst, isComplete_iff]
  simp only [and_true, reduceCtorEq, imp_false]
  exact and_right_comm

/-- **What is chosen**, in each mode and each kind of delivery. -/
theorem choose_eq_some_iff : r.choose mode = some step ↔ r.Selects mode step := by
  have hselects : r.Selects mode step ↔ (step ∈ r.candidates ∧ r.Complete step) ∧
      (mode = .next → ∀ s ∈ r.candidates, s < step → ¬ r.Complete s ∧ r.delivery ≠ .reliable) ∧
      (mode = .latest → ∀ s ∈ r.candidates, step < s → ¬ r.Complete s) := by
    simp only [mem_candidates_iff]
    constructor
    · rintro ⟨hlive, hpast, hcomplete, hfirst, hlast⟩
      exact ⟨⟨⟨hlive, hpast⟩, hcomplete⟩, fun hm s hs => hfirst hm s hs.1 hs.2,
        fun hm s hs => hlast hm s hs.1⟩
    · rintro ⟨⟨⟨hlive, hpast⟩, hcomplete⟩, hfirst, hlast⟩
      refine ⟨hlive, hpast, hcomplete, fun hm s hs hs' => hfirst hm s ⟨hs, hs'⟩, ?_⟩
      intro hm s hs hlt
      exact hlast hm s ⟨hs, fun c hc => UInt64.lt_trans (hpast c hc) hlt⟩ hlt
  rw [hselects]
  cases mode with
  | next =>
    cases hdelivery : r.delivery with
    | fast =>
      have hchoose : r.choose .next = r.candidates.find? r.isComplete := by
        simp only [choose, hdelivery]
      rw [hchoose, find?_candidates_eq_some_iff h]
      simp
    | reliable =>
      have hchoose : r.choose .next = r.candidates.head?.filter r.isComplete := by
        simp only [choose, hdelivery]
      rw [hchoose, head?_filter_eq_some_iff h]
      simp
  | latest =>
    have hchoose : r.choose .latest = r.candidates.reverse.find? r.isComplete := by
      cases hdelivery : r.delivery <;> simp only [choose]
    rw [hchoose, find?_reverse_eq_some_iff h]
    simp

end Choose

/-! ## Selecting -/

/-- Chooses a step and erases the steps before it. -/
def select (r : Reader) (mode : StepMode) : Option UInt64 × Reader :=
  match r.choose mode with
  | some step => (some step, r.skipTo step)
  | none => (none, r)

/-- To begin a step is to take in what has come, to select a step and to go there. -/
theorem tryBegin_eq (r : Reader) (mode : StepMode) (now : Moment) (n : Network) :
    r.tryBegin mode now n =
      match r.receive n with
      | (r, n, .error f) => (r, n, .error f)
      | (r, n, .ok ()) =>
        match r.select mode with
        | (some step, r) => (r.enter step now, n, .ok (some .ready))
        | (none, r) => (r, n, .ok (if r.isDone then some r.lastStatus else none)) := by
  unfold tryBegin select
  rcases r.receive n with ⟨r, n, f | ⟨⟩⟩
  · rfl
  · dsimp only
    cases r.choose mode <;> rfl

theorem fst_select (r : Reader) (mode : StepMode) : (r.select mode).1 = r.choose mode := by
  unfold select
  cases r.choose mode <;> rfl

/-- The step lies between the current one and the selected one. -/
def Skips (r : Reader) (step s : UInt64) : Prop := r.IsPast s ∧ s < step

theorem mem_skipped (h : Table.Sorted r.archive.steps) :
    s ∈ r.candidates.takeWhile (· < step) ↔ s ∈ r.archive.liveSteps ∧ r.Skips step s := by
  rw [mem_takeWhile_lt_iff (pairwise_candidates h), mem_candidates_iff, and_assoc, Skips]

theorem mem_liveSteps_of_needs {a : Archive} {key : Nat} (h : a.Needs s key) :
    s ∈ a.liveSteps := by
  obtain ⟨b, hb, -⟩ := h
  by_contra hnot
  rw [Archive.blocksAt, Table.at?_eq_none_iff.mpr hnot] at hb
  exact List.not_mem_nil hb

/-- **Going to a step erases the live steps on the way**, with the messages that only they need. -/
theorem skipTo_archive (h : Table.Sorted r.archive.steps) (step : UInt64) :
    (∀ s, s ∈ (r.skipTo step).archive.liveSteps ↔ s ∈ r.archive.liveSteps ∧ ¬ r.Skips step s) ∧
    (∀ s, ¬ r.Skips step s → (r.skipTo step).archive.blocks? s = r.archive.blocks? s) ∧
    ∀ key, (r.archive.NeededOnlyBy (r.Skips step) key →
        (r.skipTo step).archive.buffer? key = none) ∧
      (¬ r.archive.NeededOnlyBy (r.Skips step) key →
        (r.skipTo step).archive.buffer? key = r.archive.buffer? key) := by
  have honly (key : Nat) : r.archive.NeededOnlyBy (r.Skips step) key ↔
      r.archive.NeededOnlyBy (· ∈ r.candidates.takeWhile (· < step)) key := by
    refine and_congr_right fun _ => forall₂_congr fun s hs => ?_
    show _ ↔ s ∈ r.candidates.takeWhile (· < step)
    rw [mem_skipped h, and_iff_right (mem_liveSteps_of_needs hs)]
  refine ⟨fun s => ?_, fun s hs => ?_, fun key => ?_⟩
  · rw [skipTo, Archive.mem_liveSteps_foldl_erase, mem_skipped h]
    exact and_congr_right fun hlive => by rw [and_iff_right hlive]
  · rw [skipTo, Archive.blocks?_foldl_erase, if_neg]
    exact fun hmem => hs ((mem_skipped h).mp hmem).2
  · rw [honly]
    exact Archive.buffer?_foldl_erase h

/-- **How a reader selects a step**, whatever its archive holds, whichever step is current and in
what state its links are. It selects just a step that is live, past the current one and complete: in
the next mode such that no complete step is passed over, in reliable delivery none at all, and in
the latest mode such that no complete step comes after. Of the steps it erases just the live ones
between the current one and the selected one. All other steps keep their blocks, and of the messages
just those go that were needed by erased steps alone, so none that the selected step or a later one
needs. If no step is selected, nothing changes. -/
theorem select_exact {r : Reader} (h : Table.Sorted r.archive.steps) (mode : StepMode) :
    (∀ step, (r.select mode).1 = some step ↔ r.Selects mode step) ∧
    (∀ step, (r.select mode).1 = some step →
      ∃ a, (r.select mode).2 = { r with archive := a } ∧
        (∀ s, s ∈ a.liveSteps ↔ s ∈ r.archive.liveSteps ∧ ¬ r.Skips step s) ∧
        (∀ s, ¬ r.Skips step s → a.blocks? s = r.archive.blocks? s) ∧
        (∀ s ≥ step, ∀ b ∈ r.archive.blocksAt s,
          b ∈ a.blocksAt s ∧ a.buffer? b.buffer = r.archive.buffer? b.buffer) ∧
        ∀ key, (r.archive.NeededOnlyBy (r.Skips step) key → a.buffer? key = none) ∧
          (¬ r.archive.NeededOnlyBy (r.Skips step) key →
            a.buffer? key = r.archive.buffer? key)) ∧
    ((r.select mode).1 = none → (r.select mode).2 = r) := by
  simp only [fst_select]
  refine ⟨fun step => choose_eq_some_iff h, fun step hchoose => ?_, fun hchoose => ?_⟩
  · obtain ⟨hlive, hblocks, hbuffers⟩ := skipTo_archive h step
    have hselect : (r.select mode).2 = r.skipTo step := by rw [select, hchoose]
    refine ⟨_, hselect, hlive, hblocks, fun s hs b hb => ?_, hbuffers⟩
    -- A step from the selected one on is not skipped, so its messages are not for others only.
    have hkept : ¬ r.Skips step s := fun hskips => UInt64.not_le.mpr hskips.2 hs
    have hsame : (r.skipTo step).archive.blocksAt s = r.archive.blocksAt s :=
      congrArg (·.getD []) (hblocks s hkept)
    exact ⟨hsame.symm ▸ hb, (hbuffers b.buffer).2 fun honly => hkept (honly.2 s ⟨b, hb, rfl⟩)⟩
  · rw [select, hchoose]

/-- A reader after step 1 with two links. Both brought blocks for step 6, one of them together with
its block for step 3. -/
def gapReader : Reader :=
  { name := "s", delivery := .fast, operators := []
    links := [{ channel := .inbox 0 }, { channel := .inbox 1 }]
    archive := [Archive.Event.put Archive.mixedMessage,
      .put (Archive.elementMessage 0 6)].foldl Archive.handle {}
    currentStep := some 1 }

theorem select_exact_sample : Table.Sorted gapReader.archive.steps ∧
    gapReader.Selects .next 6 ∧ ¬ gapReader.Complete 3 ∧
      let a := (gapReader.select .next).2.archive
      3 ∉ a.liveSteps ∧ 6 ∈ a.liveSteps ∧ gapReader.archive.Needs 3 0 ∧
        a.buffer? 0 = gapReader.archive.buffer? 0 := by
  have hsorted : Table.Sorted gapReader.archive.steps :=
    (Archive.sound_run (Archive.sound_of_nil rfl rfl) _).sorted
  obtain ⟨hselects, herases, -⟩ := select_exact hsorted .next
  have hsix : (gapReader.select .next).1 = some 6 := by decide +kernel
  have hlive : gapReader.archive.liveSteps = [3, 6] := by decide +kernel
  obtain ⟨a, ha, hkept, -, hbuffers, -⟩ := herases 6 hsix
  have hskips : gapReader.Skips 6 3 := by
    refine ⟨fun c hc => ?_, by decide⟩
    cases hc
    decide
  have hblock : ∃ b ∈ gapReader.archive.blocksAt 6, b.buffer = 0 := by decide +kernel
  obtain ⟨b, hb, hbuffer⟩ := hblock
  rw [ha]
  refine ⟨hsorted, (hselects 6).mp hsix, ?_, fun h => ((hkept 3).mp h).2 hskips, ?_, ?_, ?_⟩
  · exact isComplete_eq_false_iff.mp (by decide +kernel)
  · refine (hkept 6).mpr ⟨by simp [hlive], fun h => UInt64.lt_irrefl 6 h.2⟩
  · have hneeds : ∃ b ∈ gapReader.archive.blocksAt 3, b.buffer = 0 := by decide +kernel
    exact hneeds
  · exact hbuffer ▸ (hbuffers 6 (Std.le_refl 6) b hb).2

end Reader

end Stepcast
