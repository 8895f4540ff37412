import Mathlib.Data.List.Perm.Subperm
import Stepcast.Delivery.Outgoing
import Stepcast.Proofs.Archive.Reclamation
import Stepcast.Proofs.Wire.RoundTrip

/-!
# Sealed messages in an archive

A sealed message is the finished draft of the calls of a batch, and an archive that receives it has
the blocks of the batch at the ends of their steps. `Archive.Holds` says that an archive holds at a
step just what some ranks have written there; it survives other messages and the erasing of other
steps.

Main statements: `put_seals`, `put_endRecord`, `discards_seals`, `Holds.put`, `Holds.erase`.
-/

namespace Stepcast

/-- A block as it was given to a writer. -/
structure Written where
  step : UInt64
  v : Variable
  payload : Bytes

/-- What was written at a step, in order. -/
def Written.at (step : UInt64) (xs : List Written) : List Written :=
  xs.filter (fun x => x.step = step)

theorem Written.at_append (step : UInt64) (xs ys : List Written) :
    Written.at step (xs ++ ys) = Written.at step xs ++ Written.at step ys := List.filter_append ..

theorem Written.at_eq_nil_iff {step : UInt64} {xs : List Written} :
    Written.at step xs = [] ↔ ∀ x ∈ xs, x.step ≠ step := by
  simp [Written.at]

/-! ## What fits into a message -/

namespace Draft

/-- The block that a call puts. -/
def Call.written? : Call → Option Written
  | .put v step payload => some ⟨step, v, payload⟩
  | _ => none

/-- The blocks that the calls put, in order. -/
def written (cs : List Call) : List Written := cs.filterMap Call.written?

theorem written_append (cs cs' : List Call) : written (cs ++ cs') = written cs ++ written cs' :=
  List.filterMap_append

theorem at_written (step : UInt64) (cs : List Call) :
    Written.at step (written cs) = (putsAt step cs).map (fun p => ⟨step, p.v, p.payload⟩) := by
  induction cs with
  | nil => rfl
  | cons c rest ih =>
    cases c with
    | put v s payload =>
      by_cases hs : s = step
      · simpa [written, Call.written?, Written.at, putsAt, hs] using ih
      · simpa [written, Call.written?, Written.at, putsAt, hs] using ih
    | stamp s now => exact ih
    | attach attributes => exact ih

/-- The lists of the draft fit into the widths of a message. -/
structure Fits (d : Draft) : Prop where
  attributes : ∀ a ∈ d.attributes, a.Fits
  sections : d.records.length + d.attributes.toList.length < 2 ^ 32
  blocks : ∀ step, (d.recordsAt step).length < 2 ^ 32
  length : d.finish.1.length < 2 ^ 64

theorem Fits.calls {operators : Operators} {cs : List Call} {d : Draft} (hd : d.Fits)
    (h : Tracks operators cs d) (hv : ∀ v step payload, Call.put v step payload ∈ cs → v.Fits) :
    CallsFit cs where
  puts := hv
  blocks := fun step => (h.records step).length_eq ▸ hd.blocks step
  attributes := h.attributes ▸ hd.attributes
  sections := by
    have hlength := hd.sections
    rw [← length_sections h, Draft.sections, List.length_append, List.length_map, List.length_map]
    omega

theorem finish_ne_nil (d : Draft) : d.finish.1 ≠ [] := Frame.compose_ne_nil _ _

end Draft

/-! ## Receiving sealed messages -/

namespace Outgoing

/-- The message is the finished draft of the calls. -/
inductive Seals (operators : Operators) (rank : UInt32) (cs : List Draft.Call) : Outgoing → Prop
  | mk {d₀ d : Draft} (first last : UInt64) : d₀.rank = rank →
      d₀.open.calls operators cs = .ok d → Draft.CallsFit cs → d.finish.1.length < 2 ^ 64 →
      Seals operators rank cs (.data d.finish.1 first last)

theorem Seals.bytes_ne_nil {operators : Operators} {rank : UInt32} {cs : List Draft.Call}
    {m : Outgoing} (h : m.Seals operators rank cs) : m.bytes ≠ [] := by
  obtain @⟨d₀, d, first, last, hrank, hcalls, hfit, hlength⟩ := h
  exact d.finish_ne_nil

end Outgoing

namespace Archive

/-- The block is what was written. -/
def Bears (operators : Operators) (a : Archive) (rank : UInt32) (x : Written) (b : Block) : Prop :=
  ∃ later, Carries operators a rank x.step ⟨x.v, x.payload, later⟩ b

theorem Bears.of_stored {operators : Operators} {a a' : Archive} {rank : UInt32} {x : Written}
    {b : Block} (h : Bears operators a rank x b) (hstored : a'.stored? b = a.stored? b) :
    Bears operators a' rank x b := by
  obtain ⟨later, h⟩ := h
  exact ⟨later, { h with stored := hstored ▸ h.stored }⟩

theorem Bears.rank_eq {operators : Operators} {a : Archive} {rank : UInt32} {x : Written}
    {b : Block} (h : Bears operators a rank x b) : b.rank = rank :=
  h.choose_spec.rank_eq

/-- **A sealed message adds what was written to the steps that are not late.** -/
theorem put_seals {operators : Operators} {rank : UInt32} {cs : List Draft.Call} {m : Outgoing}
    (h : m.Seals operators rank cs) (a : Archive) :
    ∃ a' n steps, a.put m.bytes = (a', .ok (.data n steps)) ∧ ∀ step, ¬ a.Late step →
      ∃ blocks, a'.blocksAt step = a.blocksAt step ++ blocks ∧
        List.Forall₂ (Bears operators a' rank) (Written.at step (Draft.written cs)) blocks := by
  obtain @⟨d₀, d, first, last, hrank, hcalls, hfit, hlength⟩ := h
  have hd : d.rank = rank := (Draft.rank_calls hcalls).trans hrank
  obtain ⟨a', n, steps, hput, hsteps⟩ := put_of_tracks (Draft.tracks_calls hcalls) hfit hlength a
  refine ⟨a', n, steps, hput, fun step hlate => ?_⟩
  obtain ⟨blocks, hblocks, hcarries⟩ := (hsteps step).2 hlate
  refine ⟨blocks, hblocks, ?_⟩
  rw [Draft.at_written, List.forall₂_map_left_iff]
  exact hcarries.imp fun p b hb => ⟨p.later, hd ▸ hb⟩

theorem Received.watermark {a a' : Archive} {message : Bytes} (h : Received a message a') :
    a'.watermark = a.watermark := by
  cases h with
  | same hsame _ => exact hsame.watermark
  | added hsame _ _ _ =>
    rw [watermark_addBlocks]
    exact hsame.watermark

theorem Received.stored? {a a' : Archive} {message : Bytes} (ha : Sound a)
    (h : Received a message a') {b : Block} (hb : a.Live b) : a'.stored? b = a.stored? b := by
  cases h with
  | same hsame _ => rw [Archive.stored?, buffer?, hsame.buffers, Archive.stored?, buffer?]
  | added hsame _ _ _ =>
    have hkey : b.buffer ≠ a.nextKey :=
      Nat.ne_of_lt (ha.fresh _ ((ha.kept_iff _).mpr ⟨b, hb, rfl⟩))
    rw [Archive.stored?, buffer?, buffers_addBlocks, keep, Table.at?_put, if_neg hkey,
      hsame.buffers, Archive.stored?, buffer?]

end Archive

/-! ## The end of a stream -/

namespace Frame

theorem endRecord_fits (final : Option UInt64) :
    (Tree.map [(finalStepKey, final.elim .null .uint)]).Fits := by
  refine .map (by simp) (List.pairwise_singleton _ _) ?_ ?_
  · exact fun e he => List.mem_singleton.mp he ▸ by simp only [finalStepKey]; decide
  · intro e he
    rw [List.mem_singleton.mp he]
    cases final with
    | none => exact .null
    | some step => exact .uint step

theorem endRecord_ne_nil (final : Option UInt64) : endRecord final ≠ [] := by
  cases final <;> simp [endRecord, Tree.encode]

theorem finalStep?_endRecord (final : Option UInt64) :
    finalStep? (endRecord final) = some final := by
  rw [finalStep?, endRecord, Tree.decode_encode (endRecord_fits final)]
  cases final <;> rfl

theorem length_endRecord_lt (final : Option UInt64) :
    (endRecord final).length < controlThreshold := by
  rw [endRecord, Tree.length_encode]
  cases final with
  | none => decide
  | some step =>
    show (Tree.map [(finalStepKey, .uint 0)]).encodedLength < controlThreshold
    decide

end Frame

namespace Archive

theorem put_endRecord (a : Archive) (final : Option UInt64) :
    ∃ a', a.put (Frame.endRecord final) = (a', .ok (.endOfStream final)) ∧ SameBlocks a a' ∧
      a'.nextKey = a.nextKey := by
  have hnonempty := mt List.isEmpty_iff.mp (Frame.endRecord_ne_nil final)
  refine ⟨{ a with
    endSignals := a.endSignals + 1
    finalStep := maxOption a.finalStep final }, ?_, ⟨rfl, rfl, rfl, rfl, rfl⟩, rfl⟩
  rw [put, if_neg hnonempty, if_pos (Frame.length_endRecord_lt final),
    Frame.finalStep?_endRecord]

/-! ## What comes too late -/

/-- The blocks of a message that the archive would leave out because they come too late. -/
def discards (a : Archive) (message : Bytes) : List Block :=
  match (a.put message).2, Frame.index message with
  | .ok (.data ..), .ok (offset, entries) =>
    ((Contents.ofIndex a.nextKey offset entries).toOption.elim [] (·.blocks)).filter a.isLate
  | _, _ => []

/-- Of a sealed message all blocks are added if none of them is written at a step that is late. -/
theorem discards_seals {operators : Operators} {rank : UInt32} {cs : List Draft.Call} {m : Outgoing}
    (h : m.Seals operators rank cs) {a : Archive}
    (hlate : ∀ x ∈ Draft.written cs, ¬ a.Late x.step) : a.discards m.bytes = [] := by
  obtain @⟨d₀, d, first, last, hrank, hcalls, hfit, hlength⟩ := h
  have htracks := Draft.tracks_calls hcalls
  obtain ⟨offset, entries, contents, hindex, hfinal, hcontents, hblocks⟩ :=
    index_finish htracks hfit hlength a.nextKey
  obtain ⟨n, steps, hput⟩ := put_of_ofIndex a hindex hfinal hcontents
  simp only [discards, Outgoing.bytes, hput, hindex, hcontents, Except.toOption, Option.elim_some]
  apply List.filter_eq_nil_iff.mpr
  intro b hb hlateBlock
  have hmem : b ∈ contents.blocks.filter (fun b' => b'.step = b.step) := by simp [hb]
  rw [hblocks b.step] at hmem
  obtain ⟨r, hr, -⟩ := List.mem_map.mp hmem
  obtain ⟨p, hp, -⟩ := exists_mem_of_forall₂ (htracks.records b.step) hr
  have hwritten : (⟨b.step, p.v, p.payload⟩ : Written) ∈ Draft.written cs := by
    have hat : (⟨b.step, p.v, p.payload⟩ : Written) ∈ Written.at b.step (Draft.written cs) := by
      rw [Draft.at_written]
      exact List.mem_map_of_mem hp
    exact (List.mem_filter.mp hat).1
  exact hlate _ hwritten (isLate_iff.mp hlateBlock)

theorem discards_endRecord (a : Archive) (final : Option UInt64) :
    a.discards (Frame.endRecord final) = [] := by
  obtain ⟨a', hput, -, -⟩ := a.put_endRecord final
  simp only [discards, hput]

/-! ## What an archive holds at a step -/

/-- At a step the archive has what the ranks wrote there, and nothing else. -/
structure Holds (operators : UInt32 → Operators) (ranks : List UInt32)
    (written : UInt32 → List Written) (a : Archive) (step : UInt64) : Prop where
  rank_mem : ∀ b ∈ a.blocksAt step, b.rank ∈ ranks
  bears : ∀ rank ∈ ranks, List.Forall₂ (Bears (operators rank) a rank)
    (Written.at step (written rank)) ((a.blocksAt step).filter (fun b => b.rank = rank))

section Holds

variable {operators : UInt32 → Operators} {ranks : List UInt32} {written : UInt32 → List Written}
  {a a' : Archive} {step : UInt64}

theorem Holds.congr {written' : UInt32 → List Written} (h : Holds operators ranks written a step)
    (heq : ∀ rank ∈ ranks, Written.at step (written' rank) = Written.at step (written rank)) :
    Holds operators ranks written' a step where
  rank_mem := h.rank_mem
  bears := fun rank hrank => (heq rank hrank).symm ▸ h.bears rank hrank

theorem Holds.of_blocksAt (h : Holds operators ranks written a step)
    (hblocks : a'.blocksAt step = a.blocksAt step)
    (hstored : ∀ b ∈ a.blocksAt step, a'.stored? b = a.stored? b) :
    Holds operators ranks written a' step where
  rank_mem := hblocks ▸ h.rank_mem
  bears := by
    intro rank hrank
    rw [hblocks]
    refine forall₂_imp_of_mem (h.bears rank hrank) fun x b hb hbears => ?_
    exact hbears.of_stored (hstored b (List.mem_filter.mp hb).1)

theorem live_of_mem_blocksAt (ha : Sound a) {b : Block} (hb : b ∈ a.blocksAt step) : a.Live b :=
  (live_iff ha.sorted).mpr ⟨step, hb⟩

theorem step_eq_of_mem_blocksAt (ha : Sound a) {b : Block} (hb : b ∈ a.blocksAt step) :
    b.step = step := by
  rw [blocksAt] at hb
  cases hat : a.steps.at? step with
  | none => simp [hat] at hb
  | some blocks =>
    rw [hat] at hb
    exact ha.step_eq _ (Table.mem_of_at? hat) b hb

/-- **A sealed message is held** at each step that is not late, after what its rank wrote before. -/
theorem Holds.put (h : Holds operators ranks written a step) (ha : Sound a) {rank : UInt32}
    (hrank : rank ∈ ranks) {cs : List Draft.Call} {m : Outgoing}
    (hm : m.Seals (operators rank) rank cs) (hlate : ¬ a.Late step) :
    Holds operators ranks (Function.update written rank (written rank ++ Draft.written cs))
      (a.put m.bytes).1 step := by
  obtain ⟨a', n, steps, hput, hsteps⟩ := put_seals hm a
  have hreceived := received_put a m.bytes
  rw [hput] at hreceived ⊢
  obtain ⟨blocks, hblocks, hnew⟩ := hsteps step hlate
  have hranks : ∀ b ∈ blocks, b.rank = rank := by
    intro b hb
    obtain ⟨x, -, hx⟩ := exists_mem_of_forall₂ hnew hb
    exact hx.rank_eq
  constructor
  · intro b hb
    rw [hblocks] at hb
    rcases List.mem_append.mp hb with hb | hb
    · exact h.rank_mem b hb
    · exact hranks b hb ▸ hrank
  · intro r hr
    have hold : List.Forall₂ (Bears (operators r) a' r) (Written.at step (written r))
        ((a.blocksAt step).filter (fun b => b.rank = r)) := by
      refine forall₂_imp_of_mem (h.bears r hr) fun x b hb hbears => hbears.of_stored ?_
      exact hreceived.stored? ha (live_of_mem_blocksAt ha (List.mem_filter.mp hb).1)
    rw [hblocks, List.filter_append]
    by_cases hr : r = rank
    · subst hr
      have hall : blocks.filter (fun b => b.rank = r) = blocks :=
        List.filter_eq_self.mpr fun b hb => decide_eq_true (hranks b hb)
      rw [Function.update_self, Written.at_append, hall]
      exact List.rel_append hold hnew
    · have hnone : blocks.filter (fun b => b.rank = r) = [] := by
        apply List.filter_eq_nil_iff.mpr
        intro b hb
        simp [hranks b hb, Ne.symm hr]
      rw [Function.update_of_ne hr, hnone, List.append_nil]
      exact hold

theorem late_erase (a : Archive) (erased step : UInt64) :
    (a.erase erased).Late step ↔ a.Late step ∨ step ≤ erased := by
  show (∃ w ∈ maxOption a.watermark (some erased), step ≤ w) ↔ _
  rw [le_maxOption_iff]
  simp [Late]

/-- What the other steps have can be read on after a step was erased. -/
theorem stored?_erase_of_ne (ha : Sound a) {b : Block} (hb : b ∈ a.blocksAt step)
    {erased : UInt64} (hne : step ≠ erased) : (a.erase erased).stored? b = a.stored? b := by
  have hlive : (a.erase erased).Live b := (live_erase ha erased).mpr
    ⟨live_of_mem_blocksAt ha hb, step_eq_of_mem_blocksAt ha hb ▸ hne⟩
  rw [stored?, buffer?_erase ha hlive, stored?]

theorem Holds.erase (h : Holds operators ranks written a step) (ha : Sound a) {erased : UInt64}
    (hne : step ≠ erased) : Holds operators ranks written (a.erase erased) step := by
  apply h.of_blocksAt (a.blocksAt_erase_of_ne hne)
  intro b hb
  exact stored?_erase_of_ne ha hb hne

/-- A step is live just if one of the ranks wrote there. -/
theorem Holds.mem_liveSteps_iff (h : Holds operators ranks written a step) (ha : Sound a) :
    step ∈ a.liveSteps ↔ ∃ rank ∈ ranks, Written.at step (written rank) ≠ [] := by
  rw [ha.mem_liveSteps_iff]
  constructor
  · intro hblocks
    obtain ⟨b, hb⟩ := List.exists_mem_of_ne_nil _ hblocks
    refine ⟨b.rank, h.rank_mem b hb, fun hnone => ?_⟩
    have hbears := h.bears b.rank (h.rank_mem b hb)
    rw [hnone, List.forall₂_nil_left_iff, List.filter_eq_nil_iff] at hbears
    exact hbears b hb (decide_eq_true rfl)
  · intro hwritten hblocks
    obtain ⟨rank, hrank, hne⟩ := hwritten
    have hbears := h.bears rank hrank
    rw [hblocks, List.filter_nil, List.forall₂_nil_right_iff] at hbears
    exact hne hbears

/-- A step with as many ranks as there are has something of each of them. -/
theorem Holds.of_rankCount (h : Holds operators ranks written a step)
    (hcount : ranks.length ≤ a.rankCount step) {rank : UInt32} (hrank : rank ∈ ranks) :
    Written.at step (written rank) ≠ [] := by
  have hsub : ((a.blocksAt step).map (·.rank)).eraseDups ⊆ ranks := by
    intro r hr
    obtain ⟨b, hb, rfl⟩ := List.mem_map.mp (List.mem_eraseDups.mp hr)
    exact h.rank_mem b hb
  have hperm := ((nodup_eraseDups _).subperm hsub).perm_of_length_le hcount
  obtain ⟨b, hb, hbrank⟩ := List.mem_map.mp (List.mem_eraseDups.mp (hperm.mem_iff.mpr hrank))
  intro hnone
  have hbears := h.bears rank hrank
  rw [hnone, List.forall₂_nil_left_iff, List.filter_eq_nil_iff] at hbears
  exact hbears b hb (decide_eq_true hbrank)

end Holds

end Archive

end Stepcast
