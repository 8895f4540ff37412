import Stepcast.Proofs.Archive.Receiving
import Stepcast.Proofs.Wire.Messages

/-!
# From a draft to an archive

What a writer puts into a draft is what an archive holds after receiving the finished message: for
every put a block at the end of its step, in the order of the puts, that tells the same and whose
bytes are the stored payload. Steps at or below the watermark stay as they are.

Main statement: `put_finish`.
-/

namespace Stepcast

namespace Draft

theorem rank_call {operators : Operators} {d d' : Draft} {c : Call}
    (h : d.call operators c = .ok d') : d'.rank = d.rank := by
  cases c with
  | put v step payload =>
    rw [call] at h
    split at h
    · rename_i hput
      cases h
      obtain ⟨-, stored, -, rfl⟩ := put_eq_ok_iff.mp hput
      exact rank_ensureOpen d
    · cases h
  | stamp step now =>
    cases h
    exact rank_attachTimestamp d step now
  | attach attributes =>
    cases h
    rfl

theorem rank_calls {operators : Operators} {d d' : Draft} {cs : List Call}
    (h : d.calls operators cs = .ok d') : d'.rank = d.rank := by
  induction cs generalizing d with
  | nil =>
    cases h
    rfl
  | cons c rest ih =>
    obtain ⟨d₁, hc, hrest⟩ := bind_eq_ok.mp h
    rw [ih hrest, rank_call hc]

theorem finish_eq {operators : Operators} {cs : List Call} {d : Draft}
    (h : Tracks operators cs d) :
    d.finish.1 = Frame.compose (d.payload.getD []) (.map (Table.ofEntries d.sections)) := by
  rw [finish, ensureOpen_of_isSome h.isOpen]
  rfl

theorem stop_lt {operators : Operators} {cs : List Call} {d : Draft} (h : Tracks operators cs d)
    (hlength : d.finish.1.length < 2 ^ 64) :
    headerSize + (d.payload.getD []).length < 2 ^ 64 := by
  rw [finish_eq h, Frame.length_compose] at hlength
  omega

end Draft

namespace Archive

/-- A block of the archive that tells of a put under `step` by `rank`, with the stored payload. -/
structure Carries (operators : Operators) (a : Archive) (rank : UInt32) (step : UInt64)
    (p : Draft.Put) (b : Block) : Prop where
  name : b.name = p.v.name
  type : b.type = p.v.type
  box : b.box = p.v.selection
  shape : b.shape = if p.v.shape.isEmpty then none else some p.v.shape
  layout : b.layout = .native
  compression : b.compression = p.v.operator.map (·.id)
  params : b.params = p.v.operator.elim [] (·.params)
  timestamp : b.timestamp = Draft.lastTime step p.later
  /-- There is a time just if the step was stamped after the put. -/
  timed : b.timestamp.isSome ↔ ∃ now, Draft.Call.stamp step now ∈ p.later
  step_eq : b.step = step
  rank_eq : b.rank = rank
  stored : ∃ bytes, operators.store p.v p.payload = .ok bytes ∧ a.stored? b = some bytes ∧
    b.size = bytes.length

theorem carries_toBlock {operators : Operators} {a : Archive} {payload : Bytes} {index : Tree}
    {step : UInt64} {p : Draft.Put} {r : Record} (h : Draft.Records operators payload step p r)
    (rank : UInt32) {key : Nat} (hkey : a.buffer? key = some (Frame.compose payload index)) :
    Carries operators a rank step p (r.toBlock step rank key) where
  name := congrArg Record.name h.eq
  type := congrArg Record.type h.eq
  box := congrArg Record.box h.eq
  shape := congrArg Record.shape h.eq
  layout := congrArg Record.layout h.eq
  compression := congrArg Record.compression h.eq
  params := congrArg Record.params h.eq
  timestamp := congrArg Record.timestamp h.eq
  timed := by
    have htimestamp : r.timestamp = Draft.lastTime step p.later := congrArg Record.timestamp h.eq
    show r.timestamp.isSome ↔ _
    rw [htimestamp, Draft.isSome_lastTime_iff]
  step_eq := rfl
  rank_eq := rfl
  stored := by
    have hheader := h.header_le
    have hend := h.le_end
    refine ⟨_, h.stored, ?_, ?_⟩
    · show (a.buffer? key).map (fun bytes => slice bytes r.position r.size) = _
      rw [hkey, Option.map_some, Frame.slice_payload payload index hheader hend]
    · show r.size = _
      rw [length_slice]
      omega

theorem not_isEmpty_of_index {message : Bytes} {found : Nat × Table String Tree}
    (h : Frame.index message = .ok found) : ¬ message.isEmpty := by
  intro hempty
  rw [List.isEmpty_iff.mp hempty] at h
  cases h

/-- A message with an index that is no end record is taken for data. -/
theorem put_eq_putData (a : Archive) {message : Bytes} {offset : Nat}
    {entries : Table String Tree} (hindex : Frame.index message = .ok (offset, entries))
    (hfinal : message.length < Frame.controlThreshold → Frame.finalStep? message = none) :
    a.put message = a.putData message := by
  have hnone : (if message.length < Frame.controlThreshold then Frame.finalStep? message
      else none) = none := ite_eq_right_iff.mpr hfinal
  rw [put, if_neg (not_isEmpty_of_index hindex), hnone]

theorem put_of_ofIndex (a : Archive) {message : Bytes} {offset : Nat}
    {entries : Table String Tree} {contents : Contents}
    (hindex : Frame.index message = .ok (offset, entries))
    (hfinal : message.length < Frame.controlThreshold → Frame.finalStep? message = none)
    (hcontents : Contents.ofIndex a.nextKey offset entries = .ok contents) :
    ∃ n steps, a.put message =
      (({ a with nextKey := a.nextKey + 1 }.addContents a.nextKey message contents).1,
        .ok (.data n steps)) := by
  rw [put_eq_putData a hindex hfinal]
  simp only [putData, hindex, hcontents, addContents]
  split
  · exact ⟨_, _, rfl⟩
  · exact ⟨_, _, rfl⟩

/-- The step was erased, or a later one was. -/
def Late (a : Archive) (step : UInt64) : Prop := ∃ w ∈ a.watermark, step ≤ w

theorem isLate_iff {a : Archive} {b : Block} : a.isLate b = true ↔ a.Late b.step := by
  rw [isLate, Late, Option.any_eq_true]
  simp

theorem filter_onTime (a : Archive) (blocks : List Block) (step : UInt64) :
    (a.Late step →
      (blocks.filter (fun b => !a.isLate b)).filter (fun b => b.step = step) = []) ∧
    (¬ a.Late step → (blocks.filter (fun b => !a.isLate b)).filter (fun b => b.step = step) =
      blocks.filter (fun b => b.step = step)) := by
  constructor
  · intro hlate
    rw [List.filter_filter, List.filter_eq_nil_iff]
    intro b _ hb
    simp only [Bool.and_eq_true, decide_eq_true_eq, Bool.not_eq_true'] at hb
    exact absurd (isLate_iff.mpr (hb.1 ▸ hlate)) (by simp [hb.2])
  · intro hnot
    rw [List.filter_filter]
    refine List.filter_congr fun b _ => ?_
    by_cases hb : b.step = step
    · have honTime : ¬ a.isLate b = true := fun h => hnot (hb ▸ isLate_iff.mp h)
      simp [hb, honTime]
    · simp [hb]

/-- The contents of a message change the steps that are not late, and only by adding to them. -/
theorem addContents_blocks (a : Archive) (key : Nat) (message : Bytes) (contents : Contents)
    (step : UInt64) :
    (a.Late step → (a.addContents key message contents).1.blocks? step = a.blocks? step) ∧
    (¬ a.Late step → (a.addContents key message contents).1.blocksAt step =
      a.blocksAt step ++ contents.blocks.filter (fun b => b.step = step)) ∧
    (¬ a.Late step → contents.blocks.filter (fun b => b.step = step) ≠ [] →
      (a.addContents key message contents).1.buffer? key = some message) := by
  obtain ⟨hlate, honTime⟩ := filter_onTime a contents.blocks step
  have hsteps := ((SameBlocks.refl a).addAttributes contents.attributes).steps
  rw [addContents_eq]
  split
  · rename_i hnone
    rw [hnone] at honTime
    refine ⟨fun _ => by rw [blocks?, hsteps, blocks?], fun hnot => ?_, fun hnot hne => ?_⟩
    · rw [← honTime hnot, List.filter_nil, List.append_nil, blocksAt, hsteps, blocksAt]
    · exact absurd (honTime hnot).symm hne
  · refine ⟨fun h => ?_, fun hnot => ?_, fun _ _ => ?_⟩
    · have hany :
          ¬ (contents.blocks.filter (fun b => !a.isLate b)).any (fun b => b.step = step) := by
        rw [List.any_eq_true]
        intro hx
        obtain ⟨b, hb, hstep⟩ := hx
        exact absurd (List.mem_filter.mpr ⟨hb, hstep⟩) (hlate h ▸ List.not_mem_nil)
      rw [blocks?, at?_steps_addBlocks, if_neg hany, keep, hsteps, blocks?]
    · rw [blocksAt_addBlocks, honTime hnot, blocksAt, keep, hsteps, blocksAt]
    · rw [buffer?, buffers_addBlocks, keep, Table.at?_put, if_pos rfl]

theorem index_finish_eq {operators : Operators} {d : Draft} {cs : List Draft.Call}
    (htracks : Draft.Tracks operators cs d) (hfit : Draft.CallsEncodable cs)
    (hlength : d.finish.1.length < 2 ^ 64) :
    Frame.index d.finish.1 =
      .ok (headerSize + (d.payload.getD []).length, Table.ofEntries d.sections) ∧
      (d.finish.1.length < Frame.controlThreshold → Frame.finalStep? d.finish.1 = none) := by
  obtain ⟨hfits, hdepth⟩ := Draft.index_fits htracks hfit
  rw [Draft.index_eq] at hfits hdepth
  rw [Draft.finish_eq htracks] at hlength ⊢
  exact ⟨Frame.index_compose hfits hdepth hlength, Frame.finalStep?_compose⟩

theorem index_finish {operators : Operators} {d : Draft} {cs : List Draft.Call}
    (htracks : Draft.Tracks operators cs d) (hfit : Draft.CallsFit cs)
    (hlength : d.finish.1.length < 2 ^ 64) (key : Nat) :
    ∃ offset entries contents, Frame.index d.finish.1 = .ok (offset, entries) ∧
      (d.finish.1.length < Frame.controlThreshold → Frame.finalStep? d.finish.1 = none) ∧
      Contents.ofIndex key offset entries = .ok contents ∧
      ∀ step, contents.blocks.filter (fun b => b.step = step) =
        (d.recordsAt step).map (·.toBlock step d.rank key) := by
  obtain ⟨hindex, hfinal⟩ := index_finish_eq htracks hfit.encodable hlength
  have hvalid : ∀ e ∈ d.records, ∀ r ∈ e.2,
      r.Valid (headerSize + (d.payload.getD []).length) := by
    intro e he r hr
    obtain ⟨p, hp, hrecord⟩ := htracks.exists_put he hr
    exact hrecord.valid (hfit.puts _ _ _ (Draft.mem_of_mem_putsAt hp))
      (Draft.stop_lt htracks hlength)
  obtain ⟨contents, hcontents, hblocks⟩ := Draft.ofIndex_sections htracks.sorted hvalid key
  exact ⟨_, _, contents, hindex, hfinal, hcontents, hblocks⟩

/-- **A message that is received** adds the puts to the steps that are not late. -/
theorem put_of_tracks {operators : Operators} {d : Draft} {cs : List Draft.Call}
    (htracks : Draft.Tracks operators cs d) (hfit : Draft.CallsFit cs)
    (hlength : d.finish.1.length < 2 ^ 64) (a : Archive) :
    ∃ a' n steps, a.put d.finish.1 = (a', .ok (.data n steps)) ∧ ∀ step,
      (a.Late step → a'.blocks? step = a.blocks? step) ∧
      (¬ a.Late step → ∃ blocks, a'.blocksAt step = a.blocksAt step ++ blocks ∧
        List.Forall₂ (Carries operators a' d.rank step) (Draft.putsAt step cs) blocks) := by
  obtain ⟨offset, entries, contents, hindex, hfinal, hcontents, hblocks⟩ :=
    index_finish htracks hfit hlength a.nextKey
  obtain ⟨n, steps, hput⟩ := put_of_ofIndex a hindex hfinal hcontents
  refine ⟨_, n, steps, hput, fun step => ?_⟩
  obtain ⟨hlate, hadded, hkept⟩ := addContents_blocks { a with nextKey := a.nextKey + 1 } a.nextKey
    _ contents step
  refine ⟨hlate, fun hnot => ⟨_, hadded hnot, ?_⟩⟩
  have hrecords := htracks.records step
  rw [hblocks step, List.forall₂_map_right_iff]
  by_cases hnone : d.recordsAt step = []
  · rw [hnone, List.forall₂_nil_right_iff] at hrecords ⊢
    exact hrecords
  · have hkey := hkept hnot (by rw [hblocks step]; simpa using hnone)
    rw [Draft.finish_eq htracks] at hkey ⊢
    exact hrecords.imp fun p r hr => carries_toBlock hr d.rank hkey

/-- **What was put is what arrives.** -/
theorem put_finish {operators : Operators} {d₀ d : Draft} {cs : List Draft.Call}
    (hcalls : d₀.open.calls operators cs = .ok d) (hfit : Draft.CallsFit cs)
    (hlength : d.finish.1.length < 2 ^ 64) (a : Archive) :
    ∃ a' n steps, a.put d.finish.1 = (a', .ok (.data n steps)) ∧ ∀ step,
      (a.Late step → a'.blocks? step = a.blocks? step) ∧
      (¬ a.Late step → ∃ blocks, a'.blocksAt step = a.blocksAt step ++ blocks ∧
        List.Forall₂ (Carries operators a' d₀.rank step) (Draft.putsAt step cs) blocks) := by
  have htracks := Draft.tracks_calls hcalls
  have hrank : d.rank = d₀.rank :=
    show d.rank = d₀.open.rank from Draft.rank_calls hcalls
  rw [← hrank]
  exact put_of_tracks htracks hfit hlength a

/-- Two blocks at different steps, the first with a time. -/
def sampleCalls : List Draft.Call :=
  [.put (.scalar "t" .uint8) 3 [5], .stamp 3 1000, .put (.local "u" .uint8 [2]) 4 [6, 7]]

/-- The draft after `sampleCalls`. -/
def sampleDraft : Draft :=
  { rank := 7
    payload := some [5, 6, 7]
    records :=
      [(3, [{ Draft.recordOf (.scalar "t" .uint8) 1 16 with timestamp := some 1000 }]),
        (4, [Draft.recordOf (.local "u" .uint8 [2]) 2 17])] }

theorem sampleCalls_fit : Draft.CallsFit sampleCalls where
  puts := by
    intro v step payload h
    simp only [sampleCalls, List.mem_cons, List.not_mem_nil, or_false, Draft.Call.put.injEq,
      reduceCtorEq, false_or] at h
    rcases h with ⟨rfl, -, -⟩ | ⟨rfl, -, -⟩
    · exact ⟨rfl, by decide, by decide, by decide, fun _ h => nomatch h⟩
    · exact ⟨rfl, by decide, by decide, by decide, fun _ h => nomatch h⟩
  blocks := fun step => Nat.lt_of_le_of_lt (Draft.length_putsAt_le step sampleCalls) (by decide)
  attributes := fun _ h => nomatch h
  sections := by decide

theorem put_finish_sample : ∃ a' n steps,
    ({} : Archive).put sampleDraft.finish.1 = (a', .ok (.data n steps)) ∧ ∀ step,
      (({} : Archive).Late step → a'.blocks? step = ({} : Archive).blocks? step) ∧
      (¬ ({} : Archive).Late step → ∃ blocks,
        a'.blocksAt step = ({} : Archive).blocksAt step ++ blocks ∧
        List.Forall₂ (Carries [] a' 7 step) (Draft.putsAt step sampleCalls) blocks) :=
  have hcalls : ({ rank := 7 } : Draft).open.calls [] sampleCalls = .ok sampleDraft := rfl
  put_finish hcalls sampleCalls_fit (by decide +kernel) {}

end Archive

end Stepcast
