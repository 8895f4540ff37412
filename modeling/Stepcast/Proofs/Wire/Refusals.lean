import Stepcast.Proofs.Wire.RoundTrip

/-!
# Messages that are refused

A put checks the size of its payload and applies the operator, but takes a variable as it is. The
reader of a message also checks that each box has one start for each extent, and a message in which
one box fails this check is refused as a whole. So what was put is read back just if all boxes pass
it, and one that does not takes all other blocks of the message along.

Main statement: `put_finish_iff_ranks`.
-/

namespace Stepcast

/-- The box has one start for each extent. -/
def Box.IsRanked (b : Box) : Prop := b.start.length = b.count.length

instance (b : Box) : Decidable b.IsRanked :=
  inferInstanceAs (Decidable (b.start.length = b.count.length))

theorem Variable.Encodable.fits {v : Variable} (h : v.Encodable) (hrank : v.selection.IsRanked) :
    v.Fits where
  rank := hrank
  name := h.name
  count := h.count
  shape := h.shape
  operator := h.operator

/-! ## One block -/

theorem Record.boxField_eq_error {r : Record} (h : ¬ r.box.IsRanked) (name : String)
    (step : UInt64) : boxField r.toTree name step = .error (.protocol (.boxRank name step)) := by
  rw [boxField, dimsField_ofDims r.at?_start, dimsField_ofDims r.at?_count, ok_bind, ok_bind]
  exact if_pos h

theorem Record.ofTree_eq_error {r : Record} (h : ¬ r.box.IsRanked) (step : UInt64) (stop : Nat) :
    ofTree step stop r.toTree = .error (.protocol (.boxRank r.name step)) := by
  rw [ofTree, nameField_toTree, ok_bind, typeField_toTree, ok_bind, boxField_eq_error h,
    error_bind]

namespace Draft

/-! ## The blocks of a step -/

section Steps

variable {records : List Record} {stop : Nat}

/-- Each block can be read unless its box fails the check. -/
def Readable (stop : Nat) (r : Record) : Prop := r.box.IsRanked → r.Valid stop

theorem readStep_section_error (rank : UInt32) (step : UInt64) (buffer : Nat)
    (hread : ∀ r ∈ records, Readable stop r) (h : ∃ r ∈ records, ¬ r.box.IsRanked) :
    ∃ r ∈ records, ¬ r.box.IsRanked ∧
      Contents.readStep buffer stop (toString step, rankMap rank records) =
        .error (.protocol (.boxRank r.name step)) := by
  have hstep : readUnsigned (UInt64.size - 1) (toString step) = some step.toNat :=
    readUnsigned_toString (Nat.le_pred_of_lt step.toNat_lt)
  have hrank : readUnsigned (UInt32.size - 1) (toString rank) = some rank.toNat :=
    readUnsigned_toString (Nat.le_pred_of_lt rank.toNat_lt)
  have herror : ∃ t ∈ records.map Record.toTree, ∃ e, (do
      let record ← Record.ofTree step stop t
      return ({ record with step, rank, buffer } : Block) : Except Fault Block) = .error e := by
    obtain ⟨r, hr, hbox⟩ := h
    exact ⟨r.toTree, List.mem_map_of_mem hr, _, by rw [Record.ofTree_eq_error hbox]; rfl⟩
  obtain ⟨t, ht, e, he, hmap⟩ := mapM_eq_error herror
  obtain ⟨r, hr, rfl⟩ := List.mem_map.mp ht
  have hbox : ¬ r.box.IsRanked := by
    intro hbox
    rw [Record.ofTree_toTree (hread r hr hbox)] at he
    cases he
  rw [Record.ofTree_eq_error hbox] at he
  cases he
  refine ⟨r, hr, hbox, ?_⟩
  have hranks : Contents.readRank buffer stop step
      (toString rank, .list (records.map Record.toTree)) =
        .error (.protocol (.boxRank r.name step)) := by
    rw [Contents.readRank]
    simp only [hrank, UInt32.ofNat_toNat, Tree.toList?]
    exact hmap
  rw [Contents.readStep]
  simp only [hstep, UInt64.ofNat_toNat, rankMap, Tree.toMap?, List.mapM_cons, hranks, error_bind]

end Steps

section Index

variable {d : Draft} {stop : Nat}

/-- A section of the index cannot be read if a box in it fails the check, and then it names such a
box. -/
theorem ofIndex_sections_error (hsorted : Table.Sorted d.records)
    (hread : ∀ e ∈ d.records, ∀ r ∈ e.2, Readable stop r)
    (h : ∃ e ∈ d.records, ∃ r ∈ e.2, ¬ r.box.IsRanked) (buffer : Nat) :
    ∃ e ∈ d.records, ∃ r ∈ e.2, ¬ r.box.IsRanked ∧
      Contents.ofIndex buffer stop (Table.ofEntries d.sections) =
        .error (.protocol (.boxRank r.name e.1)) := by
  have herror : ∃ e ∈ d.stepSections, ∃ f, Contents.readStep buffer stop e = .error f := by
    obtain ⟨⟨step, records⟩, he, hbad⟩ := h
    have hat : d.stepSections.at? (toString step) = some (rankMap d.rank records) := by
      rw [at?_stepSections hsorted, (Table.mem_iff_at? hsorted).mp he, Option.map_some]
    obtain ⟨r, -, -, hstep⟩ :=
      readStep_section_error d.rank step buffer (hread _ he) hbad
    exact ⟨_, Table.mem_of_at? hat, _, hstep⟩
  obtain ⟨entry, hentry, f, hf, hmap⟩ := mapM_eq_error herror
  obtain ⟨step, records, he, rfl⟩ := mem_stepSections hentry
  have hbad : ∃ r ∈ records, ¬ r.box.IsRanked := by
    by_contra hall
    have hvalid : ∀ r ∈ records, r.Valid stop := fun r hr =>
      hread _ he r hr (not_not.mp fun hbox => hall ⟨r, hr, hbox⟩)
    rw [readStep_section d.rank step hvalid buffer] at hf
    cases hf
  obtain ⟨r, hr, hbox, hstep⟩ :=
    readStep_section_error d.rank step buffer (hread _ he) hbad
  rw [hstep] at hf
  cases hf
  refine ⟨_, he, r, hr, hbox, ?_⟩
  rw [Contents.ofIndex]
  rw [stepSections] at hmap
  rw [hmap, error_bind]

end Index

/-! ## Puts and their records -/

theorem exists_mem_putsAt {v : Variable} {step : UInt64} {payload : Bytes} {cs : List Call}
    (h : .put v step payload ∈ cs) : ∃ p ∈ putsAt step cs, p.v = v := by
  induction cs with
  | nil => cases h
  | cons c rest ih =>
    rcases List.mem_cons.mp h with rfl | hrest
    · exact ⟨⟨v, payload, rest⟩, by rw [putsAt, if_pos rfl]; exact List.mem_cons_self, rfl⟩
    · obtain ⟨p, hp, hv⟩ := ih hrest
      refine ⟨p, ?_, hv⟩
      cases c with
      | put w s bytes =>
        rw [putsAt]
        split
        · exact List.mem_cons_of_mem _ hp
        · exact hp
      | stamp s now => exact hp
      | attach attributes => exact hp

theorem Tracks.exists_record {operators : Operators} {cs : List Call} {d : Draft}
    (h : Tracks operators cs d) {step : UInt64} {p : Put} (hp : p ∈ putsAt step cs) :
    ∃ e ∈ d.records, ∃ r ∈ e.2, Records operators (d.payload.getD []) step p r := by
  obtain ⟨r, hr, hrecord⟩ := exists_mem_of_forall₂ (h.records step).flip hp
  rw [recordsAt] at hr
  cases hat : d.records.at? step with
  | none => simp [hat] at hr
  | some records =>
    rw [hat, Option.getD_some] at hr
    exact ⟨_, Table.mem_of_at? hat, r, hr, hrecord⟩

theorem length_putsAt (step : UInt64) (cs : List Call) :
    (putsAt step cs).length = (putSteps cs).count step := by
  induction cs with
  | nil => rfl
  | cons c rest ih =>
    cases c with
    | put v s payload =>
      rw [putsAt, putSteps, List.filterMap_cons]
      simp only [Call.putStep?]
      rw [List.count_cons, ← putSteps, ← ih]
      split <;> simp_all
    | stamp s now => exact ih
    | attach attributes => exact ih

end Draft

namespace Archive

section Finish

variable {operators : Operators} {d : Draft} {cs : List Draft.Call}

/-- With one start for each extent in every box, what can be written can also be read. -/
theorem fit_of_isRanked (hfit : Draft.CallsEncodable cs)
    (hranks : ∀ v step payload, Draft.Call.put v step payload ∈ cs → v.selection.IsRanked) :
    Draft.CallsFit cs where
  puts := fun v step payload hput =>
    (hfit.puts v step payload hput).fits (hranks v step payload hput)
  blocks := hfit.blocks
  attributes := hfit.attributes
  sections := hfit.sections

theorem ofIndex_finish_error (htracks : Draft.Tracks operators cs d)
    (hfit : Draft.CallsEncodable cs) (hlength : d.finish.1.length < 2 ^ 64)
    (hbad : ∃ v step payload, Draft.Call.put v step payload ∈ cs ∧ ¬ v.selection.IsRanked)
    (key : Nat) : ∃ v step payload, Draft.Call.put v step payload ∈ cs ∧
      ¬ v.selection.IsRanked ∧ Contents.ofIndex key (headerSize + (d.payload.getD []).length)
        (Table.ofEntries d.sections) = .error (.protocol (.boxRank v.name step)) := by
  have hread : ∀ e ∈ d.records, ∀ r ∈ e.2,
      Draft.Readable (headerSize + (d.payload.getD []).length) r := by
    intro e he r hr hbox
    obtain ⟨p, hp, hrecord⟩ := htracks.exists_put he hr
    have hsame : r.box = p.v.selection := congrArg Record.box hrecord.eq
    have hrank : p.v.selection.IsRanked := hsame ▸ hbox
    exact hrecord.valid ((hfit.puts _ _ _ (Draft.mem_of_mem_putsAt hp)).fits hrank)
      (Draft.stop_lt htracks hlength)
  have hrecords : ∃ e ∈ d.records, ∃ r ∈ e.2, ¬ r.box.IsRanked := by
    obtain ⟨v, step, payload, hput, hbox⟩ := hbad
    obtain ⟨p, hp, rfl⟩ := Draft.exists_mem_putsAt hput
    obtain ⟨e, he, r, hr, hrecord⟩ := htracks.exists_record hp
    have hsame : r.box = p.v.selection := congrArg Record.box hrecord.eq
    exact ⟨e, he, r, hr, hsame ▸ hbox⟩
  obtain ⟨e, he, r, hr, hbox, hcontents⟩ :=
    Draft.ofIndex_sections_error htracks.sorted hread hrecords key
  obtain ⟨p, hp, hrecord⟩ := htracks.exists_put he hr
  have hname : r.name = p.v.name := congrArg Record.name hrecord.eq
  have hsame : r.box = p.v.selection := congrArg Record.box hrecord.eq
  exact ⟨p.v, e.1, p.payload, Draft.mem_of_mem_putsAt hp, hsame ▸ hbox, hname ▸ hcontents⟩

theorem count_steps (blocks : List Block) (step : UInt64) :
    (blocks.map (·.step)).count step = (blocks.filter (fun b => b.step = step)).length := by
  rw [List.count_eq_countP, List.countP_map, List.countP_eq_length_filter]
  congr 1

theorem length_blocks (htracks : Draft.Tracks operators cs d) {blocks : List Block} {rank : UInt32}
    {key : Nat} (h : ∀ step, blocks.filter (fun b => b.step = step) =
      (d.recordsAt step).map (·.toBlock step rank key)) :
    (blocks.map (·.step)).Perm (Draft.putSteps cs) := by
  rw [List.perm_iff_count]
  intro step
  rw [count_steps, h step, List.length_map, ← (htracks.records step).length_eq, Draft.length_putsAt]

end Finish

/-! ## What an archive says -/

section Outcome

variable {message : Bytes} {offset : Nat} {entries : Table String Tree}

theorem put_of_ofIndex_error (a : Archive) {f : Fault}
    (hindex : Frame.index message = .ok (offset, entries))
    (hfinal : message.length < Frame.controlThreshold → Frame.finalStep? message = none)
    (hcontents : Contents.ofIndex a.nextKey offset entries = .error f) :
    a.put message = ({ a with nextKey := a.nextKey + 1 }, .error f) := by
  rw [put_eq_putData a hindex hfinal, putData, hindex]
  simp only [hcontents]

theorem put_fresh {contents : Contents} (hindex : Frame.index message = .ok (offset, entries))
    (hfinal : message.length < Frame.controlThreshold → Frame.finalStep? message = none)
    (hcontents : Contents.ofIndex 0 offset entries = .ok contents) :
    (({} : Archive).put message).2 = .ok (.data contents.blocks.length
      (Table.keys (Table.ofEntries (contents.blocks.map (fun b => (b.step, ())))))) := by
  have hall : contents.blocks.filter (fun b => !({ nextKey := 1 } : Archive).isLate b) =
      contents.blocks := List.filter_eq_self.mpr fun b _ => by simp [isLate]
  rw [put_eq_putData _ hindex hfinal, putData, hindex]
  simp only [hcontents, addContents, isLate_addAttributes, Nat.zero_add, hall]
  cases contents.blocks with
  | nil => rfl
  | cons b rest => rfl

end Outcome

/-- **What was put is read back just if every box has one start for each extent.** Then a fresh
archive takes the finished message and has one block for each put, with what was put. Otherwise
every archive refuses the whole message for one of the other boxes, and no block of it is added. -/
theorem put_finish_iff_ranks {operators : Operators} {d₀ d : Draft} {cs : List Draft.Call}
    (hcalls : d₀.open.calls operators cs = .ok d) (hfit : Draft.CallsEncodable cs)
    (hlength : d.finish.1.length < 2 ^ 64) :
    ((∀ v step payload, Draft.Call.put v step payload ∈ cs → v.selection.IsRanked) →
      ∃ a' steps, ({} : Archive).put d.finish.1 =
          (a', .ok (.data (Draft.putSteps cs).length steps)) ∧
        (∀ step, step ∈ steps ↔ step ∈ Draft.putSteps cs) ∧
        ∀ step, List.Forall₂ (Carries operators a' d₀.rank step) (Draft.putsAt step cs)
          (a'.blocksAt step)) ∧
    ((∃ v step payload, Draft.Call.put v step payload ∈ cs ∧ ¬ v.selection.IsRanked) →
      ∀ a : Archive, ∃ v step payload, Draft.Call.put v step payload ∈ cs ∧
        ¬ v.selection.IsRanked ∧ a.put d.finish.1 =
          ({ a with nextKey := a.nextKey + 1 }, .error (.protocol (.boxRank v.name step)))) := by
  have htracks := Draft.tracks_calls hcalls
  refine ⟨fun hranks => ?_, fun hbad a => ?_⟩
  · replace hfit := fit_of_isRanked hfit hranks
    have hrank : d.rank = d₀.rank :=
      show d.rank = d₀.open.rank from Draft.rank_calls hcalls
    obtain ⟨a', n, steps, hput, hblocks⟩ := put_of_tracks htracks hfit hlength {}
    rw [hrank] at hblocks
    obtain ⟨offset, entries, contents, hindex, hfinal, hcontents, hread⟩ :=
      index_finish htracks hfit hlength 0
    have hperm := length_blocks htracks hread
    have hfresh := put_fresh hindex hfinal hcontents
    rw [hput] at hfresh
    cases hfresh
    rw [show contents.blocks.length = (Draft.putSteps cs).length by
      rw [← hperm.length_eq, List.length_map]] at hput
    refine ⟨a', _, hput, fun step => ?_, fun step => ?_⟩
    · rw [Table.mem_keys_ofEntries, ← hperm.mem_iff]
      simp [Table.keys]
    · obtain ⟨blocks, hat, hcarries⟩ := (hblocks step).2 (by simp [Late])
      rw [hat]
      exact hcarries
  · obtain ⟨hindex, hfinal⟩ := index_finish_eq htracks hfit hlength
    obtain ⟨v, step, payload, hput, hbox, hcontents⟩ :=
      ofIndex_finish_error htracks hfit hlength hbad a.nextKey
    exact ⟨v, step, payload, hput, hbox, put_of_ofIndex_error a hindex hfinal hcontents⟩

/-- A good block and one with an extent but no start. -/
def unrankedCalls : List Draft.Call :=
  [.put (.scalar "t" .uint8) 0 [5],
    .put { name := "u", type := .uint8, selection := ⟨[], [1]⟩ } 0 [7]]

/-- The draft after `unrankedCalls`. -/
def unrankedDraft : Draft :=
  { rank := 0
    payload := some [5, 7]
    records := [(0, [Draft.recordOf (.scalar "t" .uint8) 1 16,
      Draft.recordOf { name := "u", type := .uint8, selection := ⟨[], [1]⟩ } 1 17])] }

theorem unrankedCalls_encodable : Draft.CallsEncodable unrankedCalls where
  puts := by
    intro v step payload h
    simp only [unrankedCalls, List.mem_cons, List.not_mem_nil, or_false, Draft.Call.put.injEq] at h
    rcases h with ⟨rfl, -, -⟩ | ⟨rfl, -, -⟩
    · exact ⟨by decide, by decide, by decide, by decide, fun _ h => nomatch h⟩
    · exact ⟨by decide, by decide, by decide, by decide, fun _ h => nomatch h⟩
  blocks := fun step => Nat.lt_of_le_of_lt (Draft.length_putsAt_le step unrankedCalls) (by decide)
  attributes := fun _ h => nomatch h
  sections := by decide

theorem put_finish_iff_ranks_sample :
    ∃ v step payload, Draft.Call.put v step payload ∈ unrankedCalls ∧ ¬ v.selection.IsRanked ∧
      ({} : Archive).put unrankedDraft.finish.1 =
        ({ nextKey := 1 }, .error (.protocol (.boxRank v.name step))) :=
  have hcalls : ({ rank := 0 } : Draft).open.calls [] unrankedCalls = .ok unrankedDraft := rfl
  (put_finish_iff_ranks hcalls unrankedCalls_encodable (by decide +kernel)).2
    ⟨_, _, _, List.mem_cons_of_mem _ List.mem_cons_self, by decide⟩ {}

/-- The box without a start is put like any other, and its message is refused with both blocks. -/
theorem refuses_accepted_puts :
    ({ rank := 0 } : Draft).open.calls [] unrankedCalls = .ok unrankedDraft ∧
      (({} : Archive).put unrankedDraft.finish.1).2.toOption = none :=
  ⟨rfl, by decide +kernel⟩

end Archive

end Stepcast
