import Stepcast.Proofs.Wire.Histories

/-!
# What an open message keeps

The message that is finished next has every block that was put since a message was last opened or
finished on request, in the order of the puts. With attributes it is different. A put opens a
message when none is open, and so does finishing, and opening forgets what was attached before. So
the message has the attributes attached last while it was open, and these are the last ones of all
just if none were attached before it was opened or others were attached afterwards. A draft that has
data seals an empty index just if no message is open.

Main statements: `lastAttributes_append_eq_iff`, `entries_eq_nil_iff`, `keeps_run`.
-/

namespace Stepcast

namespace Draft

/-! ## Attributes that come first -/

theorem lastAttributes_eq_none_iff {cs : List Call} :
    lastAttributes cs = none ↔ ∀ attributes, Call.attach attributes ∉ cs := by
  have hmem : ∀ c attributes, Call.attributes? c = some attributes ↔ c = .attach attributes := by
    intro c attributes
    cases c <;> simp [Call.attributes?]
  rw [lastAttributes, List.getLast?_eq_none_iff, List.eq_nil_iff_forall_not_mem]
  simp only [List.mem_filterMap, hmem, exists_eq_right]

/-- Earlier attributes are not missed if there are none, or if others came later. -/
theorem lastAttributes_append_eq_iff {early cs : List Call} :
    lastAttributes (early ++ cs) = lastAttributes cs ↔
      (∀ attributes, Call.attach attributes ∉ early) ∨
        ∃ attributes, Call.attach attributes ∈ cs := by
  rw [lastAttributes_append, ← lastAttributes_eq_none_iff]
  cases hcs : lastAttributes cs with
  | none =>
    have hnone := lastAttributes_eq_none_iff.mp hcs
    simp [hnone]
  | some attributes =>
    have hsome : ∃ attributes, Call.attach attributes ∈ cs := by
      by_contra hall
      rw [lastAttributes_eq_none_iff.mpr (not_exists.mp hall)] at hcs
      cases hcs
    simp [hsome]

/-! ## Empty indexes -/

theorem entries_eq_nil_iff (d : Draft) : Table.ofEntries d.sections = [] ↔ d.hasData = false := by
  have hnil : Table.ofEntries d.sections = [] ↔ d.sections = [] := by
    refine ⟨fun h => ?_, fun h => by rw [h]; rfl⟩
    rw [List.eq_nil_iff_forall_not_mem]
    intro e he
    have hkey : e.1 ∈ Table.keys (Table.ofEntries d.sections) :=
      Table.mem_keys_ofEntries.mpr (List.mem_map_of_mem he)
    rw [h] at hkey
    cases hkey
  rw [hnil, sections, hasData]
  cases d.attributes <;> cases d.records <;> simp

namespace History

/-! ## After any acts -/

/-- **An open message loses nothing.** After any acts the message that is finished next holds every
block that was put since a message was last opened or finished on request, in the order of the puts,
and the attributes attached last while it was open. These are the attributes attached last of all
just if none were attached before the message was opened or others were attached afterwards. Its
index is empty just if no message is open or the draft has no data, and can be read again if what
was put and attached can be written. -/
theorem keeps_run (operators : Operators) (rank : UInt32) (acts : List Act) :
    let h := run operators rank acts
    ∃ entries log,
      Packs operators rank (written (h.early ++ h.calls)) (lastAttributes h.calls)
        h.draft.finish.1 (h.draft.payload.getD []) entries log ∧
      (lastAttributes (h.early ++ h.calls) = lastAttributes h.calls ↔
        (∀ attributes, Call.attach attributes ∉ h.early) ∨
          ∃ attributes, Call.attach attributes ∈ h.calls) ∧
      (entries = [] ↔ h.draft.payload = none ∨ h.draft.hasData = false) ∧
      (CallsEncodable h.calls → h.draft.finish.1.length < 2 ^ 64 →
        Frame.index h.draft.finish.1 =
          .ok (headerSize + (h.draft.payload.getD []).length, entries)) := by
  intro h
  have hsound : h.Sound operators rank := sound_run operators rank acts
  obtain ⟨log, hpacks⟩ := hsound.packs_finish
  have hwritten : written (h.early ++ h.calls) = written h.calls := by
    rw [written_append, hsound.early, List.nil_append]
  refine ⟨_, log, hwritten ▸ hpacks, lastAttributes_append_eq_iff, ?_, fun hfit hlength => ?_⟩
  · rw [entries_eq_nil_iff]
    cases hd : h.draft.payload with
    | none =>
      rw [ensureOpen_of_none hd]
      simp [hasData, Draft.open]
    | some payload => rw [ensureOpen_of_isSome (by simp [hd])]; simp
  · obtain ⟨htracks, -⟩ := hsound.ensureOpen.opened (isSome_ensureOpen h.draft)
    have hfinish : h.draft.ensureOpen.finish = h.draft.finish := by
      rw [Draft.finish, Draft.finish, ensureOpen_of_isSome (isSome_ensureOpen h.draft)]
    rw [← hfinish] at hlength ⊢
    rw [← payload_ensureOpen]
    exact (Archive.index_finish_eq htracks hfit hlength).1

/-- Attributes are attached before a message is opened, and others afterwards; a put fails between
them. -/
def mixedActs : List Act :=
  [.attach [("units", .text "m")], .put (.scalar "t" .uint8) 3 [5], .stamp 3 1000,
    .put (.scalar "t" .uint8) 4 [], .attach [("units", .text "K")],
    .putValues (.local "u" .uint8 [2]) 4 .uint8 [.whole 6, .whole 7]]

theorem mixedActs_encodable : CallsEncodable (run [] 7 mixedActs).calls where
  puts := by
    intro v step payload h
    simp only [show (run [] 7 mixedActs).calls = [.put (.scalar "t" .uint8) 3 [5], .stamp 3 1000,
      .attach [("units", .text "K")], .put (.local "u" .uint8 [2]) 4 [6, 7]] from rfl,
      List.mem_cons, List.not_mem_nil, or_false, Call.put.injEq, reduceCtorEq, false_or] at h
    rcases h with ⟨rfl, -, -⟩ | ⟨rfl, -, -⟩
    · exact ⟨by decide, by decide, by decide, by decide, fun _ h => nomatch h⟩
    · exact ⟨by decide, by decide, by decide, by decide, fun _ h => nomatch h⟩
  blocks := fun step => Nat.lt_of_le_of_lt (length_putsAt_le step _) (by decide)
  attributes := by
    intro attributes h
    cases h
    refine ⟨by decide, by decide, fun e he => ?_⟩
    rw [List.mem_singleton.mp he]
    exact (by decide : (utf8 "K").length < 2 ^ 32)
  sections := by decide

theorem keeps_run_sample :
    let h := run [] 7 mixedActs
    ∃ entries log,
      Packs [] 7 [⟨3, .scalar "t" .uint8, [5]⟩, ⟨4, .local "u" .uint8 [2], [6, 7]⟩]
        (some [("units", .text "K")]) h.draft.finish.1 [5, 6, 7] entries log ∧
      Frame.index h.draft.finish.1 = .ok (19, entries) := by
  obtain ⟨entries, log, hpacks, -, -, hindex⟩ := keeps_run [] 7 mixedActs
  exact ⟨entries, log, hpacks, hindex mixedActs_encodable (by decide +kernel)⟩

/-- Attributes that are attached before a put opens the message are lost, and a draft that has data
seals an empty index when no message is open. -/
theorem loses_early_attributes :
    let units : Attributes := [("units", .text "K")]
    let put : Act := .put (.scalar "t" .uint8) 0 [5]
    let early := run [] 0 [.attach units, put]
    let closed := run [] 0 [put, .finish, .attach units]
    lastAttributes (early.early ++ early.calls) = some units ∧
      early.draft.index.at? attributesKey = none ∧
      closed.draft.hasData = true ∧ closed.draft.finish.1 = Frame.compose [] (.map []) :=
  ⟨rfl, rfl, rfl, rfl⟩

end History

end Draft

end Stepcast
