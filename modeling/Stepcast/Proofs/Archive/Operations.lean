import Stepcast.Proofs.Archive.Reordering
import Stepcast.Proofs.Wire.Sealing

/-!
# What the operations do

What receiving a message adds to an archive can be told from what the message is (`gist`) and from
the watermark: its blocks go to the end of their steps unless they come too late, and it is kept if
one of them does not. Erasing a step takes that step away and raises the watermark.

Main statements: `blocksAt_put`, `buffers_put_of_onTime`, `mem_liveSteps_erase`.
-/

namespace Stepcast

namespace Archive

section Put

variable {a : Archive} {message : Bytes} {step : UInt64}

/-! ## The index of a message -/

/-- An index that is read tells what the message is. -/
theorem gist_of_index {offset : Nat} {entries : Table String Tree}
    (hindex : Frame.index message = .ok (offset, entries))
    (hfinal : message.length < Frame.controlThreshold → Frame.finalStep? message = none) :
    gist message = match Contents.ofIndex 0 offset entries with
      | .error f => .refused f true
      | .ok contents => .data contents := by
  have hnone : (if message.length < Frame.controlThreshold then Frame.finalStep? message
      else none) = none := ite_eq_right_iff.mpr hfinal
  cases hcontents : Contents.ofIndex 0 offset entries <;>
    simp only [gist, if_neg (not_isEmpty_of_index hindex), hnone, hindex, hcontents]

theorem exists_index_of_gist {c : Contents} (h : gist message = .data c) :
    ∃ offset entries, Frame.index message = .ok (offset, entries) ∧
      Contents.ofIndex 0 offset entries = .ok c := by
  unfold gist at h
  split at h
  · cases h
  · split at h
    · cases h
    · split at h
      · cases h
      · next offset entries hindex =>
        split at h
        · cases h
        · next hcontents =>
          cases h
          exact ⟨offset, entries, hindex, hcontents⟩

/-! ## What one message adds -/

theorem nextKey_addContents (a : Archive) (key : Nat) (message : Bytes) (contents : Contents) :
    (a.addContents key message contents).1.nextKey = a.nextKey := by
  rw [addContents_eq]
  split
  · exact nextKey_addAttributes a _
  · rw [nextKey_addBlocks]
    exact nextKey_addAttributes a _

theorem nextKey_put (a : Archive) (message : Bytes) :
    (a.put message).1.nextKey = a.nextKey + (gist message).takesKey.toNat := by
  rw [put_eq]
  cases gist message with
  | data c => exact nextKey_addContents ..
  | _ => rfl

/-- What comes too late is left out. -/
theorem blocks?_put_of_late (hlate : a.Late step) (message : Bytes) :
    (a.put message).1.blocks? step = a.blocks? step := by
  rw [put_eq]
  cases gist message with
  | data c =>
    exact (addContents_blocks { a with nextKey := a.nextKey + 1 } a.nextKey message
      (c.under a.nextKey) step).1 hlate
  | _ => rfl

theorem blocksAt_put_of_late (hlate : a.Late step) (message : Bytes) :
    (a.put message).1.blocksAt step = a.blocksAt step :=
  congrArg (·.getD []) (blocks?_put_of_late hlate message)

theorem filter_under (key : Nat) (blocks : List Block) (step : UInt64) :
    (blocks.map (Block.under key)).filter (fun b => b.step = step) =
      (blocks.filter (fun b => b.step = step)).map (Block.under key) := by
  rw [List.filter_map]
  rfl

theorem blocksAt_put (hlate : ¬ a.Late step) (message : Bytes) : (a.put message).1.blocksAt step =
    a.blocksAt step ++ (gist message).blocksAt a.nextKey step := by
  rw [put_eq]
  cases gist message with
  | data c =>
    have hblocks := (addContents_blocks { a with nextKey := a.nextKey + 1 } a.nextKey message
      (c.under a.nextKey) step).2.1 hlate
    rw [Contents.under, filter_under] at hblocks
    exact hblocks
  | _ => exact (List.append_nil _).symm

theorem sameBlocks_put_of_late (hlate : ∀ b ∈ (gist message).blocks, a.Late b.step) :
    SameBlocks a (a.put message).1 := by
  have hused : SameBlocks a { a with nextKey := a.nextKey + 1 } := ⟨rfl, rfl, rfl, rfl, rfl⟩
  rw [put_eq]
  cases hgist : gist message with
  | nothing => exact .refl a
  | ending final => exact ⟨rfl, rfl, rfl, rfl, rfl⟩
  | refused f indexed => exact ⟨rfl, rfl, rfl, rfl, rfl⟩
  | data c =>
    have hnone : (c.under a.nextKey).blocks.filter
        (fun b => !({ a with nextKey := a.nextKey + 1 } : Archive).isLate b) = [] := by
      rw [List.filter_eq_nil_iff]
      intro b hb
      obtain ⟨b, hmem, rfl⟩ := List.mem_map.mp hb
      rw [hgist] at hlate
      rw [Bool.not_eq_true, Bool.not_eq_false']
      exact isLate_iff.mpr (hlate b hmem)
    simp only [absorb, addContents_eq, hnone, if_true]
    exact hused.addAttributes _

/-- Any other message with blocks is kept whole. -/
theorem buffers_put_of_onTime (honTime : ∃ b ∈ (gist message).blocks, ¬ a.Late b.step) :
    (a.put message).1.buffers = a.buffers.put a.nextKey message := by
  obtain ⟨b, hmem, hb⟩ := honTime
  rw [put_eq]
  cases hgist : gist message with
  | data c =>
    rw [hgist] at hmem
    have hsome : (c.under a.nextKey).blocks.filter
        (fun b => !({ a with nextKey := a.nextKey + 1 } : Archive).isLate b) ≠ [] := by
      refine List.ne_nil_of_mem (List.mem_filter.mpr ⟨List.mem_map_of_mem hmem, ?_⟩)
      exact (Bool.not_eq_true' _).mpr (Bool.eq_false_iff.mpr (mt isLate_iff.mp hb))
    simp only [absorb, addContents_eq, if_neg hsome, buffers_addBlocks, keep]
    rw [((SameBlocks.refl _).addAttributes _).buffers]
  | _ =>
    rw [hgist] at hmem
    exact absurd hmem List.not_mem_nil

/-- A block of the message that was added has its bytes there. -/
theorem stored?_put (hlate : ¬ a.Late step) {b : Block}
    (hb : b ∈ (gist message).blocksAt a.nextKey step) :
    (a.put message).1.stored? b = some (slice message b.position b.size) := by
  obtain ⟨b, hmem, rfl⟩ := List.mem_map.mp hb
  rw [put_eq]
  cases hgist : gist message with
  | data c =>
    rw [hgist] at hmem
    have hnonempty : (c.under a.nextKey).blocks.filter (fun b => b.step = step) ≠ [] := by
      rw [Contents.under, filter_under]
      exact List.ne_nil_of_mem (List.mem_map_of_mem hmem)
    have hkey := (addContents_blocks { a with nextKey := a.nextKey + 1 } a.nextKey message
      (c.under a.nextKey) step).2.2 hlate hnonempty
    show Option.map _ (buffer? _ a.nextKey) = _
    rw [absorb]
    dsimp only
    rw [hkey]
    rfl
  | _ =>
    rw [hgist] at hmem
    exact absurd hmem List.not_mem_nil

/-- The outcome when blocks were added to these steps. -/
def outcomeOf (added : List UInt64) : Outcome :=
  .data added.length (Table.keys (Table.ofEntries (added.map (fun s => (s, ())))))

theorem outcomeOf_perm {added added' : List UInt64} (h : added.Perm added') :
    outcomeOf added = outcomeOf added' := by
  have hkeys : Table.keys (Table.ofEntries (added.map (fun s => (s, ())))) =
      Table.keys (Table.ofEntries (added'.map (fun s => (s, ())))) := by
    refine Table.keys_eq_of_mem_iff (Table.sorted_ofEntries _) (Table.sorted_ofEntries _) ?_
    intro step
    rw [Table.mem_keys_ofEntries, Table.mem_keys_ofEntries]
    exact ((h.map _).map _).mem_iff
  rw [outcomeOf, outcomeOf, h.length_eq, hkeys]

theorem outcome_addContents (a : Archive) (key : Nat) (message : Bytes) (contents : Contents) :
    (a.addContents key message contents).2 = outcomeOf
      ((contents.blocks.map (·.step)).filter (fun s => !a.watermark.any (s ≤ ·))) := by
  have hadded : (contents.blocks.map (·.step)).filter (fun s => !a.watermark.any (s ≤ ·)) =
      (contents.blocks.filter (fun b => !a.isLate b)).map (·.step) := by
    rw [List.filter_map]
    rfl
  rw [hadded, outcomeOf]
  unfold addContents
  simp only [isLate_addAttributes, List.isEmpty_iff, List.length_map, List.map_map]
  split
  · next hnone =>
    rw [hnone]
    rfl
  · rfl

end Put

/-! ## Live steps and bounds -/

section Live

variable {a : Archive} {blocks : List Block} {step s : UInt64}

theorem watermark_lt_of_onTime {b : Block} (h : a.isLate b = false) :
    ∀ w ∈ a.watermark, w < b.step :=
  fun w hw => UInt64.not_le.mp fun hle => Bool.eq_false_iff.mp h (isLate_iff.mpr ⟨w, hw, hle⟩)

theorem mem_liveSteps_addBlocks :
    s ∈ (a.addBlocks blocks).liveSteps ↔ s ∈ a.liveSteps ∨ ∃ b ∈ blocks, b.step = s := by
  rw [liveSteps, liveSteps, ← Table.isSome_at?_iff, ← Table.isSome_at?_iff, at?_steps_addBlocks]
  split
  · next hany =>
    refine iff_of_true rfl (.inr ?_)
    simpa using hany
  · next hany =>
    refine ⟨.inl, ?_⟩
    rintro (h | h)
    · exact h
    · exact absurd (by simpa using h) hany

theorem minStep_addBlocks {low : UInt64} (hlow : a.minStep = some low)
    (h : ∀ b ∈ blocks, low ≤ b.step) : (a.addBlocks blocks).minStep = some low := by
  induction blocks generalizing a with
  | nil => exact hlow
  | cons b rest ih =>
    obtain ⟨hb, hrest⟩ := List.forall_mem_cons.mp h
    refine ih ?_ hrest
    simp only [addBlock, hlow, Option.elim_some]
    rw [word_min_eq_right hb]

theorem mem_liveSteps_erase : s ∈ (a.erase step).liveSteps ↔ s ∈ a.liveSteps ∧ s ≠ step := by
  refine (Table.mem_keys_filter (p := fun k => k ≠ step)).trans ?_
  rw [decide_eq_true_eq]
  rfl

theorem mem_liveSteps_foldl_erase {erased : List UInt64} :
    s ∈ (erased.foldl erase a).liveSteps ↔ s ∈ a.liveSteps ∧ s ∉ erased := by
  induction erased generalizing a with
  | nil => simp
  | cons e rest ih =>
    rw [List.foldl_cons, ih, mem_liveSteps_erase, List.mem_cons, not_or, and_assoc]

theorem watermark_erase (a : Archive) (step : UInt64) :
    (a.erase step).watermark = maxOption a.watermark (some step) := rfl

theorem lt_of_mem_maxOption {a b : Option UInt64} (ha : ∀ w ∈ a, w < s) (hb : ∀ w ∈ b, w < s) :
    ∀ w ∈ maxOption a b, w < s := by
  intro w hw
  rcases le_maxOption_iff.mp ⟨w, hw, Std.le_refl w⟩ with ⟨v, hv, hle⟩ | ⟨v, hv, hle⟩
  · exact UInt64.lt_of_le_of_lt hle (ha v hv)
  · exact UInt64.lt_of_le_of_lt hle (hb v hv)

theorem watermark_foldl_erase_lt {erased : List UInt64} (h : ∀ w ∈ a.watermark, w < s)
    (herased : ∀ e ∈ erased, e < s) : ∀ w ∈ (erased.foldl erase a).watermark, w < s := by
  induction erased generalizing a with
  | nil => exact h
  | cons e rest ih =>
    obtain ⟨he, hrest⟩ := List.forall_mem_cons.mp herased
    refine ih (lt_of_mem_maxOption h fun w hw => ?_) hrest
    cases hw
    exact he

end Live

end Archive

end Stepcast
