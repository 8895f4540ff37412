import Stepcast.Proofs.Wire.Sealing

/-!
# Telling messages apart

Data messages and end records share a link, and nothing but their bytes says which is which. An end
record is a tree, so its first byte is a tag and lies below 0x10. A data message begins with the
offset of its index, which lies behind the header and inside the message; as long as the message is
below the threshold for end records, that offset is its first byte, and it is no less than 0x10.

Main statements: `header_of_finalStep?`, `put_eq_endOfStream_iff`, `put_tells_apart`.
-/

namespace Stepcast

namespace Frame

/-! ## First bytes -/

/-- The index of a message that can be read lies behind the header and inside the message. -/
theorem bounds_of_header {message : Bytes} {offset size : Nat}
    (h : header message = .ok (offset, size)) :
    headerSize ≤ offset ∧ offset + size ≤ message.length ∧ offset = leValue (message.take 8) := by
  rw [header] at h
  split at h
  · cases h
  · dsimp only at h
    split at h
    · cases h
    · next hinside =>
      simp only [Bool.or_eq_true, decide_eq_true_eq, not_or, Nat.not_lt] at hinside
      obtain ⟨rfl, rfl⟩ := Prod.mk.inj (Except.ok.inj h)
      exact ⟨hinside.1, hinside.2, rfl⟩

theorem exists_cons_of_header {message : Bytes} {offset size : Nat}
    (h : header message = .ok (offset, size)) (hshort : message.length < controlThreshold) :
    ∃ first rest, message = first :: rest ∧ (0x10 : UInt8) ≤ first := by
  obtain ⟨hleast, hend, hoffset⟩ := bounds_of_header h
  cases message with
  | nil => exact absurd hend (by simp only [List.length_nil, headerSize] at *; omega)
  | cons first rest =>
    refine ⟨first, rest, rfl, ?_⟩
    rw [List.take_succ_cons, leValue] at hoffset
    rw [UInt8.le_iff_toNat_le]
    -- Were a higher byte of the offset set, the index would lie outside the message.
    simp only [controlThreshold, headerSize] at hshort hleast
    show 16 ≤ first.toNat
    omega

/-! ## End records -/

/-- Whatever begins with a byte that is no tag is no end record. -/
theorem finalStep?_cons_of_le {first : UInt8} (h : 0x10 ≤ first) (rest : Bytes) :
    finalStep? (first :: rest) = none := by
  rw [finalStep?, Tree.decode_cons_of_le h]

/-- **No byte string reads both ways**: what is taken as an end record has no header. The record
may be written in any way that reading accepts. -/
theorem header_of_finalStep? {message : Bytes} {final : Option UInt64}
    (hshort : message.length < controlThreshold) (h : finalStep? message = some final) :
    ∃ f, header message = .error f := by
  cases hheader : header message with
  | error f => exact ⟨f, rfl⟩
  | ok bounds =>
    obtain ⟨first, rest, rfl, htag⟩ := exists_cons_of_header hheader hshort
    rw [finalStep?_cons_of_le htag] at h
    cases h

end Frame

namespace Archive

/-! ## What an archive takes a message for -/

/-- Reading a message as data never says that a stream ends. -/
theorem putData_ne_endOfStream (a : Archive) (message : Bytes) (final : Option UInt64) :
    (a.putData message).2 ≠ .ok (.endOfStream final) := by
  intro hput
  rw [putData] at hput
  split at hput
  · cases hput
  · dsimp only at hput
    split at hput
    · cases hput
    · rw [addContents] at hput
      dsimp only at hput
      split at hput <;> cases hput

/-- An archive takes just the short end records for the end of a stream. -/
theorem put_eq_endOfStream_iff (a : Archive) (message : Bytes) (final : Option UInt64) :
    (a.put message).2 = .ok (.endOfStream final) ↔
      message.length < Frame.controlThreshold ∧ Frame.finalStep? message = some final := by
  cases message with
  | nil =>
    refine iff_of_false (fun hput => by cases hput) fun hfinal => ?_
    cases hfinal.2
  | cons first rest =>
    have hdata := a.putData_ne_endOfStream (first :: rest) final
    rw [put, if_neg (by simp)]
    dsimp only
    by_cases hshort : (first :: rest).length < Frame.controlThreshold
    · rw [if_pos hshort, and_iff_right hshort]
      cases Frame.finalStep? (first :: rest) with
      | none => exact iff_of_false hdata (by simp)
      | some named => simp
    · rw [if_neg hshort]
      exact iff_of_false hdata fun h => hshort h.1

/-- **Messages are told apart by their bytes.** No byte string that an archive would take for the
end of a stream has the header of a data message; no finished message is taken for one, whatever the
draft holds; and the record of any last step is. -/
theorem put_tells_apart (a : Archive) :
    (∀ message final, message.length < Frame.controlThreshold →
      Frame.finalStep? message = some final → ∃ f, Frame.header message = .error f) ∧
    (∀ (d : Draft) (final : Option UInt64), (a.put d.finish.1).2 ≠ .ok (.endOfStream final)) ∧
    (∀ final : Option UInt64, (a.put (Frame.endRecord final)).2 = .ok (.endOfStream final)) := by
  refine ⟨fun message final => Frame.header_of_finalStep?, fun d final hput => ?_, fun final => ?_⟩
  · obtain ⟨hshort, hfinal⟩ := (a.put_eq_endOfStream_iff _ _).mp hput
    rw [Draft.finish, Frame.finalStep?_compose hshort] at hfinal
    cases hfinal
  · obtain ⟨a', hput, -, -⟩ := a.put_endRecord final
    rw [hput]

/-- An end record that no writer writes: its key stands twice, first without a step and then with a
signed one. -/
def repeatedRecord : Bytes :=
  [0x09, 2, 0, 0, 0,
    10, 0, 0x66, 0x69, 0x6E, 0x61, 0x6C, 0x2D, 0x73, 0x74, 0x65, 0x70, 0x01,
    10, 0, 0x66, 0x69, 0x6E, 0x61, 0x6C, 0x2D, 0x73, 0x74, 0x65, 0x70, 0x04, 5, 0, 0, 0, 0, 0, 0, 0]

theorem put_tells_apart_sample :
    Frame.finalStep? repeatedRecord = some (some 5) ∧
      ∃ f, Frame.header repeatedRecord = .error f :=
  have hfinal : Frame.finalStep? repeatedRecord = some (some 5) := by decide +kernel
  ⟨hfinal, (put_tells_apart {}).1 repeatedRecord (some 5) (by decide) hfinal⟩

end Archive

end Stepcast
