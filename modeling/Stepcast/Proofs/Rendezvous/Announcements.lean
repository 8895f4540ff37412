import Mathlib.Data.List.TakeWhile
import Stepcast.Bytes.Lemmas
import Stepcast.Proofs.Wire.TextOrder
import Stepcast.Rendezvous.Announcement

/-!
# Reading written announcements

The bytes that fill a name up are zero, and so is the byte of the zero character, which a name may
hold like any other. An announcement ends its name at the first zero byte, so it reads back with
what stands before the first zero character, and as it was just if the name holds none.

Main statements: `decode_of_encode_eq`, `decode_of_encode`.
-/

namespace Stepcast

/-! ## The zero character -/

theorem zero_mem_utf8EncodeChar {c : Char} :
    (0 : UInt8) ∈ String.utf8EncodeChar c ↔ c = '\x00' := by
  have hzero : c = '\x00' ↔ c.val.toNat = 0 := by
    rw [Char.ext_iff, ← UInt32.toNat_inj]
    rfl
  rw [hzero, String.utf8EncodeChar]
  generalize c.val.toNat = n
  split_ifs
  all_goals
    simp only [List.mem_cons, List.not_mem_nil, or_false, ← UInt8.toNat_inj, UInt8.toNat_ofNat',
      UInt8.toNat_zero]
    omega

theorem zero_mem_utf8 {name : String} : (0 : UInt8) ∈ utf8 name ↔ '\x00' ∈ name.toList := by
  simp [utf8_eq_flatMap, zero_mem_utf8EncodeChar]

/-- What stands in a name before its first zero character. -/
def untilZero (name : String) : String := String.ofList (name.toList.takeWhile (· != '\x00'))

theorem untilZero_eq_self_iff {name : String} : untilZero name = name ↔ '\x00' ∉ name.toList := by
  rw [untilZero, ← String.toList_inj, String.toList_ofList, List.takeWhile_eq_self_iff]
  simp only [bne_iff_ne]
  exact ⟨fun h hmem => h _ hmem rfl, fun h c hc heq => h (heq ▸ hc)⟩

/-- Cutting bytes at a zero byte is cutting characters at a zero character. -/
theorem takeWhile_utf8 (name : String) :
    (utf8 name).takeWhile (· != 0) = utf8 (untilZero name) := by
  rw [utf8_eq_flatMap, utf8_eq_flatMap, untilZero, String.toList_ofList]
  induction name.toList with
  | nil => rfl
  | cons c cs ih =>
    rw [List.flatMap_cons]
    by_cases hc : c = '\x00'
    · subst hc
      rfl
    · have hbytes : ∀ b ∈ String.utf8EncodeChar c, (b != 0) = true := by
        intro b hb
        rw [bne_iff_ne]
        exact fun heq => hc (zero_mem_utf8EncodeChar.mp (heq ▸ hb))
      have hcons : (c :: cs).takeWhile (· != '\x00') = c :: cs.takeWhile (· != '\x00') :=
        List.takeWhile_cons_of_pos (bne_iff_ne.mpr hc)
      rw [List.takeWhile_append_of_pos hbytes, ih, hcons, List.flatMap_cons]

namespace Announcement

theorem word_leBytes (n : UInt32) : UInt32.ofNat (leValue (leBytes 4 n.toNat)) = n := by
  have hlt : n.toNat < 256 ^ 4 := n.toNat_lt
  rw [leValue_leBytes, Nat.mod_eq_of_lt hlt, UInt32.ofNat_toNat]

/-- The bytes that fill a name up do not belong to it. -/
theorem takeWhile_name (name : Bytes) (count : Nat) :
    (name ++ List.replicate count 0).takeWhile (· != 0) = name.takeWhile (· != 0) := by
  have hfill : (List.replicate count (0 : UInt8)).takeWhile (· != 0) = [] := by
    cases count <;> rfl
  rw [List.takeWhile_append]
  split
  · rename_i hall
    rw [hfill, List.append_nil, (List.takeWhile_prefix _).eq_of_length hall]
  · rfl

theorem encode_eq_ok_iff {a : Announcement} {maxName : Nat} :
    (∃ bytes, a.encode maxName = .ok bytes) ↔ (utf8 a.stream).length ≤ maxName := by
  rw [encode]
  split
  · rename_i hlong
    simp [hlong]
  · rename_i hfits
    simp [Nat.le_of_not_lt hfits]

theorem eq_of_encode {a : Announcement} {maxName : Nat} {bytes : Bytes}
    (h : a.encode maxName = .ok bytes) : bytes = a.role.tag :: (leBytes 4 a.master.toNat ++
      (leBytes 4 a.groupSize.toNat ++
        (utf8 a.stream ++ List.replicate (maxName - (utf8 a.stream).length) 0))) := by
  unfold encode at h
  simp only at h
  split at h
  · cases h
  · cases h
    simp only [List.cons_append, List.append_assoc]

theorem length_of_encode {a : Announcement} {maxName : Nat} {bytes : Bytes}
    (h : a.encode maxName = .ok bytes) : bytes.length = fixedSize + maxName := by
  have hfits : (utf8 a.stream).length ≤ maxName := encode_eq_ok_iff.mp ⟨bytes, h⟩
  rw [eq_of_encode h]
  simp only [List.length_cons, List.length_append, length_leBytes, List.length_replicate, fixedSize]
  omega

/-- **An announcement reads back with its name up to the first zero character.** -/
theorem decode_of_encode_eq {a : Announcement} {maxName : Nat} {bytes : Bytes}
    (h : a.encode maxName = .ok bytes) :
    decode bytes = .ok { a with stream := untilZero a.stream } := by
  have hbytes := eq_of_encode h
  have hlength : ¬ bytes.length < fixedSize := by
    rw [length_of_encode h]
    exact Nat.not_lt.mpr (Nat.le_add_right _ _)
  have hmaster : slice bytes 1 4 = leBytes 4 a.master.toNat := by
    rw [hbytes]
    exact List.take_left' (length_leBytes _ _)
  have hsize : slice bytes 5 4 = leBytes 4 a.groupSize.toNat := by
    have hslice := slice_append_right (a.role.tag :: leBytes 4 a.master.toNat)
      (leBytes 4 a.groupSize.toNat ++
        (utf8 a.stream ++ List.replicate (maxName - (utf8 a.stream).length) 0)) 0 4
    rw [hbytes]
    exact hslice.trans (List.take_left' (length_leBytes _ _))
  have htext : (bytes.drop fixedSize).takeWhile (· != 0) = utf8 (untilZero a.stream) := by
    have hdrop : bytes.drop fixedSize =
        utf8 a.stream ++ List.replicate (maxName - (utf8 a.stream).length) 0 := by
      rw [hbytes]
      rfl
    rw [hdrop, takeWhile_name, takeWhile_utf8]
  have htag : bytes.headD 0 = a.role.tag := by rw [hbytes]; rfl
  rw [decode, if_neg hlength]
  simp only [htag, Role.ofTag?_tag, htext, Utf8.read_utf8, hmaster, hsize, word_leBytes]

/-- **An announcement reads back as it was written**, if its name holds no zero byte. -/
theorem decode_of_encode {a : Announcement} {maxName : Nat} {bytes : Bytes}
    (hname : (0 : UInt8) ∉ utf8 a.stream) (h : a.encode maxName = .ok bytes) :
    decode bytes = .ok a := by
  have hsame : untilZero a.stream = a.stream :=
    untilZero_eq_self_iff.mpr fun hmem => hname (zero_mem_utf8.mpr hmem)
  rw [decode_of_encode_eq h, hsame]

end Announcement

end Stepcast
