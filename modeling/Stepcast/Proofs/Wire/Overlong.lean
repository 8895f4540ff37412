import Stepcast.Archive
import Stepcast.Proofs.Wire.Messages

/-!
# Keys that are too long

The length of a key is written in two bytes, and of a longer key only the low bytes of the length
are there. With a multiple of 2^16 bytes the key is then read as an empty one, and its own bytes as
the value: no tree begins with the first of them if that is a letter. Reading stops there, whatever
the tree stands in, so the message is refused.

Main statements: `stopsAt_key`, `put_of_stopsAt`.
-/

namespace Stepcast

theorem utf8_replicate (n : Nat) :
    utf8 (String.ofList (List.replicate n 'a')) = List.replicate n 0x61 := by
  rw [utf8, String.toUTF8_eq_toByteArray, String.toByteArray_ofList]
  induction n with
  | zero => rfl
  | succ n ih =>
    rw [List.replicate_succ, List.utf8Encode_cons, List.replicate_succ, ← ih,
      ByteArray.data_append, Array.toList_append]
    rfl

namespace Tree

/-- Reading stops in the tree as it was written, whatever stands behind it. -/
def StopsAt (levels : Nat) (f : Fault) (t : Tree) : Prop :=
  ∀ rest, decodeNext levels (encode t ++ rest) = .error f

section StopsAt

variable {levels : Nat} {f : Fault} {t : Tree}

theorem stopsAt_list (h : StopsAt levels f t) {items : List Tree}
    (hlength : (t :: items).length < 2 ^ 32) : StopsAt (levels + 1) f (list (t :: items)) := by
  intro rest
  have hroom : ¬ (encodeItems (t :: items) ++ rest).length < (t :: items).length := by
    have := length_le_itemsLength (t :: items)
    rw [List.length_append, length_encodeItems]
    omega
  have hstop : decodeItems (decodeNext levels) (t :: items).length
      (encodeItems (t :: items) ++ rest) = .error f := by
    rw [encodeItems, List.append_assoc, List.length_cons, decodeItems, h]
    rfl
  rw [encode, List.cons_append, List.cons_append, List.append_assoc, decodeNext_cons, decodeBody,
    takeNumber_leBytes .listLength hlength]
  simp only [bind, Except.bind, hroom, if_false, hstop]

/-- Entries before the tree do not help. -/
theorem stopsAt_map (h : StopsAt levels f t) {before after : List (String × Tree)} {key : String}
    (hlength : (before ++ (key, t) :: after).length < 2 ^ 32)
    (hkeys : ∀ e ∈ before, (utf8 e.1).length < 2 ^ 16) (hfits : ∀ e ∈ before, e.2.Fits)
    (hdepth : ∀ e ∈ before, e.2.depth < levels) (hkey : (utf8 key).length < 2 ^ 16) :
    StopsAt (levels + 1) f (map (before ++ (key, t) :: after)) := by
  have hstop : ∀ seen rest, decodeEntries (decodeNext levels) (before ++ (key, t) :: after).length
      seen (encodeEntries (before ++ (key, t) :: after) ++ rest) = .error f := by
    clear hlength
    induction before with
    | nil =>
      intro seen rest
      rw [List.nil_append, encodeEntries, List.append_assoc, List.append_assoc, List.append_assoc,
        List.length_cons, decodeEntries, takeNumber_leBytes .keyLength hkey]
      simp only [bind, Except.bind, takeText_utf8]
      rw [h]
    | cons e before ih =>
      intro seen rest
      obtain ⟨key', t'⟩ := e
      obtain ⟨hkey', hkeys⟩ := List.forall_mem_cons.mp hkeys
      obtain ⟨hfit, hfits⟩ := List.forall_mem_cons.mp hfits
      obtain ⟨hlevel, hdepth⟩ := List.forall_mem_cons.mp hdepth
      rw [List.cons_append, encodeEntries, List.append_assoc, List.append_assoc, List.append_assoc,
        List.length_cons, decodeEntries, takeNumber_leBytes .keyLength hkey']
      simp only [bind, Except.bind, takeText_utf8]
      rw [decodeNext_encode hfit levels, if_pos hlevel]
      exact ih hkeys hfits hdepth _ rest
  intro rest
  rw [encode, List.cons_append, List.cons_append, List.append_assoc, decodeNext_cons, decodeBody,
    takeNumber_leBytes .mapLength hlength]
  simp only [bind, Except.bind, hstop]

theorem stopsAt_single (h : StopsAt levels f t) {key : String} (hkey : (utf8 key).length < 2 ^ 16) :
    StopsAt (levels + 1) f (map [(key, t)]) := by
  have hnone {P : String × Tree → Prop} : ∀ e ∈ ([] : List (String × Tree)), P e := by simp
  rw [← List.nil_append [(key, t)]]
  exact stopsAt_map h (by simp) hnone hnone hnone hkey

/-- **A key with a multiple of 2^16 bytes** is taken for a value, and there is no such value. -/
theorem stopsAt_key {key : String} {tag : UInt8} {bytes : Bytes} (hkey : utf8 key = tag :: bytes)
    (htag : 0x10 ≤ tag) (hlong : (utf8 key).length % 2 ^ 16 = 0) {entries : List (String × Tree)}
    (hlength : ((key, t) :: entries).length < 2 ^ 32) :
    StopsAt (levels + 2) (.unknownTag tag) (map ((key, t) :: entries)) := by
  intro rest
  have hzero : (utf8 key).length % 256 ^ 2 = (utf8 "").length := hlong
  rw [encode, List.cons_append, List.cons_append, List.append_assoc, decodeNext_cons, decodeBody,
    takeNumber_leBytes .mapLength hlength]
  simp only [bind, Except.bind]
  rw [encodeEntries, List.append_assoc, List.append_assoc, List.append_assoc, List.length_cons,
    decodeEntries, takeNumber_leBytes_mod, hzero]
  simp only [bind, Except.bind]
  have hempty := takeText_utf8 "" (utf8 key ++ (encode t ++ (encodeEntries entries ++ rest)))
  rw [show utf8 "" ++ _ = _ from List.nil_append _] at hempty
  rw [hempty, hkey]
  dsimp only
  rw [List.cons_append, decodeNext_cons, decodeBody_of_le htag]

end StopsAt

end Tree

namespace Archive

/-- **A message with an index that cannot be read is refused**, and nothing changes. -/
theorem put_of_stopsAt {payload : Bytes} {index : Tree} {f : Tree.Fault}
    (h : Tree.StopsAt (Tree.maxDepth + 1) f index)
    (hlength : (Frame.compose payload index).length < 2 ^ 64) (a : Archive) :
    a.put (Frame.compose payload index) = (a, .error (.protocol (.tree f))) := by
  have hdecode : Tree.decode index.encode = .error f := by
    have hnext := h []
    rw [List.append_nil] at hnext
    rw [Tree.decode, hnext]
    rfl
  have hindex : Frame.index (Frame.compose payload index) = .error (.protocol (.tree f)) := by
    rw [Frame.index, Frame.header_compose hlength, ok_bind]
    simp only [Frame.slice_index, hdecode]
    rfl
  have hne : ¬ (Frame.compose payload index).isEmpty :=
    mt List.isEmpty_iff.mp (Frame.compose_ne_nil payload index)
  have hnone : (if (Frame.compose payload index).length < Frame.controlThreshold then
      Frame.finalStep? (Frame.compose payload index) else none) = none :=
    ite_eq_right_iff.mpr Frame.finalStep?_compose
  rw [put, if_neg hne, hnone]
  dsimp only
  rw [putData, hindex]

end Archive

end Stepcast
