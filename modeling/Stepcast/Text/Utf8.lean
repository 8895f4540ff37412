import Stepcast.Bytes

/-!
# Text as UTF-8

Names and strings travel as UTF-8. `utf8` writes a string, `Utf8.read` reads one and says where the
bytes stop being well formed: the index of the first bad character, and how many bytes it spans, or
that the bytes end inside a character.

Main statements: `read_utf8`, `utf8_of_read`.
-/

namespace Stepcast

/-- The UTF-8 form of a string. -/
def utf8 (s : String) : Bytes := s.toUTF8.data.toList

namespace Utf8

/-- Where a byte string stops being UTF-8, and how many bytes cannot be read there; no number when
the bytes end inside a character. -/
structure Fault where
  index : Nat
  width : Option Nat
deriving Repr, DecidableEq

/-- The fault as a sentence. -/
def Fault.message (f : Fault) : String :=
  match f.width with
  | some n => s!"invalid utf-8 sequence of {n} bytes from index {f.index}"
  | none => s!"incomplete utf-8 byte sequence from index {f.index}"

/-! ## Finding the fault -/

/-- What the first bytes of a byte string are. -/
inductive Opening where
  | character (width : Nat)
  | broken (width : Nat)
  | cut

/-- A byte that continues a character. -/
def isTail (b : UInt8) : Bool := 0x80 ≤ b && b ≤ 0xBF

/-- The bytes that may follow the first byte of a character of three or four bytes: overlong forms,
surrogates and numbers past the last code point are left out. -/
def mayFollow (lead second : UInt8) : Bool :=
  if lead = 0xE0 then 0xA0 ≤ second && second ≤ 0xBF
  else if lead = 0xED then 0x80 ≤ second && second ≤ 0x9F
  else if lead = 0xF0 then 0x90 ≤ second && second ≤ 0xBF
  else if lead = 0xF4 then 0x80 ≤ second && second ≤ 0x8F
  else isTail second

/-- The first character after its leading byte. -/
def opening (lead : UInt8) (rest : Bytes) : Opening :=
  if lead < 0x80 then .character 1
  else if 0xC2 ≤ lead && lead ≤ 0xDF then
    match rest with
    | [] => .cut
    | b :: _ => if isTail b then .character 2 else .broken 1
  else if 0xE0 ≤ lead && lead ≤ 0xEF then
    match rest with
    | [] => .cut
    | b :: rest =>
      if !mayFollow lead b then .broken 1 else
      match rest with
      | [] => .cut
      | c :: _ => if isTail c then .character 3 else .broken 2
  else if 0xF0 ≤ lead && lead ≤ 0xF4 then
    match rest with
    | [] => .cut
    | b :: rest =>
      if !mayFollow lead b then .broken 1 else
      match rest with
      | [] => .cut
      | c :: rest =>
        if !isTail c then .broken 2 else
        match rest with
        | [] => .cut
        | d :: _ => if isTail d then .character 4 else .broken 3
  else .broken 1

/-- The first fault at or after `index`, where `bytes` are the bytes from there on. -/
def firstFault (index : Nat) (bytes : Bytes) : Option Fault :=
  match bytes with
  | [] => none
  | lead :: rest =>
    match opening lead rest with
    | .character width => firstFault (index + width) (rest.drop (width - 1))
    | .broken width => some ⟨index, some width⟩
    | .cut => some ⟨index, none⟩
termination_by bytes.length
decreasing_by simp only [List.length_drop, List.length_cons]; omega

/-! ## Reading -/

/-- The string that the bytes spell, or the first fault. -/
def read (bytes : Bytes) : Except Fault String :=
  match String.fromUTF8? ⟨bytes.toArray⟩ with
  | some s => .ok s
  | none => .error ((firstFault 0 bytes).getD ⟨0, none⟩)

theorem read_utf8 (s : String) : read (utf8 s) = .ok s := by
  have h : (⟨(utf8 s).toArray⟩ : ByteArray) = s.toByteArray := by simp [utf8]
  have hs : String.fromUTF8? s.toByteArray = some s := by
    simp only [String.fromUTF8?, dif_pos s.isValidUTF8]
    rfl
  rw [read, h, hs]

theorem utf8_of_read {bytes : Bytes} {s : String} (h : read bytes = .ok s) : utf8 s = bytes := by
  unfold read String.fromUTF8? at h
  split at h
  · rename_i t ht
    split at ht
    · cases h
      cases ht
      rfl
    · cases ht
  · cases h

end Utf8

end Stepcast
