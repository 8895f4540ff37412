import Mathlib.Tactic.SplitIfs
import Stepcast.Proofs.Tables
import Stepcast.Text.Utf8

/-!
# The order of texts

Texts are ordered character by character, and characters by their code points. UTF-8 keeps this
order: of two characters the smaller one has the smaller bytes at the first place where they differ,
and neither's bytes begin the other's. So the order of texts is the order of their bytes.

Main statement: `utf8_lt_iff`.
-/

namespace Stepcast

theorem utf8_eq_flatMap (s : String) : utf8 s = s.toList.flatMap String.utf8EncodeChar := by
  rw [utf8, String.toUTF8_eq_toByteArray, ← String.ofList_toList (s := s),
    String.toByteArray_ofList, String.toList_ofList]
  simp [List.utf8Encode]

/-- The bytes of a smaller character come first, whatever stands behind them. -/
theorem utf8EncodeChar_lt {c d : Char} (h : c < d) (xs ys : Bytes) :
    String.utf8EncodeChar c ++ xs < String.utf8EncodeChar d ++ ys := by
  have hlt : c.val.toNat < d.val.toNat := h
  have hbound : d.val.toNat < 0x110000 := by
    rcases d.valid with hd | ⟨-, hd⟩
    · exact Nat.lt_trans hd (by decide)
    · exact hd
  simp only [String.utf8EncodeChar]
  generalize c.val.toNat = m at *
  generalize d.val.toNat = n at *
  have htwo : ∀ k : Nat, k / 4096 = k / 64 / 64 := fun k => by omega
  have hthree : ∀ k : Nat, k / 262144 = k / 64 / 64 / 64 := fun k => by omega
  -- Of two widths the greater has the greater first byte; of one width the digits decide.
  split_ifs
  all_goals
    simp only [List.cons_append, List.nil_append, List.cons_lt_cons_iff, UInt8.lt_iff_toNat_lt,
      ← UInt8.toNat_inj, UInt8.toNat_ofNat', htwo, hthree]
    omega

theorem flatMap_utf8EncodeChar_lt {cs ds : List Char} (h : cs < ds) :
    cs.flatMap String.utf8EncodeChar < ds.flatMap String.utf8EncodeChar := by
  induction cs generalizing ds with
  | nil =>
    cases ds with
    | nil => cases h
    | cons d ds =>
      obtain ⟨b, rest, hbytes⟩ := List.exists_cons_of_ne_nil (String.utf8EncodeChar_ne_nil (c := d))
      rw [List.flatMap_cons, hbytes]
      exact List.nil_lt_cons _ _
  | cons c cs ih =>
    cases ds with
    | nil => cases h
    | cons d ds =>
      rw [List.flatMap_cons, List.flatMap_cons]
      rcases List.cons_lt_cons_iff.mp h with hlt | ⟨rfl, hlt⟩
      · exact utf8EncodeChar_lt hlt _ _
      · exact List.append_left_lt (ih hlt)

theorem utf8_lt {s t : String} (h : s < t) : utf8 s < utf8 t := by
  rw [utf8_eq_flatMap, utf8_eq_flatMap]
  exact flatMap_utf8EncodeChar_lt h

/-- **Texts are ordered as their bytes are.** -/
theorem utf8_lt_iff {s t : String} : utf8 s < utf8 t ↔ s < t := by
  refine ⟨fun h => ?_, utf8_lt⟩
  rcases Std.lt_trichotomy s t with hlt | heq | hgt
  · exact hlt
  · exact absurd (heq ▸ h) (List.lt_irrefl _)
  · exact absurd (utf8_lt hgt) (List.lt_asymm h)

theorem utf8_injective {s t : String} (h : utf8 s = utf8 t) : s = t := by
  have hread := Utf8.read_utf8 s
  rw [h, Utf8.read_utf8] at hread
  exact (Except.ok.inj hread).symm

end Stepcast
