import Stepcast.Bytes.Lemmas
import Stepcast.Message.Contents

/-!
# Reading written numerals

Steps and ranks are written as decimal numerals and serve as keys. A numeral reads back as its
number, so different numbers have different keys, and none of them is the key of the attributes.

Main statements: `readUnsigned_toString`, `toString_ne_attributesKey`.
-/

namespace Stepcast

theorem toList_toString (n : Nat) : (toString n).toList = Nat.toDigits 10 n := by
  rw [Nat.toString_eq_repr, Nat.toList_repr]

theorem isDigit_of_mem_toString {n : Nat} {c : Char} (h : c ∈ (toString n).toList) :
    c.isDigit = true := by
  rw [toList_toString] at h
  exact Nat.isDigit_of_mem_toDigits (by decide) (by decide) h

theorem digits?_toString (n : Nat) : digits? (toString n).toList = some n := by
  have hdigits : (toString n).toList.all Char.isDigit = true :=
    List.all_eq_true.mpr (fun _ hc => isDigit_of_mem_toString hc)
  have hvalue : digitsValue (toString n).toList = n := by
    rw [toList_toString]
    exact Nat.ofDigitChars_ten_toDigits
  have hne : (toString n).toList.isEmpty = false := by
    rw [toList_toString, List.isEmpty_eq_false_iff]
    exact Nat.toDigits_ne_nil
  rw [digits?, hdigits, hvalue, hne]
  rfl

theorem toString_head_ne_plus (n : Nat) (rest : List Char) : (toString n).toList ≠ '+' :: rest := by
  intro h
  have hplus : '+' ∈ (toString n).toList := h ▸ List.mem_cons_self
  exact absurd (isDigit_of_mem_toString hplus) (by decide)

/-- **A numeral reads back as its number**, if that is allowed. -/
theorem readUnsigned_toString {limit n : Nat} (h : n ≤ limit) :
    readUnsigned limit (toString n) = some n := by
  unfold readUnsigned
  split
  · rename_i rest hrest
    exact absurd hrest (toString_head_ne_plus n rest)
  · show (digits? (toString n).toList).filter (· ≤ limit) = some n
    rw [digits?_toString]
    simp [h]

theorem toString_injective {m n : Nat} (h : toString m = toString n) : m = n := by
  have hdigits := digits?_toString m
  rw [h, digits?_toString] at hdigits
  exact (Option.some.inj hdigits).symm

theorem toString_ne_attributesKey (n : Nat) : toString n ≠ attributesKey := by
  intro h
  have ha : 'a' ∈ (toString n).toList := by rw [h]; decide
  exact absurd (isDigit_of_mem_toString ha) (by decide)

theorem utf8ByteSize_repr_le {n k : Nat} (h : n < 10 ^ (k + 1)) :
    n.repr.utf8ByteSize ≤ 4 * (k + 1) := by
  induction k generalizing n with
  | zero =>
    rw [Nat.repr_of_lt (by simpa using h), String.utf8ByteSize_singleton]
    exact Char.utf8Size_le_four _
  | succ k ih =>
    by_cases hn : n < 10
    · rw [Nat.repr_of_lt hn, String.utf8ByteSize_singleton]
      have := Char.utf8Size_le_four n.digitChar
      omega
    · have hlow := Char.utf8Size_le_four (n % 10).digitChar
      have hhigh := ih (n := n / 10) (by rw [Nat.pow_succ] at h; omega)
      rw [Nat.repr_of_ge (by omega), String.utf8ByteSize_append, String.utf8ByteSize_singleton]
      omega

theorem length_utf8_toString_lt {n : Nat} (h : n < 2 ^ 64) :
    (utf8 (toString n)).length < 2 ^ 16 := by
  have hsize := utf8ByteSize_repr_le (n := n) (k := 19) (Nat.lt_trans h (by decide))
  have hlength : (utf8 (toString n)).length = n.repr.utf8ByteSize := rfl
  omega

end Stepcast
