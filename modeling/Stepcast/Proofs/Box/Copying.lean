import Stepcast.Box.Copy
import Stepcast.Bytes.Lemmas
import Stepcast.Proofs.Box.Places
import Stepcast.Proofs.Box.Walking

/-!
# What a copy between boxes leaves

`copyOverlap` works in runs of bytes. Whatever the length of its runs, every byte that they cover
belongs to an element at a common position of the two boxes, comes from the element of the block
at that position, and no byte of such an element is missed. So a copy is described element by
element, without the walk: `copyOverlap_eq_ok`.

Main statements: `copyOverlap_eq_ok`, `copyOverlap_isOk`.
-/

namespace Stepcast

/-! ## Elements as bytes -/

/-- The stored form of the element with the given index. -/
def ElementType.element (t : ElementType) (bytes : Bytes) (index : Nat) : Bytes :=
  slice bytes (index * t.size) t.size

/-- The bytes of an element with those of each of its scalars in reverse order. -/
def ElementType.turn (t : ElementType) (bytes : Bytes) : Bytes :=
  (List.range (t.size / t.swapUnit)).flatMap
    (fun i => (slice bytes (i * t.swapUnit) t.swapUnit).reverse)

/-- The form of an element in which selections are filled, given the one in which it is stored. -/
def Layout.toHost (l : Layout) (t : ElementType) (bytes : Bytes) : Bytes :=
  if l.littleEndian then bytes else t.turn bytes

section Groups

variable {α : Type} {f : Nat → List α} {n m k : Nat}

theorem length_flatMap_range (hlength : ∀ i < n, (f i).length = m) :
    ((List.range n).flatMap f).length = n * m := by
  induction n with
  | zero => simp
  | succ n ih =>
    rw [List.range_succ, List.flatMap_append, List.flatMap_singleton, List.length_append,
      ih (fun i hi => hlength i (Nat.lt_succ_of_lt hi)), hlength n (Nat.lt_succ_self n),
      Nat.succ_mul]

/-- Joined lists of one length are read by group and place in the group. -/
theorem getElem?_flatMap_range (hlength : ∀ i < n, (f i).length = m) (hk : k < n * m) :
    ((List.range n).flatMap f)[k]? = (f (k / m))[k % m]? := by
  induction n with
  | zero => simp at hk
  | succ n ih =>
    have hbefore := length_flatMap_range (fun i hi => hlength i (Nat.lt_succ_of_lt hi))
    rw [List.range_succ, List.flatMap_append, List.flatMap_singleton]
    rcases Nat.lt_or_ge k (n * m) with hlt | hge
    · rw [List.getElem?_append_left (hbefore ▸ hlt)]
      exact ih (fun i hi => hlength i (Nat.lt_succ_of_lt hi)) hlt
    · obtain ⟨r, rfl⟩ := Nat.exists_eq_add_of_le hge
      have hr : r < m := by
        rw [Nat.succ_mul] at hk
        omega
      have hm : 0 < m := Nat.lt_of_le_of_lt (Nat.zero_le r) hr
      rw [List.getElem?_append_right (hbefore ▸ hge), hbefore, Nat.add_sub_cancel_left,
        Nat.mul_comm n m, Nat.mul_add_div hm, Nat.div_eq_of_lt hr, Nat.mul_add_mod,
        Nat.mod_eq_of_lt hr, Nat.add_zero]

end Groups

theorem ElementType.swapUnit_pos (t : ElementType) : 0 < t.swapUnit := by cases t <;> decide

section Turn

variable {t : ElementType} {bytes : Bytes} {k : Nat}

theorem ElementType.size_eq (t : ElementType) : t.size = t.size / t.swapUnit * t.swapUnit :=
  (Nat.div_mul_cancel t.swapUnit_dvd_size).symm

theorem ElementType.length_scalar (hlength : bytes.length = t.size) {i : Nat}
    (hi : i < t.size / t.swapUnit) :
    (slice bytes (i * t.swapUnit) t.swapUnit).length = t.swapUnit := by
  have hle : (i + 1) * t.swapUnit ≤ t.size / t.swapUnit * t.swapUnit := Nat.mul_le_mul_right _ hi
  rw [← t.size_eq, Nat.succ_mul] at hle
  rw [length_slice]
  omega

theorem ElementType.length_turn (hlength : bytes.length = t.size) :
    (t.turn bytes).length = t.size := by
  conv_rhs => rw [t.size_eq]
  refine length_flatMap_range (fun i hi => ?_)
  rw [List.length_reverse, length_scalar hlength hi]

/-- Reversing the scalars takes each byte from its reversed place. -/
theorem ElementType.getElem?_turn (hlength : bytes.length = t.size) (hk : k < t.size) :
    (t.turn bytes)[k]? = bytes[reversedPlace t.swapUnit k]? := by
  have hplace : k % t.swapUnit < t.swapUnit := Nat.mod_lt _ t.swapUnit_pos
  have hscalar := length_scalar hlength (Nat.div_lt_of_lt_mul (Nat.mul_comm _ _ ▸ t.size_eq ▸ hk))
  have hscalars (i : Nat) (hi : i < t.size / t.swapUnit) :
      (slice bytes (i * t.swapUnit) t.swapUnit).reverse.length = t.swapUnit :=
    List.length_reverse.trans (length_scalar hlength hi)
  rw [turn, getElem?_flatMap_range hscalars (t.size_eq ▸ hk), List.getElem?_reverse (by omega),
    hscalar, getElem?_slice (by omega), reversedPlace]

theorem Layout.length_toHost {l : Layout} (hlength : bytes.length = t.size) :
    (l.toHost t bytes).length = t.size := by
  unfold toHost
  split
  · exact hlength
  · exact ElementType.length_turn hlength

end Turn

/-! ## One run -/

section Run

variable {source target : Array UInt8} {order : Nat → Nat} {read write count w : Nat}

@[simp] theorem size_copyBytes :
    (copyBytes source order read write count target).size = target.size := by
  induction count generalizing target with
  | zero => rfl
  | succ count ih => rw [copyBytes, ih, Array.size_setIfInBounds]

theorem getElem?_copyBytes_of_not_covered (h : ¬ (write ≤ w ∧ w < write + count)) :
    (copyBytes source order read write count target)[w]? = target[w]? := by
  induction count generalizing target with
  | zero => rfl
  | succ count ih =>
    rw [copyBytes, ih (by omega), Array.getElem?_setIfInBounds_ne (by omega)]

theorem getElem?_copyBytes_of_covered (h : write ≤ w ∧ w < write + count) (hw : w < target.size) :
    (copyBytes source order read write count target)[w]? =
      some (source.getD (read + order (w - write)) 0) := by
  induction count generalizing target with
  | zero => omega
  | succ count ih =>
    rw [copyBytes]
    by_cases hlast : w = write + count
    · subst hlast
      rw [getElem?_copyBytes_of_not_covered (by omega), Array.getElem?_setIfInBounds_self_of_lt hw,
        Nat.add_sub_cancel_left]
    · exact ih (by omega) (by rwa [Array.size_setIfInBounds])

end Run

/-! ## Runs, one after the other -/

namespace Source

section Fold

variable {s : Source} {t : ElementType} {run : Nat} {box : Box} {bytes target : Array UInt8}
  {positions : List Dims} {w : Nat}

/-- The run at a position covers the byte of the target with the given index. -/
def Covers (t : ElementType) (run : Nat) (box : Box) (w : Nat) (position : Dims) : Prop :=
  box.index true position * t.size ≤ w ∧ w < box.index true position * t.size + run

theorem copyRun_eq (position : Dims) : s.copyRun t run box bytes target position =
    copyBytes bytes (s.order t) (s.place t position) (box.index true position * t.size) run
      target := by
  rw [copyRun, Box.offset_strides]

@[simp] theorem size_foldl_copyRun :
    (positions.foldl (s.copyRun t run box bytes) target).size = target.size := by
  induction positions generalizing target with
  | nil => rfl
  | cons p ps ih => rw [List.foldl_cons, ih, copyRun_eq, size_copyBytes]

theorem getElem?_foldl_copyRun_of_not_covered (h : ∀ p ∈ positions, ¬ Covers t run box w p) :
    (positions.foldl (s.copyRun t run box bytes) target)[w]? = target[w]? := by
  induction positions generalizing target with
  | nil => rfl
  | cons p ps ih =>
    obtain ⟨hp, hps⟩ := List.forall_mem_cons.mp h
    rw [List.foldl_cons, ih hps, copyRun_eq, getElem?_copyBytes_of_not_covered hp]

/-- Where all runs that cover a byte agree on it, the order of the runs does not matter. -/
theorem getElem?_foldl_copyRun_of_covered {b : UInt8}
    (hcovered : ∃ p ∈ positions, Covers t run box w p)
    (hagree : ∀ p ∈ positions, Covers t run box w p →
      bytes.getD (s.place t p + s.order t (w - box.index true p * t.size)) 0 = b)
    (hw : w < target.size) :
    (positions.foldl (s.copyRun t run box bytes) target)[w]? = some b := by
  induction positions generalizing target with
  | nil => simp at hcovered
  | cons p ps ih =>
    obtain ⟨hp, hps⟩ := List.forall_mem_cons.mp hagree
    rw [List.foldl_cons]
    by_cases hlater : ∃ q ∈ ps, Covers t run box w q
    · exact ih hlater hps (by rwa [copyRun_eq, size_copyBytes])
    · have hcovers : Covers t run box w p := by
        obtain ⟨q, hq, hcovers⟩ := hcovered
        rcases List.mem_cons.mp hq with rfl | hq
        · exact hcovers
        · exact absurd ⟨q, hq, hcovers⟩ hlater
      rw [getElem?_foldl_copyRun_of_not_covered (fun q hq hcovers => hlater ⟨q, hq, hcovers⟩),
        copyRun_eq, getElem?_copyBytes_of_covered hcovers hw, hp hcovers]

end Fold

/-! ## Runs and elements -/

section Runs

variable {s : Source} {t : ElementType} {o : Box} {limit run : Nat}

theorem order_of_contiguous (h : s.contiguous t = true) :
    s.layout.rowMajor = true ∧ s.order t = id := by
  simp only [contiguous, Bool.and_eq_true, Bool.not_eq_true'] at h
  exact ⟨h.1, by rw [order, h.2]; rfl⟩

/-- A run is a single element, or a whole range of the last dimension of a block in row-major order
whose bytes stay as they are. -/
theorem runs_cases (hlength : o.start.length = o.count.length) (h : s.runs t o = (limit, run)) :
    (limit = o.count.length ∧ run = t.size) ∨
      ∃ start count first extent, o = ⟨start ++ [first], count ++ [extent]⟩ ∧
        limit = count.length ∧ run = extent.toNat * t.size ∧
        s.layout.rowMajor = true ∧ s.order t = id := by
  obtain ⟨start, count⟩ := o
  unfold runs at h
  split at h
  · next hcontiguous =>
    rcases List.eq_nil_or_concat count with rfl | ⟨count, extent, rfl⟩
    · left
      cases h
      exact ⟨rfl, Nat.one_mul _⟩
    · right
      rw [List.concat_eq_append] at h hlength ⊢
      rcases List.eq_nil_or_concat start with rfl | ⟨start, first, rfl⟩
      · simp at hlength
      · cases h
        rw [List.concat_eq_append]
        refine ⟨start, count, first, extent, rfl, by simp, by simp, ?_⟩
        exact order_of_contiguous hcontiguous
  · cases h
    exact .inl ⟨rfl, rfl⟩

/-- The runs copy as many bytes as the elements at the common positions have. -/
theorem length_readings_mul_run (hlength : o.start.length = o.count.length)
    (h : s.runs t o = (limit, run)) :
    (Box.readings limit o.start o.count).length * run = t.size * o.size := by
  rw [Box.length_readings hlength, Box.size, Nat.mul_comm t.size]
  rcases runs_cases hlength h with ⟨rfl, rfl⟩ | ⟨start, count, first, extent, rfl, rfl, rfl, -⟩
  · rw [List.take_length]
  · rw [List.take_left, Box.elementCount_concat, Nat.mul_assoc]

/-- What a run copies belongs to elements at positions of the common box. -/
theorem exists_element_of_covers {box : Box} {p : Dims} {w : Nat}
    (hlength : o.start.length = o.count.length) (hinhabited : o.Inhabited) (hbounded : o.Bounded)
    (hcommon : ∀ q, o.Contains q → s.box.Contains q ∧ box.Contains q)
    (h : s.runs t o = (limit, run)) (hp : p ∈ Box.readings limit o.start o.count)
    (hcovers : Covers t run box w p) :
    ∃ q k, o.Contains q ∧ k < t.size ∧ w = box.index true q * t.size + k ∧
      s.place t p + s.order t (w - box.index true p * t.size) =
        s.box.index s.layout.rowMajor q * t.size + s.order t k := by
  obtain ⟨i, rfl⟩ := Nat.exists_eq_add_of_le hcovers.1
  have hi : i < run := Nat.lt_of_add_lt_add_left hcovers.2
  rw [Nat.add_sub_cancel_left, place, Box.offset_strides]
  rcases runs_cases hlength h with
    ⟨-, rfl⟩ | ⟨start, count, first, extent, rfl, rfl, rfl, hmajor, horder⟩
  · have hcontains := ((Box.mem_readings hlength hinhabited hbounded).mp hp).1
    exact ⟨p, i, hcontains, hi, rfl, rfl⟩
  · -- The byte lies `j` elements and `k` bytes after the start of the range.
    obtain ⟨ps, rfl, hps⟩ :=
      (Box.mem_readings_concat (by simpa using hlength) hinhabited hbounded).mp hp
    obtain ⟨j, k, hj, hk, rfl⟩ := exists_mul_add hi t.size_pos
    have hend := hbounded.last (by simpa using hlength)
    have hx : (UInt64.ofNat (first.toNat + j)).toNat = first.toNat + j :=
      UInt64.toNat_ofNat_of_lt (by omega)
    generalize UInt64.ofNat (first.toNat + j) = x at hx
    have hq : Box.Contains ⟨start ++ [first], count ++ [extent]⟩ (ps ++ [x]) :=
      Box.contains_concat.mpr ⟨hps, by omega⟩
    have hp : Box.Contains ⟨start ++ [first], count ++ [extent]⟩ (ps ++ [first]) :=
      Box.contains_concat.mpr ⟨hps, by omega⟩
    have hsource := Box.index_concat (hcommon _ hp).1 (hcommon _ hq).1
    have htarget := Box.index_concat (hcommon _ hp).2 (hcommon _ hq).2
    refine ⟨ps ++ [x], k, hq, hk, ?_, ?_⟩
    · have hindex : box.index true (ps ++ [x]) = box.index true (ps ++ [first]) + j := by omega
      rw [hindex, Nat.add_mul, Nat.add_assoc]
    · have hindex : s.box.index true (ps ++ [x]) = s.box.index true (ps ++ [first]) + j := by omega
      rw [hmajor, horder, id, id, hindex, Nat.add_mul, Nat.add_assoc]

/-- Every byte of an element at a position of the common box is copied by some run. -/
theorem exists_covers_of_element {box : Box} {q : Dims} {k : Nat}
    (hlength : o.start.length = o.count.length) (hinhabited : o.Inhabited) (hbounded : o.Bounded)
    (hcommon : ∀ q, o.Contains q → box.Contains q) (h : s.runs t o = (limit, run))
    (hq : o.Contains q) (hk : k < t.size) :
    ∃ p ∈ Box.readings limit o.start o.count,
      Covers t run box (box.index true q * t.size + k) p := by
  rcases runs_cases hlength h with
    ⟨rfl, rfl⟩ | ⟨start, count, first, extent, rfl, rfl, rfl, -, -⟩
  · have hdrop : q.drop o.count.length = o.start.drop o.count.length := by
      rw [List.drop_eq_nil_of_le (Nat.le_of_eq hq.length_count),
        List.drop_eq_nil_of_le (Nat.le_of_eq hlength)]
    exact ⟨q, (Box.mem_readings hlength hinhabited hbounded).mpr ⟨hq, hdrop⟩,
      Nat.le_add_right _ _, Nat.add_lt_add_left hk _⟩
  · rcases List.eq_nil_or_concat q with rfl | ⟨ps, x, rfl⟩
    · exact absurd hq.length_start (by simp)
    rw [List.concat_eq_append] at hq ⊢
    obtain ⟨hps, hx⟩ := Box.contains_concat.mp hq
    have hp : Box.Contains ⟨start ++ [first], count ++ [extent]⟩ (ps ++ [first]) :=
      Box.contains_concat.mpr ⟨hps, by omega⟩
    have hindex := Box.index_concat (hcommon _ hp) (hcommon _ hq)
    refine ⟨ps ++ [first], (Box.mem_readings_concat (by simpa using hlength) hinhabited
      hbounded).mpr ⟨ps, rfl, hps⟩, ?_⟩
    have hoffset : box.index true (ps ++ [x]) * t.size + k =
        box.index true (ps ++ [first]) * t.size + ((x.toNat - first.toNat) * t.size + k) := by
      rw [← Nat.add_assoc, ← Nat.add_mul]
      congr 2
      omega
    rw [Covers, hoffset]
    exact ⟨Nat.le_add_right _ _, Nat.add_lt_add_left (mul_add_lt (by omega) hk) _⟩

end Runs

/-! ## The copy -/

section Copy

variable {s : Source} {t : ElementType} {box : Box} {target target' : Bytes} {n : Nat}

theorem order_lt {k : Nat} (hk : k < t.size) : s.order t k < t.size := by
  unfold order
  split
  · have hunit := t.swapUnit_pos
    rw [reversedPlace, t.size_eq]
    exact mul_add_lt (Nat.div_lt_of_lt_mul (Nat.mul_comm _ _ ▸ t.size_eq ▸ hk)) (by omega)
  · exact hk

/-- The bytes of an element come in the order of the host. -/
theorem getElem?_toHost {bytes : Bytes} {k : Nat} (hlength : bytes.length = t.size)
    (hk : k < t.size) : (s.layout.toHost t bytes)[k]? = bytes[s.order t k]? := by
  have hunit := t.swapUnit_pos
  unfold Layout.toHost order swaps Layout.needsSwap
  cases s.layout.littleEndian with
  | true => rfl
  | false =>
    simp only [Bool.false_eq_true, if_false, Bool.not_false, Bool.true_and, decide_eq_true_eq]
    rw [ElementType.getElem?_turn hlength hk]
    split
    · rfl
    · have hone : t.swapUnit = 1 := by omega
      simp [hone, reversedPlace, Nat.mod_one]

/-- **A copy succeeds** when both sides hold their boxes and the boxes have as many dimensions. -/
theorem copyOverlap_isOk : (∃ n target', s.copyOverlap t target box = .ok (n, target')) ↔
    s.box.size * t.size ≤ s.bytes.length ∧ box.size * t.size ≤ target.length ∧
      s.box.start.length = box.start.length := by
  unfold copyOverlap
  dsimp only
  split
  · exact ⟨fun ⟨_, _, h⟩ => (by cases h), fun h => by omega⟩
  split
  · exact ⟨fun ⟨_, _, h⟩ => (by cases h), fun h => by omega⟩
  split
  · next hranks => exact ⟨fun ⟨_, _, h⟩ => (by cases h), fun h => absurd h.2.2 hranks⟩
  · next hsource htarget hranks =>
    refine ⟨fun _ => ⟨by omega, by omega, not_not.mp hranks⟩, fun _ => ?_⟩
    split
    · exact ⟨_, _, rfl⟩
    · exact ⟨_, _, rfl⟩

/-- Byte strings of one length with the same bytes are equal. -/
theorem bytes_ext {a b : Bytes} {m : Nat} (ha : a.length = m) (hb : b.length = m)
    (h : ∀ k < m, a[k]? = b[k]?) : a = b := by
  refine List.ext_getElem? (fun k => ?_)
  rcases Nat.lt_or_ge k m with hk | hk
  · exact h k hk
  · rw [List.getElem?_eq_none (ha ▸ hk), List.getElem?_eq_none (hb ▸ hk)]

theorem length_element {bytes : Bytes} {i m : Nat} (hi : i < m) (h : m * t.size ≤ bytes.length) :
    (t.element bytes i).length = t.size := by
  have hle : (i + 1) * t.size ≤ m * t.size := Nat.mul_le_mul_right _ hi
  rw [Nat.succ_mul] at hle
  rw [ElementType.element, length_slice]
  omega

section Overlapping

variable {o : Box} {limit run : Nat}

/-- The runs leave at each place of an element the byte of the block that belongs there. -/
theorem getElem?_foldl_runs_of_common (hoverlap : s.box.overlap box = some o)
    (hruns : s.runs t o = (limit, run)) (htarget : box.size * t.size ≤ target.length) {p : Dims}
    (hp : p ∈ s.box.common box) {k : Nat} (hk : k < t.size) :
    ((o.walk limit).foldl (s.copyRun t run box s.bytes.toArray)
        target.toArray)[box.index true p * t.size + k]? =
      some (s.bytes.toArray.getD
        (s.box.index s.layout.rowMajor p * t.size + s.order t k) 0) := by
  obtain ⟨hcontains, hinhabited, hbounded, hlength⟩ := Box.contains_of_overlap hoverlap
  rw [Box.walk_eq_readings limit hlength hinhabited hbounded]
  refine getElem?_foldl_copyRun_of_covered ?_ ?_ ?_
  · exact exists_covers_of_element hlength hinhabited hbounded
      (fun q hq => ((hcontains q).mp hq).2) hruns ((hcontains p).mpr hp) hk
  · intro p' hp' hcovers
    obtain ⟨q, k', hq, hk', hw, hplace⟩ := exists_element_of_covers hlength hinhabited hbounded
      (fun q hq => (hcontains q).mp hq) hruns hp' hcovers
    obtain ⟨hindex, rfl⟩ := mul_add_inj hk hk' hw
    have hsame := Box.rowIndex_inj hp.2 ((hcontains q).mp hq).2 hindex
    rw [hplace, hsame]
  · have hlt := mul_add_lt (Box.index_lt true hp.2) hk
    rw [List.size_toArray]
    omega

theorem getElem?_foldl_runs_of_not_common (hoverlap : s.box.overlap box = some o)
    (hruns : s.runs t o = (limit, run)) {w : Nat}
    (hw : ∀ p ∈ s.box.common box, ∀ k < t.size, w ≠ box.index true p * t.size + k) :
    ((o.walk limit).foldl (s.copyRun t run box s.bytes.toArray) target.toArray)[w]? =
      target[w]? := by
  obtain ⟨hcontains, hinhabited, hbounded, hlength⟩ := Box.contains_of_overlap hoverlap
  rw [Box.walk_eq_readings limit hlength hinhabited hbounded,
    getElem?_foldl_copyRun_of_not_covered, List.getElem?_toArray]
  intro p hp hcovers
  obtain ⟨q, k, hq, hk, heq, -⟩ := exists_element_of_covers hlength hinhabited hbounded
    (fun q hq => (hcontains q).mp hq) hruns hp hcovers
  exact hw q ((hcontains q).mp hq) k hk heq

end Overlapping

/-- **What a copy between boxes leaves.** The element at every common position is that of the block
in the byte order of the host, and every byte of the target that is not one of such an element is
as before. -/
theorem copyOverlap_eq_ok (hsource : s.box.Bounded) (htarget : box.Bounded)
    (h : s.copyOverlap t target box = .ok (n, target')) :
    n = t.size * (s.box.common box).ncard ∧ target'.length = target.length ∧
      (∀ p ∈ s.box.common box, t.element target' (box.index true p) =
        s.layout.toHost t (t.element s.bytes (s.box.index s.layout.rowMajor p))) ∧
      ∀ w, (∀ p ∈ s.box.common box, ∀ k < t.size, w ≠ box.index true p * t.size + k) →
        target'[w]? = target[w]? := by
  obtain ⟨hsourceSize, htargetSize, hranks⟩ := copyOverlap_isOk.mp ⟨_, _, h⟩
  unfold copyOverlap at h
  dsimp only at h
  rw [if_neg (Nat.not_lt.mpr hsourceSize), if_neg (Nat.not_lt.mpr htargetSize),
    if_neg (not_not.mpr hranks)] at h
  cases hoverlap : s.box.overlap box with
  | none =>
    rw [hoverlap] at h
    cases h
    rw [Box.common_eq_empty hsource htarget hoverlap]
    exact ⟨by rw [Set.ncard_empty, Nat.mul_zero], rfl, fun p hp => hp.elim, fun w _ => rfl⟩
  | some o =>
    obtain ⟨-, hinhabited, hbounded, hlength⟩ := Box.contains_of_overlap hoverlap
    rw [hoverlap] at h
    dsimp only at h
    generalize hruns : s.runs t o = runs at h
    obtain ⟨limit, run⟩ := runs
    cases h
    have hlengthTarget : ((o.walk limit).foldl (s.copyRun t run box s.bytes.toArray)
        target.toArray).toList.length = target.length := by
      rw [Array.length_toList, size_foldl_copyRun, List.size_toArray]
    refine ⟨?_, hlengthTarget, fun p hp => ?_, fun w hw => ?_⟩
    · rw [Box.ncard_common hoverlap, ← length_readings_mul_run hlength hruns,
        Box.walk_eq_readings limit hlength hinhabited hbounded]
    · have hsourceIndex := Box.index_lt s.layout.rowMajor hp.1
      have helement := length_element hsourceIndex hsourceSize
      refine bytes_ext (length_element (Box.index_lt true hp.2) (hlengthTarget ▸ htargetSize))
        (Layout.length_toHost helement) (fun k hk => ?_)
      have hplace := mul_add_lt hsourceIndex (order_lt (s := s) hk)
      rw [ElementType.element, getElem?_slice hk, Array.getElem?_toList,
        getElem?_foldl_runs_of_common hoverlap hruns htargetSize hp hk, getElem?_toHost helement hk,
        ElementType.element, getElem?_slice (order_lt hk), Array.getD_eq_getD_getElem?,
        List.getElem?_toArray, List.getElem?_eq_getElem (Nat.lt_of_lt_of_le hplace hsourceSize),
        Option.getD_some]
    · rw [Array.getElem?_toList]
      exact getElem?_foldl_runs_of_not_common hoverlap hruns hw

end Copy

end Source

end Stepcast
