import Mathlib.Data.Set.Card
import Stepcast.Box.Odometer
import Stepcast.Proofs.Box.Overlap

/-!
# The readings of an odometer

The positions that a walk visits are given here without the odometer, by recursion on the number
of coordinates that move: all readings of the other coordinates for each value of the first. For
a box without empty ranges the walk gives these readings, in lexicographic order, each once.

The proof follows the walk from any position on: what is still to come is that position, and what
is still to come from the next one.

Main statements: `walk_eq_readings`, `mem_readings`, `readings_sorted`, `ncard_contains`.
-/

namespace Stepcast

namespace Box

/-! ## Readings -/

/-- A coordinate that takes `count` values from `first` on, each with all of `rest` after it. -/
def sweep (first count : Nat) (rest : List Dims) : List Dims :=
  (List.range' first count).flatMap (fun i => rest.map (UInt64.ofNat i :: ·))

/-- The positions of the box `start`, `count` with the coordinates from `limit` on at their
start. -/
def readings : (limit : Nat) → (start count : Dims) → List Dims
  | limit + 1, s :: ss, c :: cs => sweep s.toNat c.toNat (readings limit ss cs)
  | _, start, _ => [start]

/-- The readings from a position on. -/
def following : (limit : Nat) → (position start count : Dims) → List Dims
  | limit + 1, p :: ps, s :: ss, c :: cs =>
    (following limit ps ss cs).map (p :: ·) ++
      sweep (p.toNat + 1) (s.toNat + c.toNat - (p.toNat + 1)) (readings limit ss cs)
  | _, position, _, _ => [position]

section Sweep

variable {first count : Nat} {rest : List Dims}

theorem sweep_zero : sweep first 0 rest = [] := rfl

theorem sweep_succ : sweep first (count + 1) rest =
    rest.map (UInt64.ofNat first :: ·) ++ sweep (first + 1) count rest := by
  rw [sweep, List.range'_succ, List.flatMap_cons, sweep]

theorem length_sweep : (sweep first count rest).length = count * rest.length := by
  induction count generalizing first with
  | zero => simp [sweep_zero]
  | succ count ih =>
    rw [sweep_succ, List.length_append, List.length_map, ih, Nat.succ_mul, Nat.add_comm]

theorem mem_sweep {q : Dims} : q ∈ sweep first count rest ↔
    ∃ i, (first ≤ i ∧ i < first + count) ∧ ∃ r ∈ rest, UInt64.ofNat i :: r = q := by
  simp only [sweep, List.mem_flatMap, List.mem_range'_1, List.mem_map]

/-- A coordinate that counts up keeps the order of what comes after it. -/
theorem sweep_sorted (hend : first + count ≤ UInt64.size) (h : rest.Pairwise (· < ·)) :
    (sweep first count rest).Pairwise (· < ·) := by
  induction count generalizing first with
  | zero => exact .nil
  | succ count ih =>
    rw [sweep_succ, List.pairwise_append]
    refine ⟨?_, ih (by omega), ?_⟩
    · rw [List.pairwise_map]
      exact h.imp (fun hlt => List.cons_lt_cons_iff.mpr (.inr ⟨rfl, hlt⟩))
    · intro p hp q hq
      obtain ⟨r, -, rfl⟩ := List.mem_map.mp hp
      obtain ⟨i, hi, r', -, rfl⟩ := mem_sweep.mp hq
      refine List.cons_lt_cons_iff.mpr (.inl ?_)
      have hfirst : (UInt64.ofNat first).toNat = first := UInt64.toNat_ofNat_of_lt (by omega)
      have hlater : (UInt64.ofNat i).toNat = i := UInt64.toNat_ofNat_of_lt (by omega)
      rw [UInt64.lt_iff_toNat_lt, hfirst, hlater]
      omega

end Sweep

section Readings

variable {limit : Nat} {start count : Dims}

theorem readings_zero : readings 0 start count = [start] := rfl

theorem readings_nil : readings limit [] [] = [[]] := by cases limit <;> rfl

theorem length_readings (hlength : start.length = count.length) :
    (readings limit start count).length = elementCount (count.take limit) := by
  induction limit generalizing start count with
  | zero => rfl
  | succ limit ih =>
    match start, count, hlength with
    | [], [], _ => rfl
    | s :: ss, c :: cs, hlength =>
      rw [readings, length_sweep, ih (Nat.succ.inj hlength), List.take_succ_cons, elementCount]

/-- **The readings are the positions of the box** with the other coordinates at their start. -/
theorem mem_readings {q : Dims} (hlength : start.length = count.length)
    (hinhabited : Inhabited ⟨start, count⟩) (hbounded : Bounded ⟨start, count⟩) :
    q ∈ readings limit start count ↔
      Contains ⟨start, count⟩ q ∧ q.drop limit = start.drop limit := by
  have hstart := contains_start hlength hinhabited
  induction limit generalizing start count q with
  | zero =>
    rw [readings_zero, List.mem_singleton]
    exact ⟨fun h => ⟨h ▸ hstart, h⟩, fun h => h.2⟩
  | succ limit ih =>
    match start, count, hlength with
    | [], [], _ =>
      rw [readings_nil, List.mem_singleton, contains_nil]
      exact ⟨fun h => ⟨h, by rw [h]⟩, fun h => h.1⟩
    | s :: ss, c :: cs, hlength =>
      have hinhabited := List.forall_mem_cons.mp hinhabited
      rw [bounded_cons] at hbounded
      have ih {q : Dims} := @ih _ _ q (Nat.succ.inj hlength) hinhabited.2 hbounded.2
        (contains_cons.mp hstart).2
      rw [readings, mem_sweep]
      constructor
      · rintro ⟨i, hi, r, hr, rfl⟩
        have hi' : (UInt64.ofNat i).toNat = i := UInt64.toNat_ofNat_of_lt (by omega)
        obtain ⟨hcontains, hdrop⟩ := ih.mp hr
        exact ⟨contains_cons.mpr ⟨by omega, hcontains⟩, hdrop⟩
      · rintro ⟨hcontains, hdrop⟩
        obtain ⟨p, ps, rfl, hp, hcontains⟩ := hcontains.exists_cons
        exact ⟨p.toNat, hp, ps, ih.mpr ⟨hcontains, hdrop⟩, by rw [UInt64.ofNat_toNat]⟩

/-- When only the last coordinate rests, the readings are those of the others with its start after
them. -/
theorem mem_readings_concat {first extent : UInt64} {q : Dims}
    (hlength : start.length = count.length)
    (hinhabited : Inhabited ⟨start ++ [first], count ++ [extent]⟩)
    (hbounded : Bounded ⟨start ++ [first], count ++ [extent]⟩) :
    q ∈ readings count.length (start ++ [first]) (count ++ [extent]) ↔
      ∃ ps, q = ps ++ [first] ∧ Contains ⟨start, count⟩ ps := by
  rw [mem_readings (by simp [hlength]) hinhabited hbounded, ← hlength, List.drop_left]
  constructor
  · rintro ⟨hcontains, hdrop⟩
    rcases List.eq_nil_or_concat q with rfl | ⟨ps, x, rfl⟩
    · exact absurd hcontains.length_start (by simp)
    · rw [List.concat_eq_append] at hcontains hdrop ⊢
      have hps := (contains_concat.mp hcontains).1
      rw [← hps.length_start, List.drop_left] at hdrop
      exact ⟨ps, by rw [hdrop], hps⟩
  · rintro ⟨ps, rfl, hps⟩
    have hextent : 0 < extent.toNat := hinhabited extent (by simp)
    refine ⟨contains_concat.mpr ⟨hps, by omega⟩, ?_⟩
    rw [← hps.length_start, List.drop_left]

/-- **The readings come in lexicographic order**, so each comes once. -/
theorem readings_sorted (hbounded : Bounded ⟨start, count⟩) :
    (readings limit start count).Pairwise (· < ·) := by
  fun_induction readings limit start count with
  | case1 limit s ss c cs ih =>
    rw [bounded_cons] at hbounded
    exact sweep_sorted (Nat.le_of_lt hbounded.1) (ih hbounded.2)
  | case2 => exact List.pairwise_singleton _ _

theorem readings_nodup (hbounded : Bounded ⟨start, count⟩) :
    (readings limit start count).Nodup := by
  refine (readings_sorted hbounded).imp (fun {p q} hlt heq => ?_)
  subst heq
  exact List.lt_irrefl p hlt

end Readings

/-- **A box has as many positions as its size says.** -/
theorem ncard_contains {b : Box} (hlength : b.start.length = b.count.length)
    (hinhabited : b.Inhabited) (hbounded : b.Bounded) : {p | b.Contains p}.ncard = b.size := by
  have hset : {p | b.Contains p} = ↑(readings b.count.length b.start b.count).toFinset := by
    ext p
    rw [List.coe_toFinset, Set.mem_ofPred_eq, Set.mem_ofPred_eq,
      mem_readings hlength hinhabited hbounded]
    refine ⟨fun h => ⟨h, ?_⟩, fun h => h.1⟩
    rw [List.drop_eq_nil_of_le (Nat.le_of_eq h.length_count),
      List.drop_eq_nil_of_le (Nat.le_of_eq hlength)]
  rw [hset, Set.ncard_coe_finset, List.toFinset_card_of_nodup (readings_nodup hbounded),
    length_readings hlength, List.take_length, size]

/-- The positions that two boxes share. -/
def common (a b : Box) : Set Dims := {p | a.Contains p ∧ b.Contains p}

theorem common_eq_empty {a b : Box} (ha : a.Bounded) (hb : b.Bounded) (h : a.overlap b = none) :
    a.common b = ∅ := by
  refine Set.eq_empty_iff_forall_notMem.mpr (fun p hp => ?_)
  obtain ⟨o, ho⟩ := exists_overlap ha hb hp.1 hp.2
  rw [h] at ho
  cases ho

theorem ncard_common {a b o : Box} (h : a.overlap b = some o) : (a.common b).ncard = o.size := by
  obtain ⟨hcontains, hinhabited, hbounded, hlength⟩ := contains_of_overlap h
  rw [← ncard_contains hlength hinhabited hbounded]
  congr 1
  ext p
  exact (hcontains p).symm

/-! ## The walk -/

section Walk

variable {limit : Nat} {position start count : Dims}

theorem rewind_eq (h : position.drop limit = start.drop limit) :
    rewind limit position start = start := by
  rw [rewind, h, List.take_append_drop]

theorem following_ne_nil : following limit position start count ≠ [] := by
  induction limit generalizing position start count with
  | zero => exact List.cons_ne_nil position []
  | succ limit ih =>
    match position, start, count with
    | [], _, _ => exact List.cons_ne_nil _ _
    | _ :: _, [], _ => exact List.cons_ne_nil _ _
    | _ :: _, _ :: _, [] => exact List.cons_ne_nil _ _
    | p :: ps, s :: ss, c :: cs =>
      rw [following]
      intro h
      exact ih (List.map_eq_nil_iff.mp (List.append_eq_nil_iff.mp h).1)

theorem following_start (hlength : start.length = count.length)
    (hinhabited : Inhabited ⟨start, count⟩) :
    following limit start start count = readings limit start count := by
  induction limit generalizing start count with
  | zero => rfl
  | succ limit ih =>
    match start, count, hlength with
    | [], [], _ => rfl
    | s :: ss, c :: cs, hlength =>
      have hinhabited := List.forall_mem_cons.mp hinhabited
      have hcount : c.toNat = (s.toNat + c.toNat - (s.toNat + 1)) + 1 := by
        have hpos := hinhabited.1
        omega
      rw [following, ih (Nat.succ.inj hlength) hinhabited.2, readings]
      conv_rhs => rw [hcount, sweep_succ, UInt64.ofNat_toNat]

theorem following_eq (hlength : start.length = count.length)
    (hinhabited : Inhabited ⟨start, count⟩) (hbounded : Bounded ⟨start, count⟩)
    (hdrop : position.drop limit = start.drop limit) :
    match advance limit position start count with
    | some next => next.drop limit = start.drop limit ∧
        following limit position start count = position :: following limit next start count
    | none => following limit position start count = [position] := by
  induction limit generalizing position start count with
  | zero => exact (rfl : following 0 position start count = [position])
  | succ limit ih =>
    match position, start, count, hlength with
    | [], _, _, _ => rfl
    | _ :: _, [], [], _ => rfl
    | p :: ps, s :: ss, c :: cs, hlength =>
      have hinhabited := List.forall_mem_cons.mp hinhabited
      rw [bounded_cons] at hbounded
      have ih := ih (Nat.succ.inj hlength) hinhabited.2 hbounded.2 hdrop
      rw [advance, following]
      cases hnext : advance limit ps ss cs with
      | some next =>
        rw [hnext] at ih
        refine ⟨ih.1, ?_⟩
        rw [ih.2, List.map_cons, List.cons_append, following]
      | none =>
        rw [hnext] at ih
        rw [ih]
        by_cases hlt : p.toNat + 1 < s.toNat + c.toNat
        · have hp : (p + 1).toNat = p.toNat + 1 := toNat_add_of_lt (Nat.lt_trans hlt hbounded.1)
          have hcount : s.toNat + c.toNat - (p.toNat + 1) =
              (s.toNat + c.toNat - (p.toNat + 1 + 1)) + 1 := by omega
          have hrewind : rewind limit ps ss = ss := rewind_eq hdrop
          rw [if_pos hlt, hrewind]
          refine ⟨rfl, ?_⟩
          rw [following, following_start (Nat.succ.inj hlength) hinhabited.2, hcount, sweep_succ,
            ← hp, UInt64.ofNat_toNat]
          rfl
        · rw [if_neg hlt, Nat.sub_eq_zero_of_le (Nat.le_of_not_lt hlt), sweep_zero]
          rfl

theorem walkFrom_eq {fuel : Nat} {visited : List Dims} (hlength : start.length = count.length)
    (hinhabited : Inhabited ⟨start, count⟩) (hbounded : Bounded ⟨start, count⟩)
    (hdrop : position.drop limit = start.drop limit)
    (hfuel : (following limit position start count).length ≤ fuel) :
    walkFrom limit start count fuel position visited =
      visited.reverse ++ following limit position start count := by
  induction fuel generalizing position visited with
  | zero => exact absurd (List.eq_nil_of_length_eq_zero (Nat.le_zero.mp hfuel)) following_ne_nil
  | succ fuel ih =>
    have hmove := following_eq hlength hinhabited hbounded hdrop
    rw [walkFrom]
    cases hnext : advance limit position start count with
    | some next =>
      rw [hnext] at hmove
      rw [hmove.2] at hfuel ⊢
      dsimp only
      rw [ih hmove.1 (Nat.le_of_succ_le_succ hfuel), List.reverse_cons, List.append_assoc]
      rfl
    | none =>
      rw [hnext] at hmove
      rw [hmove, List.reverse_cons]

end Walk

/-- **The walk gives the readings**, in their order. -/
theorem walk_eq_readings {b : Box} (limit : Nat) (hlength : b.start.length = b.count.length)
    (hinhabited : b.Inhabited) (hbounded : b.Bounded) :
    b.walk limit = readings limit b.start b.count := by
  have hstart : following limit b.start b.start b.count = readings limit b.start b.count :=
    following_start hlength hinhabited
  rw [walk, walkFrom_eq hlength hinhabited hbounded rfl, hstart]
  · rfl
  · rw [hstart, length_readings hlength]

end Box

end Stepcast
