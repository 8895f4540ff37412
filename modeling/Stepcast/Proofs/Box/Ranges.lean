import Stepcast.Proofs.Box.Copying

/-!
# Slices stay in range

`copyOverlap` cuts two slices at every position of its walk: one out of the block, one out of the
target. The copies here stop at a slice that is out of range, and at a coordinate that lies before
the start of its box. They never do: a run ends at the last position of its row that the two boxes
share, and the index of that position is below the size of either box. Sizes are not bounded here:
a box whose size does not fit a word never has its bytes.

Main statement: `copyOverlap?_eq`.
-/

namespace Stepcast

/-! ## Copies that check their slices -/

/-- `offset`, unless a coordinate lies before its start. -/
def Box.offset? : (position start : Dims) → (strides : List Nat) → Option Nat
  | p :: ps, s :: ss, w :: ws => do
    guard (s.toNat ≤ p.toNat)
    let rest ← offset? ps ss ws
    return (p.toNat - s.toNat) * w + rest
  | _, _, _ => some 0

namespace Source

/-- `copyRun`, unless one of its slices is out of range. -/
def copyRun? (s : Source) (t : ElementType) (run : Nat) (box : Box) (bytes target : Array UInt8)
    (position : Dims) : Option (Array UInt8) := do
  let read ← Box.offset? position s.box.start (Box.strides s.layout.rowMajor s.box.count)
  let write ← Box.offset? position box.start (Box.strides true box.count)
  guard (read * t.size + run ≤ bytes.size ∧ write * t.size + run ≤ target.size)
  return s.copyRun t run box bytes target position

/-- `copyOverlap`, unless a slice is out of range. -/
def copyOverlap? (s : Source) (t : ElementType) (target : Bytes) (box : Box) :
    Option (Except Fault (Nat × Bytes)) :=
  let sourceNeeded := s.box.size * t.size
  let targetNeeded := box.size * t.size
  if s.bytes.length < sourceNeeded then
    some (.error (.argument (.sourceSize s.bytes.length sourceNeeded)))
  else if target.length < targetNeeded then
    some (.error (.argument (.targetSize target.length targetNeeded)))
  else if s.box.start.length ≠ box.start.length then
    some (.error (.argument (.boxDimensions box.start.length s.box.start.length)))
  else
    match s.box.overlap box with
    | none => some (.ok (0, target))
    | some common => do
      let (limit, run) := s.runs t common
      let positions := common.walk limit
      let copied ← positions.foldlM (s.copyRun? t run box s.bytes.toArray) target.toArray
      return .ok (positions.length * run, copied.toList)

end Source

/-! ## Positions of a box -/

theorem Box.offset?_eq {position start count : Dims} (h : Box.Contains ⟨start, count⟩ position)
    (strides : List Nat) :
    Box.offset? position start strides = some (Box.offset position start strides) := by
  induction position generalizing start count strides with
  | nil => rfl
  | cons p ps ih =>
    match start, count, strides with
    | [], _, _ => rfl
    | _ :: _, [], _ => exact absurd h.length_count (by simp)
    | _ :: _, _ :: _, [] => rfl
    | s :: ss, c :: cs, w :: ws =>
      obtain ⟨⟨hstart, -⟩, hrest⟩ := Box.contains_cons.mp h
      simp only [Box.offset?, ih hrest ws, hstart, guard_true, Box.offset]
      rfl

namespace Source

variable {s : Source} {t : ElementType} {box o : Box} {limit run : Nat}

/-- **A run ends within both boxes**: the last element that it copies is at a position of them. -/
theorem run_le (hlength : o.start.length = o.count.length) (hinhabited : o.Inhabited)
    (hbounded : o.Bounded) (hcommon : ∀ q, o.Contains q → s.box.Contains q ∧ box.Contains q)
    (h : s.runs t o = (limit, run)) {p : Dims} (hp : p ∈ Box.readings limit o.start o.count) :
    s.box.index s.layout.rowMajor p * t.size + run ≤ s.box.size * t.size ∧
      box.index true p * t.size + run ≤ box.size * t.size := by
  rcases runs_cases hlength h with
    ⟨-, rfl⟩ | ⟨start, count, first, extent, rfl, rfl, rfl, hmajor, -⟩
  · obtain ⟨hsource, htarget⟩ :=
      hcommon p ((Box.mem_readings hlength hinhabited hbounded).mp hp).1
    rw [← Nat.succ_mul, ← Nat.succ_mul]
    exact ⟨Nat.mul_le_mul_right _ (Box.index_lt _ hsource),
      Nat.mul_le_mul_right _ (Box.index_lt _ htarget)⟩
  · obtain ⟨ps, rfl, hps⟩ :=
      (Box.mem_readings_concat (by simpa using hlength) hinhabited hbounded).mp hp
    have hextent : 0 < extent.toNat := hinhabited extent (by simp)
    have hend := hbounded.last (by simpa using hlength)
    -- The last position of the range that the run covers.
    have hlast : (UInt64.ofNat (first.toNat + extent.toNat - 1)).toNat =
        first.toNat + extent.toNat - 1 := UInt64.toNat_ofNat_of_lt (by omega)
    generalize UInt64.ofNat (first.toNat + extent.toNat - 1) = last at hlast
    have hq : Box.Contains ⟨start ++ [first], count ++ [extent]⟩ (ps ++ [last]) :=
      Box.contains_concat.mpr ⟨hps, by omega⟩
    have hp : Box.Contains ⟨start ++ [first], count ++ [extent]⟩ (ps ++ [first]) :=
      Box.contains_concat.mpr ⟨hps, by omega⟩
    have hsource := Box.index_concat (hcommon _ hp).1 (hcommon _ hq).1
    have htarget := Box.index_concat (hcommon _ hp).2 (hcommon _ hq).2
    have hsourceLt := Box.index_lt true (hcommon _ hq).1
    have htargetLt := Box.index_lt true (hcommon _ hq).2
    rw [hmajor, ← Nat.add_mul, ← Nat.add_mul]
    exact ⟨Nat.mul_le_mul_right _ (by omega), Nat.mul_le_mul_right _ (by omega)⟩

variable {bytes target : Array UInt8}

theorem copyRun?_eq {p : Dims} (hsource : s.box.Contains p) (htarget : box.Contains p)
    (hread : s.box.index s.layout.rowMajor p * t.size + run ≤ bytes.size)
    (hwrite : box.index true p * t.size + run ≤ target.size) :
    s.copyRun? t run box bytes target p = some (s.copyRun t run box bytes target p) := by
  simp only [copyRun?, Box.offset?_eq hsource, Box.offset?_eq htarget, Box.offset_strides,
    Option.bind_eq_bind, Option.bind_some, hread, hwrite, and_self, guard_true]
  rfl

theorem foldlM_copyRun? {positions : List Dims}
    (hcontains : ∀ p ∈ positions, s.box.Contains p ∧ box.Contains p)
    (hread : ∀ p ∈ positions, s.box.index s.layout.rowMajor p * t.size + run ≤ bytes.size)
    (hwrite : ∀ p ∈ positions, box.index true p * t.size + run ≤ target.size) :
    positions.foldlM (s.copyRun? t run box bytes) target =
      some (positions.foldl (s.copyRun t run box bytes) target) := by
  induction positions generalizing target with
  | nil => rfl
  | cons p ps ih =>
    obtain ⟨hp, hps⟩ := List.forall_mem_cons.mp hcontains
    obtain ⟨hreadFirst, hread⟩ := List.forall_mem_cons.mp hread
    obtain ⟨hwriteFirst, hwrite⟩ := List.forall_mem_cons.mp hwrite
    rw [List.foldlM_cons, copyRun?_eq hp.1 hp.2 hreadFirst hwriteFirst, List.foldl_cons]
    refine ih hps hread fun q hq => ?_
    rw [copyRun_eq, size_copyBytes]
    exact hwrite q hq

/-- **No slice of a copy between boxes is out of range**, whatever the boxes, the layout, the bytes
of the block and the target are. -/
theorem copyOverlap?_eq (s : Source) (t : ElementType) (target : Bytes) (box : Box) :
    s.copyOverlap? t target box = some (s.copyOverlap t target box) := by
  unfold copyOverlap? copyOverlap
  dsimp only
  split
  · rfl
  split
  · rfl
  split
  · rfl
  · next hsource htarget hranks =>
    cases hoverlap : s.box.overlap box with
    | none => rfl
    | some o =>
      obtain ⟨hcontains, hinhabited, hbounded, hlength⟩ := Box.contains_of_overlap hoverlap
      have hcommon (q : Dims) (hq : o.Contains q) : s.box.Contains q ∧ box.Contains q :=
        (hcontains q).mp hq
      dsimp only
      generalize hruns : s.runs t o = runs
      obtain ⟨limit, run⟩ := runs
      rw [Box.walk_eq_readings limit hlength hinhabited hbounded, foldlM_copyRun?]
      · rfl
      · intro p hp
        exact hcommon p ((Box.mem_readings hlength hinhabited hbounded).mp hp).1
      · intro p hp
        have hle := (run_le hlength hinhabited hbounded hcommon hruns hp).1
        rw [List.size_toArray]
        omega
      · intro p hp
        have hle := (run_le hlength hinhabited hbounded hcommon hruns hp).2
        rw [List.size_toArray]
        omega

end Source

end Stepcast
