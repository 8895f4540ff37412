import Stepcast.Proofs.Box.Overlap

/-!
# The overlap is the intersection

A box without empty ranges, none of which ends past the largest index, can be told from its
positions: in each dimension the first of them is the start, and the last one comes before the end.
The overlap of two boxes is the box of this kind that holds the positions in both. So it does not
matter which of the two boxes comes first, and there is one just if both end in time and share a
position.

Main statements: `eq_of_contains_iff`, `overlap_eq_some_iff`, `overlap_intersection`.
-/

namespace Stepcast

namespace Box

/-- A range for each dimension, none of them empty and none ending past the largest index. -/
structure Proper (b : Box) : Prop where
  ranks : b.start.length = b.count.length
  inhabited : b.Inhabited
  bounded : b.Bounded

/-! ## Boxes with the same positions -/

section Positions

variable {s c s₁ c₁ s₂ c₂ : UInt64} {ss cs ss₁ cs₁ ss₂ cs₂ : Dims} {a b : Box}

theorem range_eq_of_mem_iff (hends₁ : s₁.toNat + c₁.toNat < UInt64.size)
    (hends₂ : s₂.toNat + c₂.toNat < UInt64.size) (hc₁ : 0 < c₁.toNat) (hc₂ : 0 < c₂.toNat)
    (h : ∀ p : UInt64, (s₁.toNat ≤ p.toNat ∧ p.toNat < s₁.toNat + c₁.toNat) ↔
      (s₂.toNat ≤ p.toNat ∧ p.toNat < s₂.toNat + c₂.toNat)) : s₁ = s₂ ∧ c₁ = c₂ := by
  -- Both ends of each range lie in the other one.
  have hlast {s c : UInt64} (hends : s.toNat + c.toNat < UInt64.size) :
      (UInt64.ofNat (s.toNat + c.toNat - 1)).toNat = s.toNat + c.toNat - 1 :=
    UInt64.toNat_ofNat_of_lt (by omega)
  have hfirst₁ := (h s₁).mp ⟨Nat.le_refl _, by omega⟩
  have hfirst₂ := (h s₂).mpr ⟨Nat.le_refl _, by omega⟩
  have hlast₁ := (h (UInt64.ofNat (s₁.toNat + c₁.toNat - 1))).mp (by rw [hlast hends₁]; omega)
  have hlast₂ := (h (UInt64.ofNat (s₂.toNat + c₂.toNat - 1))).mpr (by rw [hlast hends₂]; omega)
  rw [hlast hends₁] at hlast₁
  rw [hlast hends₂] at hlast₂
  exact ⟨UInt64.toNat_inj.mp (by omega), UInt64.toNat_inj.mp (by omega)⟩

theorem proper_cons : Proper ⟨s :: ss, c :: cs⟩ ↔
    (0 < c.toNat ∧ s.toNat + c.toNat < UInt64.size) ∧ Proper ⟨ss, cs⟩ := by
  constructor
  · rintro ⟨hranks, hinhabited, hbounded⟩
    obtain ⟨hc, hinhabited⟩ := List.forall_mem_cons.mp hinhabited
    obtain ⟨hends, hbounded⟩ := bounded_cons.mp hbounded
    exact ⟨⟨hc, hends⟩, Nat.succ_inj.mp hranks, hinhabited, hbounded⟩
  · rintro ⟨⟨hc, hends⟩, hranks, hinhabited, hbounded⟩
    exact ⟨congrArg Nat.succ hranks, List.forall_mem_cons.mpr ⟨hc, hinhabited⟩,
      bounded_cons.mpr ⟨hends, hbounded⟩⟩

theorem Proper.contains_start (h : b.Proper) : b.Contains b.start :=
  Box.contains_start h.ranks h.inhabited

theorem contains_iff_of_cons (h₁ : Proper ⟨s₁ :: ss₁, c₁ :: cs₁⟩)
    (h₂ : Proper ⟨s₂ :: ss₂, c₂ :: cs₂⟩)
    (h : ∀ p, Contains ⟨s₁ :: ss₁, c₁ :: cs₁⟩ p ↔ Contains ⟨s₂ :: ss₂, c₂ :: cs₂⟩ p) :
    (s₁ = s₂ ∧ c₁ = c₂) ∧ ∀ ps, Contains ⟨ss₁, cs₁⟩ ps ↔ Contains ⟨ss₂, cs₂⟩ ps := by
  obtain ⟨⟨hc₁, hends₁⟩, htail₁⟩ := proper_cons.mp h₁
  obtain ⟨⟨hc₂, hends₂⟩, htail₂⟩ := proper_cons.mp h₂
  have hfirst₁ := contains_cons.mp ((h _).mp h₁.contains_start)
  have hfirst₂ := contains_cons.mp ((h _).mpr h₂.contains_start)
  constructor
  · refine range_eq_of_mem_iff hends₁ hends₂ hc₁ hc₂ fun p => ⟨fun hp => ?_, fun hp => ?_⟩
    · exact (contains_cons.mp ((h (p :: ss₁)).mp
        (contains_cons.mpr ⟨hp, htail₁.contains_start⟩))).1
    · exact (contains_cons.mp ((h (p :: ss₂)).mpr
        (contains_cons.mpr ⟨hp, htail₂.contains_start⟩))).1
  · refine fun ps => ⟨fun hps => ?_, fun hps => ?_⟩
    · exact (contains_cons.mp ((h (s₁ :: ps)).mp (contains_cons.mpr ⟨by omega, hps⟩))).2
    · exact (contains_cons.mp ((h (s₂ :: ps)).mpr (contains_cons.mpr ⟨by omega, hps⟩))).2

/-- **Boxes with the same positions are equal**, if no range is empty or ends too late. -/
theorem eq_of_contains_iff (ha : a.Proper) (hb : b.Proper)
    (h : ∀ p, a.Contains p ↔ b.Contains p) : a = b := by
  obtain ⟨ss₁, cs₁⟩ := a
  obtain ⟨ss₂, cs₂⟩ := b
  have hlength := ((h _).mp ha.contains_start).length_start
  induction ss₁ generalizing cs₁ ss₂ cs₂ with
  | nil =>
    obtain rfl := List.eq_nil_of_length_eq_zero ha.ranks.symm
    obtain rfl := List.eq_nil_of_length_eq_zero hlength.symm
    obtain rfl := List.eq_nil_of_length_eq_zero hb.ranks.symm
    rfl
  | cons s₁ ss₁ ih =>
    obtain ⟨c₁, cs₁, rfl⟩ := List.exists_cons_of_length_eq_add_one ha.ranks.symm
    obtain ⟨s₂, ss₂, rfl⟩ := List.exists_cons_of_length_eq_add_one hlength.symm
    obtain ⟨c₂, cs₂, rfl⟩ := List.exists_cons_of_length_eq_add_one hb.ranks.symm
    obtain ⟨⟨rfl, rfl⟩, htails⟩ := contains_iff_of_cons ha hb h
    have htail := ih cs₁ (proper_cons.mp ha).2 ss₂ cs₂ (proper_cons.mp hb).2 htails
      (Nat.succ_inj.mp hlength)
    cases htail
    rfl

end Positions

/-! ## The overlap -/

section Overlap

variable {a b o : Box}

theorem bounded_of_overlapDims {s₁ c₁ s₂ c₂ : Dims} {o : Dims × Dims}
    (h : overlapDims s₁ c₁ s₂ c₂ = some o) : Bounded ⟨s₁, c₁⟩ ∧ Bounded ⟨s₂, c₂⟩ := by
  fun_induction overlapDims s₁ c₁ s₂ c₂ generalizing o with
  | case1 => exact ⟨bounded_nil, bounded_nil⟩
  | case2 s₁ ss₁ c₁ cs₁ s₂ ss₂ c₂ cs₂ ih =>
    obtain ⟨range, hrange, h⟩ := Option.bind_eq_some_iff.mp h
    obtain ⟨rest, hrest, -⟩ := Option.bind_eq_some_iff.mp h
    obtain ⟨hends, -⟩ := overlapRange_eq_some.mp hrange
    exact ⟨bounded_cons.mpr ⟨hends.1, (ih hrest).1⟩, bounded_cons.mpr ⟨hends.2, (ih hrest).2⟩⟩
  | case3 => cases h

/-- **The overlap is the box of the common positions**, and it takes boxes that end in time. -/
theorem overlap_eq_some_iff : a.overlap b = some o ↔
    (a.Bounded ∧ b.Bounded) ∧ o.Proper ∧ ∀ p, o.Contains p ↔ a.Contains p ∧ b.Contains p := by
  have hproper {o : Box} (h : a.overlap b = some o) :
      o.Proper ∧ ∀ p, o.Contains p ↔ a.Contains p ∧ b.Contains p := by
    obtain ⟨hcontains, hinhabited, hbounded, hranks⟩ := contains_of_overlap h
    exact ⟨⟨hranks, hinhabited, hbounded⟩, hcontains⟩
  constructor
  · intro h
    obtain ⟨dims, hdims, -⟩ := Option.map_eq_some_iff.mp h
    exact ⟨bounded_of_overlapDims hdims, hproper h⟩
  · rintro ⟨⟨ha, hb⟩, ho, hcontains⟩
    obtain ⟨hpa, hpb⟩ := (hcontains _).mp ho.contains_start
    obtain ⟨o', ho'⟩ := exists_overlap ha hb hpa hpb
    obtain ⟨hproper', hcontains'⟩ := hproper ho'
    rw [ho', eq_of_contains_iff hproper' ho fun p => (hcontains' p).trans (hcontains p).symm]

theorem overlap_comm (a b : Box) : a.overlap b = b.overlap a := by
  refine Option.ext fun o => ?_
  simp only [overlap_eq_some_iff, and_comm]

/-- **Two boxes overlap just where both are.** There is an overlap just if the boxes have starts and
extents for the same dimensions, none of their ranges ends past the largest index and some position
lies in both; without dimensions that is the one position that there is. The overlap holds the
positions in both and no others, has no empty range, and is the same with the boxes swapped. -/
theorem overlap_intersection (a b : Box) :
    ((∃ o, a.overlap b = some o) ↔
      (a.count.length = a.start.length ∧ b.start.length = a.start.length ∧
        b.count.length = a.start.length) ∧
      (a.Bounded ∧ b.Bounded) ∧ ∃ p, a.Contains p ∧ b.Contains p) ∧
    (∀ o, a.overlap b = some o →
      (∀ p, o.Contains p ↔ a.Contains p ∧ b.Contains p) ∧ o.Proper) ∧
    b.overlap a = a.overlap b := by
  refine ⟨⟨?_, ?_⟩, fun o ho => ?_, overlap_comm b a⟩
  · rintro ⟨o, ho⟩
    obtain ⟨hbounded, hproper, hcontains⟩ := overlap_eq_some_iff.mp ho
    obtain ⟨hpa, hpb⟩ := (hcontains _).mp hproper.contains_start
    exact ⟨⟨hpa.length_count.symm.trans hpa.length_start,
      hpb.length_start.symm.trans hpa.length_start, hpb.length_count.symm.trans hpa.length_start⟩,
      hbounded, o.start, hpa, hpb⟩
  · rintro ⟨-, ⟨ha, hb⟩, p, hpa, hpb⟩
    exact exists_overlap ha hb hpa hpb
  · obtain ⟨-, hproper, hcontains⟩ := overlap_eq_some_iff.mp ho
    exact ⟨hcontains, hproper⟩

/-- Boxes that meet in one column, close to the largest index. -/
theorem overlap_intersection_sample :
    let a : Box := ⟨[0xFFFFFFFFFFFFFFFB, 0], [4, 3]⟩
    let b : Box := ⟨[0xFFFFFFFFFFFFFFFD, 2], [2, 9]⟩
    (∃ o, a.overlap b = some o) ∧ b.overlap a = some ⟨[0xFFFFFFFFFFFFFFFD, 2], [2, 1]⟩ ∧
      ∀ p, Contains ⟨[0xFFFFFFFFFFFFFFFD, 2], [2, 1]⟩ p ↔ a.Contains p ∧ b.Contains p := by
  intro a b
  obtain ⟨hsome, hcontains, hswapped⟩ := overlap_intersection a b
  have hoverlap : a.overlap b = some ⟨[0xFFFFFFFFFFFFFFFD, 2], [2, 1]⟩ := by decide +kernel
  refine ⟨hsome.mpr ⟨⟨rfl, rfl, rfl⟩, ⟨by decide +kernel, by decide +kernel⟩, ?_⟩,
    hswapped.trans hoverlap, (hcontains _ hoverlap).1⟩
  exact ⟨[0xFFFFFFFFFFFFFFFE, 2], by decide +kernel, by decide +kernel⟩

end Overlap

end Box

end Stepcast
