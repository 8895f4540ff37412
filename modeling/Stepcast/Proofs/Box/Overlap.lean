import Stepcast.Box

/-!
# The common part of two boxes

A range of positions ends one past its last position, and that end has to fit in a word. For boxes
of which this is true in every dimension, `overlap` gives the positions that lie in both, as a box
without empty ranges, and gives nothing just when no position lies in both.

Main statements: `contains_of_overlap`, `exists_overlap`.
-/

namespace Stepcast

namespace Box

/-! ## Positions, dimension by dimension -/

/-- No range of the box ends past the largest index. -/
def Bounded (b : Box) : Prop :=
  ∀ d (hs : d < b.start.length) (hc : d < b.count.length),
    b.start[d].toNat + b.count[d].toNat < UInt64.size

instance (b : Box) : Decidable b.Bounded :=
  inferInstanceAs (Decidable (∀ d (hs : d < b.start.length) (hc : d < b.count.length),
    b.start[d].toNat + b.count[d].toNat < UInt64.size))

instance (b : Box) (position : Dims) : Decidable (b.Contains position) :=
  inferInstanceAs (Decidable (_ ∧ _ ∧ ∀ d (hp : d < position.length) (hs : d < b.start.length)
    (hc : d < b.count.length), b.start[d].toNat ≤ position[d].toNat ∧
      position[d].toNat < b.start[d].toNat + b.count[d].toNat))

section Dimensions

variable {s c p : UInt64} {ss cs ps : Dims}

@[simp] theorem contains_nil : Contains ⟨[], []⟩ ps ↔ ps = [] := by
  constructor
  · intro h
    exact List.eq_nil_of_length_eq_zero h.1
  · rintro rfl
    exact ⟨rfl, rfl, fun d hp => absurd hp (Nat.not_lt_zero d)⟩

theorem contains_cons : Contains ⟨s :: ss, c :: cs⟩ (p :: ps) ↔
    (s.toNat ≤ p.toNat ∧ p.toNat < s.toNat + c.toNat) ∧ Contains ⟨ss, cs⟩ ps := by
  constructor
  · rintro ⟨hlength, hranks, h⟩
    refine ⟨h 0 (by simp) (by simp) (by simp), Nat.succ_inj.mp hlength, Nat.succ_inj.mp hranks, ?_⟩
    intro d hp hs hc
    exact h (d + 1) (Nat.succ_lt_succ hp) (Nat.succ_lt_succ hs) (Nat.succ_lt_succ hc)
  · rintro ⟨hhead, hlength, hranks, h⟩
    refine ⟨congrArg Nat.succ hlength, congrArg Nat.succ hranks, ?_⟩
    rintro (_ | d) hp hs hc
    · exact hhead
    · exact h d (Nat.lt_of_succ_lt_succ hp) (Nat.lt_of_succ_lt_succ hs) (Nat.lt_of_succ_lt_succ hc)

theorem Contains.length_start {b : Box} (h : b.Contains ps) : ps.length = b.start.length := h.1

theorem Contains.length_count {b : Box} (h : b.Contains ps) : ps.length = b.count.length :=
  h.1.trans h.2.1

theorem Contains.exists_cons {position : Dims} (h : Contains ⟨s :: ss, c :: cs⟩ position) :
    ∃ p ps, position = p :: ps ∧ (s.toNat ≤ p.toNat ∧ p.toNat < s.toNat + c.toNat) ∧
      Contains ⟨ss, cs⟩ ps := by
  cases position with
  | nil => exact absurd h.length_start (by simp)
  | cons p ps => exact ⟨p, ps, rfl, contains_cons.mp h⟩

theorem contains_concat : Contains ⟨ss ++ [s], cs ++ [c]⟩ (ps ++ [p]) ↔
    Contains ⟨ss, cs⟩ ps ∧ s.toNat ≤ p.toNat ∧ p.toNat < s.toNat + c.toNat := by
  induction ps generalizing ss cs with
  | nil =>
    match ss, cs with
    | [], [] => simp [contains_cons]
    | [], c' :: cs =>
      exact ⟨fun h => absurd h.length_count (by simp), fun h => absurd h.1.length_count (by simp)⟩
    | s' :: ss, cs =>
      exact ⟨fun h => absurd h.length_start (by simp), fun h => absurd h.1.length_start (by simp)⟩
  | cons p' ps ih =>
    match ss, cs with
    | [], cs =>
      exact ⟨fun h => absurd h.length_start (by simp), fun h => absurd h.1.length_start (by simp)⟩
    | s' :: ss, [] =>
      exact ⟨fun h => absurd h.length_count (by simp), fun h => absurd h.1.length_count (by simp)⟩
    | s' :: ss, c' :: cs => simp only [List.cons_append, contains_cons, ih, and_assoc]

theorem Contains.set {b : Box} {d : Nat} {x : UInt64} (h : b.Contains ps)
    (hs : d < b.start.length) (hc : d < b.count.length)
    (hx : b.start[d].toNat ≤ x.toNat ∧ x.toNat < b.start[d].toNat + b.count[d].toNat) :
    b.Contains (ps.set d x) := by
  refine ⟨List.length_set.trans h.1, h.2.1, fun e hp hs' hc' => ?_⟩
  rw [List.length_set] at hp
  by_cases heq : d = e
  · subst heq
    rwa [List.getElem_set_self]
  · rw [List.getElem_set_ne heq]
    exact h.2.2 e hp hs' hc'

theorem bounded_nil : Bounded ⟨[], []⟩ := fun d hs => absurd hs (Nat.not_lt_zero d)

theorem bounded_cons :
    Bounded ⟨s :: ss, c :: cs⟩ ↔ s.toNat + c.toNat < UInt64.size ∧ Bounded ⟨ss, cs⟩ := by
  constructor
  · intro h
    refine ⟨h 0 (by simp) (by simp), fun d hs hc => ?_⟩
    exact h (d + 1) (Nat.succ_lt_succ hs) (Nat.succ_lt_succ hc)
  · rintro ⟨hhead, h⟩ (_ | d) hs hc
    · exact hhead
    · exact h d (Nat.lt_of_succ_lt_succ hs) (Nat.lt_of_succ_lt_succ hc)

theorem Bounded.last (h : Bounded ⟨ss ++ [s], cs ++ [c]⟩) (hlength : ss.length = cs.length) :
    s.toNat + c.toNat < UInt64.size := by
  have hlast := h ss.length (by simp) (by simp [hlength])
  simpa only [List.getElem_concat_length, hlength] using hlast

end Dimensions

/-! ## One dimension -/

theorem toNat_max (a b : UInt64) : (max a b).toNat = max a.toNat b.toNat := by
  change (if a ≤ b then b else a).toNat = _
  split <;> next hle => rw [UInt64.le_iff_toNat_le] at hle; omega

theorem toNat_add_of_lt {a b : UInt64} (h : a.toNat + b.toNat < UInt64.size) :
    (a + b).toNat = a.toNat + b.toNat := by
  rw [UInt64.toNat_add]
  exact Nat.mod_eq_of_lt h

section Range

variable {s₁ c₁ s₂ c₂ s c : UInt64}

/-- The common part of two ranges starts at the later start and ends at the earlier end. -/
theorem overlapRange_eq_some : overlapRange s₁ c₁ s₂ c₂ = some (s, c) ↔
    (s₁.toNat + c₁.toNat < UInt64.size ∧ s₂.toNat + c₂.toNat < UInt64.size) ∧
      s.toNat = max s₁.toNat s₂.toNat ∧ 0 < c.toNat ∧
      s.toNat + c.toNat = min (s₁.toNat + c₁.toNat) (s₂.toNat + c₂.toNat) := by
  have hmax := toNat_max s₁ s₂
  by_cases hends : s₁.toNat + c₁.toNat < UInt64.size ∧ s₂.toNat + c₂.toNat < UInt64.size
  · have hstop : (UInt64.ofNat (min (s₁.toNat + c₁.toNat) (s₂.toNat + c₂.toNat))).toNat =
        min (s₁.toNat + c₁.toNat) (s₂.toNat + c₂.toNat) :=
      UInt64.toNat_ofNat_of_lt (Nat.lt_of_le_of_lt (Nat.min_le_left _ _) hends.1)
    have hwithin : ¬ ((decide (UInt64.size ≤ s₁.toNat + c₁.toNat) ||
        decide (UInt64.size ≤ s₂.toNat + c₂.toNat)) = true) := by
      simp only [Bool.or_eq_true, decide_eq_true_eq]
      omega
    unfold overlapRange
    dsimp only
    rw [if_neg hwithin]
    generalize UInt64.ofNat (min (s₁.toNat + c₁.toNat) (s₂.toNat + c₂.toNat)) = high at hstop
    have hdiff (hlt : max s₁ s₂ < high) : (high - max s₁ s₂).toNat =
        high.toNat - (max s₁ s₂).toNat :=
      UInt64.toNat_sub_of_le _ _ (UInt64.le_of_lt hlt)
    constructor
    · intro h
      split at h
      · next hlt =>
        cases h
        have hdiff := hdiff hlt
        rw [UInt64.lt_iff_toNat_lt] at hlt
        exact ⟨hends, hmax, by omega, by omega⟩
      · cases h
    · rintro ⟨-, hs, hc, hsum⟩
      have hlt : max s₁ s₂ < high := by
        rw [UInt64.lt_iff_toNat_lt]
        omega
      have hdiff := hdiff hlt
      rw [if_pos hlt, Option.some.injEq, Prod.mk.injEq]
      exact ⟨UInt64.toNat_inj.mp (by omega), UInt64.toNat_inj.mp (by omega)⟩
  · have hbeyond : (decide (UInt64.size ≤ s₁.toNat + c₁.toNat) ||
        decide (UInt64.size ≤ s₂.toNat + c₂.toNat)) = true := by
      simp only [Bool.or_eq_true, decide_eq_true_eq]
      omega
    unfold overlapRange
    dsimp only
    rw [if_pos hbeyond]
    exact ⟨fun h => (by cases h), fun h => absurd h.1 hends⟩

/-- Ranges with a common position overlap. -/
theorem exists_overlapRange {p : UInt64}
    (hends : s₁.toNat + c₁.toNat < UInt64.size ∧ s₂.toNat + c₂.toNat < UInt64.size)
    (h₁ : s₁.toNat ≤ p.toNat ∧ p.toNat < s₁.toNat + c₁.toNat)
    (h₂ : s₂.toNat ≤ p.toNat ∧ p.toNat < s₂.toNat + c₂.toNat) :
    ∃ s c, overlapRange s₁ c₁ s₂ c₂ = some (s, c) := by
  have hmax := toNat_max s₁ s₂
  let count := min (s₁.toNat + c₁.toNat) (s₂.toNat + c₂.toNat) - (max s₁ s₂).toNat
  have hcount : (UInt64.ofNat count).toNat = count := UInt64.toNat_ofNat_of_lt (by omega)
  refine ⟨max s₁ s₂, UInt64.ofNat count, overlapRange_eq_some.mpr ⟨hends, hmax, ?_⟩⟩
  rw [hcount]
  omega

end Range

/-! ## All dimensions -/

/-- Every range of the box has a position. -/
def Inhabited (b : Box) : Prop := ∀ c ∈ b.count, 0 < c.toNat

section All

variable {a b o : Box}

theorem Contains.inhabited {p : Dims} (h : b.Contains p) : b.Inhabited := by
  intro c hc
  obtain ⟨d, hd, rfl⟩ := List.mem_iff_getElem.mp hc
  have hrange := h.2.2 d (h.length_count ▸ hd) (h.2.1 ▸ hd) hd
  omega

theorem contains_start (hlength : b.start.length = b.count.length) (h : b.Inhabited) :
    b.Contains b.start := by
  refine ⟨rfl, hlength, fun d _ _ hc => ⟨Nat.le_refl _, ?_⟩⟩
  exact Nat.lt_add_of_pos_right (h _ (List.getElem_mem hc))

theorem overlapDims_spec {s₁ c₁ s₂ c₂ s c : Dims} (h : overlapDims s₁ c₁ s₂ c₂ = some (s, c)) :
    (s.length = s₂.length ∧ c.length = c₂.length ∧ s.length = c.length) ∧
      Inhabited ⟨s, c⟩ ∧ Bounded ⟨s, c⟩ ∧
      ∀ p, Contains ⟨s, c⟩ p ↔ Contains ⟨s₁, c₁⟩ p ∧ Contains ⟨s₂, c₂⟩ p := by
  fun_induction overlapDims s₁ c₁ s₂ c₂ generalizing s c with
  | case1 =>
    cases h
    exact ⟨⟨rfl, rfl, rfl⟩, by simp [Inhabited], bounded_nil, by simp⟩
  | case2 s₁ ss₁ c₁ cs₁ s₂ ss₂ c₂ cs₂ ih =>
    obtain ⟨range, hrange, h⟩ := Option.bind_eq_some_iff.mp h
    obtain ⟨rest, hrest, h⟩ := Option.bind_eq_some_iff.mp h
    cases h
    obtain ⟨hlength, hinhabited, hbounded, hcontains⟩ := ih hrest
    obtain ⟨hends, hs, hc, hsum⟩ := overlapRange_eq_some.mp hrange
    refine ⟨?_, ?_, bounded_cons.mpr ⟨by omega, hbounded⟩, ?_⟩
    · exact ⟨congrArg Nat.succ hlength.1, congrArg Nat.succ hlength.2.1,
        congrArg Nat.succ hlength.2.2⟩
    · exact List.forall_mem_cons.mpr ⟨hc, hinhabited⟩
    · rintro (_ | ⟨p, ps⟩)
      · exact ⟨fun h => absurd h.length_start (by simp), fun h => absurd h.1.length_start (by simp)⟩
      · simp only [contains_cons, hcontains ps]
        constructor
        · rintro ⟨hp, h₁, h₂⟩
          exact ⟨⟨by omega, h₁⟩, by omega, h₂⟩
        · rintro ⟨⟨hp₁, h₁⟩, hp₂, h₂⟩
          exact ⟨by omega, h₁, h₂⟩
  | case3 => cases h

theorem exists_overlapDims {s₁ c₁ s₂ c₂ p : Dims} (hbounded₁ : Bounded ⟨s₁, c₁⟩)
    (hbounded₂ : Bounded ⟨s₂, c₂⟩) (h₁ : Contains ⟨s₁, c₁⟩ p) (h₂ : Contains ⟨s₂, c₂⟩ p) :
    ∃ s c, overlapDims s₁ c₁ s₂ c₂ = some (s, c) := by
  induction p generalizing s₁ c₁ s₂ c₂ with
  | nil =>
    have hs₁ := List.eq_nil_of_length_eq_zero h₁.length_start.symm
    have hc₁ := List.eq_nil_of_length_eq_zero h₁.length_count.symm
    have hs₂ := List.eq_nil_of_length_eq_zero h₂.length_start.symm
    have hc₂ := List.eq_nil_of_length_eq_zero h₂.length_count.symm
    dsimp only at hs₁ hc₁ hs₂ hc₂
    subst hs₁ hc₁ hs₂ hc₂
    exact ⟨[], [], rfl⟩
  | cons p ps ih =>
    obtain ⟨s₁, ss₁, rfl⟩ := List.exists_cons_of_length_eq_add_one h₁.length_start.symm
    obtain ⟨c₁, cs₁, rfl⟩ := List.exists_cons_of_length_eq_add_one h₁.length_count.symm
    obtain ⟨s₂, ss₂, rfl⟩ := List.exists_cons_of_length_eq_add_one h₂.length_start.symm
    obtain ⟨c₂, cs₂, rfl⟩ := List.exists_cons_of_length_eq_add_one h₂.length_count.symm
    rw [contains_cons] at h₁ h₂
    rw [bounded_cons] at hbounded₁ hbounded₂
    obtain ⟨s, c, hrange⟩ :=
      exists_overlapRange ⟨hbounded₁.1, hbounded₂.1⟩ h₁.1 h₂.1
    obtain ⟨ss, cs, hrest⟩ := ih hbounded₁.2 hbounded₂.2 h₁.2 h₂.2
    exact ⟨s :: ss, c :: cs, by simp [overlapDims, hrange, hrest]⟩

/-- **The common part of two boxes** has the positions that lie in both. It has no empty range,
and none of its ranges ends past the largest index. -/
theorem contains_of_overlap (h : a.overlap b = some o) :
    (∀ p, o.Contains p ↔ a.Contains p ∧ b.Contains p) ∧ o.Inhabited ∧ o.Bounded ∧
      o.start.length = o.count.length := by
  obtain ⟨⟨s, c⟩, hdims, rfl⟩ := Option.map_eq_some_iff.mp h
  obtain ⟨hlength, hinhabited, hbounded, hcontains⟩ := overlapDims_spec hdims
  exact ⟨hcontains, hinhabited, hbounded, hlength.2.2⟩

/-- **Boxes with a common position overlap**, unless one of them ends past the largest index. -/
theorem exists_overlap {p : Dims} (ha : a.Bounded) (hb : b.Bounded) (hpa : a.Contains p)
    (hpb : b.Contains p) : ∃ o, a.overlap b = some o := by
  obtain ⟨s, c, hdims⟩ := exists_overlapDims ha hb hpa hpb
  exact ⟨⟨s, c⟩, by rw [overlap, hdims]; rfl⟩

end All

end Box

end Stepcast
