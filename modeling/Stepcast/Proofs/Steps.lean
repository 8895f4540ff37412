import Stepcast.Archive

/-!
# Step numbers

Step numbers are 64-bit words in their usual order. Of two bounds on steps the greater one counts.
In a list of steps in order, the first one that is fit has no fit one before it.

Main statements: `find?_eq_some_iff_of_pairwise`, `Archive.le_maxOption_iff`,
`Archive.successor_le_iff`.
-/

namespace Stepcast

/-- The greater of two words is their least upper bound. -/
instance lawfulOrderSupWord : Std.LawfulOrderSup UInt64 where
  max_le_iff := by
    intro a b c
    show (if a ≤ b then b else a) ≤ c ↔ a ≤ c ∧ b ≤ c
    split
    · rename_i h
      exact ⟨fun hc => ⟨Std.le_trans h hc, hc⟩, And.right⟩
    · rename_i h
      have hba : b ≤ a := Std.le_of_not_ge h
      exact ⟨fun hc => ⟨hc, Std.le_trans hba hc⟩, And.left⟩

theorem word_min_eq_right {a b : UInt64} (h : b ≤ a) : min a b = b := by
  show (if a ≤ b then a else b) = b
  split
  · next hab => exact Std.le_antisymm hab h
  · rfl

theorem word_max_eq_right {a b : UInt64} (h : a ≤ b) : max a b = b := if_pos h

theorem word_max_comm (a b : UInt64) : max a b = max b a :=
  Std.le_antisymm (Std.max_le_iff.mpr ⟨Std.right_le_max, Std.left_le_max⟩)
    (Std.max_le_iff.mpr ⟨Std.right_le_max, Std.left_le_max⟩)

/-! ## Lists in order -/

/-- The first fit element of a list in order is the fit one that none comes before. -/
theorem find?_eq_some_iff_of_pairwise {α : Type} {R : α → α → Prop}
    (hasymm : ∀ {x y}, R x y → ¬ R y x) {l : List α} (h : l.Pairwise R) {p : α → Bool} {x : α} :
    l.find? p = some x ↔ (x ∈ l ∧ p x = true) ∧ ∀ y ∈ l, R y x → p y = false := by
  constructor
  · intro hfind
    obtain ⟨hx, before, after, rfl, hbefore⟩ := List.find?_eq_some_iff_append.mp hfind
    refine ⟨⟨by simp, hx⟩, fun y hy hyx => ?_⟩
    rcases List.mem_append.mp hy with hy | hy
    · exact (Bool.not_eq_true' _).mp (hbefore y hy)
    · rcases List.mem_cons.mp hy with rfl | hy
      · exact absurd hyx (hasymm hyx)
      · have hxy := (List.pairwise_cons.mp (List.pairwise_append.mp h).2.1).1 y hy
        exact absurd hyx (hasymm hxy)
  · rintro ⟨⟨hmem, hx⟩, hnone⟩
    obtain ⟨before, after, rfl⟩ := List.append_of_mem hmem
    refine List.find?_eq_some_iff_append.mpr ⟨hx, before, after, rfl, fun y hy => ?_⟩
    have hyx := (List.pairwise_append.mp h).2.2 y hy x List.mem_cons_self
    exact (Bool.not_eq_true' _).mpr (hnone y (List.mem_append_left _ hy) hyx)

theorem getElem_le_getElem {l : List UInt64} (h : l.Pairwise (· < ·)) {i j : Nat}
    (hj : j < l.length) (hij : i ≤ j) : l[i] ≤ l[j] := by
  rcases Nat.lt_or_eq_of_le hij with hlt | rfl
  · exact Std.le_of_lt (List.pairwise_iff_getElem.mp h i j _ hj hlt)
  · exact Std.le_refl _

/-- The steps before another one are those at the front of a list in order. -/
theorem mem_takeWhile_lt_iff {l : List UInt64} (h : l.Pairwise (· < ·)) {step s : UInt64} :
    s ∈ l.takeWhile (· < step) ↔ s ∈ l ∧ s < step := by
  induction l with
  | nil => simp
  | cons e rest ih =>
    obtain ⟨hhead, hrest⟩ := List.pairwise_cons.mp h
    by_cases he : e < step
    · rw [List.takeWhile_cons_of_pos (by simpa using he), List.mem_cons, List.mem_cons, ih hrest]
      constructor
      · rintro (rfl | ⟨hs, hlt⟩)
        · exact ⟨.inl rfl, he⟩
        · exact ⟨.inr hs, hlt⟩
      · rintro ⟨rfl | hs, hlt⟩
        · exact .inl rfl
        · exact .inr ⟨hs, hlt⟩
    · rw [List.takeWhile_cons_of_neg (by simpa using he)]
      refine ⟨fun h => absurd h List.not_mem_nil, ?_⟩
      rintro ⟨hs, hlt⟩
      rcases List.mem_cons.mp hs with rfl | hs
      · exact absurd hlt he
      · exact absurd (UInt64.lt_trans (hhead s hs) hlt) he

namespace Archive

/-- A step is at most the greater of two bounds just if it is at most one of them. -/
theorem le_maxOption_iff {a b : Option UInt64} {step : UInt64} :
    (∃ w ∈ maxOption a b, step ≤ w) ↔ (∃ w ∈ a, step ≤ w) ∨ (∃ w ∈ b, step ≤ w) := by
  cases a with
  | none => cases b <;> simp [maxOption]
  | some m =>
    cases b with
    | none => simp [maxOption]
    | some n =>
      have hmax : step ≤ max m n ↔ step ≤ m ∨ step ≤ n := by
        constructor
        · intro h
          rcases Std.le_total (a := m) (b := n) with hle | hle
          · exact .inr (Std.le_trans h (Std.max_le_iff.mpr ⟨hle, Std.le_refl n⟩))
          · exact .inl (Std.le_trans h (Std.max_le_iff.mpr ⟨Std.le_refl m, hle⟩))
        · intro hx
          rcases hx with h | h
          · exact Std.le_trans h Std.left_le_max
          · exact Std.le_trans h Std.right_le_max
      simpa [maxOption] using hmax

/-! ## The next step -/

/-- The greatest step number. -/
def greatest : UInt64 := 0xFFFFFFFFFFFFFFFF

theorem le_greatest (step : UInt64) : step ≤ greatest :=
  UInt64.le_iff_toNat_le.mpr (Nat.le_of_lt_succ step.toNat_lt)

theorem successor_greatest : successor greatest = greatest := rfl

theorem toNat_successor {c : UInt64} (hc : c ≠ greatest) : (successor c).toNat = c.toNat + 1 := by
  have hne : c.toNat ≠ 2 ^ 64 - 1 := fun h => hc (UInt64.toNat_inj.mp h)
  have hmax := c.toNat_lt
  have hsuccessor : successor c = c + 1 := if_neg hc
  rw [hsuccessor, UInt64.toNat_add, UInt64.toNat_one]
  exact Nat.mod_eq_of_lt (by omega)

/-- The step after a step is the least one past it, unless it is the greatest. -/
theorem successor_le_iff {c step : UInt64} (hc : c ≠ greatest) : successor c ≤ step ↔ c < step := by
  rw [UInt64.le_iff_toNat_le, toNat_successor hc, UInt64.lt_iff_toNat_lt, Nat.succ_le_iff]

theorem successor_le_of_lt {c step : UInt64} (h : c < step) : successor c ≤ step := by
  refine (successor_le_iff ?_).mpr h
  rintro rfl
  exact UInt64.not_le.mpr h (le_greatest step)

theorem le_successor (step : UInt64) : step ≤ successor step := by
  by_cases hstep : step = greatest
  · rw [hstep, successor_greatest]
    exact Std.le_refl _
  · rw [UInt64.le_iff_toNat_le, toNat_successor hstep]
    exact Nat.le_succ _

theorem successor_mono {step step' : UInt64} (h : step ≤ step') :
    successor step ≤ successor step' := by
  by_cases heq : step = step'
  · exact heq ▸ Std.le_refl _
  · have hlt : step < step' := Std.lt_of_le_of_ne h heq
    exact Std.le_trans (successor_le_of_lt hlt) (le_successor step')

end Archive

end Stepcast
