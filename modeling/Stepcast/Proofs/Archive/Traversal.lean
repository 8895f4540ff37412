import Stepcast.Proofs.Archive.Reordering

/-!
# Walking the live steps

Asked for the step after another one, an archive names the least live step past it, and nothing if
there is none. A walk asks for the first step and then always for the step after the last answer, so
it goes through the live steps in order and then ends.

The greatest step number is the exception. It has no successor, and what is asked for is a step from
the successor on, so after the greatest step comes the greatest step again if it is live, and a walk
that has come to it does not end.

Main statements: `nextStepAfter_eq_some_iff`, `walk_run`.
-/

namespace Stepcast

namespace Archive

/-- The step is the first live one past `c`. -/
structure IsNext (a : Archive) (c step : UInt64) : Prop where
  live : step ∈ a.liveSteps
  past : c < step
  least : ∀ s ∈ a.liveSteps, c < s → step ≤ s

/-- The step to which a walk comes after `n` others. -/
def walk (a : Archive) : (n : Nat) → Option UInt64
  | 0 => a.nextStepAfter none
  | n + 1 => (a.walk n).bind (fun c => a.nextStepAfter (some c))

section Walk

variable {a : Archive} {c step : UInt64}

theorem pairwise_liveSteps (h : Table.Sorted a.steps) : a.liveSteps.Pairwise (· < ·) :=
  List.pairwise_map.mpr h

/-! ## One step further -/

/-- What comes next is the first live step from the successor on. -/
theorem nextStepAfter_eq_some_iff_le (h : Table.Sorted a.steps) :
    a.nextStepAfter (some c) = some step ↔ (step ∈ a.liveSteps ∧ successor c ≤ step) ∧
      ∀ s ∈ a.liveSteps, successor c ≤ s → step ≤ s := by
  have hfirst := find?_eq_some_iff_of_pairwise (R := fun s t : UInt64 => s < t)
    (fun hlt => Std.not_lt.mpr (Std.le_of_lt hlt)) (pairwise_liveSteps h)
    (p := fun s => successor c ≤ s) (x := step)
  refine hfirst.trans ?_
  simp only [decide_eq_true_eq, decide_eq_false_iff_not]
  refine and_congr_right fun _ => forall₂_congr fun s _ => ?_
  rw [← not_imp_not, not_not, Std.not_lt]

/-- **What comes next is the least live step past the given one**, unless that is the greatest. -/
theorem nextStepAfter_eq_some_iff (h : Table.Sorted a.steps) (hc : c ≠ greatest) :
    a.nextStepAfter (some c) = some step ↔ a.IsNext c step := by
  rw [nextStepAfter_eq_some_iff_le h]
  simp only [successor_le_iff hc]
  exact ⟨fun ⟨⟨hlive, hpast⟩, hleast⟩ => ⟨hlive, hpast, hleast⟩,
    fun ⟨hlive, hpast, hleast⟩ => ⟨⟨hlive, hpast⟩, hleast⟩⟩

theorem nextStepAfter_eq_none_iff (hc : c ≠ greatest) :
    a.nextStepAfter (some c) = none ↔ ∀ s ∈ a.liveSteps, s ≤ c := by
  simp only [nextStepAfter, List.find?_eq_none, decide_eq_true_eq, successor_le_iff hc, Std.not_lt]

theorem nextStepAfter_greatest (h : Table.Sorted a.steps) (hlive : greatest ∈ a.liveSteps) :
    a.nextStepAfter (some greatest) = some greatest :=
  (nextStepAfter_eq_some_iff_le h).mpr ⟨⟨hlive, Std.le_refl _⟩, fun _ _ hle => hle⟩

theorem nextStepAfter_greatest_eq_none (hlive : greatest ∉ a.liveSteps) :
    a.nextStepAfter (some greatest) = none := by
  simp only [nextStepAfter, List.find?_eq_none, successor_greatest]
  intro s hs hle
  have heq : s = greatest := Std.le_antisymm (le_greatest s) (of_decide_eq_true hle)
  exact hlive (heq ▸ hs)

/-! ## The whole walk -/

/-- After a live step comes the live step behind it in the list. -/
theorem nextStepAfter_getElem (h : Table.Sorted a.steps) {n : Nat}
    (hn : n + 1 < a.liveSteps.length) :
    a.nextStepAfter (some a.liveSteps[n]) = some a.liveSteps[n + 1] := by
  have hsorted := pairwise_liveSteps h
  have hlt : a.liveSteps[n] < a.liveSteps[n + 1] :=
    List.pairwise_iff_getElem.mp hsorted n (n + 1) _ hn (Nat.lt_succ_self n)
  have hne : a.liveSteps[n] ≠ greatest := by
    intro heq
    exact UInt64.not_le.mpr hlt (heq ▸ le_greatest _)
  refine (nextStepAfter_eq_some_iff h hne).mpr ⟨List.getElem_mem hn, hlt, fun s hs hpast => ?_⟩
  obtain ⟨i, hi, rfl⟩ := List.getElem_of_mem hs
  -- What lies past the step stands behind it, so not before the next one.
  have hafter : n < i := by
    by_contra hbefore
    exact UInt64.not_le.mpr hpast (getElem_le_getElem hsorted _ (Nat.not_lt.mp hbefore))
  exact getElem_le_getElem hsorted hi hafter

/-- **A walk goes through the live steps in order.** -/
theorem walk_eq_getElem (h : Table.Sorted a.steps) {n : Nat} (hn : n < a.liveSteps.length) :
    a.walk n = some a.liveSteps[n] := by
  induction n with
  | zero => exact List.head?_eq_getElem?.trans (List.getElem?_eq_getElem hn)
  | succ n ih =>
    rw [walk, ih (Nat.lt_of_succ_lt hn), Option.bind_some]
    exact nextStepAfter_getElem h hn

theorem getElem_eq_greatest_iff (h : Table.Sorted a.steps) {n : Nat}
    (hn : n + 1 = a.liveSteps.length) :
    a.liveSteps[n] = greatest ↔ greatest ∈ a.liveSteps := by
  refine ⟨fun heq => heq ▸ List.getElem_mem _, fun hlive => ?_⟩
  obtain ⟨i, hi, heq⟩ := List.getElem_of_mem hlive
  have hle := getElem_le_getElem (pairwise_liveSteps h) (j := n) (by omega) (by omega : i ≤ n)
  exact Std.le_antisymm (le_greatest _) (heq ▸ hle)

/-- **Behind the last live step a walk ends**, or stays there if that is the greatest step. -/
theorem walk_of_length_le (h : Table.Sorted a.steps) {n : Nat} (hn : a.liveSteps.length ≤ n) :
    a.walk n = if greatest ∈ a.liveSteps then some greatest else none := by
  induction n with
  | zero =>
    have hnil : a.liveSteps = [] := List.eq_nil_of_length_eq_zero (Nat.le_zero.mp hn)
    rw [walk, nextStepAfter, hnil, if_neg List.not_mem_nil]
    rfl
  | succ n ih =>
    rcases Nat.lt_or_eq_of_le hn with hlt | hlast
    · rw [walk, ih (Nat.le_of_lt_succ hlt)]
      split
      · next hlive => exact nextStepAfter_greatest h hlive
      · rfl
    · rw [walk, walk_eq_getElem h (by omega), Option.bind_some]
      have hiff := getElem_eq_greatest_iff h hlast.symm
      split
      · next hlive => rw [hiff.mpr hlive, nextStepAfter_greatest h hlive]
      · next hlive =>
        refine (nextStepAfter_eq_none_iff (mt hiff.mp hlive)).mpr fun s hs => ?_
        obtain ⟨i, hi, rfl⟩ := List.getElem_of_mem hs
        exact getElem_le_getElem (pairwise_liveSteps h) _ (by omega)

theorem nextStepAfter_spec (h : Table.Sorted a.steps)
    (hc : c = greatest → greatest ∉ a.liveSteps) :
    (∀ step, a.nextStepAfter (some c) = some step ↔ a.IsNext c step) ∧
      (a.nextStepAfter (some c) = none ↔ ∀ s ∈ a.liveSteps, s ≤ c) := by
  by_cases hgreatest : c = greatest
  · subst hgreatest
    -- Nothing lies past the greatest step, and that is what the archive says.
    have hnone := nextStepAfter_greatest_eq_none (hc rfl)
    refine ⟨fun step => ⟨fun hsome => ?_, fun hnext => ?_⟩, ?_⟩
    · exact nomatch hnone.symm.trans hsome
    · exact absurd (le_greatest step) (UInt64.not_le.mpr hnext.past)
    · exact iff_of_true hnone fun s _ => le_greatest s
  · exact ⟨fun step => nextStepAfter_eq_some_iff h hgreatest, nextStepAfter_eq_none_iff hgreatest⟩

theorem walk_eq_getElem? (h : Table.Sorted a.steps) (hlive : greatest ∉ a.liveSteps) (n : Nat) :
    a.walk n = a.liveSteps[n]? := by
  rcases Nat.lt_or_ge n a.liveSteps.length with hn | hn
  · rw [walk_eq_getElem h hn, List.getElem?_eq_getElem hn]
  · rw [walk_of_length_le h hn, if_neg hlive, List.getElem?_eq_none hn]

theorem walk_eq_getD (h : Table.Sorted a.steps) (hlive : greatest ∈ a.liveSteps) (n : Nat) :
    a.walk n = some (a.liveSteps.getD n greatest) := by
  rw [List.getD_eq_getElem?_getD]
  rcases Nat.lt_or_ge n a.liveSteps.length with hn | hn
  · rw [walk_eq_getElem h hn, List.getElem?_eq_getElem hn, Option.getD_some]
  · rw [walk_of_length_le h hn, if_pos hlive, List.getElem?_eq_none hn, Option.getD_none]

/-- **A walk goes through the live steps**, whatever was received and erased before. What comes
after a step is the least live step past it, and nothing just if there is none, except for the
greatest step while that is live: then it comes after itself. So without it a walk gives the live
steps in increasing order and ends, and with it a walk gives them and then the greatest one for
ever. -/
theorem walk_run (events : List Event) :
    let a := events.foldl handle {}
    (∀ c, (c = greatest → greatest ∉ a.liveSteps) →
      (∀ step, a.nextStepAfter (some c) = some step ↔ a.IsNext c step) ∧
      (a.nextStepAfter (some c) = none ↔ ∀ s ∈ a.liveSteps, s ≤ c)) ∧
    (greatest ∈ a.liveSteps → a.nextStepAfter (some greatest) = some greatest) ∧
    a.liveSteps.Pairwise (· < ·) ∧
    (greatest ∉ a.liveSteps → ∀ n, a.walk n = a.liveSteps[n]?) ∧
    (greatest ∈ a.liveSteps → ∀ n, a.walk n = some (a.liveSteps.getD n greatest)) := by
  intro a
  have h : Table.Sorted a.steps := (sound_run (sound_of_nil rfl rfl) events).sorted
  exact ⟨fun c hc => nextStepAfter_spec h hc, nextStepAfter_greatest h, pairwise_liveSteps h,
    walk_eq_getElem? h, walk_eq_getD h⟩

/-- Steps with a gap, one of them erased, up to the greatest step. -/
def farEvents : List Event :=
  [.put (elementMessage 0 greatest), .put (elementMessage 1 7), .put (elementMessage 0 3),
    .put (elementMessage 1 5), .erase 5]

theorem walk_run_sample :
    let a := farEvents.foldl handle {}
    a.nextStepAfter (some 3) = some 7 ∧ a.walk 0 = some 3 ∧ a.walk 1 = some 7 ∧
      a.walk 2 = some greatest ∧ ∀ n, a.walk (3 + n) = some greatest := by
  intro a
  have hlive : a.liveSteps = [3, 7, greatest] := by decide +kernel
  obtain ⟨hnext, -, -, -, hwalk⟩ := walk_run farEvents
  have hmem : greatest ∈ a.liveSteps := by simp [hlive]
  have hwalk := hwalk hmem
  have h₃ : a.nextStepAfter (some 3) = some 7 := by
    refine ((hnext 3 fun heq => absurd heq (by decide)).1 7).mpr ⟨?_, by decide, ?_⟩
    · simp [a, hlive]
    · intro s hs hpast
      replace hs : s ∈ [3, 7, greatest] := hlive ▸ hs
      obtain rfl | rfl | rfl : s = 3 ∨ s = 7 ∨ s = greatest := by simpa using hs
      · exact absurd hpast (by decide)
      · exact Std.le_refl 7
      · exact le_greatest 7
  rw [hlive] at hwalk
  exact ⟨h₃, hwalk 0, hwalk 1, hwalk 2, fun n => (hwalk (3 + n)).trans (by simp)⟩

/-- After the greatest step comes that step again. -/
theorem walk_stays : ¬ ∀ (events : List Event) (c step : UInt64),
    (events.foldl handle {}).nextStepAfter (some c) = some step → c < step := by
  intro h
  have hlt := h [.put (elementMessage 0 greatest)] greatest greatest (by decide +kernel)
  exact UInt64.lt_irrefl _ hlt

end Walk

end Archive

end Stepcast
