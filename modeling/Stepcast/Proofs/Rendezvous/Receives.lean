import Mathlib.Data.List.Nodup
import Stepcast.Rendezvous.Coordinator

/-!
# Testing receives

A round of tests takes every letter that has an open receive, and no other one. It is enough for
this that no two letters on their way agree in their keys.

Main statement: `tested_testAll`.
-/

namespace Stepcast

/-! ## Taking a letter -/

namespace Mail

/-- No two letters agree in their keys. -/
def Distinct (m : Mail) : Prop := (m.map Letter.key).Nodup

theorem Distinct.sublist {m m' : Mail} (h : m.Distinct) (hsub : m'.Sublist m) : m'.Distinct :=
  List.Pairwise.sublist (hsub.map _) h

theorem Distinct.eq_of_key_eq {m : Mail} (h : m.Distinct) {l l' : Letter} (hl : l ∈ m)
    (hl' : l' ∈ m) (hkey : l.key = l'.key) : l = l' :=
  List.inj_on_of_nodup_map h hl hl' hkey

theorem take?_eq_none {m : Mail} {key : MailKey} (h : m.take? key = none) :
    ∀ l ∈ m, l.key ≠ key := by
  induction m with
  | nil => exact fun l hl => absurd hl List.not_mem_nil
  | cons l rest ih =>
    rw [take?] at h
    split at h
    · cases h
    · rename_i hkey
      intro l' hl'
      rcases List.mem_cons.mp hl' with rfl | hl'
      · exact hkey
      · exact ih (Option.map_eq_none_iff.mp h) l' hl'

/-- The letter taken is the only one with its key. -/
theorem take?_eq_some {m m' : Mail} {key : MailKey} {body : Bytes} (hm : m.Distinct)
    (h : m.take? key = some (body, m')) :
    ⟨key, body⟩ ∈ m ∧ m'.Sublist m ∧ ∀ l, l ∈ m' ↔ l ∈ m ∧ l.key ≠ key := by
  induction m generalizing m' with
  | nil => cases h
  | cons l rest ih =>
    obtain ⟨hnot, hrest⟩ := List.nodup_cons.mp hm
    have hother : ∀ l' ∈ rest, l'.key ≠ l.key :=
      fun l' hl' heq => hnot (heq ▸ List.mem_map_of_mem hl')
    rw [take?] at h
    split at h
    · rename_i hkey
      cases h
      refine ⟨hkey ▸ List.mem_cons_self, List.sublist_cons_self _ _, fun l' => ?_⟩
      constructor
      · exact fun hl' => ⟨List.mem_cons_of_mem _ hl', hkey ▸ hother l' hl'⟩
      · intro hx
        obtain ⟨hl', hne⟩ := hx
        rcases List.mem_cons.mp hl' with rfl | hl'
        · exact absurd hkey hne
        · exact hl'
    · rename_i hkey
      obtain ⟨⟨body', m''⟩, htake, heq⟩ := Option.map_eq_some_iff.mp h
      cases heq
      obtain ⟨hmem, hsub, hiff⟩ := ih hrest htake
      refine ⟨List.mem_cons_of_mem _ hmem, hsub.cons_cons _, fun l' => ?_⟩
      rw [List.mem_cons, hiff, List.mem_cons]
      constructor
      · intro hx
        rcases hx with rfl | ⟨hl', hne⟩
        · exact ⟨.inl rfl, hkey⟩
        · exact ⟨.inr hl', hne⟩
      · intro hx
        rcases hx with ⟨rfl | hl', hne⟩
        · exact .inl rfl
        · exact .inr ⟨hl', hne⟩

end Mail

/-! ## Testing all receives -/

/-- A receive for the key has not taken its letter. -/
def Receive.Open (receives : List Receive) (key : MailKey) : Prop :=
  ∃ r ∈ receives, r.key = key ∧ r.done = false

theorem Receive.open_cons {r : Receive} {rest : List Receive} {key : MailKey} :
    Open (r :: rest) key ↔ r.key = key ∧ r.done = false ∨ Open rest key := by
  simp [Open]

namespace Coordinator

/-- What a round of tests on `receives` and `m` gives: the letters that came, the receives and the
mail. -/
structure Tested (receives : List Receive) (m : Mail) (letters : List (UInt32 × Bytes))
    (receives' : List Receive) (m' : Mail) : Prop where
  mem_mail : ∀ l, l ∈ m' ↔ l ∈ m ∧ ¬ Receive.Open receives l.key
  sublist : m'.Sublist m
  mem_letters : ∀ letter, letter ∈ letters ↔
    ∃ l ∈ m, Receive.Open receives l.key ∧ letter = (l.key.source, l.body)
  still_open : ∀ key, Receive.Open receives key → (∀ l ∈ m, l.key ≠ key) →
    Receive.Open receives' key
  keys : receives'.map Receive.key = receives.map Receive.key

theorem Tested.cons_none {r : Receive} {rest rest' : List Receive} {m m' : Mail}
    {letters : List (UInt32 × Bytes)} (h : Tested rest m letters rest' m')
    (hr : r.done = true ∨ ∀ l ∈ m, l.key ≠ r.key) :
    Tested (r :: rest) m letters (r :: rest') m' := by
  have hopen : ∀ l ∈ m, (Receive.Open (r :: rest) l.key ↔ Receive.Open rest l.key) := by
    intro l hl
    rw [Receive.open_cons, or_iff_right]
    intro hx
    obtain ⟨hkey, hdone⟩ := hx
    rcases hr with hr | hr
    · rw [hdone] at hr
      cases hr
    · exact hr l hl hkey.symm
  exact {
    mem_mail := fun l => by
      rw [h.mem_mail]
      exact and_congr_right fun hl => not_congr (hopen l hl).symm
    sublist := h.sublist
    mem_letters := fun letter => by
      rw [h.mem_letters]
      exact exists_congr fun l => and_congr_right fun hl =>
        and_congr_left fun _ => (hopen l hl).symm
    still_open := fun key hkey hm => by
      rw [Receive.open_cons] at hkey ⊢
      exact hkey.imp_right (h.still_open key · hm)
    keys := congrArg (r.key :: ·) h.keys }

/-- A receive that takes its letter is closed, and the others share the rest of the mail. -/
theorem Tested.cons_some {r : Receive} {rest rest' : List Receive} {m m₁ m' : Mail}
    {body : Bytes} {letters : List (UInt32 × Bytes)} (hm : m.Distinct) (hr : r.done = false)
    (htake : m.take? r.key = some (body, m₁)) (h : Tested rest m₁ letters rest' m') :
    Tested (r :: rest) m ((r.key.source, body) :: letters)
      ({ r with done := true } :: rest') m' := by
  obtain ⟨hmem, hsub, hiff⟩ := Mail.take?_eq_some hm htake
  exact {
    mem_mail := fun l => by
      rw [h.mem_mail, hiff, Receive.open_cons]
      simp only [hr, and_true, not_or, and_assoc, ne_eq, eq_comm]
    sublist := h.sublist.trans hsub
    mem_letters := fun letter => by
      rw [List.mem_cons, h.mem_letters]
      constructor
      · intro hx
        rcases hx with rfl | ⟨l, hl, hopen, rfl⟩
        · exact ⟨⟨r.key, body⟩, hmem, Receive.open_cons.mpr (.inl ⟨rfl, hr⟩), rfl⟩
        · exact ⟨l, ((hiff l).mp hl).1, Receive.open_cons.mpr (.inr hopen), rfl⟩
      · intro hx
        obtain ⟨l, hl, hopen, rfl⟩ := hx
        by_cases hkey : l.key = r.key
        · rw [hm.eq_of_key_eq hl hmem hkey]
          exact .inl rfl
        · have hrest := (Receive.open_cons.mp hopen).resolve_left (fun h => hkey h.1.symm)
          exact .inr ⟨l, (hiff l).mpr ⟨hl, hkey⟩, hrest, rfl⟩
    still_open := fun key hkey hnone => by
      have hne : r.key ≠ key := hnone _ hmem
      have hrest := (Receive.open_cons.mp hkey).resolve_left (fun h => hne h.1)
      have hnone' : ∀ l ∈ m₁, l.key ≠ key := fun l hl => hnone l ((hiff l).mp hl).1
      exact Receive.open_cons.mpr (.inr (h.still_open key hrest hnone'))
    keys := congrArg (r.key :: ·) h.keys }

/-- **A round of tests takes every letter that has an open receive.** -/
theorem tested_testAll (receives : List Receive) {m : Mail} (hm : m.Distinct) :
    Tested receives m (testAll receives m).1 (testAll receives m).2.1
      (testAll receives m).2.2 := by
  induction receives generalizing m with
  | nil =>
    exact {
      mem_mail := fun l => by simp [testAll, Receive.Open]
      sublist := List.Sublist.refl m
      mem_letters := fun letter => by simp [testAll, Receive.Open]
      still_open := fun key hkey _ => hkey
      keys := rfl }
  | cons r rest ih =>
    rw [testAll, Receive.test]
    by_cases hdone : r.done = true
    · rw [if_pos hdone]
      exact (ih hm).cons_none (.inl hdone)
    · rw [if_neg hdone]
      cases htake : m.take? r.key with
      | none => exact (ih hm).cons_none (.inr (Mail.take?_eq_none htake))
      | some taken =>
        obtain ⟨body, m₁⟩ := taken
        have hm₁ := hm.sublist (Mail.take?_eq_some hm htake).2.1
        exact (ih hm₁).cons_some hm (Bool.eq_false_iff.mpr hdone) htake

end Coordinator

end Stepcast
