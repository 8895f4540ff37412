import Stepcast.Proofs.Rendezvous.Receives

/-!
# Letters in line

Letters with one key wait in a line, the oldest first. A round of tests on receives with different
keys takes the first letter of each line that has an open receive, and leaves the other lines alone.
Unlike in `tested_testAll`, many letters may agree in their keys.

Main statement: `drawn_testAll`.
-/

namespace Stepcast

/-! ## Lines -/

namespace Mail

@[simp]
theorem waiting_nil (key : MailKey) : waiting [] key = [] := rfl

theorem waiting_cons (l : Letter) (m : Mail) (key : MailKey) :
    waiting (l :: m) key = if l.key = key then l.body :: waiting m key else waiting m key := by
  by_cases hkey : l.key = key <;> simp [waiting, hkey]

theorem waiting_append (m m' : Mail) (key : MailKey) :
    waiting (m ++ m') key = waiting m key ++ waiting m' key := by
  simp [waiting]

theorem mem_waiting {m : Mail} {key : MailKey} {body : Bytes} :
    body ∈ m.waiting key ↔ ⟨key, body⟩ ∈ m := by
  simp only [waiting, List.mem_map, List.mem_filter, decide_eq_true_eq]
  constructor
  · intro h
    obtain ⟨l, ⟨hl, rfl⟩, rfl⟩ := h
    exact hl
  · exact fun h => ⟨_, ⟨h, rfl⟩, rfl⟩

/-- The letter that is taken is the first in the line of its key, and no other line changes. -/
theorem waiting_take? (m : Mail) (key : MailKey) :
    (m.take? key = none ∧ m.waiting key = []) ∨
      ∃ body m', m.take? key = some (body, m') ∧ m.waiting key = body :: m'.waiting key ∧
        ∀ other, other ≠ key → m'.waiting other = m.waiting other := by
  induction m with
  | nil => exact .inl ⟨rfl, rfl⟩
  | cons l rest ih =>
    rw [take?, waiting_cons]
    by_cases hkey : l.key = key
    · rw [if_pos hkey, if_pos hkey]
      refine .inr ⟨l.body, rest, rfl, rfl, fun other hother => ?_⟩
      rw [waiting_cons, if_neg (fun h => hother (h.symm.trans hkey))]
    · rw [if_neg hkey, if_neg hkey]
      rcases ih with ⟨htake, hwaiting⟩ | ⟨body, m', htake, hwaiting, hothers⟩
      · exact .inl ⟨by rw [htake]; rfl, hwaiting⟩
      · refine .inr ⟨body, l :: m', by rw [htake]; rfl, ?_, fun other hother => ?_⟩
        · rw [hwaiting, waiting_cons, if_neg hkey]
        · rw [waiting_cons, waiting_cons, hothers other hother]

end Mail

/-! ## A round of tests -/

namespace Receive

/-- A receive for the key has taken its letter. -/
def Closed (receives : List Receive) (key : MailKey) : Prop :=
  ∃ r ∈ receives, r.key = key ∧ r.done = true

theorem closed_cons (r : Receive) (rest : List Receive) (key : MailKey) :
    Closed (r :: rest) key ↔ Closed [r] key ∨ Closed rest key := by
  simp [Closed]

theorem open_cons_iff (r : Receive) (rest : List Receive) (key : MailKey) :
    Open (r :: rest) key ↔ Open [r] key ∨ Open rest key := by
  simp [Open]

theorem Open.mem_keys {receives : List Receive} {key : MailKey} (h : Open receives key) :
    key ∈ receives.map Receive.key := by
  obtain ⟨r, hr, rfl, -⟩ := h
  exact List.mem_map_of_mem hr

end Receive

namespace Coordinator

/-- What a round of tests on `receives` and `m` gives: the letters that came, the receives and the
mail. -/
structure Drawn (receives : List Receive) (m : Mail) (letters : List (UInt32 × Bytes))
    (receives' : List Receive) (m' : Mail) : Prop where
  taken : ∀ key, Receive.Open receives key → m'.waiting key = (m.waiting key).tail
  left : ∀ key, ¬ Receive.Open receives key → m'.waiting key = m.waiting key
  mem_letters : ∀ letter, letter ∈ letters ↔ ∃ key, Receive.Open receives key ∧
    key.source = letter.1 ∧ (m.waiting key).head? = some letter.2
  closed : ∀ key, Receive.Closed receives' key ↔
    Receive.Closed receives key ∨ Receive.Open receives key ∧ m.waiting key ≠ []
  keys : receives'.map Receive.key = receives.map Receive.key

theorem drawn_test (r : Receive) (m : Mail) : Drawn [r] m
    ((r.test m).1.toList.map (fun body => ((r.test m).2.1.key.source, body))) [(r.test m).2.1]
      (r.test m).2.2 := by
  have hopen : ∀ key, Receive.Open [r] key ↔ r.key = key ∧ r.done = false := by
    simp [Receive.Open]
  rw [Receive.test]
  by_cases hdone : r.done = true
  · rw [if_pos hdone]
    have hnot : ∀ key, ¬ Receive.Open [r] key := fun key hkey => by
      rw [hopen, hdone] at hkey
      cases hkey.2
    exact {
      taken := fun key hkey => absurd hkey (hnot key)
      left := fun _ _ => rfl
      mem_letters := fun letter => by simp [hnot]
      closed := fun key => by simp [hnot]
      keys := rfl }
  · rw [if_neg hdone]
    have hdone : r.done = false := Bool.eq_false_iff.mpr hdone
    have hopen : ∀ key, Receive.Open [r] key ↔ r.key = key := fun key => by
      rw [hopen, and_iff_left hdone]
    rcases m.waiting_take? r.key with ⟨htake, hnone⟩ | ⟨body, m', htake, hsome, hothers⟩
    · rw [htake]
      exact {
        taken := fun key hkey => by
          rw [← (hopen key).mp hkey, hnone]
          rfl
        left := fun _ _ => rfl
        mem_letters := fun letter => by simp [hopen, hnone]
        closed := fun key =>
          (or_iff_left fun h => h.2 (by rw [← (hopen key).mp h.1, hnone])).symm
        keys := rfl }
    · rw [htake]
      exact {
        taken := fun key hkey => by
          rw [← (hopen key).mp hkey, hsome]
          rfl
        left := fun key hkey => hothers key fun h => hkey ((hopen key).mpr h.symm)
        mem_letters := fun letter => by
          simp [hopen, hsome, Prod.ext_iff, eq_comm]
        closed := fun key => by
          simp only [Receive.Closed, List.mem_singleton, exists_eq_left, hdone, Bool.false_eq_true,
            and_false, false_or, and_true, hopen]
          refine (and_iff_left_of_imp fun hkey => ?_).symm
          rw [← hkey, hsome]
          exact List.cons_ne_nil _ _
        keys := rfl }

/-- Tests of receives with different keys leave each other alone. -/
theorem Drawn.cons {r r' : Receive} {rest rest' : List Receive} {m m₁ m' : Mail}
    {first letters : List (UInt32 × Bytes)} (hr : Drawn [r] m first [r'] m₁)
    (hrest : Drawn rest m₁ letters rest' m') (hnew : r.key ∉ rest.map Receive.key) :
    Drawn (r :: rest) m (first ++ letters) (r' :: rest') m' := by
  have halone : ∀ key, Receive.Open rest key → ¬ Receive.Open [r] key := by
    intro key hkey hx
    obtain rfl := List.mem_singleton.mp hx.mem_keys
    exact hnew hkey.mem_keys
  have hline : ∀ key, Receive.Open rest key → m₁.waiting key = m.waiting key :=
    fun key hkey => hr.left key (halone key hkey)
  exact {
    taken := fun key hkey => by
      rcases (Receive.open_cons_iff r rest key).mp hkey with hkey | hkey
      · rw [hrest.left key fun h => halone key h hkey, hr.taken key hkey]
      · rw [hrest.taken key hkey, hline key hkey]
    left := fun key hkey => by
      rw [Receive.open_cons_iff r rest key, not_or] at hkey
      rw [hrest.left key hkey.2, hr.left key hkey.1]
    mem_letters := fun letter => by
      rw [List.mem_append, hr.mem_letters, hrest.mem_letters, ← exists_or]
      refine exists_congr fun key => ?_
      rw [Receive.open_cons_iff r rest key, or_and_right]
      refine or_congr_right (and_congr_right fun hkey => ?_)
      rw [hline key hkey]
    closed := fun key => by
      rw [Receive.closed_cons r' rest' key, Receive.closed_cons r rest key, hr.closed,
        hrest.closed, Receive.open_cons_iff r rest key, or_and_right]
      have hsame : Receive.Open rest key ∧ m₁.waiting key ≠ [] ↔
          Receive.Open rest key ∧ m.waiting key ≠ [] :=
        and_congr_right fun hkey => by rw [hline key hkey]
      rw [hsame]
      tauto
    keys := by
      have hfirst := List.cons.inj hr.keys
      rw [List.map_cons, List.map_cons, hfirst.1, hrest.keys] }

/-- **A round of tests takes the first letter of each line that has an open receive**, if no two
receives agree in their keys. -/
theorem drawn_testAll {receives : List Receive} (hkeys : (receives.map Receive.key).Nodup)
    (m : Mail) : Drawn receives m (testAll receives m).1 (testAll receives m).2.1
      (testAll receives m).2.2 := by
  induction receives generalizing m with
  | nil =>
    exact {
      taken := fun key hkey => by simp [Receive.Open] at hkey
      left := fun _ _ => rfl
      mem_letters := fun letter => by simp [testAll, Receive.Open]
      closed := fun key => by simp [testAll, Receive.Open]
      keys := rfl }
  | cons r rest ih =>
    obtain ⟨hnew, hrest⟩ := List.nodup_cons.mp hkeys
    exact (drawn_test r m).cons (ih hrest _) hnew

/-- Whatever the keys of the receives are, what comes out of a round of tests was in the mail. -/
theorem testAll_subset (receives : List Receive) (m : Mail) :
    (∀ l ∈ (testAll receives m).2.2, l ∈ m) ∧
      ∀ letter ∈ (testAll receives m).1, ∃ l ∈ m, l.key.source = letter.1 ∧ l.body = letter.2 := by
  induction receives generalizing m with
  | nil => exact ⟨fun _ hl => hl, fun _ hletter => absurd hletter List.not_mem_nil⟩
  | cons r rest ih =>
    have hfirst := drawn_test r m
    obtain ⟨hmail, hletters⟩ := ih (r.test m).2.2
    have hleft : ∀ l ∈ (r.test m).2.2, l ∈ m := by
      intro l hl
      rw [← Mail.mem_waiting] at hl ⊢
      by_cases hopen : Receive.Open [r] l.key
      · rw [hfirst.taken _ hopen] at hl
        exact List.mem_of_mem_tail hl
      · exact hfirst.left _ hopen ▸ hl
    refine ⟨fun l hl => hleft l (hmail l hl), fun letter hletter => ?_⟩
    rcases List.mem_append.mp hletter with hletter | hletter
    · obtain ⟨key, -, hsource, hhead⟩ := (hfirst.mem_letters letter).mp hletter
      exact ⟨_, Mail.mem_waiting.mp (List.mem_of_head? hhead), hsource, rfl⟩
    · obtain ⟨l, hl, hrest⟩ := hletters letter hletter
      exact ⟨l, hleft l hl, hrest⟩

end Coordinator

end Stepcast
