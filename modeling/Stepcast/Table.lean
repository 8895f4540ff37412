/-!
# Tables

A finite map is kept as its entries in strictly increasing key order, so that listing a table needs
no sorting and two tables with the same entries are equal. The operations keep the order
(`sorted_put`, `sorted_without`), and `at?` is the view through which they are reasoned about.
-/

namespace Stepcast

/-- The entries of a finite map, by increasing key. -/
abbrev Table (κ α : Type) := List (κ × α)

namespace Table

variable {κ α β : Type}

/-- The value stored under a key. -/
def at? [DecidableEq κ] : Table κ α → κ → Option α
  | [], _ => none
  | (k', a) :: rest, k => if k = k' then some a else at? rest k

/-- The table with `a` stored under `k`, in place of what was there. -/
def put [LT κ] [DecidableLT κ] [DecidableEq κ] : Table κ α → κ → α → Table κ α
  | [], k, a => [(k, a)]
  | (k', a') :: rest, k, a =>
    if k < k' then (k, a) :: (k', a') :: rest
    else if k = k' then (k, a) :: rest
    else (k', a') :: put rest k a

/-- The table without the entry of `k`. -/
def without [DecidableEq κ] (t : Table κ α) (k : κ) : Table κ α := t.filter (fun e => e.1 ≠ k)

/-- The keys, in increasing order. -/
def keys (t : Table κ α) : List κ := List.map Prod.fst t

/-- The values, in the order of their keys. -/
def values (t : Table κ α) : List α := List.map Prod.snd t

/-- The table of a list of entries in any order; the last entry of a key counts. -/
def ofEntries [LT κ] [DecidableLT κ] [DecidableEq κ] (entries : List (κ × α)) : Table κ α :=
  entries.foldl (fun t e => put t e.1 e.2) []

/-- The keys of a table increase strictly. -/
def Sorted [LT κ] (t : Table κ α) : Prop := t.Pairwise (fun a b => a.1 < b.1)

/-! ## The view `at?` -/

section View

variable [DecidableEq κ]

theorem at?_put [LT κ] [DecidableLT κ] (t : Table κ α) (k : κ) (a : α) (q : κ) :
    at? (put t k a) q = if q = k then some a else at? t q := by
  induction t with
  | nil => simp [put, at?]
  | cons e rest ih =>
    obtain ⟨k', a'⟩ := e
    unfold put
    split
    · simp [at?]
    · split
      · rename_i h
        subst h
        simp only [at?]
        split <;> rfl
      · rename_i h
        simp only [at?, ih]
        split
        · split
          · rename_i h₁ h₂
            exact absurd (h₂.symm.trans h₁) h
          · rfl
        · rfl

theorem at?_without (t : Table κ α) (k q : κ) :
    at? (without t k) q = if q = k then none else at? t q := by
  induction t with
  | nil => simp [without, at?]
  | cons e rest ih =>
    obtain ⟨k', a'⟩ := e
    simp only [without] at ih
    by_cases h : k' = k
    · subst h
      simp only [without, List.filter, ne_eq, not_true_eq_false, decide_false, ih, at?]
      split <;> rfl
    · have hd : decide ((k', a').1 ≠ k) = true := by simp [h]
      simp only [without, List.filter, hd, at?, ih]
      split
      · split
        · rename_i h₁ h₂
          exact absurd (h₁.symm.trans h₂) h
        · rfl
      · rfl

end View

/-! ## The order of the keys -/

theorem mem_put [LT κ] [DecidableLT κ] [DecidableEq κ] {t : Table κ α} {k : κ} {a : α}
    {e : κ × α} (h : e ∈ put t k a) : e = (k, a) ∨ e ∈ t := by
  induction t with
  | nil => simpa [put] using h
  | cons e' rest ih =>
    obtain ⟨k', a'⟩ := e'
    unfold put at h
    split at h
    · simpa using h
    · split at h
      · rcases List.mem_cons.mp h with h | h
        · exact .inl h
        · exact .inr (List.mem_cons_of_mem _ h)
      · rcases List.mem_cons.mp h with h | h
        · exact .inr (h ▸ List.mem_cons_self)
        · exact (ih h).imp id (List.mem_cons_of_mem _)

/-- Storing under a key keeps the order, when the keys are linearly ordered. -/
theorem sorted_put [LT κ] [DecidableLT κ] [DecidableEq κ] {t : Table κ α}
    (trans : ∀ {a b c : κ}, a < b → b < c → a < c)
    (total : ∀ {a b : κ}, ¬ a < b → a ≠ b → b < a) (h : Sorted t) (k : κ) (a : α) :
    Sorted (put t k a) := by
  induction t with
  | nil => simp [put, Sorted]
  | cons e rest ih =>
    obtain ⟨k', a'⟩ := e
    obtain ⟨hhead, hrest⟩ := List.pairwise_cons.mp h
    unfold put
    split
    · rename_i hlt
      refine List.pairwise_cons.mpr ⟨fun e he => ?_, h⟩
      rcases List.mem_cons.mp he with rfl | he
      · exact hlt
      · exact trans hlt (hhead e he)
    · rename_i hlt
      split
      · rename_i heq
        subst heq
        exact List.pairwise_cons.mpr ⟨hhead, hrest⟩
      · rename_i hne
        refine List.pairwise_cons.mpr ⟨fun e he => ?_, ih hrest⟩
        rcases mem_put he with rfl | he
        · exact total hlt hne
        · exact hhead e he

theorem sorted_without [LT κ] [DecidableEq κ] {t : Table κ α} (h : Sorted t) (k : κ) :
    Sorted (without t k) :=
  List.Pairwise.sublist List.filter_sublist h

end Table

end Stepcast
