import Mathlib.Logic.Basic
import Stepcast.Table

/-!
# Tables over ordered keys

The keys of a table are linearly ordered, so a table in increasing key order is determined by what
it holds: membership and `at?` say the same, and two tables with the same entries are equal.

Main statements: `mem_iff_at?`, `eq_of_at?_eq`, `ofEntries_eq_self`, `at?_ofEntries`.
-/

namespace Stepcast

namespace Table

variable {κ α β : Type}

/-! ## Looking up -/

theorem mem_keys_filter {p : κ → Bool} {t : Table κ α} {k : κ} :
    k ∈ keys (t.filter (fun e => p e.1)) ↔ k ∈ keys t ∧ p k := by
  simp only [keys, List.mem_map, List.mem_filter]
  constructor
  · intro h
    obtain ⟨e, ⟨he, hp⟩, rfl⟩ := h
    exact ⟨⟨e, he, rfl⟩, hp⟩
  · intro h
    obtain ⟨⟨e, he, rfl⟩, hp⟩ := h
    exact ⟨e, ⟨he, hp⟩, rfl⟩

section Lookup

variable [DecidableEq κ]

@[simp] theorem at?_nil (k : κ) : at? ([] : Table κ α) k = none := rfl

theorem at?_cons (e : κ × α) (t : Table κ α) (k : κ) :
    at? (e :: t) k = if k = e.1 then some e.2 else at? t k := rfl

theorem mem_of_at? {t : Table κ α} {k : κ} {a : α} (h : at? t k = some a) : (k, a) ∈ t := by
  induction t with
  | nil => simp at h
  | cons e rest ih =>
    rw [at?_cons] at h
    split at h
    · rename_i hk
      cases h
      exact hk ▸ List.mem_cons_self
    · exact List.mem_cons_of_mem _ (ih h)

theorem at?_of_mem {t : Table κ α} (h : (keys t).Nodup) {k : κ} {a : α} (hmem : (k, a) ∈ t) :
    at? t k = some a := by
  induction t with
  | nil => cases hmem
  | cons e rest ih =>
    obtain ⟨hnot, hrest⟩ := List.nodup_cons.mp h
    rcases List.mem_cons.mp hmem with rfl | hmem
    · simp [at?_cons]
    · have hne : k ≠ e.1 := fun heq => hnot (heq ▸ List.mem_map_of_mem hmem)
      rw [at?_cons, if_neg hne]
      exact ih hrest hmem

theorem at?_eq_of_perm {t u : Table κ α} (h : (keys t).Nodup) (hperm : t.Perm u) (k : κ) :
    at? t k = at? u k := by
  have hkeys : (keys u).Nodup := (hperm.map Prod.fst).nodup_iff.mp h
  refine Option.ext fun a => ⟨fun ha => ?_, fun ha => ?_⟩
  · exact at?_of_mem hkeys (hperm.mem_iff.mp (mem_of_at? ha))
  · exact at?_of_mem h (hperm.mem_iff.mpr (mem_of_at? ha))

theorem at?_reverse {t : Table κ α} (h : (keys t).Nodup) (k : κ) : at? t.reverse k = at? t k :=
  (at?_eq_of_perm h (List.reverse_perm t).symm k).symm

/-- A new entry is put somewhere among the others. -/
theorem put_perm [LT κ] [DecidableLT κ] {t : Table κ α} {k : κ} (h : k ∉ keys t) (a : α) :
    (t.put k a).Perm ((k, a) :: t) := by
  induction t with
  | nil => exact .refl _
  | cons e rest ih =>
    obtain ⟨hne, hrest⟩ := List.ne_and_not_mem_of_not_mem_cons h
    simp only [put, if_neg hne]
    split
    · exact .refl _
    · exact ((ih hrest).cons _).trans (.swap ..)

theorem at?_eq_none_iff {t : Table κ α} {k : κ} : at? t k = none ↔ k ∉ keys t := by
  induction t with
  | nil => simp [keys]
  | cons e rest ih =>
    rw [at?_cons]
    split
    · rename_i hk
      simp [keys, hk]
    · rename_i hk
      rw [ih]
      simp [keys, hk]

theorem isSome_at?_iff {t : Table κ α} {k : κ} : (at? t k).isSome ↔ k ∈ keys t := by
  rw [← not_iff_not, ← at?_eq_none_iff, Option.not_isSome_iff_eq_none]

theorem at?_put_self [LT κ] [DecidableLT κ] (t : Table κ α) (k : κ) (a : α) :
    at? (t.put k a) k = some a := by
  rw [at?_put, if_pos rfl]

theorem at?_put_of_ne [LT κ] [DecidableLT κ] {k q : κ} (h : q ≠ k) (t : Table κ α) (a : α) :
    at? (t.put k a) q = at? t q := by
  rw [at?_put, if_neg h]

theorem isSome_at?_put [LT κ] [DecidableLT κ] {t : Table κ α} {k : κ} {a : α}
    (h : at? t k = some a) (b : α) (q : κ) :
    (at? (t.put k b) q).isSome = (at? t q).isSome := by
  rw [at?_put]
  split
  · next hq => rw [hq, h, Option.isSome_some, Option.isSome_some]
  · rfl

/-- Tables that are related key by key stay so when related entries are put. -/
theorem rel_put [LT κ] [DecidableLT κ] {R : α → β → Prop} {t : Table κ α} {u : Table κ β}
    (h : ∀ q, Option.Rel R (at? t q) (at? u q)) (k : κ) {a : α} {b : β} (hab : R a b) (q : κ) :
    Option.Rel R (at? (t.put k a) q) (at? (u.put k b) q) := by
  rw [at?_put, at?_put]
  split
  · exact .some hab
  · exact h q

theorem at?_append (t u : Table κ α) (k : κ) : at? (t ++ u) k = (at? t k).or (at? u k) := by
  induction t with
  | nil => simp
  | cons e rest ih =>
    rw [List.cons_append, at?_cons, at?_cons]
    split
    · rfl
    · exact ih

theorem at?_filter (p : κ → Bool) (t : Table κ α) (k : κ) :
    at? (t.filter (fun e => p e.1)) k = if p k then at? t k else none := by
  induction t with
  | nil => simp
  | cons e rest ih =>
    by_cases hk : k = e.1
    · subst hk
      by_cases hp : p e.1 <;> simp [hp, at?_cons, ih]
    · by_cases hp : p e.1 <;> simp [hp, at?_cons, ih, hk]

/-- The entries may be renamed along with what they hold. -/
theorem at?_map {κ' : Type} [DecidableEq κ'] {f : κ → κ'} (hf : ∀ {k q}, f k = f q → k = q)
    (g : κ → α → β) (t : Table κ α) (k : κ) :
    at? (t.map (fun e => (f e.1, g e.1 e.2))) (f k) = (at? t k).map (g k) := by
  induction t with
  | nil => simp
  | cons e rest ih =>
    rw [List.map_cons, at?_cons, at?_cons]
    by_cases hk : k = e.1
    · rw [if_pos (congrArg f hk), if_pos hk, Option.map_some, hk]
    · rw [if_neg (fun h => hk (hf h)), if_neg hk]
      exact ih

theorem at?_prodMap {κ' : Type} [DecidableEq κ'] {f : κ → κ'} (hf : ∀ {k q}, f k = f q → k = q)
    (g : α → β) (t : Table κ α) (k : κ) :
    at? (List.map (Prod.map f g) t) (f k) = (at? t k).map g :=
  at?_map hf (fun _ => g) t k

/-- Entries may be renamed before or after one is stored, if the keys keep their order. -/
theorem map_put {κ' : Type} [LT κ] [DecidableLT κ] [LT κ'] [DecidableLT κ'] [DecidableEq κ']
    {f : κ → κ'} (hlt : ∀ {k q}, f k < f q ↔ k < q) (hf : ∀ {k q}, f k = f q → k = q)
    (g : α → β) (t : Table κ α) (k : κ) (a : α) :
    List.map (Prod.map f g) (t.put k a) = Table.put (List.map (Prod.map f g) t) (f k) (g a) := by
  induction t with
  | nil => rfl
  | cons e rest ih =>
    obtain ⟨k', a'⟩ := e
    rw [List.map_cons, Prod.map_apply]
    unfold put
    by_cases hk : k < k'
    · rw [if_pos hk, if_pos (hlt.mpr hk)]
      rfl
    · rw [if_neg hk, if_neg (mt hlt.mp hk)]
      by_cases heq : k = k'
      · rw [if_pos heq, if_pos (congrArg f heq)]
        rfl
      · rw [if_neg heq, if_neg (mt hf heq), ← ih]
        rfl

/-- Lists that are empty but for one key join to the list of that key. -/
theorem flatten_map_eq {t : Table κ α} (h : (keys t).Nodup) {f : κ × α → List β} {k : κ}
    (hf : ∀ e ∈ t, e.1 ≠ k → f e = []) :
    (t.map f).flatten = (at? t k).elim [] (fun a => f (k, a)) := by
  induction t with
  | nil => rfl
  | cons e rest ih =>
    obtain ⟨hnot, hrest⟩ := List.nodup_cons.mp h
    have htail := ih hrest (fun e he => hf e (List.mem_cons_of_mem _ he))
    rw [List.map_cons, List.flatten_cons, htail, at?_cons]
    by_cases hk : k = e.1
    · subst hk
      rw [at?_eq_none_iff.mpr hnot, if_pos rfl]
      exact List.append_nil _
    · rw [hf e List.mem_cons_self (Ne.symm hk), if_neg hk]
      rfl

end Lookup

/-! ## Tables of entries -/

section Entries

variable [LT κ] [DecidableLT κ] [DecidableEq κ]

theorem mem_keys_put {t : Table κ α} {k q : κ} {a : α} :
    q ∈ keys (t.put k a) ↔ q = k ∨ q ∈ keys t := by
  rw [← isSome_at?_iff, ← isSome_at?_iff, at?_put]
  split <;> simp_all

theorem length_put_le (t : Table κ α) (k : κ) (a : α) : (t.put k a).length ≤ t.length + 1 := by
  induction t with
  | nil => simp [put]
  | cons e rest ih =>
    unfold put
    split
    · simp
    · split
      · simp
      · simpa using ih

/-- Of several entries with one key the last counts. -/
theorem at?_foldl_put (t : Table κ α) (entries : List (κ × α)) (k : κ) :
    at? (entries.foldl (fun t e => t.put e.1 e.2) t) k = (at? entries.reverse k).or (at? t k) := by
  induction entries generalizing t with
  | nil => simp
  | cons e rest ih =>
    rw [List.foldl_cons, ih, List.reverse_cons, at?_append, at?_put, Option.or_assoc, at?_cons]
    split <;> rfl

theorem at?_ofEntries_reverse (entries : List (κ × α)) (k : κ) :
    at? (ofEntries entries) k = at? entries.reverse k := by
  rw [ofEntries, at?_foldl_put, at?_nil, Option.or_none]

theorem at?_ofEntries {entries : List (κ × α)} (h : (keys entries).Nodup) (k : κ) :
    at? (ofEntries entries) k = at? entries k := by
  rw [at?_ofEntries_reverse, at?_reverse h]

theorem mem_of_mem_foldl_put {t : Table κ α} {entries : List (κ × α)} {e : κ × α}
    (h : e ∈ entries.foldl (fun t e => t.put e.1 e.2) t) : e ∈ entries ∨ e ∈ t := by
  induction entries generalizing t with
  | nil => exact .inr h
  | cons e' rest ih =>
    rcases ih h with h | h
    · exact .inl (List.mem_cons_of_mem _ h)
    · rcases mem_put h with rfl | h
      · exact .inl List.mem_cons_self
      · exact .inr h

theorem mem_of_mem_ofEntries {entries : List (κ × α)} {e : κ × α} (h : e ∈ ofEntries entries) :
    e ∈ entries :=
  (mem_of_mem_foldl_put h).resolve_right List.not_mem_nil

theorem length_foldl_put_le (t : Table κ α) (entries : List (κ × α)) :
    (entries.foldl (fun t e => t.put e.1 e.2) t).length ≤ t.length + entries.length := by
  induction entries generalizing t with
  | nil => simp
  | cons e rest ih =>
    have hput := length_put_le t e.1 e.2
    have hrest := ih (t.put e.1 e.2)
    rw [List.foldl_cons, List.length_cons]
    omega

theorem length_ofEntries_le (entries : List (κ × α)) :
    (ofEntries entries).length ≤ entries.length := by
  have h := length_foldl_put_le [] entries
  rwa [List.length_nil, Nat.zero_add] at h

theorem mem_keys_ofEntries {entries : List (κ × α)} {k : κ} :
    k ∈ keys (ofEntries entries) ↔ k ∈ keys entries := by
  have hfold : ∀ t : Table κ α, k ∈ keys (entries.foldl (fun t e => t.put e.1 e.2) t) ↔
      k ∈ keys entries ∨ k ∈ keys t := by
    induction entries with
    | nil => simp [keys]
    | cons e rest ih =>
      intro t
      rw [List.foldl_cons, ih, mem_keys_put]
      simp only [keys, List.map_cons, List.mem_cons, or_assoc, or_left_comm]
  rw [ofEntries, hfold []]
  simp [keys]

end Entries

/-! ## Increasing keys -/

section Order

variable [LE κ] [LT κ] [DecidableLT κ] [DecidableEq κ] [Std.IsLinearOrder κ] [Std.LawfulOrderLT κ]

theorem Sorted.put {t : Table κ α} (h : Sorted t) (k : κ) (a : α) : Sorted (t.put k a) :=
  sorted_put Std.lt_trans
    (fun hlt hne => (Std.lt_trichotomy _ _).resolve_left hlt |>.resolve_left hne) h k a

omit [DecidableLT κ] [DecidableEq κ] [Std.IsLinearOrder κ] in
theorem Sorted.nodup_keys {t : Table κ α} (h : Sorted t) : (keys t).Nodup :=
  List.pairwise_map.mpr (h.imp Std.ne_of_lt)

omit [DecidableLT κ] [Std.IsLinearOrder κ] in
/-- In a sorted table every entry is found. -/
theorem mem_iff_at? {t : Table κ α} (h : Sorted t) {k : κ} {a : α} :
    (k, a) ∈ t ↔ at? t k = some a :=
  ⟨at?_of_mem h.nodup_keys, mem_of_at?⟩

omit [DecidableLT κ] in
theorem eq_of_at?_eq {t u : Table κ α} (ht : Sorted t) (hu : Sorted u)
    (h : ∀ k, at? t k = at? u k) : t = u := by
  have hmem : ∀ e, e ∈ t ↔ e ∈ u := fun ⟨k, a⟩ => by
    rw [mem_iff_at? ht, mem_iff_at? hu, h]
  have hnodup : ∀ {v : Table κ α}, Sorted v → v.Nodup := fun hv =>
    List.Pairwise.imp (fun hlt (heq : _ = _) => Std.ne_of_lt hlt (congrArg Prod.fst heq)) hv
  have hperm : t.Perm u := (List.perm_ext_iff_of_nodup (hnodup ht) (hnodup hu)).mpr hmem
  exact hperm.eq_of_pairwise
    (fun a b _ _ hab hba => absurd (Std.lt_trans hab hba) Std.lt_irrefl) ht hu

theorem put_eq_self {t : Table κ α} (h : Sorted t) {k : κ} {a : α} (hk : at? t k = some a) :
    t.put k a = t := by
  refine eq_of_at?_eq (h.put k a) h fun q => ?_
  rw [at?_put]
  split
  · rename_i hq
    rw [hq, hk]
  · rfl

/-- What is stored under a key past all others comes last. -/
theorem put_eq_concat {t : Table κ α} {k : κ} (h : ∀ e ∈ t, e.1 < k) (a : α) :
    t.put k a = t ++ [(k, a)] := by
  induction t with
  | nil => rfl
  | cons e rest ih =>
    obtain ⟨he, hrest⟩ := List.forall_mem_cons.mp h
    unfold Table.put
    rw [if_neg (fun hlt => Std.lt_irrefl (Std.lt_trans he hlt)), if_neg (Std.ne_of_lt he).symm,
      ih hrest]
    rfl

theorem put_put {t : Table κ α} (h : Sorted t) (k : κ) (a a' : α) :
    (t.put k a).put k a' = t.put k a' := by
  refine eq_of_at?_eq ((h.put k a).put k a') (h.put k a') fun q => ?_
  rw [at?_put, at?_put, at?_put]
  split <;> rfl

omit [DecidableLT κ] [DecidableEq κ] in
theorem keys_eq_of_mem_iff {t : Table κ α} {u : Table κ β} (ht : Sorted t) (hu : Sorted u)
    (h : ∀ k, k ∈ keys t ↔ k ∈ keys u) : keys t = keys u := by
  have hperm := (List.perm_ext_iff_of_nodup ht.nodup_keys hu.nodup_keys).mpr h
  have hkeys : (keys t).Pairwise (· < ·) := List.pairwise_map.mpr ht
  exact hperm.eq_of_pairwise (fun a b _ _ hab hba => absurd (Std.lt_trans hab hba) Std.lt_irrefl)
    hkeys (List.pairwise_map.mpr hu)

omit [DecidableLT κ] in
theorem eq_of_mem_keys_iff {t u : Table κ Unit} (ht : Sorted t) (hu : Sorted u)
    (h : ∀ k, k ∈ keys t ↔ k ∈ keys u) : t = u := by
  refine eq_of_at?_eq ht hu fun k => ?_
  by_cases hk : k ∈ keys t
  · obtain ⟨x, hx⟩ := Option.isSome_iff_exists.mp (isSome_at?_iff.mpr hk)
    obtain ⟨y, hy⟩ := Option.isSome_iff_exists.mp (isSome_at?_iff.mpr ((h k).mp hk))
    rw [hx, hy]
  · rw [at?_eq_none_iff.mpr hk, at?_eq_none_iff.mpr (fun hu => hk ((h k).mpr hu))]

theorem sorted_foldl_put {t : Table κ α} (h : Sorted t) (entries : List (κ × α)) :
    Sorted (entries.foldl (fun t e => t.put e.1 e.2) t) := by
  induction entries generalizing t with
  | nil => exact h
  | cons e rest ih => exact ih (h.put e.1 e.2)

theorem sorted_ofEntries (entries : List (κ × α)) : Sorted (ofEntries entries) :=
  sorted_foldl_put List.Pairwise.nil entries

theorem ofEntries_eq_self {t : Table κ α} (h : Sorted t) : ofEntries t = t :=
  eq_of_at?_eq (sorted_ofEntries t) h (at?_ofEntries h.nodup_keys)

end Order

end Table

end Stepcast
