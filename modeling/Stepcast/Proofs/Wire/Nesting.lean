import Stepcast.Fault
import Stepcast.Proofs.Wire.Trees

/-!
# How deep a tree may be

A tree holds the items of its list, or the values of its map, one level below itself. Its depth is
the greatest level at which anything lies. What reading accepts of the written trees depends on
nothing but that: a tree with everything within the levels that reading allows is read back, and
any other is refused as a protocol fault, whatever else it holds.

Main statements: `depth_le_iff`, `decode_encode_of_lies`.
-/

namespace Stepcast

namespace Tree

/-! ## Levels -/

/-- `Lies n u t` says that the tree `u` lies `n` levels below the tree `t`. -/
inductive Lies : Nat → Tree → Tree → Prop
  | root (t : Tree) : Lies 0 t t
  | item {n : Nat} {u t : Tree} {items : List Tree} :
      t ∈ items → Lies n u t → Lies (n + 1) u (list items)
  | value {n : Nat} {u t : Tree} {key : String} {entries : List (String × Tree)} :
      (key, t) ∈ entries → Lies n u t → Lies (n + 1) u (map entries)

theorem depth_lt_itemsDepth {t : Tree} {items : List Tree} (h : t ∈ items) :
    depth t < itemsDepth items := by
  induction items with
  | nil => cases h
  | cons t' rest ih =>
    rw [itemsDepth]
    rcases List.mem_cons.mp h with rfl | h
    · omega
    · have := ih h
      omega

theorem depth_lt_entriesDepth {key : String} {t : Tree} {entries : List (String × Tree)}
    (h : (key, t) ∈ entries) : depth t < entriesDepth entries := by
  induction entries with
  | nil => cases h
  | cons e rest ih =>
    rcases List.mem_cons.mp h with rfl | h
    · rw [entriesDepth]
      omega
    · have := ih h
      rw [entriesDepth]
      omega

theorem Lies.le_depth {n : Nat} {u t : Tree} (h : Lies n u t) : n ≤ depth t := by
  induction h with
  | root t => exact Nat.zero_le _
  | item hmem _ ih =>
    rw [depth]
    exact Nat.lt_of_le_of_lt ih (depth_lt_itemsDepth hmem)
  | value hmem _ ih =>
    rw [depth]
    exact Nat.lt_of_le_of_lt ih (depth_lt_entriesDepth hmem)

/-! ### The deepest branch -/

mutual

theorem exists_lies_depth (t : Tree) : ∃ u, Lies (depth t) u t := by
  cases t with
  | list items =>
    rw [depth]
    rcases Nat.eq_zero_or_pos (itemsDepth items) with hzero | hpos
    · exact hzero ▸ ⟨_, .root _⟩
    · obtain ⟨n, u, t, hmem, heq, hlies⟩ := exists_lies_item items hpos
      exact heq ▸ ⟨u, .item hmem hlies⟩
  | map entries =>
    rw [depth]
    rcases Nat.eq_zero_or_pos (entriesDepth entries) with hzero | hpos
    · exact hzero ▸ ⟨_, .root _⟩
    · obtain ⟨n, u, key, t, hmem, heq, hlies⟩ := exists_lies_value entries hpos
      exact heq ▸ ⟨u, .value hmem hlies⟩
  | _ => exact ⟨_, .root _⟩

theorem exists_lies_item (items : List Tree) (h : 0 < itemsDepth items) :
    ∃ n u t, t ∈ items ∧ itemsDepth items = n + 1 ∧ Lies n u t := by
  match items with
  | [] => simp [itemsDepth] at h
  | t :: rest =>
    rw [itemsDepth]
    rcases Nat.le_total (itemsDepth rest) (depth t + 1) with hle | hle
    · obtain ⟨u, hlies⟩ := exists_lies_depth t
      exact ⟨_, u, t, List.mem_cons_self, Nat.max_eq_left hle, hlies⟩
    · obtain ⟨n, u, t', hmem, heq, hlies⟩ := exists_lies_item rest (by omega)
      exact ⟨n, u, t', List.mem_cons_of_mem _ hmem, (Nat.max_eq_right hle).trans heq, hlies⟩

theorem exists_lies_value (entries : List (String × Tree)) (h : 0 < entriesDepth entries) :
    ∃ n u key t, (key, t) ∈ entries ∧ entriesDepth entries = n + 1 ∧ Lies n u t := by
  match entries with
  | [] => simp [entriesDepth] at h
  | (key, t) :: rest =>
    rw [entriesDepth]
    rcases Nat.le_total (entriesDepth rest) (depth t + 1) with hle | hle
    · obtain ⟨u, hlies⟩ := exists_lies_depth t
      exact ⟨_, u, key, t, List.mem_cons_self, Nat.max_eq_left hle, hlies⟩
    · obtain ⟨n, u, key', t', hmem, heq, hlies⟩ := exists_lies_value rest (by omega)
      exact ⟨n, u, key', t', List.mem_cons_of_mem _ hmem, (Nat.max_eq_right hle).trans heq, hlies⟩

end

theorem depth_le_iff {t : Tree} {m : Nat} : depth t ≤ m ↔ ∀ n u, Lies n u t → n ≤ m := by
  constructor
  · intro h n u hlies
    exact Nat.le_trans hlies.le_depth h
  · intro h
    obtain ⟨u, hlies⟩ := exists_lies_depth t
    exact h _ u hlies

/-! ## What is read back -/

/-- **Trees are read back just if nothing in them lies too deep.** A tree that fits is written in
as many bytes as its length says. Reading these bytes gives the tree, unless something lies more
than 32 levels below the root; then it is a protocol fault. -/
theorem decode_encode_of_lies {t : Tree} (h : t.Fits) :
    (encode t).length = encodedLength t ∧
      ((∀ n u, Lies n u t → n ≤ 32) → decode (encode t) = .ok t) ∧
      ((∃ n u, Lies n u t ∧ 32 < n) →
        (decode (encode t)).mapError (fun f => Stepcast.Fault.protocol (.tree f)) =
          .error (.protocol (.tree .tooDeep))) := by
  refine ⟨length_encode t, fun hall => ?_, fun hdeep => ?_⟩
  · have hdepth : depth t ≤ maxDepth := depth_le_iff.mpr hall
    rw [decode_encode h, if_pos hdepth]
  · obtain ⟨n, u, hlies, hn⟩ := hdeep
    have hdepth : ¬ depth t ≤ maxDepth := by
      intro hle
      exact absurd (Nat.le_trans hlies.le_depth hle) (Nat.not_le.mpr hn)
    rw [decode_encode h, if_neg hdepth]
    rfl

/-! ### On both sides of the limit -/

/-- An empty tree with `n` lists around it. -/
def wrapped : Nat → Tree
  | 0 => null
  | n + 1 => list [wrapped n]

def wrappedSample (n : Nat) : Tree := map [("a", wrapped n), ("b", text "é")]

theorem lies_wrapped (n : Nat) : Lies n null (wrapped n) := by
  induction n with
  | zero => exact .root null
  | succ n ih => exact .item List.mem_cons_self ih

theorem depth_wrappedSample (n : Nat) : depth (wrappedSample n) = n + 1 := by
  have hwrapped : depth (wrapped n) = n := by
    induction n with
    | zero => rfl
    | succ n ih => rw [wrapped, depth, itemsDepth, itemsDepth, ih, Nat.max_zero]
  simp [wrappedSample, depth, entriesDepth, hwrapped]

theorem wrappedSample_fits (n : Nat) : (wrappedSample n).Fits := by
  have hwrapped : (wrapped n).Fits := by
    induction n with
    | zero => exact .null
    | succ n ih => exact .list (by simp) (fun t ht => List.mem_singleton.mp ht ▸ ih)
  refine .map (by simp) (List.pairwise_pair.mpr (by decide : "a" < "b")) ?_ ?_
  · intro e he
    simp only [List.mem_cons, List.not_mem_nil, or_false] at he
    rcases he with rfl | rfl
    · exact (by decide : (utf8 "a").length < 2 ^ 16)
    · exact (by decide : (utf8 "b").length < 2 ^ 16)
  · intro e he
    simp only [List.mem_cons, List.not_mem_nil, or_false] at he
    rcases he with rfl | rfl
    · exact hwrapped
    · exact .text (by decide)

theorem decode_encode_of_lies_sample :
    (wrappedSample 31).Fits ∧ (∀ n u, Lies n u (wrappedSample 31) → n ≤ 32) ∧
      decode (encode (wrappedSample 31)) = .ok (wrappedSample 31) ∧
      (wrappedSample 32).Fits ∧ (∃ n u, Lies n u (wrappedSample 32) ∧ 32 < n) ∧
      (decode (encode (wrappedSample 32))).mapError (fun f => Stepcast.Fault.protocol (.tree f)) =
        .error (.protocol (.tree .tooDeep)) := by
  have hwithin : ∀ n u, Lies n u (wrappedSample 31) → n ≤ 32 :=
    depth_le_iff.mp (Nat.le_of_eq (depth_wrappedSample 31))
  have hbeyond : ∃ n u, Lies n u (wrappedSample 32) ∧ 32 < n :=
    ⟨33, null, .value List.mem_cons_self (lies_wrapped 32), by decide⟩
  exact ⟨wrappedSample_fits 31, hwithin,
    (decode_encode_of_lies (wrappedSample_fits 31)).2.1 hwithin, wrappedSample_fits 32, hbeyond,
    (decode_encode_of_lies (wrappedSample_fits 32)).2.2 hbeyond⟩

end Tree

end Stepcast
