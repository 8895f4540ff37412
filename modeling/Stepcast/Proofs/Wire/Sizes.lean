import Stepcast.Proofs.Wire.Drafts

/-!
# Sizes that words can count

The size of a box in bytes is a product of its extents, taken one after the other. Checked
arithmetic stops at the first product that has more than 64 bits, even if an extent of zero comes
later. Otherwise the product wraps around, which does no harm just if the size itself fits: the
payload that a draft then takes has one element for each position.

Main statements: `elementCount?_eq_some_iff`, `byteSize?_eq_some_iff`, `put?_eq_ok_iff`,
`check?_eq_ok_iff`.
-/

namespace Stepcast

/-! ## Checked products -/

/-- From an accumulated product on, the checks see all products with the extents that follow. -/
theorem foldlM_checked_eq_some_iff {count : Dims} {m n : Nat} (hm : m < UInt64.size) :
    count.foldlM (fun n extent =>
      if n * extent.toNat < UInt64.size then some (n * extent.toNat) else none) m = some n ↔
      (∀ k, m * elementCount (count.take k) < UInt64.size) ∧ n = m * elementCount count := by
  induction count generalizing m with
  | nil => simp [elementCount, hm, eq_comm]
  | cons extent rest ih =>
    have htakes : (∀ k, m * elementCount ((extent :: rest).take k) < UInt64.size) ↔
        ∀ k, m * extent.toNat * elementCount (rest.take k) < UInt64.size := by
      constructor
      · intro h k
        have hk := h (k + 1)
        rwa [List.take_succ_cons, elementCount, ← Nat.mul_assoc] at hk
      · intro h k
        cases k with
        | zero => rwa [List.take_zero, elementCount, Nat.mul_one]
        | succ k =>
          rw [List.take_succ_cons, elementCount, ← Nat.mul_assoc]
          exact h k
    rw [List.foldlM_cons, htakes, elementCount, ← Nat.mul_assoc]
    by_cases hfits : m * extent.toNat < UInt64.size
    · rw [if_pos hfits]
      exact ih hfits
    · rw [if_neg hfits]
      refine iff_of_false (fun h => by cases h) fun h => hfits ?_
      have hfirst := h.1 0
      rwa [List.take_zero, elementCount, Nat.mul_one] at hfirst

/-- Checked arithmetic counts the elements just if no product of the first few extents has more than
64 bits. -/
theorem elementCount?_eq_some_iff {count : Dims} {n : Nat} : elementCount? count = some n ↔
    (∀ k, elementCount (count.take k) < UInt64.size) ∧ n = elementCount count := by
  rw [elementCount?, foldlM_checked_eq_some_iff (by decide)]
  simp only [Nat.one_mul]

/-- A later extent of zero does not help. -/
example : elementCount? [2 ^ 40, 2 ^ 40, 0] = none ∧ elementCount [2 ^ 40, 2 ^ 40, 0] = 0 := by
  decide

namespace Box

variable {b : Box} {t : ElementType}

theorem byteSize_eq_iff : b.byteSize t = b.size * t.size ↔ b.size * t.size < UInt64.size :=
  Nat.mod_eq_iff_lt (by decide)

/-- Where checked arithmetic gives a size, it is the exact one, and so is the one that may wrap
around. -/
theorem byteSize?_eq_some_iff {n : Nat} : b.byteSize? t = some n ↔
    (∀ k, elementCount (b.count.take k) < UInt64.size) ∧ b.size * t.size < UInt64.size ∧
      n = b.byteSize t := by
  have hproduct : ∀ m, (if m * t.size < UInt64.size then some (m * t.size) else none) = some n ↔
      m * t.size < UInt64.size ∧ m * t.size = n := by
    intro m
    by_cases hfits : m * t.size < UInt64.size <;> simp [hfits]
  rw [byteSize?, Option.bind_eq_bind, Option.bind_eq_some_iff]
  simp only [elementCount?_eq_some_iff, hproduct]
  constructor
  · intro h
    obtain ⟨m, ⟨htakes, rfl⟩, hfits, rfl⟩ := h
    exact ⟨htakes, hfits, (byteSize_eq_iff.mpr hfits).symm⟩
  · intro h
    obtain ⟨htakes, hfits, rfl⟩ := h
    exact ⟨_, ⟨htakes, rfl⟩, hfits, (byteSize_eq_iff.mpr hfits).symm⟩

end Box

/-! ## Drafts and records -/

section Gates

variable {operators : Operators} {d d' : Draft} {v : Variable} {r : Record} {step : UInt64}
  {payload : Bytes} {stop : Nat}

/-- A payload that a draft takes has one element for each position just if the size of the selection
does not overflow. -/
theorem Draft.length_put_iff (h : d.put operators v step payload = (d', .ok ())) :
    payload.length = v.selection.size * v.type.size ↔
      v.selection.size * v.type.size < UInt64.size := by
  obtain ⟨hlength, -⟩ := put_eq_ok_iff.mp h
  rw [hlength]
  exact Box.byteSize_eq_iff

/-- With checked products a draft takes just the payloads with one element for each position, of
selections whose extents can be multiplied. -/
theorem Draft.put?_eq_ok_iff : d.put? operators v step payload = some (d', .ok ()) ↔
    (∀ k, elementCount (v.selection.count.take k) < UInt64.size) ∧
      v.selection.size * v.type.size < UInt64.size ∧
      payload.length = v.selection.size * v.type.size ∧
      ∃ stored, operators.store v payload = .ok stored ∧
        d' = d.ensureOpen.append v step stored := by
  rw [put?, Option.map_eq_some_iff]
  simp only [Variable.payloadSize?, Box.byteSize?_eq_some_iff, put_eq_ok_iff]
  constructor
  · intro h
    obtain ⟨n, ⟨htakes, hfits, -⟩, hlength, hstored⟩ := h
    exact ⟨htakes, hfits, hlength.trans (Box.byteSize_eq_iff.mpr hfits), hstored⟩
  · intro h
    obtain ⟨htakes, hfits, hlength, hstored⟩ := h
    exact ⟨_, ⟨htakes, hfits, rfl⟩, hlength.trans (Box.byteSize_eq_iff.mpr hfits).symm, hstored⟩

/-- With checked products the reader of a record takes a block without an operator just if it has
one element for each position. -/
theorem Record.check?_eq_ok_iff : r.check? step stop = some (.ok ()) ↔
    headerSize ≤ r.position ∧ r.position + r.size ≤ stop ∧ (r.compression = none →
      (∀ k, elementCount (r.box.count.take k) < UInt64.size) ∧
        r.box.size * r.type.size < UInt64.size ∧ r.size = r.box.size * r.type.size) := by
  have hcheck : r.check step stop = .ok () ↔ _ := check_eq_ok_iff
  unfold check?
  split
  · rename_i hskipped
    simp only [Bool.or_eq_true, decide_eq_true_eq, Option.isSome_iff_ne_none] at hskipped
    rw [Option.some_inj, hcheck]
    refine and_congr_right fun hheader => and_congr_right fun hstop => ?_
    have hoperator : r.compression ≠ none := hskipped.resolve_left (by omega)
    exact iff_of_true (absurd · hoperator) (absurd · hoperator)
  · rename_i hmeasured
    simp only [Bool.or_eq_true, decide_eq_true_eq, not_or, Nat.not_lt,
      Option.not_isSome_iff_eq_none] at hmeasured
    obtain ⟨⟨hheader, hstop⟩, hnone⟩ := hmeasured
    rw [Option.map_eq_some_iff]
    simp only [decodedSize?, Box.byteSize?_eq_some_iff, hcheck, hheader, hstop, hnone, true_and,
      true_imp_iff]
    constructor
    · intro h
      obtain ⟨n, ⟨htakes, hfits, -⟩, hsize⟩ := h
      exact ⟨htakes, hfits, hsize.trans (Box.byteSize_eq_iff.mpr hfits)⟩
    · intro h
      obtain ⟨htakes, hfits, hsize⟩ := h
      exact ⟨_, ⟨htakes, hfits, rfl⟩, hsize.trans (Box.byteSize_eq_iff.mpr hfits).symm⟩

end Gates

end Stepcast
