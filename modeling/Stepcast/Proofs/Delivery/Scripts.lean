import Stepcast.Proofs.Delivery.Batching

/-!
# What can be heard of a writer

Some of the messages of a writer, in their order, are a script: each is the sealed batch of the
steps that it says it holds, the batches come at later and later steps, and nothing comes after the
end record. Whatever is left out, a script stays one.

Main statements: `Script.sublist`, `Keeps.script`, `Keeps.at_batchOf`.
-/

namespace Stepcast

/-- The step is one of those that the message says it holds. -/
def Outgoing.Spans : Outgoing → UInt64 → Prop
  | data _ first last, step => first ≤ step ∧ step ≤ last
  | finish .., _ => False

instance decidableSpans : ∀ (m : Outgoing) (step : UInt64), Decidable (m.Spans step)
  | .data _ first last, step => inferInstanceAs (Decidable (first ≤ step ∧ step ≤ last))
  | .finish .., _ => inferInstanceAs (Decidable False)

/-- The messages are what `batchOf` says, sealed, one after the other, or end records. -/
structure Script (operators : Operators) (rank : UInt32) (batchOf : Outgoing → Batch)
    (ms : List Outgoing) : Prop where
  seals : ∀ m ∈ ms, (∃ final, m = .finish (Frame.endRecord final) final ∧ batchOf m = []) ∨
    m.Seals operators rank (batchOf m)
  ordered : ms.Pairwise (fun m m' => m.isEnd = false ∧ (batchOf m).Before (batchOf m'))

/-- **What is left of a script is a script.** -/
theorem Script.sublist {operators : Operators} {rank : UInt32} {batchOf : Outgoing → Batch}
    {ms ms' : List Outgoing} (h : Script operators rank batchOf ms) (hsub : ms'.Sublist ms) :
    Script operators rank batchOf ms' :=
  ⟨fun m hm => h.seals m (hsub.subset hm), h.ordered.sublist hsub⟩

namespace Writer

namespace Log

/-- The calls of the steps that a message says it holds. -/
def batchOf (l : Log) : Outgoing → Batch
  | .data _ first last => l.batch first.toNat (last.toNat + 1)
  | .finish .. => []

/-- The blocks of all ended steps, in order. -/
def written (l : Log) : List Written := Draft.written (l.batch 0 l.ended.length)

/-- What the steps hold fits into the widths of messages of `size` steps and of step numbers. -/
structure Fits (size : Nat) (l : Log) : Prop where
  blocks : ∀ e ∈ l.ended, e.1.length < 2 ^ 32 ∧ ∀ p ∈ e.1, p.1.Fits
  attributes : ∀ a ∈ l.sent, a.Fits
  sections : min size l.ended.length + 1 < 2 ^ 32
  steps : l.ended.length < 2 ^ 64

section Batch

variable {l l' : Log} {first stop i : Nat} {step : UInt64} {size : Nat}

/-! ## The blocks of a batch -/

/-- The blocks of a step. -/
def blocksOf (l : Log) (i : Nat) : List (Variable × Bytes) := (l.ended[i]?.map Prod.fst).getD []

theorem written_calls (i : Nat) :
    Draft.written (l.calls i) = (l.blocksOf i).map (fun p => ⟨UInt64.ofNat i, p.1, p.2⟩) := by
  rw [calls, blocksOf]
  cases l.ended[i]? with
  | none => rfl
  | some e =>
    obtain ⟨blocks, now⟩ := e
    have hrest : ∀ attributes : Option Attributes,
        Draft.written (attributes.toList.map .attach ++ [.stamp (UInt64.ofNat i) now.millis]) =
          [] := by
      intro attributes
      cases attributes <;> rfl
    simp only [Draft.stepCalls, Draft.written_append, Draft.written_puts, hrest, List.append_nil,
      Option.map_some, Option.getD_some]

theorem written_batch_append {middle : Nat} (h₁ : first ≤ middle) (h₂ : middle ≤ stop) :
    Draft.written (l.batch first stop) =
      Draft.written (l.batch first middle) ++ Draft.written (l.batch middle stop) := by
  rw [← Draft.written_append, batch_append h₁ h₂]

theorem step_of_mem_written {y : Written} (h : y ∈ Draft.written (l.batch first stop)) :
    ∃ i, first ≤ i ∧ i < stop ∧ i < l.ended.length ∧ y.step = UInt64.ofNat i := by
  simp only [batch, Draft.written, List.filterMap_flatMap, List.mem_flatMap] at h
  obtain ⟨i, hi, hy⟩ := h
  have hrange := List.mem_range'_1.mp hi
  have hcalls : y ∈ (l.blocksOf i).map (fun p => ⟨UInt64.ofNat i, p.1, p.2⟩) :=
    written_calls (l := l) i ▸ hy
  obtain ⟨p, hp, rfl⟩ := List.mem_map.mp hcalls
  refine ⟨i, hrange.1, by omega, ?_, rfl⟩
  by_contra hlen
  rw [blocksOf, List.getElem?_eq_none (by omega)] at hp
  cases hp

theorem at_batch_eq_nil (hstep : ∀ i, first ≤ i → i < stop → UInt64.ofNat i ≠ step) :
    Written.at step (Draft.written (l.batch first stop)) = [] := by
  apply Written.at_eq_nil_iff.mpr
  intro y hy
  obtain ⟨i, hfirst, hi, -, heq⟩ := step_of_mem_written hy
  exact heq ▸ hstep i hfirst hi

theorem toNat_ofNat {k : Nat} (hk : k < 2 ^ 64) : (UInt64.ofNat k).toNat = k :=
  UInt64.toNat_ofNat_of_lt' hk

theorem ofNat_ne_ofNat {k : Nat} (hi : i < 2 ^ 64) (hk : k < 2 ^ 64) (hne : k ≠ i) :
    UInt64.ofNat k ≠ UInt64.ofNat i := by
  intro heq
  have hmod := congrArg UInt64.toNat heq
  rw [toNat_ofNat hk, toNat_ofNat hi] at hmod
  exact hne hmod

/-- At one of its steps a batch has the blocks of the step. -/
theorem at_batch (hfirst : first ≤ i) (hi : i < stop) (hstop : stop ≤ 2 ^ 64) :
    Written.at (UInt64.ofNat i) (Draft.written (l.batch first stop)) =
      (l.blocksOf i).map (fun p => ⟨UInt64.ofNat i, p.1, p.2⟩) := by
  have hbefore : Written.at (UInt64.ofNat i) (Draft.written (l.batch first i)) = [] :=
    at_batch_eq_nil fun k _ hk => ofNat_ne_ofNat (by omega) (by omega) (by omega)
  have hafter : Written.at (UInt64.ofNat i) (Draft.written (l.batch (i + 1) stop)) = [] :=
    at_batch_eq_nil fun k hk hlt => ofNat_ne_ofNat (by omega) (by omega) (by omega)
  have hown : Written.at (UInt64.ofNat i) (Draft.written (l.batch i (i + 1))) =
      (l.blocksOf i).map (fun p => ⟨UInt64.ofNat i, p.1, p.2⟩) := by
    rw [batch_succ, written_calls, Written.at, List.filter_eq_self]
    intro y hy
    obtain ⟨p, -, rfl⟩ := List.mem_map.mp hy
    exact decide_eq_true rfl
  rw [written_batch_append hfirst (Nat.le_of_lt hi), written_batch_append (Nat.le_succ i) hi,
    Written.at_append, Written.at_append, hbefore, hafter, hown, List.append_nil, List.nil_append]

/-! ## What fits -/

theorem mem_ended_of_blocksOf {p : Variable × Bytes} (h : p ∈ l.blocksOf i) :
    ∃ e ∈ l.ended, p ∈ e.1 := by
  rw [blocksOf] at h
  cases hi : l.ended[i]? with
  | none => simp [hi] at h
  | some e => exact ⟨e, List.mem_of_getElem? hi, by simpa [hi] using h⟩

theorem Fits.length_blocksOf (h : l.Fits size) (i : Nat) : (l.blocksOf i).length < 2 ^ 32 := by
  rw [blocksOf]
  cases hi : l.ended[i]? with
  | none => simp
  | some e => simpa using (h.blocks e (List.mem_of_getElem? hi)).1

theorem Fits.calls (h : l.Fits size) (hlt : first < stop) (hstop : stop ≤ l.ended.length)
    (hsize : stop - first ≤ size) : Draft.CallsFit (l.batch first stop) := by
  have hsteps := h.steps
  have hattributes := lastAttributes_batch hlt hstop
  refine ⟨?_, ?_, ?_, ?_⟩
  · intro v step payload hput
    obtain ⟨i, -, hput⟩ := List.mem_flatMap.mp hput
    have hwritten : (⟨step, v, payload⟩ : Written) ∈ Draft.written (l.calls i) :=
      List.mem_filterMap.mpr ⟨_, hput, rfl⟩
    rw [written_calls] at hwritten
    obtain ⟨p, hp, heq⟩ := List.mem_map.mp hwritten
    cases heq
    obtain ⟨e, he, hpe⟩ := mem_ended_of_blocksOf hp
    exact (h.blocks e he).2 p hpe
  · intro step
    have hlength := congrArg List.length (Draft.at_written step (l.batch first stop))
    rw [List.length_map] at hlength
    rw [← hlength]
    by_cases hstep : ∃ i, first ≤ i ∧ i < stop ∧ UInt64.ofNat i = step
    · obtain ⟨i, hfirst, hi, rfl⟩ := hstep
      rw [at_batch hfirst hi (by omega), List.length_map]
      exact h.length_blocksOf i
    · rw [at_batch_eq_nil fun i hfirst hi heq => hstep ⟨i, hfirst, hi, heq⟩]
      decide
  · intro attributes hmem
    rw [hattributes] at hmem
    split at hmem
    · exact h.attributes attributes hmem
    · cases hmem
  · -- The sections are those of different steps, and one for the attributes.
    have hsub : (Draft.putSteps (l.batch first stop)).dedup ⊆
        (List.range' first (stop - first)).map UInt64.ofNat := by
      intro step hstep
      obtain ⟨i, hfirst, hi, rfl⟩ := mem_putSteps_batch (List.mem_dedup.mp hstep)
      exact List.mem_map_of_mem (List.mem_range'_1.mpr ⟨hfirst, by omega⟩)
    have hle := ((List.nodup_dedup _).subperm hsub).length_le
    rw [List.length_map, List.length_range'] at hle
    have hone : (Draft.lastAttributes (l.batch first stop)).toList.length ≤ 1 := by
      cases Draft.lastAttributes (l.batch first stop) <;> simp
    have hsections := h.sections
    omega

/-! ## Later logs -/

theorem grows_complete (hsent : l.sent = none → l.ended = []) (now : Moment) :
    l.Grows (l.complete now) := by
  cases hactive : l.active with
  | none =>
    rw [complete, hactive]
    exact .refl l
  | some blocks =>
    refine ⟨⟨_, ended_complete hactive⟩, fun hne => ?_⟩
    obtain ⟨a, ha⟩ := Option.ne_none_iff_exists'.mp (mt hsent hne)
    rw [sent_complete hactive, ha, Option.some_or]

theorem grows_note (hsent : l.sent = none → l.ended = []) (c : Call) : l.Grows (l.note c) := by
  have hsame : ∀ l' : Log, l'.ended = l.ended → l'.sent = l.sent → l.Grows l' :=
    fun l' hended hsent => ⟨⟨[], by rw [hended, List.append_nil]⟩, fun _ => hsent⟩
  have hperform : ∀ now, l.Grows (l.perform.complete now) := fun now =>
    ⟨(grows_complete (l := l.perform) hsent now).ended,
      (grows_complete (l := l.perform) hsent now).sent⟩
  cases c with
  | define name a => exact hsame _ rfl rfl
  | beginStep => exact hsame _ rfl rfl
  | put v payload mode => cases mode <;> exact hsame _ rfl rfl
  | performPuts => exact hsame _ rfl rfl
  | endStep now => exact hperform now
  | close now => exact hperform now

theorem sent_note (hsent : l.sent = none ↔ l.ended = []) (c : Call) :
    (l.note c).sent = none ↔ (l.note c).ended = [] := by
  have hcomplete : ∀ now, (l.perform.complete now).sent = none ↔
      (l.perform.complete now).ended = [] := by
    intro now
    cases hactive : l.perform.active with
    | none =>
      rw [complete, hactive]
      exact hsent
    | some blocks => simp [sent_complete hactive, ended_complete hactive]
  cases c with
  | put v payload mode => cases mode <;> exact hsent
  | endStep now => exact hcomplete now
  | close now => exact hcomplete now
  | _ => exact hsent

/-- What fits later has fitted before. -/
theorem Grows.fits (h : l.Grows l') (hsent : l.ended = [] → l.sent = none) (hfits : l'.Fits size) :
    l.Fits size := by
  obtain ⟨more, hended⟩ := h.ended
  have hblocks := hfits.blocks
  have hsections := hfits.sections
  have hsteps := hfits.steps
  rw [hended, List.length_append] at hsections hsteps
  rw [hended] at hblocks
  refine ⟨fun e he => hblocks e (List.mem_append_left _ he), fun a ha => ?_, by omega, by omega⟩
  have hne : l.ended ≠ [] := by
    intro hnil
    rw [hsent hnil] at ha
    cases ha
  exact hfits.attributes a (h.sent hne ▸ ha)

end Batch

end Log

section Keeps

variable {operators : Operators} {rank : UInt32} {size : Nat} {l l' : Log} {w : Writer}
  {ms : List Outgoing} {m : Outgoing}

/-! ## The messages of a writer -/

theorem Keeps.sent_iff (h : Keeps operators rank size l w ms) : l.sent = none ↔ l.ended = [] := by
  rcases h with ⟨hfollows, -⟩ | hfinished
  · exact hfollows.sent_iff
  · exact hfinished.sent_iff

/-- The message holds the ended steps from `first` on, those before `stop`. -/
structure Holds (operators : Operators) (rank : UInt32) (size : Nat) (l : Log) (m : Outgoing)
    (first stop : Nat) : Prop where
  packed : Packed operators rank l first stop m
  lt : first < stop
  le_ended : stop ≤ l.ended.length
  le_size : stop - first ≤ size

/-- **The messages are groups of ended steps**, and the end record may come after them. -/
theorem Keeps.holds (h : Keeps operators rank size l w ms) : ∃ data ends, ms = data ++ ends ∧
    (ends = [] ∨ ∃ final, ends = [.finish (Frame.endRecord final) final]) ∧
    ∀ j m, data[j]? = some m →
      Holds operators rank size l m (j * size) (min ((j + 1) * size) l.ended.length) := by
  have hgroup : ∀ j m, 0 < size → j * size < l.ended.length →
      Packed operators rank l (j * size) (min ((j + 1) * size) l.ended.length) m →
      Holds operators rank size l m (j * size) (min ((j + 1) * size) l.ended.length) := by
    intro j m hpos hlt hpacked
    rw [Nat.succ_mul] at hpacked ⊢
    exact ⟨hpacked, by omega, Nat.min_le_right _ _, by omega⟩
  rcases h with ⟨hfollows, hroom⟩ | hfinished
  · refine ⟨ms, [], (List.append_nil _).symm, .inl rfl, fun j m hj => ?_⟩
    have hle := Nat.mul_le_mul_right size (List.getElem?_eq_some_iff.mp hj).1
    have hspan := hfollows.span
    rw [Nat.succ_mul] at hle
    exact hgroup j m (by omega) (by omega) (hfollows.packed_min hj)
  · obtain ⟨data, rfl, hlength, hpacked⟩ := hfinished.messages
    refine ⟨data, _, rfl, .inr ⟨_, rfl⟩, fun j m hj => ?_⟩
    have hlt := (List.getElem?_eq_some_iff.mp hj).1
    rw [hlength] at hlt
    have hpos : 0 < size := by
      by_contra hzero
      simp [Nat.eq_zero_of_not_pos hzero] at hlt
    have hle := (Nat.le_div_iff_mul_le hpos).mp (Nat.succ_le_of_lt hlt)
    rw [Nat.succ_mul] at hle
    exact hgroup j m hpos (by omega) (hpacked j m hj)

section Holds

variable {first stop : Nat} {step : UInt64}

theorem Holds.isEnd_eq (h : Holds operators rank size l m first stop) : m.isEnd = false := by
  obtain ⟨d₀, d, -, -, rfl⟩ := h.packed
  rfl

theorem Holds.batchOf_eq (h : Holds operators rank size l m first stop)
    (hsteps : l.ended.length < 2 ^ 64) : l.batchOf m = l.batch first stop := by
  obtain ⟨d₀, d, -, -, rfl⟩ := h.packed
  have hlt := h.lt
  have hle := h.le_ended
  rw [Log.batchOf, Log.toNat_ofNat (by omega), Log.toNat_ofNat (by omega),
    Nat.sub_add_cancel (by omega)]

theorem Holds.seals (h : Holds operators rank size l m first stop) (hfits : l.Fits size)
    (hlength : m.bytes.length < 2 ^ 64) : m.Seals operators rank (l.batch first stop) := by
  obtain ⟨d₀, d, hrank, hcalls, rfl⟩ := h.packed
  exact .mk _ _ hrank hcalls (hfits.calls h.lt h.le_ended h.le_size) hlength

/-- The message says which steps it holds. -/
theorem Holds.spans_iff (h : Holds operators rank size l m first stop)
    (hsteps : l.ended.length < 2 ^ 64) :
    m.Spans step ↔ ∃ i, first ≤ i ∧ i < stop ∧ UInt64.ofNat i = step := by
  obtain ⟨d₀, d, -, -, rfl⟩ := h.packed
  have hlt := h.lt
  have hle := h.le_ended
  rw [Outgoing.Spans, UInt64.le_iff_toNat_le, UInt64.le_iff_toNat_le,
    Log.toNat_ofNat (by omega), Log.toNat_ofNat (by omega)]
  constructor
  · intro hspans
    exact ⟨step.toNat, hspans.1, by omega, UInt64.ofNat_toNat⟩
  · intro hx
    obtain ⟨i, hfirst, hi, rfl⟩ := hx
    rw [Log.toNat_ofNat (by omega)]
    omega

/-- **A message has what was written at its steps**, and nothing else. -/
theorem Holds.at_written (h : Holds operators rank size l m first stop)
    (hsteps : l.ended.length < 2 ^ 64) : Written.at step (Draft.written (l.batchOf m)) =
      if m.Spans step then Written.at step l.written else [] := by
  rw [h.batchOf_eq hsteps]
  have hle := h.le_ended
  split
  · rename_i hspans
    obtain ⟨i, hfirst, hi, rfl⟩ := (h.spans_iff hsteps).mp hspans
    rw [Log.at_batch hfirst hi (by omega), Log.written,
      Log.at_batch (Nat.zero_le i) (by omega) (by omega)]
  · rename_i hspans
    exact Log.at_batch_eq_nil fun i hfirst hi heq =>
      hspans ((h.spans_iff hsteps).mpr ⟨i, hfirst, hi, heq⟩)

theorem Holds.before {m' : Outgoing} {first' stop' : Nat}
    (h : Holds operators rank size l m first stop)
    (h' : Holds operators rank size l m' first' stop') (hle : stop ≤ first')
    (hsteps : l.ended.length < 2 ^ 64) : (l.batchOf m).Before (l.batchOf m') := by
  intro x hx y hy
  rw [h.batchOf_eq hsteps] at hx
  rw [h'.batchOf_eq hsteps] at hy
  obtain ⟨i, -, hi, hi', hxstep⟩ := Log.step_of_mem_written hx
  obtain ⟨k, hk, -, hk', hystep⟩ := Log.step_of_mem_written hy
  rw [hxstep, hystep, UInt64.lt_iff_toNat_lt, Log.toNat_ofNat (by omega),
    Log.toNat_ofNat (by omega)]
  omega

theorem Holds.batchOf_grows (h : Holds operators rank size l m first stop)
    (hsteps : l.ended.length < 2 ^ 64) (hgrows : l.Grows l') : l'.batchOf m = l.batchOf m := by
  rw [h.batchOf_eq hsteps, ← hgrows.batch h.le_ended]
  obtain ⟨d₀, d, -, -, rfl⟩ := h.packed
  have hlt := h.lt
  have hle := h.le_ended
  rw [Log.batchOf, Log.toNat_ofNat (by omega), Log.toNat_ofNat (by omega),
    Nat.sub_add_cancel (by omega)]

end Holds

theorem Keeps.cases_of_mem (h : Keeps operators rank size l w ms) (hm : m ∈ ms) :
    (∃ final, m = .finish (Frame.endRecord final) final) ∨
      ∃ first stop, Holds operators rank size l m first stop := by
  obtain ⟨data, ends, rfl, hends, hholds⟩ := h.holds
  rcases List.mem_append.mp hm with hm | hm
  · obtain ⟨j, hj⟩ := List.mem_iff_getElem?.mp hm
    exact .inr ⟨_, _, hholds j m hj⟩
  · rcases hends with rfl | ⟨final, rfl⟩
    · cases hm
    · exact .inl ⟨final, List.mem_singleton.mp hm⟩

/-- **The messages of a writer are a script.** -/
theorem Keeps.script (h : Keeps operators rank size l w ms) (hfits : l.Fits size)
    (hlength : ∀ m ∈ ms, m.bytes.length < 2 ^ 64) : Script operators rank l.batchOf ms where
  seals := by
    intro m hm
    rcases h.cases_of_mem hm with ⟨final, rfl⟩ | ⟨first, stop, hholds⟩
    · exact .inl ⟨final, rfl, rfl⟩
    · rw [hholds.batchOf_eq hfits.steps]
      exact .inr (hholds.seals hfits (hlength m hm))
  ordered := by
    obtain ⟨data, ends, rfl, hends, hholds⟩ := h.holds
    have hdata : ∀ m ∈ data, m.isEnd = false := by
      intro m hm
      obtain ⟨j, hj⟩ := List.mem_iff_getElem?.mp hm
      exact (hholds j m hj).isEnd_eq
    refine List.pairwise_append.mpr ⟨?_, ?_, ?_⟩
    · refine List.pairwise_iff_getElem.mpr fun i j hi hj hlt => ?_
      have hfirst := hholds i _ (List.getElem?_eq_getElem hi)
      have hsecond := hholds j _ (List.getElem?_eq_getElem hj)
      refine ⟨hfirst.isEnd_eq, hfirst.before hsecond ?_ hfits.steps⟩
      have hle : (i + 1) * size ≤ j * size := Nat.mul_le_mul_right _ hlt
      omega
    · rcases hends with rfl | ⟨final, rfl⟩
      · exact .nil
      · exact List.pairwise_singleton _ _
    · intro m hm m' hm'
      refine ⟨hdata m hm, fun x _ y hy => ?_⟩
      rcases hends with rfl | ⟨final, rfl⟩
      · cases hm'
      · rw [List.mem_singleton.mp hm'] at hy
        cases hy

theorem Keeps.at_batchOf (h : Keeps operators rank size l w ms) (hsteps : l.ended.length < 2 ^ 64)
    (hm : m ∈ ms) (step : UInt64) : Written.at step (Draft.written (l.batchOf m)) =
      if m.Spans step then Written.at step l.written else [] := by
  rcases h.cases_of_mem hm with ⟨final, rfl⟩ | ⟨first, stop, hholds⟩
  · rfl
  · exact hholds.at_written hsteps

theorem Keeps.batchOf_grows (h : Keeps operators rank size l w ms)
    (hsteps : l.ended.length < 2 ^ 64) (hgrows : l.Grows l') (hm : m ∈ ms) :
    l'.batchOf m = l.batchOf m := by
  rcases h.cases_of_mem hm with ⟨final, rfl⟩ | ⟨first, stop, hholds⟩
  · rfl
  · exact hholds.batchOf_grows hsteps hgrows

end Keeps

end Writer

end Stepcast
