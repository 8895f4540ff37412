import Stepcast.Proofs.Wire.RoundTrip

/-!
# The index of a batch of steps

A writer gives a draft the calls of one step after the other: the blocks of the step, the attributes
with the first step, and the time at which the step ended. Where the calls before and after those
of a step do not concern it, the finished index has an entry for the step just if it has blocks, and
the entry tells of these blocks in their order.

Main statements: `Tracks.tells`, `Tracks.at?_step`, `Tracks.at?_attributes`.
-/

namespace Stepcast

namespace Draft

/-! ## The calls of a step -/

/-- What a draft is told in a step. -/
def stepCalls (step : UInt64) (blocks : List (Variable × Bytes)) (attributes : Option Attributes)
    (now : Int64) : List Call :=
  blocks.map (fun p => .put p.1 step p.2) ++ (attributes.toList.map .attach ++ [.stamp step now])

/-- None of the calls puts a block at the step or stamps it. -/
def Avoids (step : UInt64) (cs : List Call) : Prop :=
  ∀ c ∈ cs, c.putStep? ≠ some step ∧ c.time? step = none

/-- The record tells of a block that was put in a step that ended at `now`, and its bytes lie where
it says in the payload. -/
structure Tells (operators : Operators) (payload : Bytes) (now : Int64) (p : Variable × Bytes)
    (r : Record) : Prop where
  eq : r = { recordOf p.1 r.size r.position with timestamp := some now }
  header_le : headerSize ≤ r.position
  le_end : r.position + r.size ≤ headerSize + payload.length
  stored : operators.store p.1 p.2 = .ok (slice payload (r.position - headerSize) r.size)

section Steps

variable {step : UInt64} {cs before after : List Call} {blocks : List (Variable × Bytes)}
  {attributes : Option Attributes} {now : Int64}

theorem avoids_stepCalls {s : UInt64} (hs : s ≠ step) :
    Avoids step (stepCalls s blocks attributes now) := by
  intro c hc
  rcases List.mem_append.mp hc with hc | hc
  · obtain ⟨p, -, rfl⟩ := List.mem_map.mp hc
    simp [Call.putStep?, Call.time?, hs]
  · rcases List.mem_append.mp hc with hc | hc
    · obtain ⟨a, -, rfl⟩ := List.mem_map.mp hc
      simp [Call.putStep?, Call.time?]
    · rw [List.mem_singleton.mp hc]
      simp [Call.putStep?, Call.time?, hs]

theorem putsAt_append_of_avoids (h : Avoids step before) :
    putsAt step (before ++ after) = putsAt step after := by
  induction before with
  | nil => rfl
  | cons c rest ih =>
    obtain ⟨hc, hrest⟩ := List.forall_mem_cons.mp h
    cases c with
    | put v s payload =>
      have hs : s ≠ step := fun heq => hc.1 (congrArg some heq)
      rw [List.cons_append, putsAt, if_neg hs, ih hrest]
    | stamp s t => exact ih hrest
    | attach a => exact ih hrest

theorem putsAt_of_avoids (h : Avoids step cs) : putsAt step cs = [] := by
  rw [← List.append_nil cs, putsAt_append_of_avoids h, putsAt]

theorem filterMap_time_of_avoids (h : Avoids step cs) : cs.filterMap (Call.time? step) = [] :=
  List.filterMap_eq_nil_iff.mpr (fun c hc => (h c hc).2)

/-- The last time of a step is the one with which it ended. -/
theorem lastTime_stepCalls (hafter : Avoids step after) :
    lastTime step (stepCalls step blocks attributes now ++ after) = some now := by
  have hputs : (blocks.map (fun p => Call.put p.1 step p.2)).filterMap (Call.time? step) = [] := by
    simp [List.filterMap_eq_nil_iff, Call.time?]
  have hattach : (attributes.toList.map Call.attach).filterMap (Call.time? step) = [] := by
    simp [List.filterMap_eq_nil_iff, Call.time?]
  rw [lastTime, stepCalls, List.filterMap_append, List.filterMap_append, List.filterMap_append,
    hputs, hattach, filterMap_time_of_avoids hafter]
  simp [Call.time?]

theorem lastAttributes_append (cs cs' : List Call) :
    lastAttributes (cs ++ cs') = (lastAttributes cs').or (lastAttributes cs) := by
  rw [lastAttributes, lastAttributes, lastAttributes, List.filterMap_append, List.getLast?_append]

theorem lastAttributes_stepCalls :
    lastAttributes (stepCalls step blocks attributes now) = attributes := by
  have hputs : lastAttributes (blocks.map (fun p => Call.put p.1 step p.2)) = none := by
    have hnone : (blocks.map (fun p => Call.put p.1 step p.2)).filterMap Call.attributes? = [] := by
      simp [List.filterMap_eq_nil_iff, Call.attributes?]
    rw [lastAttributes, hnone]
    rfl
  rw [stepCalls, lastAttributes_append, hputs, Option.or_none]
  cases attributes <;> rfl

theorem mem_putSteps_stepCalls {s : UInt64}
    (h : s ∈ putSteps (stepCalls step blocks attributes now)) : s = step := by
  by_contra hne
  obtain ⟨c, hc, hs⟩ := List.mem_filterMap.mp h
  exact (avoids_stepCalls (Ne.symm hne) c hc).1 hs

/-- The blocks of a step, and what the draft is told of them later. -/
theorem putsAt_stepCalls (hafter : Avoids step after) :
    List.Forall₂ (fun p x => x.v = p.1 ∧ x.payload = p.2 ∧ lastTime step x.later = some now) blocks
      (putsAt step (stepCalls step blocks attributes now ++ after)) := by
  induction blocks with
  | nil =>
    have hnone : putsAt step (stepCalls step [] attributes now ++ after) = [] := by
      have hattach : Avoids step (attributes.toList.map .attach) := by
        intro c hc
        obtain ⟨a, -, rfl⟩ := List.mem_map.mp hc
        simp [Call.putStep?, Call.time?]
      rw [stepCalls, List.map_nil, List.nil_append, List.append_assoc,
        putsAt_append_of_avoids hattach]
      show putsAt step after = []
      exact putsAt_of_avoids hafter
    rw [hnone]
    exact .nil
  | cons p rest ih =>
    have hputs : putsAt step (stepCalls step (p :: rest) attributes now ++ after) =
        ⟨p.1, p.2, stepCalls step rest attributes now ++ after⟩ ::
          putsAt step (stepCalls step rest attributes now ++ after) := by
      rw [stepCalls, List.map_cons, List.cons_append, List.cons_append, putsAt, if_pos rfl]
      rfl
    rw [hputs]
    exact .cons ⟨rfl, rfl, lastTime_stepCalls hafter⟩ ih

end Steps

/-! ## The entries of the index -/

section Entries

variable {operators : Operators} {cs before after : List Call} {d : Draft}

/-- **The records of a step tell of its blocks**, in their order. -/
theorem Tracks.tells {step : UInt64} {blocks : List (Variable × Bytes)}
    {attributes : Option Attributes} {now : Int64}
    (h : Tracks operators (before ++ (stepCalls step blocks attributes now ++ after)) d)
    (hbefore : Avoids step before) (hafter : Avoids step after) :
    List.Forall₂ (Tells operators (d.payload.getD []) now) blocks (d.recordsAt step) := by
  have hrecords := h.records step
  rw [putsAt_append_of_avoids hbefore] at hrecords
  refine forall₂_comp (putsAt_stepCalls hafter) hrecords (fun p x r hx hr => ?_)
  obtain ⟨hv, hpayload, htime⟩ := hx
  exact {
    eq := by rw [← hv, ← htime]; exact hr.eq
    header_le := hr.header_le
    le_end := hr.le_end
    stored := by rw [← hv, ← hpayload]; exact hr.stored }

theorem Tracks.at?_step (h : Tracks operators cs d) (step : UInt64) :
    (Table.ofEntries d.sections).at? (toString step) =
      if d.recordsAt step = [] then none else some (rankMap d.rank (d.recordsAt step)) := by
  have hsections := at?_stepSections h.sorted step
  rw [stepSections, Table.at?_filter (fun key => key ≠ attributesKey),
    if_pos (decide_eq_true (stepKey_ne_attributesKey step))] at hsections
  rw [hsections, recordsAt]
  cases hat : d.records.at? step with
  | none => simp
  | some records =>
    have hne : records ≠ [] := h.nonempty _ (Table.mem_of_at? hat)
    simp [hne]

theorem Tracks.at?_attributes (h : Tracks operators cs d) :
    (Table.ofEntries d.sections).at? attributesKey = (lastAttributes cs).map Attributes.toTree := by
  have hsteps : Table.at? (d.records.map (fun e => (toString e.1, rankMap d.rank e.2)))
      attributesKey = none := by
    rw [Table.at?_eq_none_iff]
    intro hmem
    obtain ⟨e, he, heq⟩ := List.mem_map.mp hmem
    obtain ⟨e', -, rfl⟩ := List.mem_map.mp he
    exact stepKey_ne_attributesKey e'.1 heq
  rw [Table.at?_ofEntries (nodup_keys_sections h.sorted), sections, Table.at?_append, hsteps,
    Option.or_none, h.attributes]
  cases lastAttributes cs with
  | none => rfl
  | some a => exact if_pos rfl

theorem Tracks.mem_keys (h : Tracks operators cs d) {key : String}
    (hkey : key ∈ Table.keys (Table.ofEntries d.sections)) :
    key = attributesKey ∨ ∃ step ∈ putSteps cs, key = toString step := by
  obtain ⟨e, he, rfl⟩ := List.mem_map.mp hkey
  rcases List.mem_append.mp (Table.mem_of_mem_ofEntries he) with he | he
  · obtain ⟨a, -, rfl⟩ := List.mem_map.mp he
    exact .inl rfl
  · obtain ⟨e', he', rfl⟩ := List.mem_map.mp he
    exact .inr ⟨e'.1, (mem_keys_records_iff h).mp (List.mem_map_of_mem he'), rfl⟩

end Entries

end Draft

end Stepcast
