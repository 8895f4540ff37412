import Mathlib.Data.List.Induction
import Stepcast.Message.Draft
import Stepcast.Proofs.Wire.Records

/-!
# What a draft holds

A draft is filled by calls: blocks are put, the blocks of a step are stamped with a time, and
attributes are attached. `Draft.putsAt` reads off a list of calls what was put at a step and which
calls came after it, and `Draft.Tracks` says that the draft records exactly that: one record for
each put, in order, whose bytes lie where the record says.

Main statements: `Tracks.call`, `tracks_calls`.
-/

namespace Stepcast

namespace Draft

/-! ## Calls -/

/-- A call on an open draft. -/
inductive Call where
  | put (v : Variable) (step : UInt64) (payload : Bytes)
  | stamp (step : UInt64) (now : Int64)
  | attach (attributes : Attributes)

/-- The draft after a call, unless the call fails. -/
def call (operators : Operators) (d : Draft) : Call → Except Fault Draft
  | .put v step payload =>
    match d.put operators v step payload with
    | (d, .ok ()) => .ok d
    | (_, .error f) => .error f
  | .stamp step now => .ok (d.attachTimestamp step now)
  | .attach attributes => .ok (d.attachAttributes attributes)

/-- The draft after calls of which none fails. -/
def calls (operators : Operators) (d : Draft) (cs : List Call) : Except Fault Draft :=
  cs.foldlM (call operators) d

/-- A block that was put, and the calls that came after it. -/
structure Put where
  v : Variable
  payload : Bytes
  later : List Call

/-- The blocks put at a step, in order. -/
def putsAt (step : UInt64) : List Call → List Put
  | [] => []
  | .put v s payload :: rest =>
    if s = step then ⟨v, payload, rest⟩ :: putsAt step rest else putsAt step rest
  | _ :: rest => putsAt step rest

/-- The step at which a call puts a block. -/
def Call.putStep? : Call → Option UInt64
  | .put _ step _ => some step
  | _ => none

/-- The steps at which blocks were put. -/
def putSteps (cs : List Call) : List UInt64 := cs.filterMap Call.putStep?

/-- The time with which a call stamps the blocks of a step. -/
def Call.time? (step : UInt64) : Call → Option Int64
  | .stamp s now => if s = step then some now else none
  | _ => none

/-- The time with which the last of the calls stamps the blocks of a step. -/
def lastTime (step : UInt64) (cs : List Call) : Option Int64 :=
  (cs.filterMap (Call.time? step)).getLast?

/-- The attributes that a call attaches. -/
def Call.attributes? : Call → Option Attributes
  | .attach attributes => some attributes
  | _ => none

/-- The attributes that the last of the calls attaches. -/
def lastAttributes (cs : List Call) : Option Attributes :=
  (cs.filterMap Call.attributes?).getLast?

/-! ## Calls in order -/

/-- The put as it is seen one call later. -/
def Put.followedBy (p : Put) (c : Call) : Put := { p with later := p.later ++ [c] }

theorem putsAt_append_singleton (step : UInt64) (cs : List Call) (c : Call) :
    putsAt step (cs ++ [c]) = (putsAt step cs).map (·.followedBy c) ++ putsAt step [c] := by
  induction cs with
  | nil => rfl
  | cons c' rest ih =>
    cases c' with
    | put v s payload =>
      rw [List.cons_append, putsAt, putsAt, ih]
      split <;> rfl
    | stamp s now => exact ih
    | attach attributes => exact ih

theorem putsAt_eq_nil_iff {step : UInt64} {cs : List Call} :
    putsAt step cs = [] ↔ step ∉ putSteps cs := by
  induction cs with
  | nil => simp [putsAt, putSteps]
  | cons c rest ih =>
    cases c with
    | put v s payload =>
      rw [putsAt]
      split
      · rename_i hs
        simp [putSteps, Call.putStep?, hs]
      · rename_i hs
        rw [ih]
        simp [putSteps, Call.putStep?, Ne.symm hs]
    | stamp s now => exact ih
    | attach attributes => exact ih

theorem length_putsAt_le (step : UInt64) (cs : List Call) :
    (putsAt step cs).length ≤ cs.length := by
  induction cs with
  | nil => exact Nat.le_refl 0
  | cons c rest ih =>
    cases c with
    | put v s payload =>
      rw [putsAt]
      split
      · exact Nat.succ_le_succ ih
      · exact Nat.le_succ_of_le ih
    | stamp s now => exact Nat.le_succ_of_le ih
    | attach attributes => exact Nat.le_succ_of_le ih

theorem lastTime_append_singleton (step : UInt64) (cs : List Call) (c : Call) :
    lastTime step (cs ++ [c]) = (c.time? step).or (lastTime step cs) := by
  cases h : c.time? step <;> simp [lastTime, h]

theorem isSome_lastTime_iff {step : UInt64} {cs : List Call} :
    (lastTime step cs).isSome ↔ ∃ now, Call.stamp step now ∈ cs := by
  have hmem : ∀ c now, Call.time? step c = some now ↔ c = .stamp step now := by
    intro c now
    cases c <;> simp [Call.time?]
  rw [lastTime, List.getLast?_isSome, ne_eq, List.eq_nil_iff_forall_not_mem, not_forall]
  simp only [List.mem_filterMap, hmem, exists_eq_right, not_not]

theorem lastAttributes_append_singleton (cs : List Call) (c : Call) :
    lastAttributes (cs ++ [c]) = c.attributes?.or (lastAttributes cs) := by
  cases h : c.attributes? <;> simp [lastAttributes, h]

/-! ## What the draft records -/

/-- The records of a step. -/
def recordsAt (d : Draft) (step : UInt64) : List Record := (d.records.at? step).getD []

/-- The record tells of the put, and its bytes lie where it says in the payload. -/
structure Records (operators : Operators) (payload : Bytes) (step : UInt64) (p : Put)
    (r : Record) : Prop where
  eq : r = { recordOf p.v r.size r.position with timestamp := lastTime step p.later }
  header_le : headerSize ≤ r.position
  le_end : r.position + r.size ≤ headerSize + payload.length
  stored : operators.store p.v p.payload = .ok (slice payload (r.position - headerSize) r.size)
  payload_length : p.payload.length = p.v.payloadSize

/-- The draft is open and holds what the calls put and attached. -/
structure Tracks (operators : Operators) (cs : List Call) (d : Draft) : Prop where
  isOpen : d.payload.isSome
  sorted : Table.Sorted d.records
  nonempty : ∀ e ∈ d.records, e.2 ≠ []
  records : ∀ step, List.Forall₂ (Records operators (d.payload.getD []) step) (putsAt step cs)
    (d.recordsAt step)
  attributes : d.attributes = lastAttributes cs

theorem tracks_open (operators : Operators) (d : Draft) : Tracks operators [] d.open where
  isOpen := rfl
  sorted := List.Pairwise.nil
  nonempty := fun _ he => absurd he List.not_mem_nil
  records := fun _ => .nil
  attributes := rfl

theorem Records.followedBy {operators : Operators} {payload : Bytes} {step : UInt64} {p : Put}
    {r : Record} (h : Records operators payload step p r) {c : Call} (hc : c.time? step = none)
    (more : Bytes) : Records operators (payload ++ more) step (p.followedBy c) r where
  eq := by
    rw [Put.followedBy, lastTime_append_singleton, hc, Option.none_or]
    exact h.eq
  header_le := h.header_le
  le_end := by
    have := h.le_end
    rw [List.length_append]
    omega
  stored := by
    have hheader := h.header_le
    have hend := h.le_end
    rw [slice_append_left more (by omega)]
    exact h.stored
  payload_length := h.payload_length

theorem ensureOpen_of_isSome {d : Draft} (h : d.payload.isSome) : d.ensureOpen = d := if_pos h

theorem ensureOpen_of_none {d : Draft} (h : d.payload = none) : d.ensureOpen = d.open :=
  if_neg (by simp [h])

theorem isSome_ensureOpen (d : Draft) : d.ensureOpen.payload.isSome := by
  unfold ensureOpen
  split
  · assumption
  · rfl

theorem rank_ensureOpen (d : Draft) : d.ensureOpen.rank = d.rank := by
  unfold ensureOpen
  split <;> rfl

theorem payload_ensureOpen (d : Draft) : d.ensureOpen.payload.getD [] = d.payload.getD [] := by
  cases hd : d.payload with
  | none =>
    rw [ensureOpen_of_none hd]
    rfl
  | some payload => rw [ensureOpen_of_isSome (by simp [hd]), hd]

theorem put_eq_ok_iff {operators : Operators} {d d' : Draft} {v : Variable} {step : UInt64}
    {payload : Bytes} :
    d.put operators v step payload = (d', .ok ()) ↔ payload.length = v.payloadSize ∧
      ∃ stored, operators.store v payload = .ok stored ∧
        d' = d.ensureOpen.append v step stored := by
  unfold put
  split
  · rename_i hsize
    simp [hsize]
  · rename_i hsize
    cases hstore : operators.store v payload with
    | error f => simp
    | ok stored => simp [not_not.mp hsize, eq_comm]

/-- A put fails for the size of its payload, or for its operator once the draft is open. -/
theorem put_eq_error_iff {operators : Operators} {d d' : Draft} {v : Variable} {step : UInt64}
    {payload : Bytes} {f : Fault} :
    d.put operators v step payload = (d', .error f) ↔
      payload.length ≠ v.payloadSize ∧ d' = d ∧
          f = .argument (.payloadSize v.name payload.length v.payloadSize) ∨
        payload.length = v.payloadSize ∧ d' = d.ensureOpen ∧
          operators.store v payload = .error f := by
  unfold put
  split
  · next hsize => simp [hsize, eq_comm]
  · next hsize =>
    cases hstore : operators.store v payload with
    | ok stored => simp [not_not.mp hsize]
    | error f' => simp [not_not.mp hsize, eq_comm]

theorem recordsAt_append (d : Draft) (v : Variable) (step : UInt64) (stored : Bytes)
    (s : UInt64) : (d.append v step stored).recordsAt s = if s = step then
      d.recordsAt s ++ [recordOf v stored.length (headerSize + (d.payload.getD []).length)]
    else d.recordsAt s := by
  rw [recordsAt, append, Table.at?_put]
  split
  · rename_i hs
    rw [hs]
    rfl
  · rfl

section Stamps

variable (d : Draft) (step : UInt64) (now : Int64)

@[simp] theorem rank_attachTimestamp : (d.attachTimestamp step now).rank = d.rank := by
  unfold attachTimestamp
  split <;> rfl

@[simp] theorem payload_attachTimestamp : (d.attachTimestamp step now).payload = d.payload := by
  unfold attachTimestamp
  split <;> rfl

@[simp] theorem attributes_attachTimestamp :
    (d.attachTimestamp step now).attributes = d.attributes := by
  unfold attachTimestamp
  split <;> rfl

end Stamps

theorem recordsAt_attachTimestamp (d : Draft) (step : UInt64) (now : Int64) (s : UInt64) :
    (d.attachTimestamp step now).recordsAt s = if s = step then
      (d.recordsAt s).map ({ · with timestamp := some now })
    else d.recordsAt s := by
  unfold attachTimestamp
  split
  · rename_i records hat
    rw [recordsAt, Table.at?_put]
    split
    · rename_i hs
      rw [recordsAt, hs, hat]
      rfl
    · rfl
  · rename_i hat
    split
    · rename_i hs
      rw [recordsAt, hs, hat]
      rfl
    · rfl

theorem Tracks.append {operators : Operators} {cs : List Call} {d : Draft}
    (h : Tracks operators cs d) {v : Variable} {step : UInt64} {payload stored : Bytes}
    (hpayload : payload.length = v.payloadSize)
    (hstored : operators.store v payload = .ok stored) :
    Tracks operators (cs ++ [.put v step payload]) (d.append v step stored) where
  isOpen := rfl
  sorted := h.sorted.put step _
  nonempty := by
    intro e he
    rcases Table.mem_put he with rfl | he
    · simp
    · exact h.nonempty e he
  records := by
    intro s
    have hold : List.Forall₂ (Records operators (d.payload.getD [] ++ stored) s)
        ((putsAt s cs).map (·.followedBy (.put v step payload))) (d.recordsAt s) := by
      rw [List.forall₂_map_left_iff]
      exact (h.records s).imp fun p r hr => hr.followedBy rfl stored
    rw [putsAt_append_singleton, recordsAt_append]
    by_cases hs : s = step
    · rw [if_pos hs, putsAt, if_pos hs.symm]
      refine List.rel_append hold (.cons ?_ .nil)
      exact {
        eq := rfl
        header_le := Nat.le_add_right _ _
        le_end := by
          show headerSize + (d.payload.getD []).length + stored.length ≤
            headerSize + (d.payload.getD [] ++ stored).length
          rw [List.length_append, Nat.add_assoc]
        stored := by
          rw [hstored]
          simp [recordOf, slice]
        payload_length := hpayload }
    · rw [if_neg hs, putsAt, if_neg (Ne.symm hs), putsAt, List.append_nil]
      exact hold
  attributes := by
    rw [lastAttributes_append_singleton]
    exact h.attributes

theorem Tracks.attachTimestamp {operators : Operators} {cs : List Call} {d : Draft}
    (h : Tracks operators cs d) (step : UInt64) (now : Int64) :
    Tracks operators (cs ++ [.stamp step now]) (d.attachTimestamp step now) where
  isOpen := by
    rw [payload_attachTimestamp]
    exact h.isOpen
  sorted := by
    unfold Draft.attachTimestamp
    split
    · exact h.sorted.put step _
    · exact h.sorted
  nonempty := by
    unfold Draft.attachTimestamp
    split
    · rename_i records hat
      intro e he
      rcases Table.mem_put he with rfl | he
      · simpa using h.nonempty _ (Table.mem_of_at? hat)
      · exact h.nonempty e he
    · exact h.nonempty
  records := by
    intro s
    rw [putsAt_append_singleton, recordsAt_attachTimestamp, payload_attachTimestamp,
      show putsAt s [.stamp step now] = [] from rfl, List.append_nil, List.forall₂_map_left_iff]
    by_cases hs : s = step
    · rw [if_pos hs, List.forall₂_map_right_iff]
      refine (h.records s).imp fun p r hr => ?_
      have heq := congrArg (fun q : Record => { q with timestamp := some now }) hr.eq
      exact { hr with
        eq := by simpa [Put.followedBy, lastTime_append_singleton, Call.time?, hs] using heq }
    · rw [if_neg hs]
      refine (h.records s).imp fun p r hr => ?_
      have hkeep := hr.followedBy (c := .stamp step now) (by simp [Call.time?, Ne.symm hs]) []
      rwa [List.append_nil] at hkeep
  attributes := by
    rw [lastAttributes_append_singleton, attributes_attachTimestamp]
    exact h.attributes

theorem Tracks.attachAttributes {operators : Operators} {cs : List Call} {d : Draft}
    (h : Tracks operators cs d) (attributes : Attributes) :
    Tracks operators (cs ++ [.attach attributes]) (d.attachAttributes attributes) where
  isOpen := h.isOpen
  sorted := h.sorted
  nonempty := h.nonempty
  records := by
    intro s
    rw [putsAt_append_singleton, show putsAt s [.attach attributes] = [] from rfl,
      List.append_nil, List.forall₂_map_left_iff]
    refine (h.records s).imp fun p r hr => ?_
    have hkeep := hr.followedBy (c := .attach attributes) rfl []
    rwa [List.append_nil] at hkeep
  attributes := by
    rw [lastAttributes_append_singleton]
    rfl

/-- **One call keeps the account.** -/
theorem Tracks.call {operators : Operators} {cs : List Call} {d d' : Draft}
    (h : Tracks operators cs d) {c : Call} (hc : d.call operators c = .ok d') :
    Tracks operators (cs ++ [c]) d' := by
  cases c with
  | put v step payload =>
    rw [Draft.call] at hc
    split at hc
    · rename_i hput
      cases hc
      obtain ⟨hpayload, stored, hstored, rfl⟩ := put_eq_ok_iff.mp hput
      rw [ensureOpen_of_isSome h.isOpen]
      exact h.append hpayload hstored
    · cases hc
  | stamp step now =>
    cases hc
    exact h.attachTimestamp step now
  | attach attributes =>
    cases hc
    exact h.attachAttributes attributes

/-- **A draft holds what was put since it was opened.** -/
theorem tracks_calls {operators : Operators} {d₀ d : Draft} {cs : List Call}
    (h : d₀.open.calls operators cs = .ok d) : Tracks operators cs d := by
  induction cs using List.reverseRecOn generalizing d with
  | nil =>
    cases h
    exact tracks_open operators d₀
  | append_singleton cs c ih =>
    rw [calls, List.foldlM_append] at h
    obtain ⟨d₁, hcs, hc⟩ := bind_eq_ok.mp h
    obtain ⟨d₂, hcall, hrest⟩ := bind_eq_ok.mp hc
    cases hrest
    exact (ih hcs).call hcall

end Draft

end Stepcast
