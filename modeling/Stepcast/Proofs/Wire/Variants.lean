import Stepcast.Proofs.Wire.Refusals

/-!
# Calls with other operators

Two lists of calls may be alike but for the operators of their variables (`Call.plain`). Where each
operator gives back what was put, the same calls succeed in both. The records that come of them are
alike but for how and where the bytes are stored (`Block.Alike`), and the stored bytes of both give
back the payload (`Operators.restore`).

Main statements: `calls_isSized`, `Records.alike`, `Records.restore_eq`.
-/

namespace Stepcast

/-- The variable without its operator. -/
def Variable.plain (v : Variable) : Variable := { v with operator := none }

namespace Operators

/-- The operator of the variable can be applied to the payload, and gives it back. -/
def Restores (operators : Operators) (v : Variable) (payload : Bytes) : Prop :=
  ∀ spec ∈ v.operator, ∃ o stored, operators.find spec.id = .ok o ∧
    o.operate payload v.type v.selection.count spec.params = .ok stored ∧
    o.invert stored payload.length spec.params = .ok payload

theorem Restores.exists_store {operators : Operators} {v : Variable} {payload : Bytes}
    (h : operators.Restores v payload) : ∃ stored, operators.store v payload = .ok stored := by
  unfold store
  cases hoperator : v.operator with
  | none => exact ⟨payload, rfl⟩
  | some spec =>
    obtain ⟨o, stored, hfind, hoperate, -⟩ := h spec hoperator
    refine ⟨stored, ?_⟩
    dsimp only
    rw [hfind, ok_bind, hoperate]
    rfl

/-- The payload of a block, from its stored bytes. -/
def restore (operators : Operators) (r : Record) (stored : Bytes) : Except Fault Bytes :=
  match r.compression with
  | none => .ok stored
  | some id => do
    let o ← operators.find id
    let bytes ← (o.invert stored r.decodedSize r.params).mapError (Fault.operator id)
    if bytes.length ≠ r.decodedSize then
      throw (.protocol (.decodedSize r.name bytes.length r.decodedSize))
    return bytes

theorem Restores.restore_eq {operators : Operators} {v : Variable} {payload stored : Bytes}
    (h : operators.Restores v payload) (hstore : operators.store v payload = .ok stored)
    {r : Record} (hsize : r.decodedSize = payload.length)
    (hcompression : r.compression = v.operator.map (·.id))
    (hparams : r.params = v.operator.elim [] (·.params)) :
    operators.restore r stored = .ok payload := by
  unfold store at hstore
  unfold restore
  rw [hcompression, hparams, hsize]
  cases hoperator : v.operator with
  | none =>
    rw [hoperator] at hstore
    exact hstore.symm
  | some spec =>
    obtain ⟨o, stored', hfind, hoperate, hinvert⟩ := h spec hoperator
    rw [hoperator] at hstore
    dsimp only at hstore
    rw [hfind, ok_bind, hoperate] at hstore
    cases hstore
    simp only [Option.map_some, Option.elim_some, hfind, ok_bind, hinvert]
    exact if_neg (not_not.mpr rfl)

end Operators

namespace Draft

/-! ## Calls -/

namespace Call

/-- The call without operators. -/
def plain : Call → Call
  | .put v step payload => .put v.plain step payload
  | c => c

/-- The payload has the size that the selection of its variable needs. -/
def isSized : Call → Bool
  | .put v _ payload => payload.length = v.payloadSize
  | _ => true

/-- If the call puts a payload of the right size, its operator gives that back. -/
def Restores (operators : Operators) : Call → Prop
  | .put v _ payload => payload.length = v.payloadSize → operators.Restores v payload
  | _ => True

end Call

/-- The draft after a call. A call that fails leaves an open draft as it is. -/
def perform (operators : Operators) (d : Draft) : Call → Draft
  | .put v step payload => (d.put operators v step payload).1
  | .stamp step now => d.attachTimestamp step now
  | .attach attributes => d.attachAttributes attributes

/-- The message of a rank that makes these calls on a new draft, whether they succeed or fail. -/
def message (operators : Operators) (rank : UInt32) (cs : List Call) : Bytes :=
  (cs.foldl (perform operators) ({ rank } : Draft).open).finish.1

/-- The message of the calls can be read: its fields are wide enough for what the successful calls
put, and the operators give back what went through them. -/
structure Transmits (operators : Operators) (rank : UInt32) (cs : List Call) : Prop where
  restores : ∀ c ∈ cs, c.Restores operators
  encodable : CallsEncodable (cs.filter Call.isSized)
  length : (message operators rank cs).length < 2 ^ 64

section Calls

variable {operators : Operators} {d : Draft} {cs cs' : List Call}

theorem call_of_isSized {c : Call} (hopen : d.payload.isSome) (hc : c.Restores operators)
    (hsized : c.isSized = true) : d.call operators c = .ok (d.perform operators c) := by
  cases c with
  | put v step payload =>
    have hlength : payload.length = v.payloadSize := of_decide_eq_true hsized
    obtain ⟨stored, hstore⟩ := (hc hlength).exists_store
    have hput : d.put operators v step payload = (d.append v step stored, .ok ()) :=
      put_eq_ok_iff.mpr ⟨hlength, stored, hstore, by rw [ensureOpen_of_isSome hopen]⟩
    rw [call, perform, hput]
  | stamp step now => rfl
  | attach attributes => rfl

theorem perform_of_not_isSized {c : Call} (hsized : ¬ c.isSized = true) :
    d.perform operators c = d := by
  cases c with
  | put v step payload =>
    have hlength : payload.length ≠ v.payloadSize := fun h => hsized (decide_eq_true h)
    rw [perform, put, if_pos hlength]
  | stamp step now => exact absurd rfl hsized
  | attach attributes => exact absurd rfl hsized

theorem isSome_payload_perform {c : Call} (hopen : d.payload.isSome) :
    (d.perform operators c).payload.isSome := by
  cases c with
  | put v step payload =>
    rw [perform, put]
    split
    · exact hopen
    · dsimp only
      split
      · rfl
      · rwa [ensureOpen_of_isSome hopen]
  | stamp step now =>
    rw [perform, payload_attachTimestamp]
    exact hopen
  | attach attributes => exact hopen

/-- **The calls that succeed** are those with a payload of the right size. -/
theorem calls_isSized (hopen : d.payload.isSome) (h : ∀ c ∈ cs, c.Restores operators) :
    d.calls operators (cs.filter Call.isSized) = .ok (cs.foldl (perform operators) d) := by
  induction cs generalizing d with
  | nil => rfl
  | cons c rest ih =>
    obtain ⟨hc, hrest⟩ := List.forall_mem_cons.mp h
    have hnext := ih (d := d.perform operators c) (isSome_payload_perform hopen) hrest
    rw [List.foldl_cons]
    by_cases hsized : c.isSized = true
    · rw [List.filter_cons_of_pos hsized, calls, List.foldlM_cons,
        call_of_isSized hopen hc hsized]
      exact hnext
    · rw [List.filter_cons_of_neg hsized]
      rw [perform_of_not_isSized hsized] at hnext ⊢
      exact hnext

/-! ## Calls that are alike -/

theorem isSized_plain (c : Call) : c.plain.isSized = c.isSized := by cases c <;> rfl

theorem plain_filter_isSized (h : cs.map Call.plain = cs'.map Call.plain) :
    (cs.filter Call.isSized).map Call.plain = (cs'.filter Call.isSized).map Call.plain := by
  have hfilter : ∀ xs : List Call,
      (xs.filter Call.isSized).map Call.plain = (xs.map Call.plain).filter Call.isSized := by
    intro xs
    rw [List.filter_map]
    exact congrArg (List.map _) (List.filter_congr fun c _ => (isSized_plain c).symm)
  rw [hfilter, hfilter, h]

/-- The put without operators. -/
def Put.plain (p : Put) : Put := ⟨p.v.plain, p.payload, p.later.map Call.plain⟩

theorem putsAt_plain (step : UInt64) (cs : List Call) :
    putsAt step (cs.map Call.plain) = (putsAt step cs).map Put.plain := by
  induction cs with
  | nil => rfl
  | cons c rest ih =>
    cases c with
    | put v s payload =>
      simp only [List.map_cons, Call.plain, putsAt]
      split
      · rw [ih]
        rfl
      · exact ih
    | stamp s now => exact ih
    | attach attributes => exact ih

theorem forall₂_putsAt (h : cs.map Call.plain = cs'.map Call.plain) (step : UInt64) :
    List.Forall₂ (fun p p' : Put => p.plain = p'.plain) (putsAt step cs) (putsAt step cs') := by
  have heq : (putsAt step cs).map Put.plain = (putsAt step cs').map Put.plain := by
    rw [← putsAt_plain, h, putsAt_plain]
  rw [← List.forall₂_eq_eq_eq, List.forall₂_map_left_iff, List.forall₂_map_right_iff] at heq
  exact heq

theorem lastTime_plain (step : UInt64) (cs : List Call) :
    lastTime step (cs.map Call.plain) = lastTime step cs := by
  have htime : Call.time? step ∘ Call.plain = Call.time? step := by
    funext c
    cases c <;> rfl
  rw [lastTime, lastTime, List.filterMap_map, htime]

/-- One of the boxes has another number of starts than of extents. -/
def Unranked (cs : List Call) : Prop :=
  ∃ v step payload, Call.put v step payload ∈ cs ∧ ¬ v.selection.IsRanked

theorem Unranked.of_plain (h : Unranked cs) (hplain : cs.map Call.plain = cs'.map Call.plain) :
    Unranked cs' := by
  obtain ⟨v, step, payload, hput, hbox⟩ := h
  have hmem : Call.put v.plain step payload ∈ cs'.map Call.plain :=
    hplain ▸ List.mem_map_of_mem hput
  obtain ⟨c, hc, heq⟩ := List.mem_map.mp hmem
  cases c with
  | put w s bytes =>
    obtain ⟨hv, rfl, rfl⟩ := Call.put.inj heq
    have hselection : w.plain.selection = v.plain.selection := congrArg Variable.selection hv
    exact ⟨w, s, bytes, hc, fun h => hbox (hselection ▸ h)⟩
  | stamp s now => cases heq
  | attach attributes => cases heq

end Calls

end Draft

/-! ## Blocks that are alike -/

/-- The blocks are equal but for how and where they are stored. -/
def Block.Alike (b b' : Block) : Prop :=
  b' = { b with
    size := b'.size, position := b'.position, compression := b'.compression, params := b'.params }

section Alike

variable {b b' : Block}

theorem Block.Alike.name_eq (h : b.Alike b') : b'.name = b.name := by rw [h]

theorem Block.Alike.type_eq (h : b.Alike b') : b'.type = b.type := by rw [h]

theorem Block.Alike.box_eq (h : b.Alike b') : b'.box = b.box := by rw [h]

theorem Block.Alike.layout_eq (h : b.Alike b') : b'.layout = b.layout := by rw [h]

theorem Block.Alike.step_eq (h : b.Alike b') : b'.step = b.step := by rw [h]

theorem Block.Alike.rank_eq (h : b.Alike b') : b'.rank = b.rank := by rw [h]

end Alike

namespace Draft

section Records

variable {operators : Operators} {bytes bytes' : Bytes} {step : UInt64} {p p' : Put} {r r' : Record}

/-- **What was put is given back**, whatever operator it went through. -/
theorem Records.restore_eq (h : Records operators bytes step p r)
    (hrestores : operators.Restores p.v p.payload) :
    operators.restore r (slice bytes (r.position - headerSize) r.size) = .ok p.payload := by
  have hsize : r.decodedSize = p.payload.length := by
    rw [h.eq, h.payload_length]
    rfl
  exact hrestores.restore_eq h.stored hsize (congrArg Record.compression h.eq)
    (congrArg Record.params h.eq)

/-- **Puts that are alike are recorded alike.** -/
theorem Records.alike (h : Records operators bytes step p r)
    (h' : Records operators bytes' step p' r') (hplain : p.plain = p'.plain) (rank : UInt32)
    (key : Nat) : (r.toBlock step rank key).Alike (r'.toBlock step rank key) := by
  obtain ⟨v, payload, later⟩ := p
  obtain ⟨v', payload', later'⟩ := p'
  obtain ⟨hv, -, hlater⟩ := Put.mk.inj hplain
  have htime : lastTime step later' = lastTime step later := by
    rw [← lastTime_plain step later', ← hlater, lastTime_plain]
  obtain ⟨name, type, shape, selection, operator⟩ := v
  obtain ⟨name', type', shape', selection', operator'⟩ := v'
  cases hv
  have heq := h.eq
  have heq' := h'.eq
  rw [htime] at heq'
  rw [Block.Alike, Record.toBlock, Record.toBlock, heq']
  conv_rhs => rw [heq]
  rfl

end Records

end Draft

end Stepcast
