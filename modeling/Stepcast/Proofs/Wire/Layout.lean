import Stepcast.Proofs.Wire.Histories

/-!
# How a message is laid out

Whatever was done with a draft, its blocks lie behind the header in the order of the puts, one
directly behind the other, and nothing else lies there. A put can fail for its size, for the type of
its values, or for its operator, which is looked up and applied when the message is open already; in
an open message none of this leaves a trace. So the header of a finished message is right although
it is written from lengths: the index begins where the blocks end, and the message ends with it.

Main statements: `act_of_fails`, `Packs.length_eq`, `layout_run`.
-/

namespace Stepcast

namespace Draft

/-! ## Puts that fail -/

section Fails

variable {operators : Operators} {d : Draft} {v : Variable} {step : UInt64} {f : Fault}

/-- A put that fails leaves an open draft as it was. -/
theorem put_of_error (hopen : d.payload.isSome) {payload : Bytes}
    (h : (d.put operators v step payload).2 = .error f) :
    d.put operators v step payload = (d, .error f) := by
  have hput : d.put operators v step payload = ((d.put operators v step payload).1, .error f) :=
    Prod.ext rfl h
  rw [hput]
  rcases put_eq_error_iff.mp hput with ⟨-, hd, -⟩ | ⟨-, hd, -⟩
  · rw [hd]
  · rw [hd, ensureOpen_of_isSome hopen]

theorem putValues_of_error (hopen : d.payload.isSome) {type : ElementType} {values : List Scalar}
    (h : (d.putValues operators v step type values).2 = .error f) :
    d.putValues operators v step type values = (d, .error f) := by
  unfold putValues at h ⊢
  cases htype : v.checkValues type with
  | ok _ =>
    rw [htype] at h
    exact put_of_error hopen h
  | error f' =>
    rw [htype] at h
    exact Prod.ext rfl h

end Fails

namespace History

/-- **A put that fails in an open message has no effect.** -/
theorem act_of_fails {operators : Operators} {h : History} (hopen : h.draft.payload.isSome)
    {a : Act} (hfails : Fails operators h.draft a) : h.act operators a = h := by
  cases hfails with
  | put hput =>
    rw [act, put_of_error hopen hput]
    rfl
  | putValues hput =>
    rw [act, putValues_of_error hopen hput]
    rfl

end History

/-! ## Headers -/

section Packs

variable {operators : Operators} {rank : UInt32} {xs : List Written}
  {attributes : Option Attributes} {message payload : Bytes} {entries : Table String Tree}
  {log : List (UInt64 × Record)}

theorem Packs.payload_length
    (h : Packs operators rank xs attributes message payload entries log) :
    headerSize + payload.length = headerSize + ((ranges log).map (·.2)).sum := h.tiles.stop_eq

theorem Packs.length_eq (h : Packs operators rank xs attributes message payload entries log) :
    message.length =
      headerSize + ((ranges log).map (·.2)).sum + (Tree.map entries).encodedLength := by
  rw [h.message_eq, Frame.length_compose, h.payload_length]

theorem Packs.header (h : Packs operators rank xs attributes message payload entries log)
    (hlength : message.length < 2 ^ 64) : Frame.header message =
      .ok (headerSize + ((ranges log).map (·.2)).sum, (Tree.map entries).encodedLength) := by
  rw [h.message_eq] at hlength ⊢
  rw [Frame.header_compose hlength, h.payload_length]

end Packs

/-! ## After any acts -/

/-- **Blocks lie without a gap, and failed puts leave no trace.** After any acts no message is open
and nothing is recorded, or the blocks put since lie in the order of the puts, each directly behind
the one before it, from the end of the header to the end of the message so far. A put that fails in
an open message changes neither the draft nor any message that is finished later. The header of
every finished message says that the index begins where the blocks end, and the message ends with
the index. -/
theorem layout_run (operators : Operators) (rank : UInt32) (acts : List Act) :
    let h := History.run operators rank acts
    (h.draft.size = 0 ∧ h.draft.records = [] ∨ ∃ log, Laid operators h.calls h.draft log ∧
      h.draft.size = headerSize + ((ranges log).map (·.2)).sum) ∧
    (∀ a, h.draft.payload.isSome → Fails operators h.draft a → h.act operators a = h ∧ ∀ later,
      History.run operators rank (acts ++ a :: later) =
        History.run operators rank (acts ++ later)) ∧
    ∀ message ∈ h.messages, ∃ xs attributes payload entries log,
      Packs operators rank xs attributes message payload entries log ∧
      message.length =
        headerSize + ((ranges log).map (·.2)).sum + (Tree.map entries).encodedLength ∧
      (message.length < 2 ^ 64 → Frame.header message =
        .ok (headerSize + ((ranges log).map (·.2)).sum, (Tree.map entries).encodedLength)) := by
  intro h
  have hsound : h.Sound operators rank := History.sound_run operators rank acts
  refine ⟨?_, fun a hopen hfails => ?_, fun message hmessage => ?_⟩
  · cases hd : h.draft.payload with
    | none => exact .inl ⟨by rw [size, hd, Option.elim_none], (hsound.closed hd).2.1⟩
    | some payload =>
      obtain ⟨-, log, hlaid⟩ := hsound.opened (by simp [hd])
      refine .inr ⟨log, hlaid, ?_⟩
      have hstop := hlaid.tiles.stop_eq
      rw [hd, Option.getD_some] at hstop
      rw [size, hd, Option.elim_some, hstop]
  · have hsame := History.act_of_fails hopen hfails
    refine ⟨hsame, fun later => ?_⟩
    have hcons : History.run operators rank (acts ++ a :: later) =
        later.foldl (History.act operators) (h.act operators a) := by
      rw [History.run, List.foldl_append, List.foldl_cons]
      rfl
    rw [hcons, hsame, History.run, List.foldl_append]
    rfl
  · obtain ⟨xs, attributes, payload, entries, log, hpacks⟩ := hsound.packed message hmessage
    exact ⟨xs, attributes, payload, entries, log, hpacks, hpacks.length_eq, hpacks.header⟩

/-- A block is put into an open message, then one for an operator that is not there, and one more
block. -/
theorem layout_run_sample :
    let acts : List Act := [.open, .put (.scalar "t" .uint8) 3 [5]]
    let bad : Act := .put ((Variable.scalar "z" .uint8).withOperator "none" []) 4 [1]
    let later : List Act := [.put (.local "u" .uint8 [2]) 4 [6, 7], .stamp 4 1000, .finish]
    (History.run [] 7 acts).draft.payload.isSome ∧ Fails [] (History.run [] 7 acts).draft bad ∧
      History.run [] 7 (acts ++ bad :: later) = History.run [] 7 (acts ++ later) :=
  ⟨rfl, .put rfl, ((layout_run [] 7 _).2.1 _ rfl (.put rfl)).2 _⟩

end Draft

end Stepcast
