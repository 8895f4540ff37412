import Stepcast.Proofs.Delivery.Writing
import Stepcast.Proofs.Wire.Batches

/-!
# Runs of a writer

A run gives a writer calls of all kinds, some of which it refuses. A refused call leaves the writer
as it was, unless a block failed to be serialized when its turn came.

The log of a run says what the accepted calls amount to, step by step and without regard to drafts
and messages: which blocks belong to each ended step, in which order, and which attributes were set
when the first step ended.

Main definitions: `run`, `Log.of`. Main statement: `act_eq_error`.
-/

namespace Stepcast

/-! ## Faults -/

/-- The operation came at a time when it is not allowed. -/
def Fault.isUntimely : Fault → Bool
  | .closed _ | .argument (.outsideStep ..) | .argument (.stepActive ..) => true
  | _ => false

theorem Operators.isUntimely_of_store {operators : Operators} {v : Variable} {payload : Bytes}
    {f : Fault} (h : operators.store v payload = .error f) : f.isUntimely = false := by
  unfold Operators.store at h
  cases hoperator : v.operator with
  | none =>
    rw [hoperator] at h
    cases h
  | some spec =>
    rw [hoperator] at h
    unfold Operators.find at h
    cases hfind : operators.at? spec.id with
    | none =>
      simp only [hfind, error_bind] at h
      cases h
      rfl
    | some o =>
      simp only [hfind, ok_bind] at h
      cases hoperate : o.operate payload v.type v.selection.count spec.params with
      | error reason =>
        rw [hoperate] at h
        cases h
        rfl
      | ok stored =>
        rw [hoperate] at h
        cases h

/-- A block that fails to be serialized fails for a reason of its own, and leaves an open draft as
it was. -/
theorem Draft.put_eq_error {operators : Operators} {d d' : Draft} {v : Variable} {step : UInt64}
    {payload : Bytes} {f : Fault} (hopen : d.payload.isSome)
    (h : d.put operators v step payload = (d', .error f)) : d' = d ∧ f.isUntimely = false := by
  rcases Draft.put_eq_error_iff.mp h with ⟨-, rfl, rfl⟩ | ⟨-, rfl, hstore⟩
  · exact ⟨rfl, rfl⟩
  · exact ⟨Draft.ensureOpen_of_isSome hopen, Operators.isUntimely_of_store hstore⟩

namespace Writer

/-! ## Calls -/

section Calls

variable {w w' : Writer} {f : Fault} {ms : List Outgoing}

theorem change_eq_ok {result : Except Fault Writer} :
    (match result with
      | .ok w₁ => (w₁, .ok [])
      | .error f => (w, .error f)) = (w', (.ok ms : Except Fault (List Outgoing))) ↔
      result = .ok w' ∧ ms = [] := by
  cases result with
  | error f => simp
  | ok w₁ => simp [eq_comm]

theorem change_eq_error {result : Except Fault Writer} :
    (match result with
      | .ok w₁ => (w₁, .ok [])
      | .error f => (w, .error f)) = (w', (.error f : Except Fault (List Outgoing))) ↔
      result = .error f ∧ w' = w := by
  cases result with
  | error f' => simp [eq_comm, and_comm]
  | ok w₁ => simp

theorem update_eq_ok {p : Writer × Except Fault Unit} :
    (p.1, p.2.map (fun _ => [])) = (w', (.ok ms : Except Fault (List Outgoing))) ↔
      p = (w', .ok ()) ∧ ms = [] := by
  obtain ⟨w₁, result⟩ := p
  cases result with
  | error f => simp [Except.map]
  | ok u => simp [Except.map, eq_comm]

theorem update_eq_error {p : Writer × Except Fault Unit} :
    (p.1, p.2.map (fun _ => [])) = (w', (.error f : Except Fault (List Outgoing))) ↔
      p = (w', .error f) := by
  obtain ⟨w₁, result⟩ := p
  cases result with
  | error f' => simp [Except.map]
  | ok u => simp [Except.map]

theorem act_define_eq_ok {name : String} {a : Attribute} :
    w.act (.define name a) = (w', .ok ms) ↔ w.defineAttribute name a = .ok w' ∧ ms = [] :=
  change_eq_ok

theorem act_beginStep_eq_ok :
    w.act .beginStep = (w', .ok ms) ↔ w.beginStep = .ok w' ∧ ms = [] :=
  change_eq_ok

theorem act_put_eq_ok {v : Variable} {payload : Bytes} {mode : PutMode} :
    w.act (.put v payload mode) = (w', .ok ms) ↔ w.put v payload mode = (w', .ok ()) ∧ ms = [] :=
  update_eq_ok

theorem act_performPuts_eq_ok :
    w.act .performPuts = (w', .ok ms) ↔ w.performPuts = (w', .ok ()) ∧ ms = [] :=
  update_eq_ok

theorem act_put_eq_error {v : Variable} {payload : Bytes} {mode : PutMode} :
    w.act (.put v payload mode) = (w', .error f) ↔ w.put v payload mode = (w', .error f) :=
  update_eq_error

theorem act_performPuts_eq_error :
    w.act .performPuts = (w', .error f) ↔ w.performPuts = (w', .error f) :=
  update_eq_error

end Calls

/-! ## Runs -/

/-- A call and what came of it: messages to hand over, or a fault. -/
abbrev Event := Call × Except Fault (List Outgoing)

/-- What comes of calls, and the writer after them. -/
def run (w : Writer) : List Call → List Event × Writer
  | [] => ([], w)
  | c :: rest =>
    let (w, result) := w.act c
    let (events, w) := w.run rest
    ((c, result) :: events, w)

theorem run_append (w : Writer) (cs cs' : List Call) : w.run (cs ++ cs') =
    ((w.run cs).1 ++ ((w.run cs).2.run cs').1, ((w.run cs).2.run cs').2) := by
  induction cs generalizing w with
  | nil => rfl
  | cons c rest ih => simp only [List.cons_append, run, ih]

/-- All messages that were finished, in order. -/
def messages (events : List Event) : List Outgoing :=
  events.flatMap (fun e => e.2.toOption.getD [])

/-- No block failed to be serialized by the call. It may have come at the wrong time. -/
def isSerialized : Event → Bool
  | (.performPuts, .error f) | (.endStep _, .error f) | (.close _, .error f) => f.isUntimely
  | _ => true

/-! ## Logs -/

/-- What the accepted calls of a run amount to. -/
structure Log where
  /-- The number of steps that were begun. -/
  begun : Nat := 0
  /-- The steps that were ended: their blocks in order, and the time. -/
  ended : List (List (Variable × Bytes) × Moment) := []
  /-- The blocks of the active step whose turn has come. -/
  active : Option (List (Variable × Bytes)) := none
  deferred : List (Variable × Bytes) := []
  attributes : Attributes := []
  /-- The attributes at the end of the first step. -/
  sent : Option Attributes := none

namespace Log

/-- The active step takes the deferred blocks. -/
def perform (l : Log) : Log :=
  { l with active := l.active.map (· ++ l.deferred), deferred := [] }

/-- The active step ends with the blocks that it has. -/
def complete (l : Log) (now : Moment) : Log :=
  match l.active with
  | none => l
  | some blocks =>
    { l with
      ended := l.ended ++ [(blocks, now)], active := none, sent := l.sent.or (some l.attributes) }

/-- The log after another call was accepted. -/
def note (l : Log) : Call → Log
  | .define name a => { l with attributes := l.attributes.put name a }
  | .beginStep => { l with begun := l.begun + 1, active := some [] }
  | .put v payload .sync => { l with active := l.active.map (· ++ [(v, payload)]) }
  | .put v payload .deferred => { l with deferred := l.deferred ++ [(v, payload)] }
  | .performPuts => l.perform
  | .endStep now | .close now => l.perform.complete now

/-- Refused calls leave no trace. -/
def add (l : Log) (e : Event) : Log :=
  match e.2 with
  | .ok _ => l.note e.1
  | .error _ => l

/-- The log of a run. -/
def of (events : List Event) : Log := events.foldl add {}

/-- The step that was begun last; the steps are numbered from 0 on. -/
def lastStep (l : Log) : Option UInt64 :=
  if l.begun = 0 then none else some (UInt64.ofNat (l.begun - 1))

/-- What a draft is told in an ended step. The attributes go with the first step. -/
def calls (l : Log) (i : Nat) : List Draft.Call :=
  match l.ended[i]? with
  | some (blocks, now) =>
    Draft.stepCalls (UInt64.ofNat i) blocks (if i = 0 then l.sent else none) now.millis
  | none => []

/-- What a draft is told in the steps from `first` on, those before `stop`. -/
def batch (l : Log) (first stop : Nat) : List Draft.Call :=
  (List.range' first (stop - first)).flatMap l.calls

/-- What a draft is told in the active step. -/
def pending (l : Log) : List Draft.Call :=
  (l.active.getD []).map (fun p => .put p.1 (UInt64.ofNat l.ended.length) p.2)

theorem pending_of_idle {l : Log} (h : l.active = none) : l.pending = [] := by
  rw [pending, h]
  rfl

theorem elim_lastStep (l : Log) : l.lastStep.elim 0 (· + 1) = UInt64.ofNat l.begun := by
  rw [lastStep]
  by_cases hzero : l.begun = 0
  · rw [if_pos hzero, hzero]
    rfl
  · obtain ⟨n, hn⟩ := Nat.exists_eq_succ_of_ne_zero hzero
    rw [if_neg hzero, hn, Nat.succ_sub_one]
    show UInt64.ofNat n + 1 = UInt64.ofNat (n + 1)
    rw [UInt64.ofNat_add]
    rfl

section Complete

variable {l : Log} {blocks : List (Variable × Bytes)} {now : Moment}

@[simp] theorem begun_complete : (l.complete now).begun = l.begun := by
  unfold complete
  split <;> rfl

@[simp] theorem deferred_complete : (l.complete now).deferred = l.deferred := by
  unfold complete
  split <;> rfl

@[simp] theorem attributes_complete : (l.complete now).attributes = l.attributes := by
  unfold complete
  split <;> rfl

@[simp] theorem active_complete : (l.complete now).active = none := by
  cases hactive : l.active with
  | none => rw [complete, hactive, hactive]
  | some blocks => rw [complete, hactive]

@[simp] theorem lastStep_complete : (l.complete now).lastStep = l.lastStep := by
  rw [lastStep, lastStep, begun_complete]

theorem ended_complete (hactive : l.active = some blocks) :
    (l.complete now).ended = l.ended ++ [(blocks, now)] := by
  rw [complete, hactive]

theorem sent_complete (hactive : l.active = some blocks) :
    (l.complete now).sent = l.sent.or (some l.attributes) := by
  rw [complete, hactive]

theorem complete_of_resting (hactive : l.active = none) (hdeferred : l.deferred = []) :
    l.perform.complete now = l := by
  cases l
  cases hactive
  cases hdeferred
  rfl

end Complete

/-- The later log has more ended steps, but the same ones at first. -/
structure Grows (l l' : Log) : Prop where
  ended : ∃ more, l'.ended = l.ended ++ more
  sent : l.ended ≠ [] → l'.sent = l.sent

section Batch

variable {l l' : Log} {first middle stop : Nat}

theorem Grows.refl (l : Log) : Grows l l := ⟨⟨[], (List.append_nil _).symm⟩, fun _ => rfl⟩

theorem batch_append (h₁ : first ≤ middle) (h₂ : middle ≤ stop) :
    l.batch first middle ++ l.batch middle stop = l.batch first stop := by
  obtain ⟨m, rfl⟩ := Nat.exists_eq_add_of_le h₁
  obtain ⟨n, rfl⟩ := Nat.exists_eq_add_of_le h₂
  rw [batch, batch, batch, ← List.flatMap_append, Nat.add_sub_cancel_left, Nat.add_sub_cancel_left,
    Nat.add_assoc, Nat.add_sub_cancel_left, List.range'_append_1]

theorem batch_self : l.batch first first = [] := by
  rw [batch, Nat.sub_self]
  rfl

theorem batch_succ : l.batch first (first + 1) = l.calls first := by
  rw [batch, Nat.add_sub_cancel_left, List.range'_one, List.flatMap_singleton]

theorem Grows.calls (h : Grows l l') {i : Nat} (hi : i < l.ended.length) :
    l'.calls i = l.calls i := by
  obtain ⟨more, hended⟩ := h.ended
  have hne : l.ended ≠ [] := List.ne_nil_of_length_pos (Nat.zero_lt_of_lt hi)
  rw [Log.calls, Log.calls, hended, List.getElem?_append_left hi, h.sent hne]

theorem Grows.batch (h : Grows l l') (hstop : stop ≤ l.ended.length) :
    l'.batch first stop = l.batch first stop := by
  rw [Log.batch, Log.batch]
  refine List.flatMap_congr (fun i hi => h.calls ?_)
  have hrange := List.mem_range'_1.mp hi
  omega

end Batch

end Log

/-! ## Refused calls -/

section Refused

variable {w w' : Writer} {f : Fault}

theorem putAll_eq_error {operators : Operators} {step : UInt64} {d d' : Draft}
    {blocks : List (Variable × Bytes)} (hopen : d.payload.isSome)
    (h : putAll operators step d blocks = (d', .error f)) : f.isUntimely = false := by
  induction blocks generalizing d with
  | nil => cases h
  | cons p rest ih =>
    obtain ⟨v, payload⟩ := p
    rw [putAll] at h
    cases hput : d.put operators v step payload with
    | mk next result =>
      rw [hput] at h
      cases result with
      | ok _ =>
        obtain ⟨-, stored, -, rfl⟩ := Draft.put_eq_ok_iff.mp hput
        exact ih rfl h
      | error f' =>
        cases h
        exact (Draft.put_eq_error hopen hput).2

theorem performPuts_eq_error (hopen : w.stage = .active → w.draft.payload.isSome)
    (h : w.performPuts = (w', .error f)) (hf : f.isUntimely = true) : w' = w := by
  unfold performPuts at h
  split at h
  · cases h
    rfl
  · next step hstep =>
    have hactive := (activeStep_eq_ok.mp hstep).1
    cases hput : putAll w.operators step w.draft w.deferred with
    | mk d' result =>
      rw [hput] at h
      cases result with
      | ok _ => cases h
      | error f' =>
        cases h
        exact absurd hf (by rw [putAll_eq_error (hopen hactive) hput]; decide)

theorem endStep_eq_error {now : Moment} (hopen : w.stage = .active → w.draft.payload.isSome)
    (h : w.endStep now = (w', .error f)) (hf : f.isUntimely = true) : w' = w := by
  unfold endStep at h
  split at h
  · cases h
    rfl
  · split at h
    · next hperform =>
      cases h
      exact performPuts_eq_error hopen hperform hf
    · dsimp only at h
      split at h <;> cases h

theorem put_eq_error {v : Variable} {payload : Bytes} {mode : PutMode}
    (hopen : w.stage = .active → w.draft.payload.isSome)
    (h : w.put v payload mode = (w', .error f)) : w' = w := by
  unfold put at h
  cases hstep : w.activeStep "put" with
  | error f' =>
    rw [hstep] at h
    cases h
    rfl
  | ok step =>
    have hactive := (activeStep_eq_ok.mp hstep).1
    rw [hstep] at h
    cases mode with
    | sync =>
      cases hput : w.draft.put w.operators v step payload with
      | mk d' result =>
        simp only [hput] at h
        cases result with
        | ok _ => cases h
        | error f' =>
          cases h
          rw [(Draft.put_eq_error (hopen hactive) hput).1]
    | deferred =>
      dsimp only at h
      split at h
      · cases h
        rfl
      · cases h

/-- **A refused call changes nothing**, unless a block failed to be serialized. -/
theorem act_eq_error {c : Call} (hopen : w.stage = .active → w.draft.payload.isSome)
    (h : w.act c = (w', .error f)) (hserialized : isSerialized (c, .error f)) : w' = w := by
  cases c with
  | define name a => exact (change_eq_error.mp h).2
  | beginStep => exact (change_eq_error.mp h).2
  | put v payload mode => exact put_eq_error hopen (act_put_eq_error.mp h)
  | performPuts => exact performPuts_eq_error hopen (act_performPuts_eq_error.mp h) hserialized
  | endStep now => exact endStep_eq_error hopen h hserialized
  | close now =>
    replace h : w.close now = (w', .error f) := h
    unfold close at h
    split at h
    · cases h
    · cases h
    · split at h
      · next hend =>
        cases h
        exact endStep_eq_error hopen hend hserialized
      · cases h

end Refused

/-! ## Runs that end with closing -/

section Closing

variable {w w' : Writer} {now : Moment}

theorem stage_of_close {ms : List Outgoing} (h : w.close now = (w', .ok ms)) :
    w'.stage = .closed := by
  unfold close at h
  cases hstage : w.stage with
  | closed =>
    rw [hstage] at h
    cases h
    exact hstage
  | idle =>
    rw [hstage] at h
    cases h
    rfl
  | active =>
    rw [hstage] at h
    cases hend : w.endStep now with
    | mk w₁ result =>
      rw [hend] at h
      cases result with
      | error f => cases h
      | ok before =>
        cases h
        rfl

theorem stage_of_getLast {cs : List Call} {ms : List Outgoing}
    (h : (w.run cs).1.getLast? = some (.close now, .ok ms)) : (w.run cs).2.stage = .closed := by
  rcases List.eq_nil_or_concat cs with rfl | ⟨before, c, rfl⟩
  · cases h
  · have hlast : ((w.run before).2.run [c]).1 = [(c, ((w.run before).2.act c).2)] := rfl
    rw [List.concat_eq_append, run_append] at h ⊢
    rw [hlast, List.getLast?_concat, Option.some.injEq, Prod.mk.injEq] at h
    obtain ⟨rfl, hresult⟩ := h
    exact stage_of_close (Prod.ext rfl hresult)

end Closing

end Writer

end Stepcast
