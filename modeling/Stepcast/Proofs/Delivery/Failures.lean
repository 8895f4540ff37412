import Stepcast.Proofs.Archive.Receiving
import Stepcast.Proofs.Delivery.Batching

/-!
# Blocks that cannot be put

A deferred block may fail when its turn comes: its operator is unknown or gives up. The call then
ends with a fault, and the step stays active. The deferred blocks before the failing one are in the
draft by then, each once. It and those after it are gone: nothing puts them any more.

A log that knows this follows a run in which calls fail at any moment, and the messages are still
what the log says. Where no good block stands behind a failing one, just the failing blocks are
missing.

Main statements: `performPuts_fails`, `salvage_run`, `loses_good_block`.
-/

namespace Stepcast

namespace Writer

/-- The block can be put: its payload has the size of its variable, and its operator succeeds. -/
def isStorable (operators : Operators) (p : Variable × Bytes) : Bool :=
  p.2.length = p.1.payloadSize && (operators.store p.1 p.2).isOk

/-! ## One call that fails -/

section Failing

variable {operators : Operators} {w w' : Writer} {f : Fault}

/-- Until a block fails, the draft takes one after the other. -/
theorem calls_of_putAll_error {step : UInt64} {d d' : Draft} {blocks : List (Variable × Bytes)}
    (hopen : d.payload.isSome) (h : putAll operators step d blocks = (d', .error f)) :
    d.calls operators ((blocks.takeWhile (isStorable operators)).map
      (fun p => .put p.1 step p.2)) = .ok d' ∧ ∃ p ∈ blocks, isStorable operators p = false := by
  induction blocks generalizing d with
  | nil => cases h
  | cons p rest ih =>
    obtain ⟨v, payload⟩ := p
    rw [putAll] at h
    cases hput : d.put operators v step payload with
    | mk next result =>
      rw [hput] at h
      cases result with
      | ok _ =>
        obtain ⟨hlength, stored, hstore, rfl⟩ := Draft.put_eq_ok_iff.mp hput
        have hstorable : isStorable operators (v, payload) = true := by
          simp [isStorable, hlength, hstore, Except.isOk, Except.toBool]
        obtain ⟨hcalls, q, hq, hfails⟩ := ih rfl h
        refine ⟨?_, q, List.mem_cons_of_mem _ hq, hfails⟩
        rw [List.takeWhile_cons_of_pos hstorable, List.map_cons, Draft.calls, List.foldlM_cons,
          Draft.call, hput]
        exact hcalls
      | error f' =>
        cases h
        have hfails : isStorable operators (v, payload) = false := by
          rw [Bool.eq_false_iff]
          intro hstorable
          obtain ⟨hlength, hok⟩ := (Bool.and_eq_true _ _).mp hstorable
          cases hstore : operators.store v payload with
          | error f => simp [hstore, Except.isOk, Except.toBool] at hok
          | ok stored =>
            have hsucceeds : d.put operators v step payload =
                (d.ensureOpen.append v step stored, .ok ()) :=
              Draft.put_eq_ok_iff.mpr ⟨of_decide_eq_true hlength, stored, hstore, rfl⟩
            rw [hput] at hsucceeds
            cases hsucceeds
        refine ⟨?_, _, List.mem_cons_self, hfails⟩
        rw [List.takeWhile_cons_of_neg (by simp [hfails]), (Draft.put_eq_error hopen hput).1]
        rfl

theorem isUntimely_of_activeStep {operation : String} (h : w.activeStep operation = .error f) :
    f.isUntimely = true := by
  unfold activeStep ensureOpen at h
  split at h
  · cases h
    rfl
  · rw [ok_bind] at h
    split at h <;> cases h
    rfl

/-- **A failing block takes those after it along.** The blocks before it are in the draft, each
once and in order, and nothing is deferred any more. -/
theorem performPuts_fails (hopen : w.stage = .active → w.draft.payload.isSome)
    (h : w.performPuts = (w', .error f)) (hf : f.isUntimely = false) :
    w.stage = .active ∧ ∃ step draft, w.currentStep = some step ∧
      w.draft.calls w.operators ((w.deferred.takeWhile (isStorable w.operators)).map
        (fun p => .put p.1 step p.2)) = .ok draft ∧
      (∃ p ∈ w.deferred, isStorable w.operators p = false) ∧
      w' = { w with draft, deferred := [] } := by
  unfold performPuts at h
  split at h
  · next hstep =>
    cases h
    rw [isUntimely_of_activeStep hstep] at hf
    cases hf
  · next step hstep =>
    obtain ⟨hactive, hcurrent⟩ := activeStep_eq_ok.mp hstep
    cases hput : putAll w.operators step w.draft w.deferred with
    | mk draft result =>
      rw [hput] at h
      cases h
      obtain ⟨hcalls, hfails⟩ := calls_of_putAll_error (hopen hactive) hput
      exact ⟨hactive, step, draft, hcurrent, hcalls, hfails, rfl⟩

theorem performPuts_of_not_isSerialized {c : Call} {result : Except Fault (List Outgoing)}
    (h : w.act c = (w', result)) (hfails : isSerialized (c, result) = false) :
    ∃ f, result = .error f ∧ f.isUntimely = false ∧ w.performPuts = (w', .error f) := by
  have hend {now : Moment} (h : w.endStep now = (w', result))
      (hfails : isSerialized (.endStep now, result) = false) :
      ∃ f, result = .error f ∧ f.isUntimely = false ∧ w.performPuts = (w', .error f) := by
    unfold endStep at h
    split at h
    · next hstep =>
      cases h
      simp [isSerialized, isUntimely_of_activeStep hstep] at hfails
    · split at h
      · next hperform =>
        cases h
        exact ⟨_, rfl, hfails, hperform⟩
      · dsimp only at h
        split at h <;> cases h <;> cases hfails
  cases c with
  | define name a => cases hfails
  | beginStep => cases hfails
  | put v payload mode => cases hfails
  | performPuts =>
    cases result with
    | ok ms => cases hfails
    | error f => exact ⟨f, rfl, hfails, act_performPuts_eq_error.mp h⟩
  | endStep now => exact hend h hfails
  | close now =>
    replace h : w.close now = (w', result) := h
    unfold close at h
    split at h
    · cases h
      cases hfails
    · cases h
      cases hfails
    · split at h
      · next hended =>
        cases h
        exact hend hended hfails
      · cases h
        cases hfails

end Failing

/-! ## Logs of runs with failing blocks -/

/-- A block of the active step fails, and `keep` says which of the deferred ones are put. -/
def Log.salvage (keep : List (Variable × Bytes) → List (Variable × Bytes)) (l : Log) : Log :=
  { l with active := l.active.map (· ++ keep l.deferred), deferred := [] }

/-- The log after another call, by which a block may fail. -/
def Log.heed (keep : List (Variable × Bytes) → List (Variable × Bytes)) (l : Log) (e : Event) :
    Log :=
  if isSerialized e then l.add e else l.salvage keep

/-- The log of a run in which blocks fail: the deferred blocks before the failing one are put. -/
def Log.salvaged (operators : Operators) (events : List Event) : Log :=
  events.foldl (Log.heed (List.takeWhile (isStorable operators))) {}

/-- The log of a run in which just the failing blocks get lost. -/
def Log.lossless (operators : Operators) (events : List Event) : Log :=
  events.foldl (Log.heed (List.filter (isStorable operators))) {}

/-- **Where no good block stands behind a failing one**, just the failing blocks get lost. -/
theorem Log.salvaged_eq_lossless {operators : Operators} {events : List Event}
    (h : ∀ before e after, events = before ++ e :: after → isSerialized e = false →
      (Log.salvaged operators before).deferred.takeWhile (isStorable operators) =
        (Log.salvaged operators before).deferred.filter (isStorable operators)) :
    Log.salvaged operators events = Log.lossless operators events := by
  induction events using List.reverseRecOn with
  | nil => rfl
  | append_singleton before e ih =>
    have hbefore : Log.salvaged operators before = Log.lossless operators before := by
      refine ih fun before' e' after heq => h before' e' (after ++ [e]) ?_
      rw [heq, List.append_assoc]
      rfl
    have hlast := h before e [] rfl
    rw [salvaged, lossless, List.foldl_append, List.foldl_append, ← salvaged, ← lossless,
      ← hbefore]
    simp only [List.foldl_cons, List.foldl_nil, heed]
    split
    · rfl
    · next hfails => rw [salvage, salvage, hlast (Bool.eq_false_iff.mpr hfails)]

/-! ## Runs -/

section Runs

variable {operators : Operators} {rank : UInt32} {size : Nat} {l : Log} {w w' : Writer}
  {data : List Outgoing} {f : Fault}

/-- A call by which a block fails keeps an open writer open, within its step. -/
theorem Follows.fail (h : Follows operators rank size l w data)
    (hw : w.performPuts = (w', .error f)) (hf : f.isUntimely = false) :
    Follows operators rank size (l.salvage (List.takeWhile (isStorable operators))) w' data ∧
      w'.batchSteps = w.batchSteps := by
  obtain ⟨hactive, step, draft, hcurrent, hcalls, -, rfl⟩ := performPuts_fails h.isOpen hw hf
  obtain ⟨blocks, hblocks⟩ := h.stage_active.mp hactive
  have hstep : step = UInt64.ofNat l.ended.length :=
    Option.some.inj (hcurrent.symm.trans (h.currentStep_of_active hblocks))
  rw [h.operators_eq, h.deferred_eq, hstep] at hcalls
  rw [Log.salvage, hblocks, Option.map_some]
  exact ⟨h.extend hblocks hcalls rfl, rfl⟩

/-- **Any call keeps the account of the run**, also one by which a block fails. -/
theorem Keeps.heed {ms : List Outgoing} (h : Keeps operators rank size l w ms) {c : Call}
    {result : Except Fault (List Outgoing)} (hw : w.act c = (w', result)) :
    Keeps operators rank size (l.heed (List.takeWhile (isStorable operators)) (c, result)) w'
      (ms ++ result.toOption.getD []) := by
  rw [Log.heed]
  split
  · next hserialized => exact h.act hw hserialized
  · next hnot =>
    obtain ⟨f, rfl, hf, hperform⟩ :=
      performPuts_of_not_isSerialized hw (Bool.eq_false_iff.mpr hnot)
    have hms : ms ++ (Except.error f : Except Fault (List Outgoing)).toOption.getD [] = ms :=
      List.append_nil ms
    rw [hms]
    rcases h with ⟨hfollows, hroom⟩ | hfinished
    · obtain ⟨hsalvaged, hbatch⟩ := hfollows.fail hperform hf
      exact .inl ⟨hsalvaged, hbatch ▸ hroom⟩
    · -- A closed writer has no step in which a block could fail.
      have hclosed : w.stage = .active → w.draft.payload.isSome := by
        rw [hfinished.stage_eq]
        exact nofun
      have hactive := (performPuts_fails hclosed hperform hf).1
      rw [hfinished.stage_eq] at hactive
      cases hactive

theorem Keeps.salvage {ms : List Outgoing} (h : Keeps operators rank size l w ms)
    (cs : List Call) : Keeps operators rank size
      ((w.run cs).1.foldl (Log.heed (List.takeWhile (isStorable operators))) l) (w.run cs).2
        (ms ++ messages (w.run cs).1) := by
  induction cs generalizing l w ms with
  | nil => exact (List.append_nil ms).symm ▸ h
  | cons c rest ih =>
    have hkeeps := ih (h.heed (c := c) rfl)
    rw [List.append_assoc] at hkeeps
    exact hkeeps

end Runs

/-! ## The messages of a run with failing blocks -/

theorem Packed.packs_group {operators : Operators} {rank : UInt32} {size : Nat} {l : Log} {j : Nat}
    {m : Outgoing}
    (h : Packed operators rank l (j * size) (min ((j + 1) * size) l.ended.length) m)
    (hj : j * size < l.ended.length) (hpos : 0 < size) (hword : size < UInt64.size)
    (hsent : l.sent = none ↔ l.ended = []) :
    Packs operators rank l (j * size) (min ((j + 1) * size) l.ended.length) m := by
  have hne : l.ended ≠ [] := List.ne_nil_of_length_pos (Nat.zero_lt_of_lt hj)
  obtain ⟨attributes, hattributes⟩ := Option.ne_none_iff_exists'.mp (mt hsent.mp hne)
  have hnext : (j + 1) * size = j * size + size := Nat.succ_mul j size
  exact h.packs (by omega) (Nat.min_le_right _ _) (by omega) hattributes

/-- **The messages of a run in which blocks fail.** Take any calls on a new writer, refused or not,
and let any deferred blocks fail when `performPuts`, `endStep` or `close` puts them. The steps that
ended go out in groups of as many steps as the settings say, and each message holds the blocks that
the log says, each once. By the log a failing call puts the deferred blocks before the first
failing one and drops all others; what is deferred after that goes on as if nothing had happened.
Where no block that could be put stands behind a failing one, just the failing ones are missing. -/
theorem salvage_run {name : String} {settings : Settings} {rank : UInt32} {operators : Operators}
    {now : Moment} {cs : List Call} {events : List Event} {w : Writer}
    (hrun : (create name settings rank operators now).run cs = (events, w))
    (hpos : 0 < settings.aggregation) (hword : settings.aggregation < UInt64.size) :
    let l := Log.salvaged operators events
    let size := settings.aggregation
    (w.stage ≠ .closed → w.deferred = l.deferred) ∧
    (∃ data, messages events = data ++
        (if w.stage = .closed then [.finish (Frame.endRecord l.lastStep) l.lastStep] else []) ∧
      data.length =
        (if w.stage = .closed then (l.ended.length + size - 1) / size else l.ended.length / size) ∧
      ∀ j m, data[j]? = some m →
        Packs operators rank l (j * size) (min ((j + 1) * size) l.ended.length) m) ∧
    ((∀ before e after, events = before ++ e :: after → isSerialized e = false →
      (Log.salvaged operators before).deferred.takeWhile (isStorable operators) =
        (Log.salvaged operators before).deferred.filter (isStorable operators)) →
      l = Log.lossless operators events) := by
  intro l size
  have hcreate : Keeps operators rank size {} (create name settings rank operators now) [] :=
    .inl ⟨follows_create name settings rank operators now, hpos⟩
  have hkeeps := hcreate.salvage cs
  rw [hrun, List.nil_append] at hkeeps
  change Keeps operators rank size l w (messages events) at hkeeps
  rcases hkeeps with ⟨hfollows, hroom⟩ | hfinished
  · refine ⟨fun _ => hfollows.deferred_eq, ⟨messages events, ?_, ?_, fun j m hj => ?_⟩,
      Log.salvaged_eq_lossless⟩
    · rw [if_neg hfollows.stage_ne_closed, List.append_nil]
    · have hspan := hfollows.span
      rw [if_neg hfollows.stage_ne_closed, ← hspan, Nat.add_comm, Nat.add_mul_div_right _ _ hpos,
        Nat.div_eq_of_lt hroom, Nat.zero_add]
    · have hlt : j < (messages events).length := (List.getElem?_eq_some_iff.mp hj).1
      have hle : (j + 1) * size ≤ (messages events).length * size := Nat.mul_le_mul_right _ hlt
      have hspan := hfollows.span
      rw [Nat.succ_mul] at hle
      exact (hfollows.packed_min hj).packs_group (by omega) hpos hword hfollows.sent_iff
  · obtain ⟨data, hmessages, hlength, hpacked⟩ := hfinished.messages
    refine ⟨fun hopen => absurd hfinished.stage_eq hopen, ⟨data, ?_, ?_, fun j m hj => ?_⟩,
      Log.salvaged_eq_lossless⟩
    · rw [if_pos hfinished.stage_eq, hmessages]
    · rw [if_pos hfinished.stage_eq, hlength]
    · have hlt : j < data.length := (List.getElem?_eq_some_iff.mp hj).1
      rw [hlength] at hlt
      have hle : (j + 1) * size ≤ l.ended.length + size - 1 :=
        (Nat.le_div_iff_mul_le hpos).mp (Nat.succ_le_of_lt hlt)
      rw [Nat.succ_mul] at hle
      exact (hpacked j m hj).packs_group (by omega) hpos hword hfinished.sent_iff

/-! ### A good block behind a failing one -/

/-- An operator that never succeeds. -/
def sampleOperators : Operators :=
  [("refuse", ⟨fun _ _ _ _ => .error "refused", fun _ _ _ => .error "refused"⟩)]

def refusedVariable : Variable := (Variable.scalar "x" .uint8).withOperator "refuse" []

/-- Two calls fail: the block 7 stands behind a failing one, the block 8 before one. -/
def sampleFailures : List Call :=
  let v := Variable.scalar "v" .uint8
  [.beginStep, .put refusedVariable [1] .deferred, .put v [7] .deferred, .performPuts,
    .put v [8] .deferred, .put refusedVariable [2] .deferred, .endStep ⟨0, 10⟩,
    .put v [9] .deferred, .endStep ⟨0, 20⟩]

theorem salvage_run_sample : ∃ events w m,
    (create "sim" {} 3 sampleOperators ⟨0, 0⟩).run sampleFailures = (events, w) ∧
    (Log.salvaged sampleOperators events).ended.map (fun e => (e.1.map Prod.snd, e.2)) =
      [([[8], [9]], ⟨0, 20⟩)] ∧
    messages events = [m] ∧
    Packs sampleOperators 3 (Log.salvaged sampleOperators events) 0 1 m := by
  have hrun : (create "sim" {} 3 sampleOperators ⟨0, 0⟩).run sampleFailures =
      (((create "sim" {} 3 sampleOperators ⟨0, 0⟩).run sampleFailures).1,
        ((create "sim" {} 3 sampleOperators ⟨0, 0⟩).run sampleFailures).2) := rfl
  obtain ⟨-, ⟨data, hmessages, hlength, hpacks⟩, -⟩ := salvage_run hrun (by decide) (by decide)
  have hended : (Log.salvaged sampleOperators ((create "sim" {} 3 sampleOperators ⟨0, 0⟩).run
      sampleFailures).1).ended.map (fun e => (e.1.map Prod.snd, e.2)) =
        [([[8], [9]], ⟨0, 20⟩)] := by decide +kernel
  have hstage : ((create "sim" {} 3 sampleOperators ⟨0, 0⟩).run sampleFailures).2.stage = .idle :=
    rfl
  have hone := congrArg List.length hended
  rw [List.length_map] at hone
  rw [hstage, if_neg (by decide), List.append_nil] at hmessages
  rw [hstage, if_neg (by decide), hone] at hlength
  rw [hone] at hpacks
  obtain ⟨m, rfl⟩ := List.length_eq_one_iff.mp hlength
  exact ⟨_, _, m, rfl, hended, hmessages, hpacks 0 m rfl⟩

/-- **A good block gets lost** behind a failing one: it was accepted, the call that should put it
fails, and the message of the step, which then ends without a fault, has no block. -/
theorem loses_good_block : ∃ f m,
    ((create "sim" {} 3 sampleOperators ⟨0, 0⟩).run
      [.beginStep, .put refusedVariable [1] .deferred, .put (.scalar "v" .uint8) [7] .deferred,
        .performPuts, .endStep ⟨0, 10⟩]).1.map Prod.snd =
      [.ok [], .ok [], .ok [], .error f, .ok [.data m 0 0]] ∧
    isStorable sampleOperators (.scalar "v" .uint8, [7]) = true ∧
    (({} : Archive).put m).2.toOption = some (.data 0 []) :=
  ⟨_, _, rfl, by decide +kernel, by decide +kernel⟩

end Writer

end Stepcast
