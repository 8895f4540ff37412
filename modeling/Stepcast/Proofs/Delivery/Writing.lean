import Stepcast.Proofs.Wire.Sealing
import Stepcast.Writer

/-!
# What a writer makes of its calls

A writer is told what to do by calls. A diary of the calls says which blocks were put at which step,
without regard to batches, drafts and messages. The account of a writer ties the two together: the
messages it has finished are the sealed batches of the steps before `first`, its draft holds the
steps since then, and together they hold just the blocks of the diary, in order.

Main statement: `Account.act`.
-/

namespace Stepcast

namespace Writer

/-! ## Calls -/

/-- A call on a writer. -/
inductive Call where
  | define (name : String) (a : Attribute)
  | beginStep
  | put (v : Variable) (payload : Bytes) (mode : PutMode)
  | performPuts
  | endStep (now : Moment)
  | close (now : Moment)
deriving DecidableEq

/-- What a writer does when it is called, and the messages that it finishes then. -/
def act (w : Writer) : Call → Writer × Except Fault (List Outgoing)
  | .define name a =>
    match w.defineAttribute name a with
    | .ok w => (w, .ok [])
    | .error f => (w, .error f)
  | .beginStep =>
    match w.beginStep with
    | .ok w => (w, .ok [])
    | .error f => (w, .error f)
  | .put v payload mode =>
    let (w, result) := w.put v payload mode
    (w, result.map (fun _ => []))
  | .performPuts =>
    let (w, result) := w.performPuts
    (w, result.map (fun _ => []))
  | .endStep now => w.endStep now
  | .close now => w.close now

/-- The writer at the end of its step, before the message is finished. -/
def ended (w : Writer) (now : Moment) : Writer :=
  w.performPuts.1.completeStep (w.currentStep.getD 0) now

/-- The draft that a call finishes as a message. -/
def finishes? (w : Writer) : Call → Option Draft
  | .endStep now =>
    if w.settings.aggregation ≤ w.batchSteps + 1 then some (w.ended now).draft else none
  | .close now =>
    match w.stage with
    | .active => some (w.ended now).draft
    | .idle => if 0 < w.batchSteps then some w.draft else none
    | .closed => none
  | _ => none

/-- The block of a put fits into the widths of a message. -/
def Call.Fits : Call → Prop
  | .put v _ _ => v.Fits
  | _ => True

end Writer

/-! ## Diaries -/

/-- What the calls on a writer say. -/
structure Diary where
  /-- The number of steps that were begun. -/
  steps : Nat := 0
  /-- The blocks that were put at once, or whose turn has come. -/
  performed : List Written := []
  /-- The blocks that were deferred, the oldest first. -/
  deferred : List (Variable × Bytes) := []

namespace Diary

/-- The step that was begun last. -/
def step (d : Diary) : UInt64 := UInt64.ofNat (d.steps - 1)

/-- All blocks that were put, in order. -/
def blocks (d : Diary) : List Written :=
  d.performed ++ d.deferred.map (fun p => ⟨d.step, p.1, p.2⟩)

/-- The diary after another call. -/
def note (d : Diary) : Writer.Call → Diary
  | .define .. => d
  | .beginStep => { d with steps := d.steps + 1 }
  | .put v payload .sync => { d with performed := d.performed ++ [⟨d.step, v, payload⟩] }
  | .put v payload .deferred => { d with deferred := d.deferred ++ [(v, payload)] }
  | .performPuts | .endStep _ | .close _ => { d with performed := d.blocks, deferred := [] }

/-- The diary of calls. -/
def of (calls : List Writer.Call) : Diary := calls.foldl note {}

theorem of_append_singleton (calls : List Writer.Call) (c : Writer.Call) :
    of (calls ++ [c]) = (of calls).note c := by
  rw [of, List.foldl_append]
  rfl

theorem steps_le_note (d : Diary) (c : Writer.Call) : d.steps ≤ (d.note c).steps := by
  cases c with
  | beginStep => exact Nat.le_succ _
  | put v payload mode => cases mode <;> exact Nat.le_refl _
  | _ => exact Nat.le_refl _

theorem steps_le_append (calls more : List Writer.Call) :
    (of calls).steps ≤ (of (calls ++ more)).steps := by
  induction more using List.reverseRecOn with
  | nil => rw [List.append_nil]
  | append_singleton more c ih =>
    rw [← List.append_assoc, of_append_singleton]
    exact Nat.le_trans ih (steps_le_note _ c)

end Diary

/-! ## Accounts -/

/-- The calls on the draft of one message. -/
abbrev Batch := List Draft.Call

/-- The blocks of one batch come at steps before those of the other. -/
def Batch.Before (b b' : Batch) : Prop :=
  ∀ x ∈ Draft.written b, ∀ y ∈ Draft.written b', x.step < y.step

/-- The writer has done what the diary says: it has sealed `batches` with the steps before
`first`, and its draft holds `current`. -/
structure Account (operators : Operators) (rank : UInt32) (d : Diary) (w : Writer) (first : Nat)
    (batches : List Batch) (current : Batch) : Prop where
  operators_eq : w.operators = operators
  rank_eq : w.draft.rank = rank
  currentStep : w.currentStep = if d.steps = 0 then none else some d.step
  deferred_eq : w.deferred = d.deferred
  performed : d.performed = Draft.written (batches.flatten ++ current)
  span : first + w.batchSteps + (if w.stage = .active then 1 else 0) = d.steps
  filling : first < d.steps →
    ∃ d₀ : Draft, d₀.rank = rank ∧ d₀.open.calls operators current = .ok w.draft
  resting : first = d.steps → current = []
  deferred_nil : w.stage ≠ .active → w.deferred = []
  closed : w.stage = .closed → first = d.steps
  count : batches.length ≤ first
  before : ∀ b ∈ batches, ∀ x ∈ Draft.written b, x.step.toNat < first
  ordered : batches.Pairwise Batch.Before
  since : ∀ x ∈ Draft.written current, first ≤ x.step.toNat ∧ x.step.toNat < d.steps
  fits : ∀ v step payload, Draft.Call.put v step payload ∈ current → v.Fits
  deferred_fit : ∀ p ∈ w.deferred, p.1.Fits

/-- The messages seal the batches one by one; after them comes the end of the stream, if it is time
for that. -/
inductive Shipment (operators : Operators) (rank : UInt32) :
    List Batch → Bool → List Outgoing → Prop
  | nil : Shipment operators rank [] false []
  | finish (final : Option UInt64) :
      Shipment operators rank [] true [.finish (Frame.endRecord final) final]
  | cons {b : Batch} {m : Outgoing} {bs : List Batch} {last : Bool} {ms : List Outgoing} :
      m.Seals operators rank b → Shipment operators rank bs last ms →
      Shipment operators rank (b :: bs) last (m :: ms)

theorem Shipment.append {operators : Operators} {rank : UInt32} {bs bs' : List Batch} {last : Bool}
    {ms ms' : List Outgoing} (h : Shipment operators rank bs false ms)
    (h' : Shipment operators rank bs' last ms') :
    Shipment operators rank (bs ++ bs') last (ms ++ ms') := by
  generalize hlast : false = l at h
  induction h with
  | nil => exact h'
  | finish final => cases hlast
  | cons hm _ ih => exact .cons hm (ih hlast)

theorem Shipment.length_le {operators : Operators} {rank : UInt32} {bs : List Batch} {last : Bool}
    {ms : List Outgoing} (h : Shipment operators rank bs last ms) : ms.length ≤ bs.length + 1 := by
  induction h with
  | nil => exact Nat.zero_le _
  | finish final => exact Nat.le_refl _
  | cons _ _ ih => exact Nat.succ_le_succ ih

section Account

variable {operators : Operators} {rank : UInt32} {d : Diary} {w w' : Writer} {first : Nat}
  {batches : List Batch} {current : Batch}

theorem Writer.activeStep_eq_ok {operation : String} {step : UInt64} :
    w.activeStep operation = .ok step ↔ w.stage = .active ∧ w.currentStep = some step := by
  unfold Writer.activeStep Writer.ensureOpen
  cases hstage : w.stage <;> cases hstep : w.currentStep <;> simp

theorem Draft.calls_append {d₀ d₁ : Draft} {cs cs' : List Draft.Call}
    (h : d₀.calls operators cs = .ok d₁) :
    d₀.calls operators (cs ++ cs') = d₁.calls operators cs' := by
  rw [Draft.calls, List.foldlM_append, ← Draft.calls, h]
  rfl

theorem account_create (name : String) (settings : Settings) (rank : UInt32)
    (operators : Operators) (now : Moment) :
    Account operators rank {} (.create name settings rank operators now) 0 [] [] where
  operators_eq := rfl
  rank_eq := rfl
  currentStep := rfl
  deferred_eq := rfl
  performed := rfl
  span := rfl
  filling := fun h => absurd h (Nat.lt_irrefl 0)
  resting := fun _ => rfl
  deferred_nil := fun _ => rfl
  closed := fun _ => rfl
  count := Nat.le_refl 0
  before := fun _ h => absurd h List.not_mem_nil
  ordered := List.Pairwise.nil
  since := fun _ h => absurd h List.not_mem_nil
  fits := fun _ _ _ h => absurd h List.not_mem_nil
  deferred_fit := fun _ h => absurd h List.not_mem_nil

theorem Account.lt_of_active (h : Account operators rank d w first batches current)
    (hactive : w.stage = .active) : first < d.steps := by
  have hspan := h.span
  rw [if_pos hactive] at hspan
  omega

theorem Account.currentStep_of_active (h : Account operators rank d w first batches current)
    (hactive : w.stage = .active) : w.currentStep = some d.step := by
  have hlt := h.lt_of_active hactive
  rw [h.currentStep, if_neg (by omega)]

theorem Diary.toNat_step (hsteps : d.steps < 2 ^ 64) : d.step.toNat = d.steps - 1 := by
  rw [Diary.step, UInt64.toNat_ofNat_of_lt' (by simp [UInt64.size]; omega)]

/-! ## Beginning a step -/

theorem Writer.beginStep_eq_ok (h : w.beginStep = .ok w') : w.stage = .idle ∧ w'.stage = .active ∧
    w'.currentStep = some (w.currentStep.elim 0 (· + 1)) ∧ w'.operators = w.operators ∧
    w'.deferred = w.deferred ∧ w'.batchSteps = w.batchSteps ∧
    w'.draft = if w.batchSteps = 0 then w.draft.open else w.draft := by
  unfold Writer.beginStep Writer.ensureOpen at h
  cases hstage : w.stage with
  | closed => simp [hstage] at h
  | active => simp [hstage] at h
  | idle =>
    by_cases hbatch : w.batchSteps = 0
    · simp only [hstage, hbatch, reduceCtorEq, if_false, if_true, ok_bind] at h
      cases h
      simp [hbatch]
    · simp only [hstage, hbatch, reduceCtorEq, if_false, ok_bind] at h
      cases h
      simp [hbatch]

theorem Account.beginStep (h : Account operators rank d w first batches current)
    (hw : w.beginStep = .ok w') :
    Account operators rank (d.note .beginStep) w' first batches current := by
  obtain ⟨hidle, hactive, hstep, hoperators, hdeferred, hbatch, hdraft⟩ :=
    Writer.beginStep_eq_ok hw
  have hspan := h.span
  rw [hidle, if_neg (by decide), Nat.add_zero] at hspan
  exact {
    operators_eq := hoperators.trans h.operators_eq
    rank_eq := by
      rw [hdraft]
      split <;> exact h.rank_eq
    currentStep := by
      show w'.currentStep =
        if d.steps + 1 = 0 then none else some (UInt64.ofNat (d.steps + 1 - 1))
      rw [hstep, h.currentStep, if_neg (Nat.succ_ne_zero _), Nat.add_sub_cancel]
      by_cases hzero : d.steps = 0
      · rw [hzero]
        rfl
      · have hpred : UInt64.ofNat (d.steps - 1 + 1) = UInt64.ofNat d.steps := by
          rw [Nat.sub_add_cancel (by omega)]
        rw [if_neg hzero, Option.elim_some, Diary.step, ← hpred, UInt64.ofNat_add]
        rfl
    deferred_eq := hdeferred.trans h.deferred_eq
    performed := h.performed
    span := by
      rw [hactive, if_pos rfl, hbatch, hspan]
      rfl
    filling := by
      intro _
      rw [hdraft]
      split
      · rename_i hzero
        rw [h.resting (by omega)]
        exact ⟨w.draft, h.rank_eq, rfl⟩
      · exact h.filling (by omega)
    resting := fun heq => absurd (show first = d.steps + 1 from heq) (by omega)
    deferred_nil := fun hne => absurd hactive hne
    closed := fun hclosed => by simp [hactive] at hclosed
    count := h.count
    before := h.before
    ordered := h.ordered
    since := fun x hx => ⟨(h.since x hx).1, Nat.lt_succ_of_lt (h.since x hx).2⟩
    fits := h.fits
    deferred_fit := hdeferred ▸ h.deferred_fit }

/-! ## Within a step -/

theorem Account.extend (h : Account operators rank d w first batches current)
    (hactive : w.stage = .active) (hsteps : d.steps < 2 ^ 64) {cs : List Draft.Call} {draft : Draft}
    (hcalls : w.draft.calls operators cs = .ok draft)
    (hput : ∀ v step payload, Draft.Call.put v step payload ∈ cs → step = d.step ∧ v.Fits)
    (d' : Diary) (heq : d'.steps = d.steps)
    (hperformed : d'.performed = d.performed ++ Draft.written cs)
    {deferred : List (Variable × Bytes)} (hdeferred : deferred = d'.deferred)
    (hfit : ∀ p ∈ deferred, p.1.Fits) :
    Account operators rank d' { w with draft, deferred } first batches (current ++ cs) where
  operators_eq := h.operators_eq
  rank_eq := (Draft.rank_calls hcalls).trans h.rank_eq
  currentStep := by
    rw [Diary.step, heq]
    exact h.currentStep
  deferred_eq := hdeferred
  performed := by
    rw [← List.append_assoc, Draft.written_append, ← h.performed, hperformed]
  span := heq ▸ h.span
  filling := by
    intro hlt
    rw [heq] at hlt
    obtain ⟨d₀, hrank, hd₀⟩ := h.filling hlt
    exact ⟨d₀, hrank, (Draft.calls_append hd₀).trans hcalls⟩
  resting := fun hrest => absurd (h.lt_of_active hactive) (by omega)
  deferred_nil := fun hne => absurd hactive hne
  closed := heq ▸ h.closed
  count := h.count
  before := h.before
  ordered := h.ordered
  since := by
    intro x hx
    rw [Draft.written_append] at hx
    rw [heq]
    rcases List.mem_append.mp hx with hx | hx
    · exact h.since x hx
    · obtain ⟨c, hc, hcx⟩ := List.mem_filterMap.mp hx
      cases c with
      | put v step payload =>
        cases hcx
        have hspan := h.span
        rw [if_pos hactive] at hspan
        show first ≤ step.toNat ∧ step.toNat < d.steps
        rw [(hput v step payload hc).1, Diary.toNat_step hsteps]
        omega
      | stamp step now => cases hcx
      | attach attributes => cases hcx
  fits := by
    intro v step payload hmem
    rcases List.mem_append.mp hmem with hmem | hmem
    · exact h.fits v step payload hmem
    · exact (hput v step payload hmem).2
  deferred_fit := hfit

theorem Writer.put_eq_ok {v : Variable} {payload : Bytes} {mode : PutMode}
    (h : w.put v payload mode = (w', .ok ())) : w.stage = .active ∧ ∃ step,
      w.currentStep = some step ∧
      match mode with
      | .sync => ∃ draft, w.draft.call w.operators (.put v step payload) = .ok draft ∧
          w' = { w with draft }
      | .deferred => w' = { w with deferred := w.deferred ++ [(v, payload)] } := by
  unfold Writer.put at h
  split at h
  · cases h
  · rename_i step hstep
    obtain ⟨hactive, hcurrent⟩ := Writer.activeStep_eq_ok.mp hstep
    refine ⟨hactive, step, hcurrent, ?_⟩
    cases mode with
    | sync =>
      simp only at h ⊢
      cases hput : w.draft.put w.operators v step payload with
      | mk draft result =>
        rw [hput] at h
        cases h
        exact ⟨draft, by rw [Draft.call, hput], rfl⟩
    | deferred =>
      simp only at h ⊢
      split at h
      · cases h
      · cases h
        rfl

theorem Account.put (h : Account operators rank d w first batches current)
    (hsteps : d.steps < 2 ^ 64) {v : Variable} {payload : Bytes} {mode : PutMode}
    (hw : w.put v payload mode = (w', .ok ())) (hv : v.Fits) : w'.stage = w.stage ∧ ∃ current',
      Account operators rank (d.note (.put v payload mode)) w' first batches current' := by
  obtain ⟨hactive, step, hcurrent, hmode⟩ := Writer.put_eq_ok hw
  have hstep : step = d.step :=
    Option.some.inj (hcurrent.symm.trans (h.currentStep_of_active hactive))
  cases mode with
  | sync =>
    obtain ⟨draft, hcall, rfl⟩ := hmode
    rw [h.operators_eq] at hcall
    have hcalls : w.draft.calls operators [.put v step payload] = .ok draft := by
      rw [Draft.calls, List.foldlM_cons, hcall]
      rfl
    refine ⟨rfl, _, h.extend hactive hsteps hcalls ?_ (d.note _) rfl ?_ h.deferred_eq
      h.deferred_fit⟩
    · intro v' step' payload' hmem
      cases List.mem_singleton.mp hmem
      exact ⟨hstep, hv⟩
    · rw [hstep]
      rfl
  | deferred =>
    have hw' : w' = { w with deferred := w.deferred ++ [(v, payload)] } := hmode
    have hfit : ∀ p ∈ w.deferred ++ [(v, payload)], p.1.Fits := by
      intro p hp
      rcases List.mem_append.mp hp with hp | hp
      · exact h.deferred_fit p hp
      · exact List.mem_singleton.mp hp ▸ hv
    rw [hw']
    have hcalls : w.draft.calls operators [] = .ok w.draft := rfl
    refine ⟨rfl, _, h.extend hactive hsteps hcalls ?_ (d.note _) rfl ?_ ?_ hfit⟩
    · exact fun _ _ _ hmem => absurd hmem List.not_mem_nil
    · exact (List.append_nil _).symm
    · rw [h.deferred_eq]
      rfl

theorem Writer.calls_of_putAll {step : UInt64} {draft draft' : Draft}
    {blocks : List (Variable × Bytes)}
    (h : Writer.putAll operators step draft blocks = (draft', .ok ())) :
    draft.calls operators (blocks.map (fun p => .put p.1 step p.2)) = .ok draft' := by
  induction blocks generalizing draft with
  | nil =>
    cases h
    rfl
  | cons p rest ih =>
    obtain ⟨v, payload⟩ := p
    rw [Writer.putAll] at h
    split at h
    · rename_i next hput
      have hcall : draft.call operators (.put v step payload) = .ok next := by
        rw [Draft.call, hput]
      rw [List.map_cons, Draft.calls, List.foldlM_cons, hcall]
      exact ih h
    · cases h

theorem Writer.performPuts_eq_ok (h : w.performPuts = (w', .ok ())) : w.stage = .active ∧
    ∃ step draft, w.currentStep = some step ∧
      w.draft.calls w.operators (w.deferred.map (fun p => .put p.1 step p.2)) = .ok draft ∧
      w' = { w with draft, deferred := [] } := by
  unfold Writer.performPuts at h
  split at h
  · cases h
  · rename_i step hstep
    obtain ⟨hactive, hcurrent⟩ := Writer.activeStep_eq_ok.mp hstep
    cases hput : Writer.putAll w.operators step w.draft w.deferred with
    | mk draft result =>
      rw [hput] at h
      cases h
      exact ⟨hactive, step, draft, hcurrent, Writer.calls_of_putAll hput, rfl⟩

theorem Draft.written_puts (step : UInt64) (blocks : List (Variable × Bytes)) :
    Draft.written (blocks.map (fun p => .put p.1 step p.2)) =
      blocks.map (fun p => ⟨step, p.1, p.2⟩) := by
  induction blocks with
  | nil => rfl
  | cons p rest ih => exact congrArg _ ih

theorem Account.performPuts (h : Account operators rank d w first batches current)
    (hsteps : d.steps < 2 ^ 64) (hw : w.performPuts = (w', .ok ())) :
    ∃ current', Account operators rank (d.note .performPuts) w' first batches current' := by
  obtain ⟨hactive, step, draft, hcurrent, hcalls, rfl⟩ := Writer.performPuts_eq_ok hw
  have hstep : step = d.step :=
    Option.some.inj (hcurrent.symm.trans (h.currentStep_of_active hactive))
  rw [h.operators_eq] at hcalls
  refine ⟨_, h.extend hactive hsteps hcalls ?_ (d.note .performPuts) rfl ?_ rfl ?_⟩
  · intro v step' payload hmem
    obtain ⟨p, hp, heq⟩ := List.mem_map.mp hmem
    cases heq
    exact ⟨hstep, h.deferred_fit p hp⟩
  · rw [Draft.written_puts, hstep, h.deferred_eq]
    rfl
  · exact fun p hp => absurd hp List.not_mem_nil

/-! ## Ending a step -/

/-- The calls on the draft at the end of a step. -/
def Writer.closing (w : Writer) (step : UInt64) (now : Moment) : List Draft.Call :=
  (if w.attributesSent then [] else [.attach w.attributes]) ++ [.stamp step now.millis]

theorem Writer.calls_closing (w : Writer) (step : UInt64) (now : Moment) :
    w.draft.calls operators (w.closing step now) = .ok (w.completeStep step now).draft := by
  unfold Writer.closing Writer.completeStep
  cases w.attributesSent <;> rfl

theorem Writer.not_put_mem_closing {step : UInt64} {now : Moment} {v : Variable} {s : UInt64}
    {payload : Bytes} : Draft.Call.put v s payload ∉ w.closing step now := by
  unfold Writer.closing
  cases w.attributesSent <;> simp

theorem Account.completeStep (h : Account operators rank d w first batches current)
    (hsteps : d.steps < 2 ^ 64) (hactive : w.stage = .active) (hnil : w.deferred = [])
    (step : UInt64) (now : Moment) :
    ∃ current', Account operators rank d (w.completeStep step now) first batches current' := by
  have hwritten : Draft.written (w.closing step now) = [] := by
    unfold Writer.closing
    cases w.attributesSent <;> rfl
  have hnew := h.extend hactive hsteps (w.calls_closing step now)
    (fun _ _ _ hmem => absurd hmem Writer.not_put_mem_closing) d rfl
    (by rw [hwritten, List.append_nil]) h.deferred_eq h.deferred_fit
  have hspan := h.span
  rw [if_pos hactive] at hspan
  exact ⟨_, { hnew with
    span := hspan
    deferred_nil := fun _ => hnil
    closed := fun hclosed => nomatch hclosed }⟩

/-- **Finishing a message seals the batch.** -/
theorem Account.flush (h : Account operators rank d w first batches current)
    (hidle : w.stage = .idle) (hbatch : 0 < w.batchSteps) (hfits : w.draft.Fits) :
    w.flush.2.Seals operators rank current ∧
      Account operators rank d w.flush.1 d.steps (batches ++ [current]) [] := by
  have hspan := h.span
  rw [if_neg (by rw [hidle]; decide), Nat.add_zero] at hspan
  obtain ⟨d₀, hrank, hcalls⟩ := h.filling (by omega)
  have hfit := hfits.calls (Draft.tracks_calls hcalls) h.fits
  refine ⟨.mk _ _ hrank hcalls hfit hfits.length, ?_⟩
  exact {
    operators_eq := h.operators_eq
    rank_eq := (Draft.rank_ensureOpen w.draft).trans h.rank_eq
    currentStep := h.currentStep
    deferred_eq := h.deferred_eq
    performed := by
      rw [List.flatten_append, List.flatten_singleton, List.append_nil]
      exact h.performed
    span := by
      show d.steps + 0 + (if w.stage = .active then 1 else 0) = d.steps
      rw [hidle]
      rfl
    filling := fun hlt => absurd hlt (Nat.lt_irrefl _)
    resting := fun _ => rfl
    deferred_nil := h.deferred_nil
    closed := fun _ => rfl
    count := by
      have hcount := h.count
      rw [List.length_append, List.length_singleton]
      omega
    before := by
      intro b hb x hx
      rcases List.mem_append.mp hb with hb | hb
      · have hlt := h.before b hb x hx
        omega
      · exact (h.since x (List.mem_singleton.mp hb ▸ hx)).2
    ordered := by
      refine List.pairwise_append.mpr ⟨h.ordered, List.pairwise_singleton _ _, ?_⟩
      intro b hb b' hb' x hx y hy
      rw [List.mem_singleton.mp hb'] at hy
      exact UInt64.lt_iff_toNat_lt.mpr (Nat.lt_of_lt_of_le (h.before b hb x hx) (h.since y hy).1)
    since := fun _ hx => absurd hx List.not_mem_nil
    fits := fun _ _ _ hmem => absurd hmem List.not_mem_nil
    deferred_fit := h.deferred_fit }

theorem Account.ended (h : Account operators rank d w first batches current)
    (hsteps : d.steps < 2 ^ 64) (hw : w.performPuts = (w', .ok ())) (now : Moment) :
    ∃ current', Account operators rank (d.note (.endStep now)) (w.ended now) first batches
      current' := by
  obtain ⟨performed, hnew⟩ := h.performPuts hsteps hw
  obtain ⟨hactive, step, draft, hcurrent, hcalls, rfl⟩ := Writer.performPuts_eq_ok hw
  rw [Writer.ended, hw]
  exact hnew.completeStep hsteps hactive rfl _ now

theorem Writer.endStep_eq_ok {now : Moment} {ms : List Outgoing}
    (h : w.endStep now = (w', .ok ms)) : w.stage = .active ∧ (∃ w₁, w.performPuts = (w₁, .ok ())) ∧
      (w.ended now).stage = .idle ∧ (w.ended now).batchSteps = w.batchSteps + 1 ∧
      (w', ms) = if w.settings.aggregation ≤ w.batchSteps + 1 then
        ((w.ended now).flush.1, [(w.ended now).flush.2]) else (w.ended now, []) := by
  unfold Writer.endStep at h
  split at h
  · cases h
  · rename_i step hstep
    obtain ⟨hactive, hcurrent⟩ := Writer.activeStep_eq_ok.mp hstep
    split at h
    · cases h
    · rename_i w₁ hperform
      have hended : w.ended now = w₁.completeStep step now := by
        rw [Writer.ended, hperform, hcurrent]
        rfl
      obtain ⟨-, _, draft, -, -, rfl⟩ := Writer.performPuts_eq_ok hperform
      refine ⟨hactive, ⟨_, hperform⟩, by rw [hended]; rfl, by rw [hended]; rfl, ?_⟩
      rw [← hended] at h
      have hsettings : (w.ended now).settings = w.settings := by
        rw [hended]
        rfl
      have hbatch : (w.ended now).batchSteps = w.batchSteps + 1 := by
        rw [hended]
        rfl
      simp only [hsettings, hbatch] at h
      split at h
      · rename_i hfull
        cases h
        rw [if_pos hfull]
      · rename_i hfull
        cases h
        rw [if_neg hfull]

theorem Account.endStep (h : Account operators rank d w first batches current)
    (hsteps : d.steps < 2 ^ 64) {now : Moment} {ms : List Outgoing}
    (hw : w.endStep now = (w', .ok ms))
    (hfits : w.settings.aggregation ≤ w.batchSteps + 1 → (w.ended now).draft.Fits) :
    ∃ first' new current', Account operators rank (d.note (.endStep now)) w' first'
      (batches ++ new) current' ∧ Shipment operators rank new false ms := by
  obtain ⟨hactive, ⟨w₁, hperform⟩, hidle, hbatch, heq⟩ := Writer.endStep_eq_ok hw
  obtain ⟨ended, hended⟩ := h.ended hsteps hperform now
  split at heq
  · rename_i hfull
    obtain ⟨rfl, rfl⟩ := Prod.mk.inj heq
    obtain ⟨hseals, hflush⟩ := hended.flush hidle (by omega) (hfits hfull)
    exact ⟨_, _, _, hflush, .cons hseals .nil⟩
  · obtain ⟨rfl, rfl⟩ := Prod.mk.inj heq
    exact ⟨_, [], _, by rwa [List.append_nil], .nil⟩

/-! ## Closing -/

theorem Account.closed_of_resting (h : Account operators rank d w d.steps batches [])
    (hbatch : w.batchSteps = 0) (hnil : w.deferred = []) :
    Account operators rank d { w with stage := .closed } d.steps batches [] :=
  { h with
    span := by
      rw [hbatch]
      rfl
    deferred_nil := fun _ => hnil
    closed := fun _ => rfl }

/-- Whatever was not sent yet is sealed, and the end of the stream comes after it. -/
theorem Account.finish (h : Account operators rank d w first batches current)
    (hidle : w.stage = .idle) (hfits : 0 < w.batchSteps → w.draft.Fits) :
    ∃ new, Account operators rank d w.finish.1 d.steps (batches ++ new) [] ∧
      Shipment operators rank new true w.finish.2 := by
  have hnil : w.deferred = [] := h.deferred_nil (by rw [hidle]; decide)
  unfold Writer.finish
  by_cases hbatch : 0 < w.batchSteps
  · obtain ⟨hseals, hflush⟩ := h.flush hidle hbatch (hfits hbatch)
    simp only [hbatch, if_true]
    exact ⟨_, hflush.closed_of_resting rfl hnil, .cons hseals (.finish _)⟩
  · have hspan := h.span
    rw [hidle, if_neg (by decide)] at hspan
    have hfirst : first = d.steps := by omega
    have hcurrent := h.resting hfirst
    subst hfirst hcurrent
    simp only [hbatch, if_false]
    refine ⟨[], ?_, .finish _⟩
    rw [List.append_nil]
    exact h.closed_of_resting (by omega) hnil

theorem Account.define (h : Account operators rank d w first batches current)
    (attributes : Attributes) :
    Account operators rank d { w with attributes } first batches current := { h with }

theorem Diary.note_close (now : Moment) (h : d.deferred = []) : d.note (.close now) = d := by
  cases d
  cases h
  simp [Diary.note, Diary.blocks]

theorem Account.close (h : Account operators rank d w first batches current) {now : Moment}
    {ms : List Outgoing} (hw : w.close now = (w', .ok ms))
    (hfits : ∀ draft ∈ w.finishes? (.close now), draft.Fits) (hsteps : d.steps < 2 ^ 64) :
    ∃ first' new current' last,
      Account operators rank (d.note (.close now)) w' first' (batches ++ new) current' ∧
      Shipment operators rank new last ms ∧ w'.stage = .closed ∧
      (last = true ↔ w.stage ≠ .closed) := by
  have hstage : w.finish.1.stage = .closed := rfl
  unfold Writer.close at hw
  cases hcase : w.stage with
  | closed =>
    simp only [hcase] at hw
    cases hw
    have hnil := h.deferred_nil (by rw [hcase]; decide)
    rw [Diary.note_close now (h.deferred_eq ▸ hnil)]
    exact ⟨_, [], _, false, by rwa [List.append_nil], .nil, hcase, by simp⟩
  | idle =>
    simp only [hcase] at hw
    cases hw
    have hnil := h.deferred_nil (by rw [hcase]; decide)
    rw [Diary.note_close now (h.deferred_eq ▸ hnil)]
    obtain ⟨new, hfinish, hship⟩ := h.finish hcase fun hbatch =>
      hfits w.draft (by simp [Writer.finishes?, hcase, hbatch])
    exact ⟨_, new, _, true, hfinish, hship, hstage, by simp⟩
  | active =>
    simp only [hcase] at hw
    have hdraft : (w.ended now).draft.Fits := hfits _ (by simp [Writer.finishes?, hcase])
    cases hend : w.endStep now with
    | mk w₁ result =>
      rw [hend] at hw
      cases result with
      | error f => cases hw
      | ok before =>
        cases hw
        obtain ⟨first₁, new₁, current₁, h₁, hship₁⟩ := h.endStep hsteps hend fun _ => hdraft
        obtain ⟨-, -, hidle, -, heq⟩ := Writer.endStep_eq_ok hend
        have hw₁ : w₁.stage = .idle ∧ (0 < w₁.batchSteps → w₁.draft.Fits) := by
          split at heq
          · obtain ⟨rfl, -⟩ := Prod.mk.inj heq
            exact ⟨hidle, fun hlt => absurd hlt (Nat.lt_irrefl 0)⟩
          · obtain ⟨rfl, -⟩ := Prod.mk.inj heq
            exact ⟨hidle, fun _ => hdraft⟩
        obtain ⟨new₂, h₂, hship₂⟩ := h₁.finish hw₁.1 hw₁.2
        rw [List.append_assoc] at h₂
        exact ⟨_, _, _, true, h₂, hship₁.append hship₂, rfl, by simp⟩

/-- **A call keeps the account.** The messages that it finishes seal new batches, and the last of
them ends the stream if the writer closes. -/
theorem Account.act (h : Account operators rank d w first batches current) {c : Writer.Call}
    {ms : List Outgoing} (hw : w.act c = (w', .ok ms)) (hc : c.Fits)
    (hfits : ∀ draft ∈ w.finishes? c, draft.Fits) (hsteps : d.steps < 2 ^ 64) :
    ∃ first' new current' last,
      Account operators rank (d.note c) w' first' (batches ++ new) current' ∧
      Shipment operators rank new last ms ∧
      (w'.stage = .closed ↔ w.stage = .closed ∨ last = true) ∧
      (last = true → w.stage ≠ .closed) := by
  cases c with
  | define name a =>
    rw [Writer.act, Writer.defineAttribute] at hw
    cases hopen : w.ensureOpen with
    | error f =>
      rw [hopen] at hw
      cases hw
    | ok _ =>
      rw [hopen] at hw
      cases hw
      exact ⟨_, [], _, false, by rw [List.append_nil]; exact h.define _, .nil, by simp, by simp⟩
  | beginStep =>
    rw [Writer.act] at hw
    cases hbegin : w.beginStep with
    | error f =>
      rw [hbegin] at hw
      cases hw
    | ok w₁ =>
      rw [hbegin] at hw
      cases hw
      obtain ⟨hidle, hactive, -⟩ := Writer.beginStep_eq_ok hbegin
      refine ⟨_, [], _, false, by rw [List.append_nil]; exact h.beginStep hbegin, .nil, ?_, by simp⟩
      simp [hidle, hactive]
  | put v payload mode =>
    cases hput : w.put v payload mode with
    | mk w₁ result =>
      rw [Writer.act, hput] at hw
      cases result with
      | error f => cases hw
      | ok _ =>
        cases hw
        obtain ⟨hstage, current', hnew⟩ := h.put hsteps hput hc
        exact ⟨_, [], _, false, by rwa [List.append_nil], .nil, by simp [hstage], by simp⟩
  | performPuts =>
    cases hperform : w.performPuts with
    | mk w₁ result =>
      rw [Writer.act, hperform] at hw
      cases result with
      | error f => cases hw
      | ok _ =>
        cases hw
        obtain ⟨current', hnew⟩ := h.performPuts hsteps hperform
        obtain ⟨-, _, draft, -, -, rfl⟩ := Writer.performPuts_eq_ok hperform
        exact ⟨_, [], _, false, by rwa [List.append_nil], .nil, by simp, by simp⟩
  | endStep now =>
    obtain ⟨first', new, current', hnew, hship⟩ := h.endStep hsteps hw fun hfull =>
      hfits _ (by simp [Writer.finishes?, hfull])
    obtain ⟨hactive, -, hidle, -, heq⟩ := Writer.endStep_eq_ok hw
    refine ⟨_, new, _, false, hnew, hship, ?_, by simp⟩
    split at heq
    · obtain ⟨rfl, -⟩ := Prod.mk.inj heq
      simp [Writer.flush, hidle, hactive]
    · obtain ⟨rfl, -⟩ := Prod.mk.inj heq
      simp [hidle, hactive]
  | close now =>
    obtain ⟨first', new, current', last, hnew, hship, hclosed, hlast⟩ := h.close hw hfits hsteps
    refine ⟨_, new, _, last, hnew, hship, ?_, hlast.mp⟩
    simp only [hclosed, true_iff, hlast]
    exact Decidable.em _

theorem Writer.act_of_closed (hclosed : w.stage = .closed) {c : Writer.Call} {ms : List Outgoing}
    (hw : w.act c = (w', .ok ms)) : w' = w ∧ ms = [] := by
  have hopen : w.ensureOpen = .error (.closed (.stream w.name)) := by
    rw [Writer.ensureOpen, if_pos hclosed]
  have hactive : ∀ operation, w.activeStep operation = .error (.closed (.stream w.name)) := by
    intro operation
    rw [Writer.activeStep, hopen]
    rfl
  cases c with
  | define name a =>
    rw [Writer.act, Writer.defineAttribute, hopen] at hw
    cases hw
  | beginStep =>
    rw [Writer.act, Writer.beginStep, hopen] at hw
    cases hw
  | put v payload mode =>
    rw [Writer.act, Writer.put, hactive] at hw
    cases hw
  | performPuts =>
    rw [Writer.act, Writer.performPuts, hactive] at hw
    cases hw
  | endStep now =>
    rw [Writer.act, Writer.endStep, hactive] at hw
    cases hw
  | close now =>
    rw [Writer.act, Writer.close, hclosed] at hw
    cases hw
    exact ⟨rfl, rfl⟩

end Account

end Stepcast
