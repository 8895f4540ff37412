import Stepcast.Proofs.Delivery.Runs

/-!
# The messages of a whole run

The messages of a run are the steps of its log in groups of the size that the settings ask for, and
the end record. The invariant that carries this through a run, `Follows`, counts the steps in
finished messages and those in the draft: together they are the ended ones, and the draft was told
just what the log says of its steps.

Main statements: `Follows.act`, `Keeps.run`, `messages_run`.
-/

namespace Stepcast

namespace Writer

/-! ## What a run keeps -/

/-- The message is the finished draft of the ended steps from `first` on, those before `stop`. -/
def Packed (operators : Operators) (rank : UInt32) (l : Log) (first stop : Nat) (m : Outgoing) :
    Prop :=
  ∃ d₀ d : Draft, d₀.rank = rank ∧ d₀.open.calls operators (l.batch first stop) = .ok d ∧
    m = .data d.finish.1 (UInt64.ofNat first) (UInt64.ofNat (stop - 1))

/-- The writer is open and has done what the log says: it has finished `data`, one message for each
`size` steps, and its draft holds the steps since then. -/
structure Follows (operators : Operators) (rank : UInt32) (size : Nat) (l : Log) (w : Writer)
    (data : List Outgoing) : Prop where
  operators_eq : w.operators = operators
  rank_eq : w.draft.rank = rank
  size_eq : w.settings.aggregation = size
  attributes_eq : w.attributes = l.attributes
  sent_eq : w.attributesSent = l.sent.isSome
  sent_iff : l.sent = none ↔ l.ended = []
  deferred_eq : w.deferred = l.deferred
  deferred_nil : l.active = none → l.deferred = []
  stage_eq : w.stage = if l.active.isSome then .active else .idle
  currentStep_eq : w.currentStep = l.lastStep
  begun_eq : l.begun = l.ended.length + if l.active.isSome then 1 else 0
  span : data.length * size + w.batchSteps = l.ended.length
  filling : l.active.isSome ∨ 0 < w.batchSteps →
    w.batchFirst = UInt64.ofNat (data.length * size) ∧ ∃ d₀ : Draft, d₀.rank = rank ∧
      d₀.open.calls operators (l.batch (data.length * size) l.ended.length ++ l.pending) =
        .ok w.draft
  packed : ∀ j m, data[j]? = some m → Packed operators rank l (j * size) ((j + 1) * size) m

/-- The writer is closed and has finished `ms`: its ended steps in groups of `size`, the last of
them perhaps shorter, and the end record. -/
structure Finished (operators : Operators) (rank : UInt32) (size : Nat) (l : Log) (w : Writer)
    (ms : List Outgoing) : Prop where
  stage_eq : w.stage = .closed
  active_eq : l.active = none
  deferred_eq : l.deferred = []
  currentStep_eq : w.currentStep = l.lastStep
  begun_eq : l.begun = l.ended.length
  sent_iff : l.sent = none ↔ l.ended = []
  messages : ∃ data, ms = data ++ [.finish (Frame.endRecord l.lastStep) l.lastStep] ∧
    data.length = (l.ended.length + size - 1) / size ∧
    ∀ j m, data[j]? = some m →
      Packed operators rank l (j * size) (min ((j + 1) * size) l.ended.length) m

section Follows

variable {operators : Operators} {rank : UInt32} {size : Nat} {l l' : Log} {w w' : Writer}
  {data : List Outgoing}

theorem Packed.grows {first stop : Nat} {m : Outgoing} (h : Packed operators rank l first stop m)
    (hgrows : l.Grows l') (hstop : stop ≤ l.ended.length) :
    Packed operators rank l' first stop m := by
  obtain ⟨d₀, d, hrank, hcalls, hm⟩ := h
  exact ⟨d₀, d, hrank, by rwa [hgrows.batch hstop], hm⟩

theorem follows_create (name : String) (settings : Settings) (rank : UInt32)
    (operators : Operators) (now : Moment) :
    Follows operators rank settings.aggregation {} (create name settings rank operators now)
      [] where
  operators_eq := rfl
  rank_eq := rfl
  size_eq := rfl
  attributes_eq := rfl
  sent_eq := rfl
  sent_iff := ⟨fun _ => rfl, fun _ => rfl⟩
  deferred_eq := rfl
  deferred_nil := fun _ => rfl
  stage_eq := rfl
  currentStep_eq := rfl
  begun_eq := rfl
  span := Nat.zero_mul _
  filling := fun h => absurd h (by simp [create])
  packed := fun j m hj => absurd hj (by simp)

theorem Follows.stage_active (h : Follows operators rank size l w data) :
    w.stage = .active ↔ ∃ blocks, l.active = some blocks := by
  rw [h.stage_eq, ← Option.isSome_iff_exists]
  split <;> simp_all

theorem Follows.stage_ne_closed (h : Follows operators rank size l w data) : w.stage ≠ .closed := by
  rw [h.stage_eq]
  split <;> decide

theorem Follows.isOpen (h : Follows operators rank size l w data) (hactive : w.stage = .active) :
    w.draft.payload.isSome := by
  obtain ⟨blocks, hblocks⟩ := h.stage_active.mp hactive
  obtain ⟨-, d₀, -, hcalls⟩ := h.filling (.inl (by rw [hblocks]; rfl))
  exact (Draft.tracks_calls hcalls).isOpen

theorem Follows.currentStep_of_active (h : Follows operators rank size l w data)
    {blocks : List (Variable × Bytes)} (hactive : l.active = some blocks) :
    w.currentStep = some (UInt64.ofNat l.ended.length) := by
  have hbegun := h.begun_eq
  rw [hactive, Option.isSome_some, if_pos rfl] at hbegun
  rw [h.currentStep_eq, Log.lastStep, hbegun, if_neg (Nat.succ_ne_zero _), Nat.add_sub_cancel]

/-! ### Between steps -/

theorem Follows.define (h : Follows operators rank size l w data) (name : String) (a : Attribute) :
    Follows operators rank size (l.note (.define name a))
      { w with attributes := w.attributes.put name a } data :=
  { h with attributes_eq := by rw [h.attributes_eq]; rfl }

/-- A step begins on an open draft that holds the ended steps of its batch. -/
theorem Follows.activate (h : Follows operators rank size l w data) (hidle : l.active = none)
    {d₀ draft : Draft} (hrank : d₀.rank = rank)
    (hcalls : d₀.open.calls operators (l.batch (data.length * size) l.ended.length) = .ok draft)
    (stepStart : Nat) :
    Follows operators rank size (l.note .beginStep)
      { w with
        draft
        batchFirst := UInt64.ofNat (data.length * size)
        currentStep := some (w.currentStep.elim 0 (· + 1))
        stepStart
        stage := .active } data :=
  { h with
    rank_eq := (Draft.rank_calls hcalls).trans hrank
    deferred_nil := fun hnone => by cases hnone
    stage_eq := rfl
    currentStep_eq := by
      rw [h.currentStep_eq, l.elim_lastStep]
      rfl
    begun_eq := by
      have hbegun := h.begun_eq
      rw [hidle] at hbegun
      exact congrArg Nat.succ hbegun
    filling := fun _ => ⟨rfl, d₀, hrank, by rw [← hcalls]; exact congrArg _ (List.append_nil _)⟩ }

theorem Follows.beginStep (h : Follows operators rank size l w data) (hw : w.beginStep = .ok w') :
    Follows operators rank size (l.note .beginStep) w' data ∧ w'.batchSteps = w.batchSteps := by
  have hstage := (beginStep_eq_ok hw).1
  have hidle : l.active = none := by
    by_contra hne
    obtain ⟨blocks, hblocks⟩ := Option.ne_none_iff_exists'.mp hne
    rw [h.stage_active.mpr ⟨blocks, hblocks⟩] at hstage
    cases hstage
  have hspan := h.span
  unfold Writer.beginStep ensureOpen at hw
  simp only [hstage, reduceCtorEq, if_false, ok_bind, pure_eq_ok, Except.ok.injEq] at hw
  by_cases hzero : w.batchSteps = 0
  · -- The draft is opened, and no step of its batch has ended.
    have hended : l.ended.length = data.length * size := by omega
    have hfirst : w.currentStep.elim 0 (· + 1) = UInt64.ofNat (data.length * size) := by
      have hbegun := h.begun_eq
      rw [hidle] at hbegun
      rw [h.currentStep_eq, l.elim_lastStep, hbegun, hended]
      rfl
    have hcalls : w.draft.open.calls operators (l.batch (data.length * size) l.ended.length) =
        .ok w.draft.open := by
      rw [hended, Log.batch_self]
      rfl
    rw [if_pos hzero] at hw
    subst hw
    have hbegin := h.activate hidle h.rank_eq hcalls w.draft.open.size
    rw [← hfirst] at hbegin
    exact ⟨hbegin, rfl⟩
  · obtain ⟨hfirst, d₀, hrank, hcalls⟩ := h.filling (.inr (Nat.pos_of_ne_zero hzero))
    rw [Log.pending_of_idle hidle, List.append_nil] at hcalls
    rw [if_neg hzero] at hw
    subst hw
    have hbegin := h.activate hidle hrank hcalls w.draft.size
    rw [← hfirst] at hbegin
    exact ⟨hbegin, rfl⟩

/-! ### Within a step -/

theorem Follows.extend (h : Follows operators rank size l w data)
    {blocks : List (Variable × Bytes)} (hactive : l.active = some blocks)
    {new : List (Variable × Bytes)} {draft : Draft}
    (hcalls : w.draft.calls operators
      (new.map (fun p => .put p.1 (UInt64.ofNat l.ended.length) p.2)) = .ok draft)
    {left deferred : List (Variable × Bytes)} (hleft : left = deferred) :
    Follows operators rank size { l with active := some (blocks ++ new), deferred }
      { w with draft, deferred := left } data :=
  { h with
    rank_eq := (Draft.rank_calls hcalls).trans h.rank_eq
    deferred_eq := hleft
    deferred_nil := fun hnone => by cases hnone
    stage_eq := by
      rw [h.stage_eq, hactive]
      rfl
    begun_eq := by
      rw [h.begun_eq, hactive]
      rfl
    filling := by
      intro _
      obtain ⟨hfirst, d₀, hrank, hbefore⟩ := h.filling (.inl (by rw [hactive]; rfl))
      refine ⟨hfirst, d₀, hrank, ?_⟩
      rw [Log.pending, hactive] at hbefore
      have hall := (Draft.calls_append hbefore).trans hcalls
      rw [List.append_assoc, ← List.map_append] at hall
      exact hall }

theorem Follows.put (h : Follows operators rank size l w data) {v : Variable} {payload : Bytes}
    {mode : PutMode} (hw : w.put v payload mode = (w', .ok ())) :
    Follows operators rank size (l.note (.put v payload mode)) w' data ∧
      w'.batchSteps = w.batchSteps := by
  obtain ⟨hactive, step, hcurrent, hmode⟩ := put_eq_ok hw
  obtain ⟨blocks, hblocks⟩ := h.stage_active.mp hactive
  have hstep : step = UInt64.ofNat l.ended.length :=
    Option.some.inj (hcurrent.symm.trans (h.currentStep_of_active hblocks))
  cases mode with
  | sync =>
    obtain ⟨draft, hcall, rfl⟩ := hmode
    have hcalls : w.draft.calls operators
        ([(v, payload)].map (fun p => .put p.1 (UInt64.ofNat l.ended.length) p.2)) =
          .ok draft := by
      rw [← hstep, ← h.operators_eq, Draft.calls, List.map_singleton, List.foldlM_cons, hcall]
      rfl
    have hlog : l.note (.put v payload .sync) =
        { l with active := some (blocks ++ [(v, payload)]), deferred := l.deferred } := by
      rw [Log.note, hblocks, Option.map_some]
    rw [hlog]
    exact ⟨h.extend hblocks hcalls h.deferred_eq, rfl⟩
  | deferred =>
    have hw' : w' = { w with deferred := w.deferred ++ [(v, payload)] } := hmode
    have hlog : l.note (.put v payload .deferred) = { l with
        active := some (blocks ++ []), deferred := l.deferred ++ [(v, payload)] } := by
      rw [Log.note, List.append_nil, ← hblocks]
    rw [hlog, hw']
    exact ⟨h.extend hblocks rfl (by rw [h.deferred_eq]), rfl⟩

theorem Follows.performPuts (h : Follows operators rank size l w data)
    (hw : w.performPuts = (w', .ok ())) :
    Follows operators rank size l.perform w' data ∧ w'.batchSteps = w.batchSteps := by
  obtain ⟨hactive, step, draft, hcurrent, hcalls, rfl⟩ := performPuts_eq_ok hw
  obtain ⟨blocks, hblocks⟩ := h.stage_active.mp hactive
  have hstep : step = UInt64.ofNat l.ended.length :=
    Option.some.inj (hcurrent.symm.trans (h.currentStep_of_active hblocks))
  rw [h.operators_eq, h.deferred_eq, hstep] at hcalls
  rw [Log.perform, hblocks, Option.map_some]
  exact ⟨h.extend hblocks hcalls rfl, rfl⟩

/-! ### Ending a step -/

theorem Follows.grows_complete (h : Follows operators rank size l w data) (now : Moment) :
    l.Grows (l.complete now) := by
  cases hactive : l.active with
  | none =>
    rw [Log.complete, hactive]
    exact .refl l
  | some blocks =>
    refine ⟨⟨_, Log.ended_complete hactive⟩, fun hne => ?_⟩
    obtain ⟨a, ha⟩ := Option.ne_none_iff_exists'.mp (mt h.sent_iff.mp hne)
    rw [Log.sent_complete hactive, ha, Option.some_or]

/-- The calls that close a step make those of the step complete. -/
theorem Follows.calls_complete (h : Follows operators rank size l w data)
    {blocks : List (Variable × Bytes)} (hactive : l.active = some blocks) (now : Moment) :
    (l.complete now).calls l.ended.length =
      l.pending ++ w.closing (UInt64.ofNat l.ended.length) now := by
  rw [Log.calls, Log.ended_complete hactive, Log.sent_complete hactive, List.getElem?_concat_length,
    Log.pending, hactive, closing]
  dsimp only [Draft.stepCalls, Option.getD_some]
  rw [h.sent_eq, h.attributes_eq]
  congr 2
  cases hsent : l.sent with
  | none =>
    rw [h.sent_iff.mp hsent]
    rfl
  | some a =>
    have hne : l.ended.length ≠ 0 := by
      intro hzero
      rw [h.sent_iff.mpr (List.eq_nil_of_length_eq_zero hzero)] at hsent
      cases hsent
    rw [if_neg hne]
    rfl

/-- The batch of a step that ends: the draft was told what came before, and is told the rest. -/
theorem Follows.batch_complete (h : Follows operators rank size l w data)
    {blocks : List (Variable × Bytes)} (hactive : l.active = some blocks) (now : Moment) :
    (l.complete now).batch (data.length * size) (l.ended.length + 1) =
      l.batch (data.length * size) l.ended.length ++ l.pending ++
        w.closing (UInt64.ofNat l.ended.length) now := by
  have hle : data.length * size ≤ l.ended.length := by
    have hspan := h.span
    omega
  rw [← Log.batch_append hle (Nat.le_succ _), Log.batch_succ,
    (h.grows_complete now).batch (Nat.le_refl _), h.calls_complete hactive, List.append_assoc]

/-- A step ends when its last blocks were put: the attributes and the time complete its calls. -/
theorem Follows.completeStep (h : Follows operators rank size l w data)
    {blocks : List (Variable × Bytes)} (hactive : l.active = some blocks)
    (hdeferred : l.deferred = []) (now : Moment) :
    Follows operators rank size (l.complete now)
      (w.completeStep (UInt64.ofNat l.ended.length) now) data := by
  have hdraft : w.draft.calls operators (w.closing (UInt64.ofNat l.ended.length) now) =
      .ok (w.completeStep (UInt64.ofNat l.ended.length) now).draft := w.calls_closing _ now
  obtain ⟨hfirst, d₀, hrank, hbefore⟩ := h.filling (.inl (by rw [hactive]; rfl))
  have hspan := h.span
  have hended : (l.complete now).ended.length = l.ended.length + 1 := by
    rw [Log.ended_complete hactive, List.length_append, List.length_singleton]
  exact {
    operators_eq := h.operators_eq
    rank_eq := (Draft.rank_calls hdraft).trans h.rank_eq
    size_eq := h.size_eq
    attributes_eq := h.attributes_eq.trans Log.attributes_complete.symm
    sent_eq := by
      rw [Log.sent_complete hactive]
      show true = (l.sent.or (some l.attributes)).isSome
      cases l.sent <;> rfl
    sent_iff := by
      rw [Log.sent_complete hactive, Log.ended_complete hactive]
      cases l.sent <;> simp
    deferred_eq := h.deferred_eq.trans Log.deferred_complete.symm
    deferred_nil := by simp [hdeferred]
    stage_eq := by
      rw [Log.active_complete]
      rfl
    currentStep_eq := h.currentStep_eq.trans Log.lastStep_complete.symm
    begun_eq := by simp [h.begun_eq, hactive, hended]
    span := by
      show data.length * size + (w.batchSteps + 1) = _
      omega
    filling := by
      intro _
      refine ⟨hfirst, d₀, hrank, ?_⟩
      rw [hended, h.batch_complete hactive, Log.pending_of_idle Log.active_complete,
        List.append_nil]
      exact (Draft.calls_append hbefore).trans hdraft
    packed := by
      intro j m hj
      have hlt : j < data.length := (List.getElem?_eq_some_iff.mp hj).1
      have hle : (j + 1) * size ≤ data.length * size := Nat.mul_le_mul_right _ hlt
      exact (h.packed j m hj).grows (h.grows_complete now) (by omega) }

theorem Follows.ended (h : Follows operators rank size l w data)
    (hw : w.performPuts = (w', .ok ())) (now : Moment) :
    Follows operators rank size (l.perform.complete now) (w.ended now) data := by
  obtain ⟨hperform, -⟩ := h.performPuts hw
  obtain ⟨hactive, -⟩ := performPuts_eq_ok hw
  obtain ⟨blocks, hblocks⟩ := h.stage_active.mp hactive
  have hblocks' : l.perform.active = some (blocks ++ l.deferred) := by
    rw [Log.perform, hblocks, Option.map_some]
  rw [Writer.ended, hw, h.currentStep_of_active hblocks, Option.getD_some]
  exact hperform.completeStep hblocks' rfl now

/-- **A full draft goes out** as the next message. -/
theorem Follows.flush (h : Follows operators rank size l w data) (hidle : l.active = none)
    (hpos : 0 < w.batchSteps) {stop : Nat} (hstop : stop = l.ended.length) :
    Packed operators rank l (data.length * size) stop w.flush.2 ∧
      (w.batchSteps = size →
        Follows operators rank size l w.flush.1 (data ++ [w.flush.2])) := by
  obtain ⟨hfirst, d₀, hrank, hcalls⟩ := h.filling (.inr hpos)
  have hspan := h.span
  have hlast : w.currentStep = some (UInt64.ofNat (stop - 1)) := by
    have hbegun := h.begun_eq
    rw [hidle] at hbegun
    rw [h.currentStep_eq, Log.lastStep, hbegun, hstop]
    exact if_neg (by omega)
  have hpacked : Packed operators rank l (data.length * size) stop w.flush.2 := by
    rw [Log.pending_of_idle hidle, List.append_nil] at hcalls
    refine ⟨d₀, w.draft, hrank, hstop ▸ hcalls, ?_⟩
    rw [Writer.flush, hfirst, hlast]
    rfl
  refine ⟨hpacked, fun hfull => ?_⟩
  have hlength : (data ++ [w.flush.2]).length = data.length + 1 := by simp
  exact { h with
    rank_eq := (Draft.rank_ensureOpen w.draft).trans h.rank_eq
    span := by
      show (data ++ [w.flush.2]).length * size + 0 = l.ended.length
      rw [hlength, Nat.succ_mul]
      omega
    filling := fun hnot => absurd hnot (by simp [hidle, Writer.flush])
    packed := by
      intro j m hj
      rcases Nat.lt_trichotomy j data.length with hlt | rfl | hgt
      · rw [List.getElem?_append_left hlt] at hj
        exact h.packed j m hj
      · rw [List.getElem?_concat_length] at hj
        cases hj
        have hend : (data.length + 1) * size = stop := by
          rw [Nat.succ_mul]
          omega
        rw [hend]
        exact hpacked
      · rw [List.getElem?_eq_none (by omega)] at hj
        cases hj }

theorem Follows.endStep (h : Follows operators rank size l w data) (hroom : w.batchSteps < size)
    {now : Moment} {ms : List Outgoing} (hw : w.endStep now = (w', .ok ms)) :
    Follows operators rank size (l.perform.complete now) w' (data ++ ms) ∧
      w'.batchSteps < size := by
  obtain ⟨hactive, ⟨w₁, hperform⟩, -, hbatch, heq⟩ := endStep_eq_ok hw
  have hended := h.ended hperform now
  rw [h.size_eq] at heq
  by_cases hfull : size ≤ w.batchSteps + 1
  · rw [if_pos hfull] at heq
    obtain ⟨rfl, rfl⟩ := Prod.mk.inj heq
    have hflush := hended.flush Log.active_complete (by omega) rfl
    exact ⟨hflush.2 (by omega), show 0 < size by omega⟩
  · rw [if_neg hfull] at heq
    obtain ⟨rfl, rfl⟩ := Prod.mk.inj heq
    rw [List.append_nil]
    exact ⟨hended, by omega⟩

/-! ### Closing -/

theorem groups_eq {k b : Nat} (hb : 0 < b) (hle : b ≤ size) :
    (k * size + b + size - 1) / size = k + 1 := by
  have hpos : 0 < size := by omega
  have hsum : k * size + b + size - 1 = (b - 1) + (k + 1) * size := by
    rw [Nat.succ_mul]
    omega
  rw [hsum, Nat.add_mul_div_right _ _ hpos, Nat.div_eq_of_lt (by omega), Nat.zero_add]

/-- Full groups lie within the ended steps. -/
theorem Follows.packed_min (h : Follows operators rank size l w data) {j : Nat} {m : Outgoing}
    (hj : data[j]? = some m) :
    Packed operators rank l (j * size) (min ((j + 1) * size) l.ended.length) m := by
  have hlt : j < data.length := (List.getElem?_eq_some_iff.mp hj).1
  have hle : (j + 1) * size ≤ data.length * size := Nat.mul_le_mul_right _ hlt
  have hspan := h.span
  rw [Nat.min_eq_left (by omega)]
  exact h.packed j m hj

theorem Follows.finish (h : Follows operators rank size l w data) (hidle : l.active = none)
    (hroom : w.batchSteps < size) :
    Finished operators rank size l w.finish.1 (data ++ w.finish.2) := by
  have hspan := h.span
  have hbegun : l.begun = l.ended.length := by
    rw [h.begun_eq, hidle]
    rfl
  unfold Writer.finish
  by_cases hbatch : 0 < w.batchSteps
  · obtain ⟨hpacked, -⟩ := h.flush hidle hbatch rfl
    have hcurrent : w.flush.1.currentStep = l.lastStep := h.currentStep_eq
    rw [if_pos hbatch]
    refine ⟨rfl, hidle, h.deferred_nil hidle, hcurrent, hbegun, h.sent_iff, data ++ [w.flush.2],
      ?_, ?_, fun j m hj => ?_⟩
    · dsimp only
      rw [hcurrent, List.append_assoc]
    · rw [← hspan, groups_eq hbatch (Nat.le_of_lt hroom), List.length_append, List.length_singleton]
    · rcases Nat.lt_or_ge j data.length with hlt | hge
      · rw [List.getElem?_append_left hlt] at hj
        exact h.packed_min hj
      · have hlt := (List.getElem?_eq_some_iff.mp hj).1
        rw [List.length_append, List.length_singleton] at hlt
        obtain rfl : j = data.length := by omega
        rw [List.getElem?_concat_length] at hj
        cases hj
        rw [Nat.min_eq_right (by rw [Nat.succ_mul]; omega)]
        exact hpacked
  · rw [if_neg hbatch]
    refine ⟨rfl, hidle, h.deferred_nil hidle, h.currentStep_eq, hbegun, h.sent_iff, data, ?_, ?_,
      fun j m hj => h.packed_min hj⟩
    · dsimp only
      rw [h.currentStep_eq, List.nil_append]
    · have hsum : l.ended.length + size - 1 = (size - 1) + data.length * size := by omega
      rw [hsum, Nat.add_mul_div_right _ _ (by omega), Nat.div_eq_of_lt (by omega), Nat.zero_add]

/-- The writer has done what the log says, and has finished the messages `ms`. -/
def Keeps (operators : Operators) (rank : UInt32) (size : Nat) (l : Log) (w : Writer)
    (ms : List Outgoing) : Prop :=
  Follows operators rank size l w ms ∧ w.batchSteps < size ∨ Finished operators rank size l w ms

theorem Follows.close (h : Follows operators rank size l w data) (hroom : w.batchSteps < size)
    {now : Moment} {ms : List Outgoing} (hw : w.close now = (w', .ok ms)) :
    Finished operators rank size (l.perform.complete now) w' (data ++ ms) := by
  unfold Writer.close at hw
  cases hactive : l.active with
  | none =>
    have hstage : w.stage = .idle := by
      rw [h.stage_eq, hactive]
      rfl
    rw [hstage] at hw
    cases hw
    rw [Log.complete_of_resting hactive (h.deferred_nil hactive)]
    exact h.finish hactive hroom
  | some blocks =>
    rw [h.stage_active.mpr ⟨blocks, hactive⟩] at hw
    cases hend : w.endStep now with
    | mk w₁ result =>
      rw [hend] at hw
      cases result with
      | error f => cases hw
      | ok before =>
        cases hw
        obtain ⟨hfollows, hroom'⟩ := h.endStep hroom hend
        rw [← List.append_assoc]
        exact hfollows.finish Log.active_complete hroom'

/-- **One accepted call** keeps a writer that is open. -/
theorem Follows.act (h : Follows operators rank size l w data) (hroom : w.batchSteps < size)
    {c : Call} {ms : List Outgoing} (hw : w.act c = (w', .ok ms)) :
    Keeps operators rank size (l.note c) w' (data ++ ms) := by
  cases c with
  | define name a =>
    obtain ⟨hdefine, rfl⟩ := act_define_eq_ok.mp hw
    have hopen : w.ensureOpen = .ok () := if_neg h.stage_ne_closed
    rw [Writer.defineAttribute, hopen] at hdefine
    cases hdefine
    rw [List.append_nil]
    exact .inl ⟨h.define name a, hroom⟩
  | beginStep =>
    obtain ⟨hbegin, rfl⟩ := act_beginStep_eq_ok.mp hw
    obtain ⟨hfollows, hbatch⟩ := h.beginStep hbegin
    rw [List.append_nil]
    exact .inl ⟨hfollows, hbatch ▸ hroom⟩
  | put v payload mode =>
    obtain ⟨hput, rfl⟩ := act_put_eq_ok.mp hw
    obtain ⟨hfollows, hbatch⟩ := h.put hput
    rw [List.append_nil]
    exact .inl ⟨hfollows, hbatch ▸ hroom⟩
  | performPuts =>
    obtain ⟨hperform, rfl⟩ := act_performPuts_eq_ok.mp hw
    obtain ⟨hfollows, hbatch⟩ := h.performPuts hperform
    rw [List.append_nil]
    exact .inl ⟨hfollows, hbatch ▸ hroom⟩
  | endStep now => exact .inl (h.endStep hroom hw)
  | close now => exact .inr (h.close hroom hw)

theorem act_eq_ok_of_closed (hclosed : w.stage = .closed) {c : Call} {ms : List Outgoing}
    (hw : w.act c = (w', .ok ms)) : ∃ now, c = .close now := by
  have hopen : w.ensureOpen = .error (.closed (.stream w.name)) := if_pos hclosed
  have hactive (operation : String) :
      w.activeStep operation = .error (.closed (.stream w.name)) := by
    rw [activeStep, hopen]
    rfl
  cases c with
  | define name a =>
    rw [act, defineAttribute, hopen] at hw
    cases hw
  | beginStep =>
    rw [act, Writer.beginStep, hopen] at hw
    cases hw
  | put v payload mode =>
    rw [act, Writer.put, hactive] at hw
    cases hw
  | performPuts =>
    rw [act, Writer.performPuts, hactive] at hw
    cases hw
  | endStep now =>
    rw [act, Writer.endStep, hactive] at hw
    cases hw
  | close now => exact ⟨now, rfl⟩

/-- **One call keeps the account of the run.** -/
theorem Keeps.act {ms : List Outgoing} (h : Keeps operators rank size l w ms) {c : Call}
    {result : Except Fault (List Outgoing)} (hw : w.act c = (w', result))
    (hserialized : isSerialized (c, result)) :
    Keeps operators rank size (l.add (c, result)) w' (ms ++ result.toOption.getD []) := by
  cases result with
  | error f =>
    have hopen : w.stage = .active → w.draft.payload.isSome := by
      intro hactive
      rcases h with ⟨hfollows, -⟩ | hfinished
      · exact hfollows.isOpen hactive
      · rw [hfinished.stage_eq] at hactive
        cases hactive
    rw [act_eq_error hopen hw hserialized]
    exact (List.append_nil ms).symm ▸ h
  | ok new =>
    rcases h with ⟨hfollows, hroom⟩ | hfinished
    · exact hfollows.act hroom hw
    · -- Nothing is accepted any more but to be closed again, which does nothing.
      obtain ⟨now, rfl⟩ := act_eq_ok_of_closed hfinished.stage_eq hw
      obtain ⟨rfl, rfl⟩ := act_of_closed hfinished.stage_eq hw
      have hlog : l.add (.close now, .ok []) = l :=
        Log.complete_of_resting hfinished.active_eq hfinished.deferred_eq
      rw [hlog]
      exact .inr ((List.append_nil ms).symm ▸ hfinished)

/-- **A run keeps the account.** -/
theorem Keeps.run {ms : List Outgoing} (h : Keeps operators rank size l w ms) (cs : List Call)
    (hserialized : ∀ e ∈ (w.run cs).1, isSerialized e) :
    Keeps operators rank size ((w.run cs).1.foldl Log.add l) (w.run cs).2
      (ms ++ messages (w.run cs).1) := by
  induction cs generalizing l w ms with
  | nil => exact (List.append_nil ms).symm ▸ h
  | cons c rest ih =>
    rw [Writer.run] at hserialized ⊢
    obtain ⟨hfirst, hrest⟩ := List.forall_mem_cons.mp hserialized
    have hkeeps := ih (h.act rfl hfirst) hrest
    rw [List.append_assoc] at hkeeps
    exact hkeeps

end Follows

/-! ## What the messages hold -/

section Messages

variable {operators : Operators} {rank : UInt32} {size : Nat} {l : Log}

/-- The message holds the ended steps from `first` on, those before `stop`: its index has an entry
for each of them that has blocks, which tells of these blocks in order, and for the attributes that
were sent if the first step of the run is among them. -/
inductive Packs (operators : Operators) (rank : UInt32) (l : Log) (first stop : Nat) :
    Outgoing → Prop
  | mk (payload : Bytes) (entries : Table String Tree) (attributes : Attributes) :
      (∀ i blocks now, first ≤ i → i < stop → l.ended[i]? = some (blocks, now) →
        ∃ records, List.Forall₂ (Draft.Tells operators payload now.millis) blocks records ∧
          entries.at? (toString (UInt64.ofNat i)) =
            if blocks = [] then none else some (Draft.rankMap rank records)) →
      l.sent = some attributes →
      entries.at? attributesKey = (if first = 0 then some attributes.toTree else none) →
      (∀ key ∈ Table.keys entries, key = attributesKey ∨
        ∃ i, first ≤ i ∧ i < stop ∧ key = toString (UInt64.ofNat i)) →
      Packs operators rank l first stop
        (.data (Frame.compose payload (.map entries)) (UInt64.ofNat first)
          (UInt64.ofNat (stop - 1)))

theorem Log.avoids_batch {first stop i : Nat}
    (h : ∀ k, first ≤ k → k < stop → UInt64.ofNat k ≠ UInt64.ofNat i) :
    Draft.Avoids (UInt64.ofNat i) (l.batch first stop) := by
  intro c hc
  obtain ⟨k, hk, hc⟩ := List.mem_flatMap.mp hc
  have hrange := List.mem_range'_1.mp hk
  rw [Log.calls] at hc
  split at hc
  · exact Draft.avoids_stepCalls (h k hrange.1 (by omega)) c hc
  · cases hc

/-- Only the first step of a run brings attributes. -/
theorem Log.lastAttributes_calls {i : Nat} (hi : i < l.ended.length) :
    Draft.lastAttributes (l.calls i) = if i = 0 then l.sent else none := by
  rw [Log.calls, List.getElem?_eq_getElem hi]
  exact Draft.lastAttributes_stepCalls

theorem Log.lastAttributes_batch {first stop : Nat} (hlt : first < stop)
    (hstop : stop ≤ l.ended.length) :
    Draft.lastAttributes (l.batch first stop) = if first = 0 then l.sent else none := by
  induction stop, hlt using Nat.le_induction with
  | base => rw [Log.batch_succ, Log.lastAttributes_calls (by omega)]
  | succ stop hlt ih =>
    have hne : ¬ stop = 0 := by omega
    rw [← Log.batch_append (Nat.le_of_succ_le hlt) (Nat.le_succ stop), Log.batch_succ,
      Draft.lastAttributes_append, Log.lastAttributes_calls (by omega), if_neg hne, Option.none_or,
      ih (by omega)]

theorem Log.mem_putSteps_batch {first stop : Nat} {step : UInt64}
    (h : step ∈ Draft.putSteps (l.batch first stop)) :
    ∃ i, first ≤ i ∧ i < stop ∧ step = UInt64.ofNat i := by
  obtain ⟨c, hc, hstep⟩ := List.mem_filterMap.mp h
  obtain ⟨i, hi, hc⟩ := List.mem_flatMap.mp hc
  have hrange := List.mem_range'_1.mp hi
  refine ⟨i, hrange.1, by omega, ?_⟩
  rw [Log.calls] at hc
  split at hc
  · exact Draft.mem_putSteps_stepCalls (List.mem_filterMap.mpr ⟨c, hc, hstep⟩)
  · cases hc

/-- **What is in a message** can be read off its index, as long as its steps have different
numbers. -/
theorem Packed.packs {first stop : Nat} {m : Outgoing} (h : Packed operators rank l first stop m)
    (hlt : first < stop) (hstop : stop ≤ l.ended.length) (hsize : stop - first ≤ UInt64.size)
    {attributes : Attributes} (hsent : l.sent = some attributes) :
    Packs operators rank l first stop m := by
  obtain ⟨d₀, d, hrank, hcalls, rfl⟩ := h
  have htracks := Draft.tracks_calls hcalls
  rw [Draft.finish_eq htracks]
  refine .mk (d.payload.getD []) (Table.ofEntries d.sections) attributes ?_ hsent ?_ ?_
  · intro i blocks now hfirst hi hended
    have hother (k : Nat) (hk : first ≤ k) (hk' : k < stop) (hne : k ≠ i) :
        UInt64.ofNat k ≠ UInt64.ofNat i := by
      intro heq
      have hmod := congrArg UInt64.toNat heq
      simp only [UInt64.toNat_ofNat'] at hmod
      simp only [UInt64.size] at hsize
      omega
    have hsplit : l.batch first stop = l.batch first i ++
        (Draft.stepCalls (UInt64.ofNat i) blocks (if i = 0 then l.sent else none) now.millis ++
          l.batch (i + 1) stop) := by
      rw [← Log.batch_append hfirst (Nat.le_of_lt hi), ← Log.batch_append (Nat.le_succ i) hi,
        Log.batch_succ, Log.calls, hended]
    rw [hsplit] at htracks
    have htells := htracks.tells
      (Log.avoids_batch (fun k hk hk' => hother k hk (by omega) (by omega)))
      (Log.avoids_batch (fun k hk hk' => hother k (by omega) hk' (by omega)))
    refine ⟨d.recordsAt (UInt64.ofNat i), htells, ?_⟩
    have hrank' : d.rank = rank := (Draft.rank_calls hcalls).trans hrank
    have hnil : d.recordsAt (UInt64.ofNat i) = [] ↔ blocks = [] := by
      rw [← List.length_eq_zero_iff, ← htells.length_eq, List.length_eq_zero_iff]
    rw [htracks.at?_step, hrank']
    simp only [hnil]
  · rw [htracks.at?_attributes, Log.lastAttributes_batch hlt hstop, hsent]
    split <;> rfl
  · intro key hkey
    rcases htracks.mem_keys hkey with heq | ⟨step, hstep, heq⟩
    · exact .inl heq
    · obtain ⟨i, hfirst, hi, rfl⟩ := Log.mem_putSteps_batch hstep
      exact .inr ⟨i, hfirst, hi, heq⟩

end Messages

/-- **The messages of a whole run.** Take any calls on a new writer, some of which may be refused,
such that no block fails to be serialized by `performPuts`, `endStep` or `close`, and such that the
last call closes the writer. At every moment the step that was begun last is the number of the
accepted `beginStep` calls before it. All steps have ended, and the messages are their groups of as
many steps as the settings say, of which the last may be shorter, and then one end record with the
last step. Each message holds the accepted blocks of its steps, and just the first one the
attributes that were set when the first step ended. -/
theorem messages_run {name : String} {settings : Settings} {rank : UInt32} {operators : Operators}
    {now : Moment} {cs : List Call} {events : List Event} {w : Writer}
    (hrun : (create name settings rank operators now).run cs = (events, w))
    (hpos : 0 < settings.aggregation) (hword : settings.aggregation < UInt64.size)
    (hserialized : ∀ e ∈ events, isSerialized e)
    (hclosed : ∃ now ms, events.getLast? = some (.close now, .ok ms)) :
    (∀ before after, cs = before ++ after →
      ((create name settings rank operators now).run before).2.currentStep =
        (Log.of ((create name settings rank operators now).run before).1).lastStep) ∧
    (Log.of events).begun = (Log.of events).ended.length ∧
    ∃ data, messages events =
        data ++ [.finish (Frame.endRecord (Log.of events).lastStep) (Log.of events).lastStep] ∧
      data.length =
        ((Log.of events).ended.length + settings.aggregation - 1) / settings.aggregation ∧
      ∀ j m, data[j]? = some m →
        Packs operators rank (Log.of events) (j * settings.aggregation)
          (min ((j + 1) * settings.aggregation) (Log.of events).ended.length) m := by
  have hcreate : Keeps operators rank settings.aggregation {}
      (create name settings rank operators now) [] :=
    .inl ⟨follows_create name settings rank operators now, hpos⟩
  have hevents : ((create name settings rank operators now).run cs).1 = events := by rw [hrun]
  refine ⟨?_, ?_⟩
  · intro before after hcs
    have hbefore : ∀ e ∈ ((create name settings rank operators now).run before).1,
        isSerialized e := by
      intro e he
      rw [hcs, run_append] at hevents
      exact hserialized e (hevents ▸ List.mem_append_left _ he)
    rcases hcreate.run before hbefore with ⟨hfollows, -⟩ | hfinished
    · exact hfollows.currentStep_eq
    · exact hfinished.currentStep_eq
  · have hstage : ((create name settings rank operators now).run cs).2.stage = .closed := by
      obtain ⟨now', ms, hlast⟩ := hclosed
      exact stage_of_getLast (hevents ▸ hlast)
    rcases hcreate.run cs (hevents ▸ hserialized) with ⟨hfollows, -⟩ | hfinished
    · exact absurd hstage hfollows.stage_ne_closed
    · rw [hevents, List.nil_append, ← Log.of] at hfinished
      obtain ⟨data, hmessages, hlength, hpacked⟩ := hfinished.messages
      refine ⟨hfinished.begun_eq, data, hmessages, hlength, fun j m hj => ?_⟩
      have hj' : j < data.length := (List.getElem?_eq_some_iff.mp hj).1
      have hlt : j * settings.aggregation < (Log.of events).ended.length := by
        rw [hlength] at hj'
        have hle := (Nat.le_div_iff_mul_le hpos).mp (Nat.succ_le_of_lt hj')
        rw [Nat.succ_mul] at hle
        omega
      have hne : (Log.of events).ended ≠ [] := List.ne_nil_of_length_pos (Nat.zero_lt_of_lt hlt)
      obtain ⟨attributes, hsent⟩ := Option.ne_none_iff_exists'.mp (mt hfinished.sent_iff.mp hne)
      refine (hpacked j m hj).packs ?_ (Nat.min_le_right _ _) ?_ hsent
      · rw [Nat.succ_mul]
        omega
      · rw [Nat.succ_mul]
        omega

/-- Three steps with calls of every kind among them that are refused. -/
def sampleRun : List Call :=
  let v := Variable.scalar "v" .uint8
  [.put v [1] .sync, .define "units" (.text "mm"),
    .beginStep, .beginStep, .put v [7] .deferred, .put v [1, 2] .deferred, .put v [5] .sync,
    .define "frame" (.text "lab"), .endStep ⟨0, 10⟩,
    .performPuts, .beginStep, .put v [1, 2] .sync, .endStep ⟨0, 20⟩,
    .endStep ⟨0, 25⟩, .beginStep, .put v [9] .deferred, .performPuts, .put v [8] .sync,
    .close ⟨0, 30⟩, .beginStep, .close ⟨0, 40⟩]

theorem messages_run_sample : ∃ events w first second,
    (create "sim" { aggregation := 2 } 3 [] ⟨0, 0⟩).run sampleRun = (events, w) ∧
    (Log.of events).ended.map (fun e => (e.1.map Prod.snd, e.2)) =
      [([[5], [7]], ⟨0, 10⟩), ([], ⟨0, 20⟩), ([[9], [8]], ⟨0, 30⟩)] ∧
    messages events = [first, second, .finish (Frame.endRecord (some 2)) (some 2)] ∧
    Packs [] 3 (Log.of events) 0 2 first ∧ Packs [] 3 (Log.of events) 2 3 second := by
  have hserialized : ((create "sim" { aggregation := 2 } 3 [] ⟨0, 0⟩).run sampleRun).1.all
      isSerialized = true := by decide +kernel
  obtain ⟨-, -, data, hmessages, hlength, hpacks⟩ := messages_run
    (w := ((create "sim" { aggregation := 2 } 3 [] ⟨0, 0⟩).run sampleRun).2)
    rfl (by decide) (by decide) (List.all_eq_true.mp hserialized) ⟨⟨0, 40⟩, [], rfl⟩
  have hended : (Log.of ((create "sim" { aggregation := 2 } 3 [] ⟨0, 0⟩).run sampleRun).1).ended.map
      (fun e => (e.1.map Prod.snd, e.2)) =
        [([[5], [7]], ⟨0, 10⟩), ([], ⟨0, 20⟩), ([[9], [8]], ⟨0, 30⟩)] := by decide +kernel
  have hlast : (Log.of ((create "sim" { aggregation := 2 } 3 [] ⟨0, 0⟩).run
      sampleRun).1).lastStep = some 2 := by decide +kernel
  have hthree := congrArg List.length hended
  rw [List.length_map] at hthree
  rw [hlast] at hmessages
  rw [hthree] at hlength hpacks
  obtain ⟨first, second, rfl⟩ := List.length_eq_two.mp hlength
  exact ⟨_, _, first, second, rfl, hended, hmessages, hpacks 0 first rfl, hpacks 1 second rfl⟩

end Writer

end Stepcast
