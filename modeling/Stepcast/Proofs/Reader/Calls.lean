import Stepcast.Proofs.Reader.Safety

/-!
# Calls on a reader

A call that begins a step takes in messages over the links and sends requests there, and then looks
whether there is a step. It does so again until a look comes to a result or the time has passed. The
writers act in the meantime, so the reader may find any network whenever it comes to a link.

A `Reading` is a reader with its history: the messages that were accepted, and the steps that were
exposed or skipped.

Main statements: `begun_beginStep` says all that beginning a step can do, `beginReading_eq` that it
is what a session does.
-/

namespace Stepcast

/-- What a reader does over one of its links, and the network that it finds there. -/
inductive Poll where
  | ask (link : Nat) (n : Network)
  | take (link : Nat) (n : Network)

/-- A look for a step: what is done over the links before, and the moment of the choice. -/
structure Look where
  polls : List Poll
  now : Moment

/-- A message that was accepted, the link it came over, and what it turned out to be. -/
structure Arrival where
  link : Nat
  message : Bytes
  outcome : Outcome

namespace Reader

/-- The messages that an archive accepts until one is refused. -/
def acceptedOf (a : Archive) : List Bytes → List (Bytes × Outcome)
  | [] => []
  | message :: rest =>
    match a.put message with
    | (a, .ok outcome) => (message, outcome) :: acceptedOf a rest
    | (_, .error _) => []

/-- What is accepted when the reader takes in what has come over a link. -/
def arrivals (r : Reader) (link : Nat) (n : Network) : List Arrival :=
  match r.links[link]? with
  | none => []
  | some l => (acceptedOf r.archive (l.receive n).1).map (fun e => ⟨link, e.1, e.2⟩)

end Reader

/-- A reader and what has happened to it. -/
structure Reading where
  reader : Reader
  accepted : List Arrival := []
  /-- The steps that the reader was let into. -/
  exposed : List UInt64 := []
  /-- The steps that were erased on the way to a later one. -/
  skipped : List UInt64 := []

namespace Reading

/-! ## Beginning a step -/

/-- What is done over one link. It fails when a message is refused. -/
def poll (x : Reading) : Poll → Reading × Except Fault Unit
  | .ask link n => ({ x with reader := (x.reader.requestLink link n).1 }, .ok ())
  | .take link n =>
    let (reader, _, result) := x.reader.receiveLink link n
    ({ x with reader, accepted := x.accepted ++ x.reader.arrivals link n }, result)

/-- What is done over links, one after the other, until a message is refused. -/
def polls (x : Reading) : List Poll → Reading × Except Fault Unit
  | [] => (x, .ok ())
  | p :: rest =>
    match x.poll p with
    | (x, .ok ()) => x.polls rest
    | (x, .error f) => (x, .error f)

/-- The reader goes to a live step. -/
def enter (x : Reading) (step : UInt64) (now : Moment) : Reading :=
  { x with
    reader := (x.reader.skipTo step).enter step now
    exposed := x.exposed ++ [step]
    skipped := x.skipped ++ x.reader.candidates.takeWhile (· < step) }

/-- One look for a step; no status when there may be one later. -/
def look (x : Reading) (mode : StepMode) (l : Look) : Reading × Except Fault (Option StepStatus) :=
  match x.polls l.polls with
  | (x, .error f) => (x, .error f)
  | (x, .ok ()) =>
    match x.reader.choose mode with
    | some step => (x.enter step l.now, .ok (some .ready))
    | none => (x, .ok (if x.reader.isDone then some x.reader.lastStatus else none))

/-- One look after the other, until one comes to a result. -/
def seek (x : Reading) (mode : StepMode) : List Look → Reading × Except Fault (Option StepStatus)
  | [] => (x, .ok none)
  | l :: rest =>
    match x.look mode l with
    | (x, .ok none) => x.seek mode rest
    | found => found

/-- Begins a step. There is one look at least; after the last one the time has passed. -/
def beginStep (x : Reading) (mode : StepMode) (first : Look) (later : List Look) :
    Reading × Except Fault StepStatus :=
  match x.reader.checkBegin with
  | .error f => (x, .error f)
  | .ok () =>
    let (x, result) := x.seek mode (first :: later)
    (x, result.map (·.getD .notReady))

/-! ## Runs -/

/-- A call that may change a reader, and what it finds on the network. -/
inductive Call where
  | beginStep (mode : StepMode) (first : Look) (later : List Look)
  | endStep (now : Moment) (n : Network)
  | close (n : Network)

/-- The reading after a call. -/
def call (x : Reading) : Call → Reading
  | .beginStep mode first later => (x.beginStep mode first later).1
  | .endStep now n => { x with reader := (x.reader.endStep now n).1 }
  | .close n => { x with reader := (x.reader.close n).1 }

/-- The reading after calls. -/
def run (x : Reading) (calls : List Call) : Reading := calls.foldl call x

/-! ## What beginning a step can do -/

/-- The second reading comes from the first by what is done over links. -/
inductive Polled (x : Reading) : Reading → Prop
  | refl : Polled x x
  | poll {y : Reading} (p : Poll) : Polled x y → Polled x (y.poll p).1

/-- What can become of beginning a step. -/
inductive Begun (mode : StepMode) (x : Reading) : Reading → Except Fault StepStatus → Prop
  /-- The call is not allowed. -/
  | barred {f : Fault} : x.reader.stage ≠ .idle → Begun mode x x (.error f)
  /-- A message was refused. -/
  | refused {x' : Reading} {f : Fault} : x.reader.stage = .idle → Polled x x' →
      Begun mode x x' (.error f)
  /-- The time has passed. -/
  | expired {x' : Reading} : x.reader.stage = .idle → Polled x x' →
      Begun mode x x' (.ok .notReady)
  | entered {x' : Reading} {step : UInt64} (now : Moment) : x.reader.stage = .idle →
      Polled x x' → x'.reader.choose mode = some step →
      Begun mode x (x'.enter step now) (.ok .ready)
  /-- Nothing more can come. -/
  | finished {x' : Reading} : x.reader.stage = .idle → Polled x x' → x'.reader.choose mode = none →
      x'.reader.isDone = true → Begun mode x x' (.ok x'.reader.lastStatus)

section Begun

variable {x y z : Reading} {mode : StepMode}

theorem Polled.trans (h : Polled x y) (h' : Polled y z) : Polled x z := by
  induction h' with
  | refl => exact h
  | poll p _ ih => exact .poll p ih

theorem polled_polls (ps : List Poll) : Polled x (x.polls ps).1 := by
  induction ps generalizing x with
  | nil => exact .refl
  | cons p rest ih =>
    have hfirst : Polled x (x.poll p).1 := .poll p .refl
    rw [polls]
    rcases hpoll : x.poll p with ⟨x', f | ⟨⟩⟩ <;> rw [hpoll] at hfirst
    · exact hfirst
    · exact hfirst.trans ih

/-- What one look can do: a message is refused, or a step is entered, or there is none. -/
theorem look_cases (x : Reading) (mode : StepMode) (l : Look) : ∃ x', Polled x x' ∧
    ((∃ f, x.look mode l = (x', .error f)) ∨
      (∃ step, x'.reader.choose mode = some step ∧
        x.look mode l = (x'.enter step l.now, .ok (some .ready))) ∨
      (x'.reader.choose mode = none ∧
        x.look mode l =
          (x', .ok (if x'.reader.isDone then some x'.reader.lastStatus else none)))) := by
  have hpolled : Polled x (x.polls l.polls).1 := polled_polls l.polls
  refine ⟨_, hpolled, ?_⟩
  unfold look
  rcases x.polls l.polls with ⟨x', f | ⟨⟩⟩
  · exact .inl ⟨f, rfl⟩
  · right
    dsimp only
    cases x'.reader.choose mode with
    | some step => exact .inl ⟨step, rfl, rfl⟩
    | none => exact .inr ⟨rfl, rfl⟩

theorem begun_seek (hidle : x.reader.stage = .idle) (h : Polled x y) (looks : List Look) :
    Begun mode x (y.seek mode looks).1 ((y.seek mode looks).2.map (·.getD .notReady)) := by
  induction looks generalizing y with
  | nil => exact .expired hidle h
  | cons l rest ih =>
    rw [seek]
    obtain ⟨y', hy', ⟨f, hlook⟩ | ⟨step, hchoose, hlook⟩ | ⟨hchoose, hlook⟩⟩ := look_cases y mode l
    · rw [hlook]
      exact .refused hidle (h.trans hy')
    · rw [hlook]
      exact .entered l.now hidle (h.trans hy') hchoose
    · rw [hlook]
      by_cases hdone : y'.reader.isDone = true
      · rw [if_pos hdone]
        exact .finished hidle (h.trans hy') hchoose hdone
      · rw [if_neg hdone]
        exact ih (h.trans hy')

/-- **What beginning a step can do.** -/
theorem begun_beginStep (x : Reading) (mode : StepMode) (first : Look) (later : List Look) :
    Begun mode x (x.beginStep mode first later).1 (x.beginStep mode first later).2 := by
  unfold beginStep
  cases hcheck : x.reader.checkBegin with
  | error f =>
    refine .barred fun hidle => ?_
    rw [Reader.checkBegin_eq_ok.mpr hidle] at hcheck
    cases hcheck
  | ok _ => exact begun_seek (Reader.checkBegin_eq_ok.mp hcheck) .refl (first :: later)

/-- Whatever is done over a link, only the archive and the links change. -/
structure Passes (x x' : Reading) : Prop where
  stage : x'.reader.stage = x.reader.stage
  currentStep : x'.reader.currentStep = x.reader.currentStep
  exposed : x'.exposed = x.exposed
  skipped : x'.skipped = x.skipped
  length : x'.reader.links.length = x.reader.links.length
  monitor : x'.reader.monitor = x.reader.monitor

theorem passes_poll (x : Reading) (p : Poll) : Passes x (x.poll p).1 := by
  cases p with
  | ask link n =>
    simp only [poll, Reader.requestLink]
    split
    · exact ⟨rfl, rfl, rfl, rfl, rfl, rfl⟩
    · exact ⟨rfl, rfl, rfl, rfl, List.length_set, rfl⟩
  | take link n =>
    simp only [poll, Reader.receiveLink]
    split
    · exact ⟨rfl, rfl, rfl, rfl, rfl, rfl⟩
    · exact ⟨rfl, rfl, rfl, rfl, List.length_set, rfl⟩

theorem Polled.passes (h : Polled x y) : Passes x y := by
  induction h with
  | refl => exact ⟨rfl, rfl, rfl, rfl, rfl, rfl⟩
  | @poll y p _ ih =>
    have hpoll := passes_poll y p
    exact ⟨hpoll.stage.trans ih.stage, hpoll.currentStep.trans ih.currentStep,
      hpoll.exposed.trans ih.exposed, hpoll.skipped.trans ih.skipped,
      hpoll.length.trans ih.length, hpoll.monitor.trans ih.monitor⟩

theorem archive_poll {P : Archive → Prop} (hput : ∀ a message, P a → P (a.put message).1)
    (h : P x.reader.archive) (p : Poll) : P (x.poll p).1.reader.archive := by
  have htakeIn : ∀ (a : Archive) (l : Link) (messages : List Bytes), P a →
      P (Reader.takeIn a l messages).1 := by
    intro a l messages ha
    induction messages generalizing a l with
    | nil => exact ha
    | cons message rest ih =>
      have hmessage := hput a message ha
      rw [Reader.takeIn]
      rcases hresult : a.put message with ⟨a', f | outcome⟩ <;> rw [hresult] at hmessage
      · exact hmessage
      · cases outcome <;> exact ih _ _ hmessage
  cases p with
  | ask link n =>
    simp only [poll, Reader.requestLink]
    split <;> exact h
  | take link n =>
    simp only [poll, Reader.receiveLink]
    split
    · exact h
    · next l _ =>
      simp only [Reader.receiveFrom]
      have htaken := htakeIn x.reader.archive (l.receive n).2.2.1 (l.receive n).1 h
      rcases hresult : Reader.takeIn x.reader.archive (l.receive n).2.2.1 (l.receive n).1 with
        ⟨a', l', f | ⟨⟩⟩ <;> rw [hresult] at htaken <;> exact htaken

theorem Polled.archive {P : Archive → Prop} (hput : ∀ a message, P a → P (a.put message).1)
    (h : Polled x y) (hx : P x.reader.archive) : P y.reader.archive := by
  induction h with
  | refl => exact hx
  | poll p _ ih => exact archive_poll hput ih p

end Begun

/-- Ending a step is refused, or it leaves the active step and asks over all links. -/
theorem endStep_cases (r : Reader) (now : Moment) (n : Network) : (r.endStep now n).1 = r ∨
    ∃ step, r.stage = .active ∧ r.currentStep = some step ∧ (r.endStep now n).1 =
      { r.leave step now with links := (Reader.requestAll r.links n).1 } := by
  unfold Reader.endStep
  split
  · exact .inl rfl
  · split
    · next step hactive hcurrent => exact .inr ⟨step, hactive, hcurrent, rfl⟩
    · exact .inl rfl

/-! ## Beginning a step in a session -/

section Session

variable {x x₁ : Reading} {mode : StepMode} {now : Moment}

theorem polls_append {ps : List Poll} (h : x.polls ps = (x₁, .ok ())) (qs : List Poll) :
    x.polls (ps ++ qs) = x₁.polls qs := by
  induction ps generalizing x with
  | nil =>
    cases h
    rfl
  | cons p rest ih =>
    rw [polls] at h
    rw [List.cons_append, polls]
    rcases hpoll : x.poll p with ⟨x', f | ⟨⟩⟩ <;> rw [hpoll] at h
    · cases h
    · exact ih h

theorem seek_append {looks : List Look} (h : x.seek mode looks = (x₁, .ok none))
    (more : List Look) : x.seek mode (looks ++ more) = x₁.seek mode more := by
  induction looks generalizing x with
  | nil =>
    cases h
    rfl
  | cons l rest ih =>
    rw [seek] at h
    rw [List.cons_append, seek]
    rcases hlook : x.look mode l with ⟨x', f | status | status⟩ <;> rw [hlook] at h
    · cases h
    · exact ih h
    · cases h

/-- No look says by itself that the time has passed. -/
theorem seek_ne_notReady (x : Reading) (mode : StepMode) (looks : List Look) :
    (x.seek mode looks).2 ≠ .ok (some .notReady) := by
  induction looks generalizing x with
  | nil => exact nofun
  | cons l rest ih =>
    rw [seek]
    obtain ⟨y, -, ⟨f, hlook⟩ | ⟨step, -, hlook⟩ | ⟨-, hlook⟩⟩ := look_cases x mode l
    · rw [hlook]
      exact nofun
    · rw [hlook]
      exact nofun
    · rw [hlook]
      by_cases hdone : y.reader.isDone = true
      · simp only [hdone, if_true, Reader.lastStatus]
        split <;> exact nofun
      · simp only [hdone]
        exact ih y

theorem exists_polls_receiveLinks {r r' : Reader} {n n' : Network} {links : List Nat}
    {result : Except Fault Unit} (h : r.receiveLinks n links = (r', n', result))
    (hx : x.reader = r) : ∃ ps x', x.polls ps = (x', result) ∧ x'.reader = r' := by
  induction links generalizing x r n with
  | nil =>
    cases h
    exact ⟨[], x, rfl, hx⟩
  | cons i rest ih =>
    subst hx
    rw [Reader.receiveLinks] at h
    rcases hreceive : x.reader.receiveLink i n with ⟨r₁, n₁, f | ⟨⟩⟩ <;> rw [hreceive] at h
    · cases h
      refine ⟨[.take i n],
        { x with reader := r', accepted := x.accepted ++ x.reader.arrivals i n }, ?_, rfl⟩
      simp [polls, poll, hreceive]
    · obtain ⟨ps, x', hps, hx'⟩ := ih
        (x := { x with reader := r₁, accepted := x.accepted ++ x.reader.arrivals i n }) h rfl
      exact ⟨.take i n :: ps, x', by simp [polls, poll, hreceive, hps], hx'⟩

/-- What is done over links comes before the choice of the next look. -/
theorem look_append {ps : List Poll} (h : x.polls ps = (x₁, .ok ())) (qs : List Poll) :
    x.look mode ⟨ps ++ qs, now⟩ = x₁.look mode ⟨qs, now⟩ := by
  unfold look
  rw [polls_append h]

theorem look_error {ps : List Poll} {f : Fault} (h : x.polls ps = (x₁, .error f)) :
    x.look mode ⟨ps, now⟩ = (x₁, .error f) := by
  simp only [look, h]

theorem exists_look_tryBegin {r r' : Reader} {n n' : Network}
    {result : Except Fault (Option StepStatus)} (h : r.tryBegin mode now n = (r', n', result))
    (hx : x.reader = r) : ∃ ps x', x.look mode ⟨ps, now⟩ = (x', result) ∧ x'.reader = r' := by
  unfold Reader.tryBegin Reader.receive at h
  rcases hreceive : r.receiveLinks n (List.range r.links.length) with ⟨r₁, n₁, f | ⟨⟩⟩ <;>
    rw [hreceive] at h <;>
    obtain ⟨ps, x', hps, hx'⟩ := exists_polls_receiveLinks hreceive hx
  · cases h
    exact ⟨ps, x', look_error hps, hx'⟩
  · dsimp only at h
    cases hchoose : r₁.choose mode with
    | some step =>
      rw [hchoose] at h
      cases h
      refine ⟨ps, x'.enter step now, ?_, by rw [enter, hx']⟩
      simp only [look, hps, hx', hchoose]
    | none =>
      rw [hchoose] at h
      cases h
      refine ⟨ps, x', ?_, hx'⟩
      simp only [look, hps, hx', hchoose]

theorem exists_polls_requestLinks {s s' : Session} {r r' : Reader} {links : List Nat}
    {result : Except Fault Unit} (h : s.requestLinks r links = (s', r', result))
    (hx : x.reader = r) : ∃ ps x', x.polls ps = (x', result) ∧ x'.reader = r' := by
  induction links generalizing x s r with
  | nil =>
    cases h
    exact ⟨[], x, rfl, hx⟩
  | cons i rest ih =>
    subst hx
    simp only [Session.requestLinks] at h
    generalize (s.onward (x.reader.requestLink i s.network).2) = s₁ at h
    obtain ⟨y, hy⟩ : ∃ y : Reading, y = (x.poll (.ask i s.network)).1 := ⟨_, rfl⟩
    have hask : ∀ qs, x.polls (.ask i s.network :: qs) = y.polls qs := fun qs => by rw [hy]; rfl
    have hreader : (x.reader.requestLink i s.network).1 = y.reader := by rw [hy]; rfl
    rw [hreader] at h
    rcases hreceive : y.reader.receiveLink i s₁.network with ⟨r₁, n₁, f | ⟨⟩⟩ <;>
      rw [hreceive] at h
    · cases h
      refine ⟨[.ask i s.network, .take i s₁.network],
        { y with reader := r', accepted := y.accepted ++ y.reader.arrivals i s₁.network }, ?_, rfl⟩
      rw [hask]
      simp [polls, poll, hreceive]
    · obtain ⟨ps, x', hps, hx'⟩ := ih (x := { y with
        reader := r₁, accepted := y.accepted ++ y.reader.arrivals i s₁.network }) h rfl
      refine ⟨.ask i s.network :: .take i s₁.network :: ps, x', ?_, hx'⟩
      rw [hask]
      simp [polls, poll, hreceive, hps]

theorem exists_seek_seekStep {s s' : Session} {r r' : Reader} {rounds : Nat}
    {result : Except Fault StepStatus} (h : Session.seekStep mode now rounds s r = (s', r', result))
    (hx : x.reader = r) : ∃ ps later x' found,
      x.seek mode (⟨ps, now⟩ :: later) = (x', found) ∧ x'.reader = r' ∧
        result = found.map (·.getD .notReady) := by
  induction rounds generalizing x s r with
  | zero =>
    unfold Session.seekStep at h
    rcases htry : r.tryBegin mode now s.network with ⟨r₁, n₁, f | status | status⟩ <;>
      rw [htry] at h <;> cases h <;> obtain ⟨ps, x', hlook, hx'⟩ := exists_look_tryBegin htry hx
    · exact ⟨ps, [], x', _, by rw [seek, hlook], hx', rfl⟩
    · exact ⟨ps, [], x', .ok none, by simp only [seek, hlook], hx', rfl⟩
    · exact ⟨ps, [], x', _, by rw [seek, hlook], hx', rfl⟩
  | succ rounds ih =>
    unfold Session.seekStep at h
    rcases htry : r.tryBegin mode now s.network with ⟨r₁, n₁, f | status | status⟩ <;>
      rw [htry] at h <;> obtain ⟨ps, x₁, hlook, hx₁⟩ := exists_look_tryBegin htry hx
    · cases h
      exact ⟨ps, [], x₁, _, by rw [seek, hlook], hx₁, rfl⟩
    · dsimp only at h
      rcases hasked : Session.requestLinks { s with network := n₁ } r₁
          (List.range r₁.links.length) with ⟨s₂, r₂, f | ⟨⟩⟩ <;> rw [hasked] at h <;>
        obtain ⟨qs, x₂, hpolls, hx₂⟩ := exists_polls_requestLinks hasked hx₁
      · cases h
        refine ⟨ps, [⟨qs, now⟩], x₂, .error f, ?_, hx₂, rfl⟩
        rw [seek, hlook]
        dsimp only
        rw [seek, look_error hpolls]
      · obtain ⟨ps', later, x', found, hseek, hx', hresult⟩ := ih h hx₂
        refine ⟨ps, ⟨qs ++ ps', now⟩ :: later, x', found, ?_, hx', hresult⟩
        rw [seek, hlook]
        dsimp only
        rw [seek, look_append hpolls, ← seek, hseek]
    · cases h
      exact ⟨ps, [], x₁, _, by rw [seek, hlook], hx₁, rfl⟩

/-- **Beginning a step in a session is such a call**, with what the reader finds in the session. -/
theorem beginReading_eq {s s' : Session} {r r' : Reader} {limit : Duration}
    {result : Except Fault StepStatus} (h : s.beginReading r mode limit now = (s', r', result))
    (hx : x.reader = r) : ∃ first later x', x.beginStep mode first later = (x', result) ∧
      x'.reader = r' := by
  subst hx
  unfold Session.beginReading at h
  cases hcheck : x.reader.checkBegin with
  | error f =>
    rw [hcheck] at h
    cases h
    exact ⟨⟨[], now⟩, [], x, by simp only [beginStep, hcheck], rfl⟩
  | ok _ =>
    rw [hcheck] at h
    have hbegun : ∀ {ps later x' found}, x.seek mode (⟨ps, now⟩ :: later) = (x', found) →
        x.beginStep mode ⟨ps, now⟩ later = (x', found.map (·.getD .notReady)) := by
      intro ps later x' found hseek
      simp only [beginStep, hcheck, hseek]
    dsimp only at h
    split at h
    · obtain ⟨ps, later, x', found, hseek, hx', rfl⟩ := exists_seek_seekStep h rfl
      exact ⟨_, later, x', hbegun hseek, hx'⟩
    · split at h
      · next hsought =>
        obtain ⟨ps, later, x₁, found, hseek, hx₁, hfound⟩ := exists_seek_seekStep hsought rfl
        obtain ⟨ps', later', x', found', hseek', hx', rfl⟩ := exists_seek_seekStep h hx₁
        have hnone : found = .ok none := by
          have hne := seek_ne_notReady x mode (⟨ps, now⟩ :: later)
          rw [hseek] at hne
          rcases found with f | status | status
          · cases hfound
          · rfl
          · cases hfound
            exact absurd rfl hne
        rw [hnone] at hseek
        refine ⟨⟨ps, now⟩, later ++ ⟨ps', now⟩ :: later', x', hbegun ?_, hx'⟩
        rw [← List.cons_append, seek_append hseek, hseek']
      · obtain ⟨ps, later, x', found, hseek, hx', rfl⟩ := exists_seek_seekStep h rfl
        exact ⟨_, later, x', hbegun hseek, hx'⟩

end Session

end Reading

end Stepcast
