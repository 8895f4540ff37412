import Stepcast.Proofs.Reader.Progress

/-!
# How reading ends

A link has ended just when a message that came over it said so, and it is never taken for lost after
that: the messages are looked at before the silence that follows them. Every step that a message
brought is live until it is exposed, or erased on the way to a later one. So when all links are done
and there is no step to go to, none is left (`Endings`).

A reader that is done takes in nothing over its links and asks for nothing. Once it has no step left
either, no call but closing changes it (`Over`).

Main statements: `Endings.call`, `Over.run`, `endings_run`.
-/

namespace Stepcast

namespace Outcome

/-- The message ended the stream of its writer. -/
def isEnd : Outcome → Bool
  | .endOfStream _ => true
  | _ => false

/-- The steps to which the message brought blocks. -/
def steps : Outcome → List UInt64
  | .data _ steps => steps
  | _ => []

end Outcome

namespace Archive

/-! ## Messages and live steps -/

section Live

variable {a a' : Archive} {message : Bytes} {s : UInt64}

theorem mem_liveSteps_put (h : s ∈ a.liveSteps) (message : Bytes) :
    s ∈ (a.put message).1.liveSteps := by
  have hreceived := a.received_put message
  generalize (a.put message).1 = a₁ at hreceived
  cases hreceived with
  | same hsame _ => rwa [liveSteps, hsame.steps]
  | added hsame _ _ _ =>
    refine mem_liveSteps_addBlocks.mpr (.inl ?_)
    rwa [liveSteps, keep, hsame.steps]

theorem mem_liveSteps_of_addContents {key : Nat} {contents : Contents}
    (hs : s ∈ (a.addContents key message contents).2.steps) :
    s ∈ (a.addContents key message contents).1.liveSteps := by
  unfold addContents at hs ⊢
  dsimp only at hs ⊢
  split at hs
  · cases hs
  · next hblocks =>
    rw [if_neg hblocks]
    refine mem_liveSteps_addBlocks.mpr (.inr ?_)
    obtain ⟨e, he, rfl⟩ := List.mem_map.mp (Table.mem_keys_ofEntries.mp hs)
    obtain ⟨b, hb, rfl⟩ := List.mem_map.mp he
    exact ⟨b, hb, rfl⟩

theorem mem_liveSteps_of_put {outcome : Outcome} (h : a.put message = (a', .ok outcome))
    (hs : s ∈ outcome.steps) : s ∈ a'.liveSteps := by
  unfold put at h
  split at h
  · cases h
    cases hs
  · dsimp only at h
    split at h
    · cases h
      cases hs
    · unfold putData at h
      split at h
      · cases h
      · dsimp only at h
        split at h
        · cases h
        · cases h
          exact mem_liveSteps_of_addContents hs

end Live

end Archive

/-! ## Links -/

namespace Link

/-- The link after it was used: it has ended now if it had before or if it came to its end, and it
is not lost if it has ended. -/
structure Later (came : Bool) (l l' : Link) : Prop where
  ended : l'.ended = (l.ended || came)
  lost : (l.lost = true → l.ended = false) → l'.lost = true → l'.ended = false

theorem later_request (l : Link) (n : Network) : Later false l (l.request n).1 where
  ended := by rw [ended_request, Bool.or_false]
  lost := by
    intro hlost hlost'
    rw [ended_request]
    cases hdone : l.isDone with
    | true =>
      rw [request_of_isDone hdone] at hlost'
      exact hlost hlost'
    | false => exact (Bool.or_eq_false_iff.mp hdone).1

/-- Taking messages leaves it open whether they end the stream. -/
theorem flags_receive (l : Link) (n : Network) :
    (l.receive n).2.2.1.ended = l.ended ∧ (l.receive n).2.2.1.lost = l.lost := by
  unfold receive
  split
  · exact ⟨rfl, rfl⟩
  · dsimp only
    split
    · split <;> exact ⟨rfl, rfl⟩
    · exact ⟨rfl, rfl⟩
  · exact ⟨rfl, rfl⟩

end Link

namespace Reader

section TakeIn

variable {a : Archive} {l : Link} {messages : List Bytes} {s : UInt64}

/-- Messages change a link only by ending it. -/
theorem link_takeIn (a : Archive) (l : Link) (messages : List Bytes) :
    (takeIn a l messages).2.1 =
      { l with ended := l.ended || (acceptedOf a messages).any (·.2.isEnd) } := by
  induction messages generalizing a l with
  | nil => simp [takeIn, acceptedOf]
  | cons message rest ih =>
    rw [takeIn, acceptedOf]
    rcases a.put message with ⟨a', f | outcome⟩
    · simp
    · cases outcome <;> simp [ih, Outcome.isEnd]

theorem mem_liveSteps_takeIn (hs : s ∈ a.liveSteps) :
    s ∈ (takeIn a l messages).1.liveSteps := by
  induction messages generalizing a l with
  | nil => exact hs
  | cons message rest ih =>
    have hput := Archive.mem_liveSteps_put hs message
    rw [takeIn]
    rcases hresult : a.put message with ⟨a', f | outcome⟩ <;> rw [hresult] at hput
    · exact hput
    · cases outcome <;> exact ih hput

theorem mem_liveSteps_of_acceptedOf {e : Bytes × Outcome} (he : e ∈ acceptedOf a messages)
    (hs : s ∈ e.2.steps) : s ∈ (takeIn a l messages).1.liveSteps := by
  induction messages generalizing a l with
  | nil => cases he
  | cons message rest ih =>
    rw [acceptedOf] at he
    rw [takeIn]
    rcases hresult : a.put message with ⟨a', f | outcome⟩ <;> rw [hresult] at he
    · cases he
    · rcases List.mem_cons.mp he with rfl | hrest
      · have hlive := Archive.mem_liveSteps_of_put hresult hs
        cases outcome <;> exact mem_liveSteps_takeIn hlive
      · cases outcome <;> exact ih hrest

/-- The link after looking at it, when it came to its end and when it did not. -/
theorem later_receiveFrom (a : Archive) (l : Link) (n : Network) :
    l.Later ((acceptedOf a (l.receive n).1).any (·.2.isEnd)) (receiveFrom a l n).2.1 := by
  cases hdone : l.isDone with
  | true =>
    rw [receiveFrom, Link.receive_of_isDone hdone]
    exact ⟨by simp [takeIn, acceptedOf], fun hlost => by simpa [takeIn] using hlost⟩
  | false =>
    obtain ⟨hended, hlost⟩ := Bool.or_eq_false_iff.mp hdone
    obtain ⟨hended', hlost'⟩ := l.flags_receive n
    have htaken := link_takeIn a (l.receive n).2.2.1 (l.receive n).1
    unfold receiveFrom
    rcases hresult : takeIn a (l.receive n).2.2.1 (l.receive n).1 with ⟨a', l', result⟩
    rw [hresult] at htaken
    have hcame : l'.ended = (l.ended || (acceptedOf a (l.receive n).1).any (·.2.isEnd)) := by
      rw [← hended']
      exact congrArg Link.ended htaken
    have hkept : l'.lost ≠ true := by
      rw [congrArg Link.lost htaken, hlost', hlost]
      exact Bool.false_ne_true
    rcases result with f | ⟨⟩ <;> simp only [hresult]
    · exact ⟨hcame, fun _ h => absurd h hkept⟩
    · split
      · next hgone =>
        exact ⟨hcame, fun _ _ => (Bool.not_eq_true' _).mp (Bool.and_eq_true_iff.mp hgone).2⟩
      · exact ⟨hcame, fun _ h => absurd h hkept⟩

end TakeIn

theorem getElem?_requestAll {links : List Link} {n : Network} {i : Nat} {l' : Link}
    (h : (requestAll links n).1[i]? = some l') :
    ∃ l n', links[i]? = some l ∧ l' = (l.request n').1 := by
  induction links generalizing n i with
  | nil => cases h
  | cons l rest ih =>
    cases i with
    | zero =>
      cases h
      exact ⟨l, n, rfl, rfl⟩
    | succ i => exact ih h

theorem length_requestAll (links : List Link) (n : Network) :
    (requestAll links n).1.length = links.length := by
  induction links generalizing n with
  | nil => rfl
  | cons l rest ih => exact congrArg (· + 1) (ih _)

theorem receiveLink_eq {r : Reader} {i : Nat} {l : Link} (hl : r.links[i]? = some l) (n : Network) :
    (r.receiveLink i n).1 = { r with
      archive := (receiveFrom r.archive l n).1
      links := r.links.set i (receiveFrom r.archive l n).2.1 } := by
  simp only [receiveLink, hl]

theorem archive_receiveFrom (a : Archive) (l : Link) (n : Network) :
    (receiveFrom a l n).1 = (takeIn a (l.receive n).2.2.1 (l.receive n).1).1 := by
  unfold receiveFrom
  rcases hresult : takeIn a (l.receive n).2.2.1 (l.receive n).1 with ⟨a', l', f | ⟨⟩⟩ <;>
    simp only [hresult]

end Reader

namespace Reading

/-! ## The invariant -/

/-- A message that came over the link ended the stream there. -/
def EndCame (x : Reading) (i : Nat) : Prop :=
  ∃ d ∈ x.accepted, d.link = i ∧ d.outcome.isEnd = true

/-- The links have ended just where the end came, and those are not lost. -/
structure Tells (links : List Link) (came : Nat → Prop) : Prop where
  ended_iff : ∀ (i : Nat) (l : Link), links[i]? = some l → (l.ended = true ↔ came i)
  honest : ∀ (i : Nat) (l : Link), links[i]? = some l → l.lost = true → l.ended = false

theorem Tells.set {links : List Link} {came came' : Nat → Prop} (h : Tells links came) {j : Nat}
    {l l' : Link} (hl : links[j]? = some l) {now : Bool} (hlater : l.Later now l')
    (hcame : ∀ i, came' i ↔ came i ∨ j = i ∧ now = true) : Tells (links.set j l') came' := by
  have hset : ∀ i k, (links.set j l')[i]? = some k →
      j = i ∧ k = l' ∨ j ≠ i ∧ links[i]? = some k := by
    intro i k hk
    rw [List.getElem?_set] at hk
    split at hk
    · next hij =>
      split at hk
      · exact .inl ⟨hij, (Option.some.inj hk).symm⟩
      · cases hk
    · next hij => exact .inr ⟨hij, hk⟩
  refine ⟨fun i k hk => ?_, fun i k hk => ?_⟩
  · rcases hset i k hk with ⟨rfl, rfl⟩ | ⟨hij, hk⟩
    · rw [hlater.ended, Bool.or_eq_true, h.ended_iff j l hl, hcame]
      simp
    · rw [h.ended_iff i k hk, hcame]
      simp [hij]
  · rcases hset i k hk with ⟨rfl, rfl⟩ | ⟨hij, hk⟩
    · exact hlater.lost (h.honest j l hl)
    · exact h.honest i k hk

theorem Tells.requestAll {links : List Link} {came : Nat → Prop} (h : Tells links came)
    (n : Network) : Tells (Reader.requestAll links n).1 came := by
  refine ⟨fun i l' hl' => ?_, fun i l' hl' => ?_⟩ <;>
    obtain ⟨l, n', hl, rfl⟩ := Reader.getElem?_requestAll hl'
  · rw [Link.ended_request]
    exact h.ended_iff i l hl
  · exact (l.later_request n').lost (h.honest i l hl)

/-- The links tell what came over them, and no step that a message brought is forgotten. -/
structure Endings (writers : Nat) (x : Reading) : Prop where
  advances : x.Advances
  length : x.reader.stage ≠ .closed → x.reader.links.length = writers
  tells : Tells x.reader.links x.EndCame
  kept : x.reader.stage ≠ .closed → ∀ d ∈ x.accepted, ∀ s ∈ d.outcome.steps,
    s ∈ x.reader.archive.liveSteps ∨ s ∈ x.exposed ∨ s ∈ x.skipped

section Endings

variable {writers : Nat} {x x' : Reading}

theorem ne_closed {stage : Stage} (h : stage = .idle) : stage ≠ .closed := by
  rw [h]
  decide

theorem Endings.ask (h : x.Endings writers) (hidle : x.reader.stage = .idle) (link : Nat)
    (n : Network) : (x.poll (.ask link n)).1.Endings writers where
  advances := h.advances.polled hidle (.poll _ .refl)
  length := fun _ => by
    rw [(passes_poll x _).length]
    exact h.length (ne_closed hidle)
  tells := by
    simp only [poll, Reader.requestLink]
    split
    · exact h.tells
    · next l hl => exact h.tells.set hl (l.later_request n) fun i => by simp [EndCame]
  kept := fun _ => by
    simp only [poll, Reader.requestLink]
    split <;> exact h.kept (ne_closed hidle)

theorem endCame_append {ds : List Arrival} {i : Nat} :
    EndCame { x with accepted := x.accepted ++ ds } i ↔
      x.EndCame i ∨ ∃ d ∈ ds, d.link = i ∧ d.outcome.isEnd = true := by
  simp only [EndCame, List.mem_append, or_and_right, exists_or]

theorem Endings.take (h : x.Endings writers) (hidle : x.reader.stage = .idle) (link : Nat)
    (n : Network) : (x.poll (.take link n)).1.Endings writers where
  advances := h.advances.polled hidle (.poll _ .refl)
  length := fun _ => by
    rw [(passes_poll x _).length]
    exact h.length (ne_closed hidle)
  tells := by
    cases hl : x.reader.links[link]? with
    | none =>
      simpa only [poll, Reader.receiveLink, Reader.arrivals, hl, List.append_nil] using h.tells
    | some l =>
      show Tells (x.reader.receiveLink link n).1.links _
      rw [Reader.receiveLink_eq hl]
      refine h.tells.set hl (Reader.later_receiveFrom x.reader.archive l n) fun i => ?_
      refine endCame_append.trans (or_congr_right ?_)
      simp only [Reader.arrivals, hl, List.mem_map, List.any_eq_true]
      constructor
      · rintro ⟨_, ⟨e, he, rfl⟩, hlink, hend⟩
        exact ⟨hlink, e, he, hend⟩
      · rintro ⟨hlink, e, he, hend⟩
        exact ⟨_, ⟨e, he, rfl⟩, hlink, hend⟩
  kept := fun _ d hd s hs => by
    rcases List.mem_append.mp hd with hd | hd
    · refine (h.kept (ne_closed hidle) d hd s hs).imp_left fun hlive => ?_
      exact archive_poll (P := fun a => s ∈ a.liveSteps)
        (fun _ message ha => Archive.mem_liveSteps_put ha message) hlive (.take link n)
    · left
      show s ∈ (x.reader.receiveLink link n).1.archive.liveSteps
      rw [Reader.arrivals] at hd
      split at hd
      · cases hd
      · next l hl =>
        obtain ⟨e, he, rfl⟩ := List.mem_map.mp hd
        rw [Reader.receiveLink_eq hl]
        show s ∈ (Reader.receiveFrom x.reader.archive l n).1.liveSteps
        rw [Reader.archive_receiveFrom]
        exact Reader.mem_liveSteps_of_acceptedOf he hs

theorem Endings.polled (h : x.Endings writers) (hidle : x.reader.stage = .idle)
    (hpolled : Polled x x') : x'.Endings writers := by
  induction hpolled with
  | refl => exact h
  | poll p hpolled ih =>
    have hidle' := hpolled.passes.stage.trans hidle
    cases p with
    | ask link n => exact ih.ask hidle' link n
    | take link n => exact ih.take hidle' link n

theorem Endings.enter (h : x.Endings writers) (hidle : x.reader.stage = .idle) {mode : StepMode}
    {step : UInt64} (hchoose : x.reader.choose mode = some step) (now : Moment) :
    (x.enter step now).Endings writers where
  advances := h.advances.enter hidle hchoose now
  length := fun _ => h.length (ne_closed hidle)
  tells := h.tells
  kept := fun _ d hd s hs => by
    show s ∈ (List.foldl Archive.erase _ _).liveSteps ∨ s ∈ x.exposed ++ [step] ∨ s ∈ x.skipped ++ _
    rw [Archive.mem_liveSteps_foldl_erase, List.mem_append, List.mem_append]
    by_cases hskipped : s ∈ x.reader.candidates.takeWhile (· < step)
    · exact .inr (.inr (.inr hskipped))
    · rcases h.kept (ne_closed hidle) d hd s hs with hlive | hexposed | hskipped'
      · exact .inl ⟨hlive, hskipped⟩
      · exact .inr (.inl (.inl hexposed))
      · exact .inr (.inr (.inl hskipped'))

theorem Endings.begun (h : x.Endings writers) {mode : StepMode} {result : Except Fault StepStatus}
    (hbegun : Begun mode x x' result) : x'.Endings writers := by
  cases hbegun with
  | barred _ => exact h
  | refused hidle hpolled => exact h.polled hidle hpolled
  | expired hidle hpolled => exact h.polled hidle hpolled
  | entered now hidle hpolled hchoose =>
    exact (h.polled hidle hpolled).enter (hpolled.passes.stage.trans hidle) hchoose now
  | finished hidle hpolled _ _ => exact h.polled hidle hpolled

theorem Endings.endStep (h : x.Endings writers) (now : Moment) (n : Network) :
    (x.call (.endStep now n)).Endings writers := by
  have hadvances := h.advances.endStep now n
  rw [Reading.call] at hadvances ⊢
  rcases endStep_cases x.reader now n with heq | ⟨step, hactive, hcurrent, heq⟩ <;>
    rw [heq] at hadvances ⊢
  · exact h
  · have hopened : x.reader.stage ≠ .closed := by
      rw [hactive]
      decide
    have hexposed : step ∈ x.exposed := by
      refine List.mem_of_getLast? ?_
      rw [h.advances.last, hcurrent]
    refine ⟨hadvances, fun _ => ?_, h.tells.requestAll n, fun _ d hd s hs => ?_⟩
    · exact (Reader.length_requestAll _ n).trans (h.length hopened)
    · by_cases hstep : s = step
      · exact .inr (.inl (hstep ▸ hexposed))
      · exact (h.kept hopened d hd s hs).imp_left fun hlive =>
          Archive.mem_liveSteps_erase.mpr ⟨hlive, hstep⟩

theorem Endings.close (h : x.Endings writers) (n : Network) :
    (x.call (.close n)).Endings writers := by
  have hadvances := h.advances.close n
  rw [Reading.call, Reader.close] at hadvances ⊢
  split at hadvances
  · next hclosed =>
    rw [if_pos hclosed]
    exact h
  · next hclosed =>
    rw [if_neg hclosed]
    refine ⟨hadvances, fun hopened => absurd rfl hopened, ⟨fun i l hl => ?_, fun i l hl => ?_⟩,
      fun hopened => absurd rfl hopened⟩ <;> cases hl

/-- **A call keeps this**, however it ends. -/
theorem Endings.call (h : x.Endings writers) (c : Call) : (x.call c).Endings writers := by
  cases c with
  | beginStep mode first later => exact h.begun (begun_beginStep x mode first later)
  | endStep now n => exact h.endStep now n
  | close n => exact h.close n

theorem Endings.run (h : x.Endings writers) (calls : List Call) :
    (x.run calls).Endings writers := by
  induction calls generalizing x with
  | nil => exact h
  | cons c rest ih => exact ih (h.call c)

theorem ended_connectAll {s : Settings} {links links' : List Link} {n n' : Network}
    {ranks : List UInt32} (hlinks : ∀ l ∈ links, l.ended = false)
    (h : Reader.connectAll s links n ranks = (n', .ok links')) : ∀ l ∈ links', l.ended = false := by
  induction ranks generalizing links n with
  | nil =>
    cases h
    exact hlinks
  | cons rank rest ih =>
    rw [Reader.connectAll] at h
    split at h
    · cases h
    · next endpoint _ =>
      refine ih (List.forall_mem_append.mpr ⟨hlinks, List.forall_mem_singleton.mpr ?_⟩) h
      cases hdelivery : s.delivery <;> rfl

theorem endings_open {name : String} {s : Settings} {writers : Nat} {operators : Operators}
    {now : Moment} {n n' : Network} {r : Reader}
    (h : Reader.open name s writers operators now n = (n', .ok r)) :
    Endings r.links.length { reader := r } where
  advances := advances_open h
  length := fun _ => rfl
  tells := by
    unfold Reader.open at h
    split at h
    · cases h
    · split at h
      · cases h
      · next links hconnect =>
        cases h
        have hgoing : ∀ (i : Nat) (l : Link), links[i]? = some l → l.ended = false := fun i l hl =>
          ended_connectAll (List.forall_mem_nil _) hconnect l (List.mem_of_getElem? hl)
        refine Tells.requestAll ⟨fun i l hl => ?_, fun i l hl _ => hgoing i l hl⟩ _
        rw [hgoing i l hl]
        refine iff_of_false nofun ?_
        rintro ⟨_, hmem, -⟩
        cases hmem
  kept := fun _ => nofun

/-! ## Nothing left -/

/-- All links are done, and there is no step to go to. -/
structure Over (x : Reading) : Prop where
  idle : x.reader.stage = .idle
  done : x.reader.isDone = true
  left : x.reader.candidates = []

theorem candidates_of_choose_eq_none {r : Reader} {mode : StepMode} (hdone : r.isDone = true)
    (h : r.choose mode = none) : r.candidates = [] := by
  have hcomplete : ∀ step, r.isComplete step = true := fun step => by
    rw [Reader.isComplete, hdone, Bool.true_or]
  unfold Reader.choose at h
  cases hcandidates : r.candidates with
  | nil => rfl
  | cons step rest =>
    rw [hcandidates] at h
    split at h
    · exact absurd (hcomplete step) (List.find?_eq_none.mp h step List.mem_cons_self)
    · rw [List.head?_cons, Option.filter_some, hcomplete] at h
      cases h
    · exact absurd (hcomplete step) (List.find?_eq_none.mp h step (by simp))

/-- A reader that says that it is over is, and says why. -/
theorem over_of_begun {mode : StepMode} {status : StepStatus}
    (hbegun : Begun mode x x' (.ok status))
    (hstatus : status = .endOfStream ∨ status = .broken) :
    x'.Over ∧ status = x'.reader.lastStatus := by
  cases hbegun with
  | expired _ _ => rcases hstatus with h | h <;> cases h
  | entered _ _ _ _ => rcases hstatus with h | h <;> cases h
  | finished hidle hpolled hchoose hdone =>
    have hspent := candidates_of_choose_eq_none hdone hchoose
    exact ⟨⟨hpolled.passes.stage.trans hidle, hdone, hspent⟩, rfl⟩

/-- A reader that is done neither gets nor asks for anything over its links. -/
theorem poll_of_isDone (hdone : x.reader.isDone = true) (p : Poll) : x.poll p = (x, .ok ()) := by
  have hlink : ∀ {i : Nat} {l : Link}, x.reader.links[i]? = some l → l.isDone = true := fun hl =>
    List.all_eq_true.mp hdone _ (List.mem_of_getElem? hl)
  cases p with
  | ask link n =>
    cases hl : x.reader.links[link]? with
    | none => simp only [poll, Reader.requestLink, hl]
    | some l =>
      simp only [poll, Reader.requestLink, hl, Link.request_of_isDone (hlink hl),
        set_eq_self_of_getElem? hl]
  | take link n =>
    cases hl : x.reader.links[link]? with
    | none => simp only [poll, Reader.receiveLink, Reader.arrivals, hl, List.append_nil]
    | some l =>
      simp [poll, Reader.receiveLink, Reader.receiveFrom, Reader.takeIn, Reader.arrivals,
        Reader.acceptedOf, hl, Link.receive_of_isDone (hlink hl), set_eq_self_of_getElem? hl]

theorem polls_of_isDone (hdone : x.reader.isDone = true) (ps : List Poll) :
    x.polls ps = (x, .ok ()) := by
  induction ps with
  | nil => rfl
  | cons p rest ih =>
    rw [polls, poll_of_isDone hdone]
    exact ih

theorem Over.choose (h : x.Over) (mode : StepMode) : x.reader.choose mode = none := by
  unfold Reader.choose
  rw [h.left]
  split <;> rfl

/-- **Beginning a step does nothing any more**, and says the same each time. -/
theorem Over.beginStep (h : x.Over) (mode : StepMode) (first : Look) (later : List Look) :
    x.beginStep mode first later = (x, .ok x.reader.lastStatus) := by
  rw [Reading.beginStep, Reader.checkBegin_eq_ok.mpr h.idle]
  simp [seek, look, polls_of_isDone h.done, h.choose, h.done, Except.map]

theorem Over.call (h : x.Over) {c : Call} (hc : ∀ n, c ≠ .close n) : x.call c = x := by
  cases c with
  | beginStep mode first later => rw [Reading.call, h.beginStep]
  | endStep now n =>
    rw [Reading.call]
    rcases endStep_cases x.reader now n with heq | ⟨_, hactive, -, -⟩
    · rw [heq]
    · rw [h.idle] at hactive
      cases hactive
  | close n => exact absurd rfl (hc n)

theorem Over.run (h : x.Over) {calls : List Call} (hcalls : ∀ n, Call.close n ∉ calls) :
    x.run calls = x := by
  induction calls with
  | nil => rfl
  | cons c rest ih =>
    have hc : ∀ n, c ≠ .close n := fun n heq => hcalls n (heq ▸ List.mem_cons_self)
    have hrest : ∀ n, Call.close n ∉ rest := fun n hn => hcalls n (List.mem_cons_of_mem c hn)
    show (x.call c).run rest = x
    rw [h.call hc, ih hrest]

/-- No step is live, and every step that a message brought was exposed or skipped. -/
def Spent (x : Reading) : Prop :=
  x.reader.archive.liveSteps = [] ∧
    ∀ d ∈ x.accepted, ∀ s ∈ d.outcome.steps, s ∈ x.exposed ∨ s ∈ x.skipped

theorem Endings.spent (h : x.Endings writers) (hover : x.Over) : x.Spent := by
  have hlive : x.reader.archive.liveSteps = [] := by
    refine List.eq_nil_iff_forall_not_mem.mpr fun s hs => ?_
    have hcandidate : s ∈ x.reader.candidates :=
      Feed.mem_candidates.mpr ⟨hs, fun c hc => (h.advances.idle hover.idle).lt_live c hc s hs⟩
    rw [hover.left] at hcandidate
    cases hcandidate
  refine ⟨hlive, fun d hd s hs => ?_⟩
  rcases h.kept (ne_closed hover.idle) d hd s hs with hs | hs
  · rw [hlive] at hs
    cases hs
  · exact hs

/-- When reading is over without a loss, the end came over every link. -/
theorem Endings.endCame (h : x.Endings writers) (hover : x.Over)
    (hstatus : x.reader.lastStatus = .endOfStream) : ∀ i < writers, x.EndCame i := by
  intro i hi
  have hlength := h.length (ne_closed hover.idle)
  obtain ⟨l, hl⟩ : ∃ l, x.reader.links[i]? = some l :=
    ⟨_, List.getElem?_eq_getElem (hlength ▸ hi)⟩
  refine (h.tells.ended_iff i l hl).mp ?_
  have hdone : l.isDone = true := List.all_eq_true.mp hover.done l (List.mem_of_getElem? hl)
  have hkept : l.lost = false := by
    unfold Reader.lastStatus at hstatus
    split at hstatus
    · cases hstatus
    · next hlost =>
      by_contra hl'
      exact hlost (List.any_eq_true.mpr ⟨l, List.mem_of_getElem? hl, by simpa using hl'⟩)
  rwa [Link.isDone, hkept, Bool.or_false] at hdone

/-- When reading is over with a loss, no end came over some link. -/
theorem Endings.exists_lost (h : x.Endings writers)
    (hstatus : x.reader.lastStatus = .broken) :
    ∃ i l, x.reader.links[i]? = some l ∧ l.lost = true ∧ ¬ x.EndCame i := by
  unfold Reader.lastStatus at hstatus
  split at hstatus
  · next hlost =>
    obtain ⟨l, hmem, hlost⟩ := List.any_eq_true.mp hlost
    obtain ⟨i, hl⟩ := List.mem_iff_getElem?.mp hmem
    refine ⟨i, l, hl, hlost, fun hcame => ?_⟩
    have hended := (h.tells.ended_iff i l hl).mpr hcame
    rw [h.tells.honest i l hl hlost] at hended
    cases hended
  · cases hstatus

end Endings

/-- **The last word of a reader is right and stays**, whatever messages come over however many
links and whenever the writers go. It says that the stream has ended only when the end came over
every link, and that it broke off only when every link is done and one was lost without an end; no
step is live then, and every step that came was exposed or skipped. A link over which the end came
is not lost. Once it said either, it says the same whenever a step is begun until it is closed. -/
theorem endings_run {name : String} {s : Settings} {writers : Nat} {operators : Operators}
    {now : Moment} {n n' : Network} {r₀ : Reader}
    (hopen : Reader.open name s writers operators now n = (n', .ok r₀)) (calls : List Call)
    (mode : StepMode) (first : Look) (later : List Look) :
    let x := run { reader := r₀ } calls
    let y := (x.beginStep mode first later).1
    let result := (x.beginStep mode first later).2
    (∀ i l, x.reader.links[i]? = some l → x.EndCame i → l.lost = false) ∧
    (result = .ok .endOfStream → y.Spent ∧ ∀ i < r₀.links.length, y.EndCame i) ∧
    (result = .ok .broken → y.Spent ∧ y.reader.links.length = r₀.links.length ∧
      (∀ l ∈ y.reader.links, l.isDone = true) ∧
      ∃ i l, y.reader.links[i]? = some l ∧ l.lost = true ∧ ¬ y.EndCame i) ∧
    ∀ status, result = .ok status → status = .endOfStream ∨ status = .broken →
      ∀ more, (∀ n, Call.close n ∉ more) →
        (∀ mode first later, ((y.run more).beginStep mode first later).2 = .ok status) ∧
        ∀ (session : Session) mode limit now,
          (session.beginReading (y.run more).reader mode limit now).2.2 = .ok status := by
  intro x y result
  have hx : x.Endings r₀.links.length := (endings_open hopen).run calls
  have hbegun : Begun mode x y result := begun_beginStep x mode first later
  have hy : y.Endings r₀.links.length := hx.begun hbegun
  refine ⟨fun i l hl hcame => ?_, fun hresult => ?_, fun hresult => ?_,
    fun status hresult hstatus more hmore => ?_⟩
  · by_contra hlost
    have hended := (hx.tells.ended_iff i l hl).mpr hcame
    rw [hx.tells.honest i l hl (by simpa using hlost)] at hended
    cases hended
  · obtain ⟨hover, hstatus⟩ := over_of_begun (hresult ▸ hbegun) (.inl rfl)
    exact ⟨hy.spent hover, hy.endCame hover hstatus.symm⟩
  · obtain ⟨hover, hstatus⟩ := over_of_begun (hresult ▸ hbegun) (.inr rfl)
    exact ⟨hy.spent hover, hy.length (ne_closed hover.idle),
      List.all_eq_true.mp hover.done, hy.exists_lost hstatus.symm⟩
  · obtain ⟨hover, rfl⟩ := over_of_begun (hresult ▸ hbegun) hstatus
    rw [hover.run hmore]
    refine ⟨fun mode first later => by rw [hover.beginStep], fun session mode limit now => ?_⟩
    rcases hsession : session.beginReading y.reader mode limit now with ⟨session', r', result'⟩
    obtain ⟨first', later', x', hbegin, -⟩ := beginReading_eq hsession rfl
    rw [hover.beginStep] at hbegin
    cases hbegin
    rfl

/-! ### A run to the end, and one that breaks off -/

section Sample

open Reader

/-- What is left by a publisher that goes after these messages. -/
def sampleLeft (messages : List Bytes) : Network :=
  let n := samplePublished messages
  { n with broadcast := n.broadcast.unbind "a" }

/-- Step 5 is read, and all that the publisher left is taken in before that. -/
def sampleReading (messages : List Bytes) : List Call :=
  [.beginStep .next ⟨[.take 0 (sampleLeft messages)], ⟨0, 0⟩⟩ [], .endStep ⟨0, 0⟩ {}]

/-- A look at nothing. -/
def sampleLook : Look := ⟨[], ⟨0, 0⟩⟩

theorem endings_run_sample : ∃ n r₀, sampleOpening = (n, .ok r₀) ∧
    let ended := run { reader := r₀ } (sampleReading [messageAt 5, Frame.endRecord (some 5)])
    let broken := run { reader := r₀ } (sampleReading [messageAt 5])
    let more : List Call := [.endStep ⟨0, 0⟩ {}, .beginStep .next ⟨[.ask 0 {}], ⟨0, 0⟩⟩ []]
    (ended.exposed = [5] ∧ (ended.beginStep .next sampleLook []).1.EndCame 0 ∧
      ((((ended.beginStep .next sampleLook []).1.run more).beginStep .latest sampleLook []).2 =
        .ok .endOfStream)) ∧
    broken.exposed = [5] ∧ (broken.beginStep .next sampleLook []).1.Spent ∧
      (((broken.beginStep .next sampleLook []).1.run more).beginStep .latest sampleLook []).2 =
        .ok .broken := by
  have hruns : sampleOpening.2.toOption.any (fun r₀ =>
      let ended := run { reader := r₀ } (sampleReading [messageAt 5, Frame.endRecord (some 5)])
      let broken := run { reader := r₀ } (sampleReading [messageAt 5])
      ended.exposed = [5] ∧ (ended.beginStep .next sampleLook []).2.toOption = some .endOfStream ∧
        broken.exposed = [5] ∧ (broken.beginStep .next sampleLook []).2.toOption = some .broken ∧
        r₀.links.length = 1) = true := by
    decide +kernel
  obtain ⟨n, r₀, hopen, hrun⟩ := exists_opened hruns
  obtain ⟨hended, hend, hbroken, hbreak, hlinks⟩ := of_decide_eq_true hrun
  have hok : ∀ {result : Except Fault StepStatus} {status},
      result.toOption = some status → result = .ok status := by
    rintro (_ | _) _ h <;> cases h
    rfl
  obtain ⟨-, hcame, -, hsame⟩ := endings_run hopen
    (sampleReading [messageAt 5, Frame.endRecord (some 5)]) .next sampleLook []
  obtain ⟨-, -, hlost, hsame'⟩ := endings_run hopen
    (sampleReading [messageAt 5]) .next sampleLook []
  refine ⟨n, r₀, hopen, ⟨hended, (hcame (hok hend)).2 0 (by omega), ?_⟩, hbroken,
    (hlost (hok hbreak)).1, ?_⟩
  · exact (hsame _ (hok hend) (.inl rfl) _ (by simp)).1 .latest sampleLook []
  · exact (hsame' _ (hok hbreak) (.inr rfl) _ (by simp)).1 .latest sampleLook []

end Sample

end Reading

end Stepcast
