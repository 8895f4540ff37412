import Stepcast.Proofs.Session.Reachability

/-!
# Closing when everything was collected

A writer that closes hands over its last messages and the end of the stream, and waits. Without a
limit it waits until as many messages were released as were handed over. The responder counts a
release when a reply was sent, so by then a reply was sent with every message that the writer ever
handed over.

The invariant, `Session.HandsOver`, follows the messages of the closing writer: what it still has to
hand over, and what has reached the desk behind its responder, are together what it closed with.

Main statements: `HandsOver.settle`, `closeWriter?_drained`, `answers_once`.
-/

namespace Stepcast

/-! ## Closing keeps the settings -/

namespace Writer

theorem settings_performPuts (w : Writer) : w.performPuts.1.settings = w.settings := by
  unfold performPuts
  split <;> rfl

theorem settings_endStep (w : Writer) (now : Moment) :
    (w.endStep now).1.settings = w.settings := by
  have hperform := w.settings_performPuts
  unfold endStep
  split
  · rfl
  · split
    · next hfailed =>
      rw [hfailed] at hperform
      exact hperform
    · next hdone =>
      rw [hdone] at hperform
      dsimp only
      split <;> exact hperform

theorem settings_finish (w : Writer) : w.finish.1.settings = w.settings := by
  unfold finish
  dsimp only
  split <;> rfl

/-- A writer that closes ends the stream with its last message. -/
theorem exists_of_close {w : Writer} {now : Moment} {messages : List Outgoing}
    (hopen : w.stage ≠ .closed) (h : (w.close now).2 = .ok messages) :
    ∃ data final, messages = data ++ [.finish (Frame.endRecord final) final] := by
  unfold close at h
  split at h
  · next hclosed => exact absurd hclosed hopen
  · cases h
    exact ⟨_, _, rfl⟩
  · split at h
    · cases h
    · cases h
      exact ⟨_, _, (List.append_assoc ..).symm⟩

theorem settings_close (w : Writer) (now : Moment) : (w.close now).1.settings = w.settings := by
  have hend := w.settings_endStep now
  unfold close
  split
  · rfl
  · exact w.settings_finish
  · split
    · next hfailed =>
      rw [hfailed] at hend
      exact hend
    · next hended =>
      rw [hended] at hend
      exact (settings_finish _).trans hend

end Writer

/-! ## What a closing writer hands over -/

namespace Session

open Desk

/-- A closing writer has handed over the first of its messages, and the responder, which was at the
desk `d` before, has them. -/
def HandsOver (d : Desk) (messages : List Outgoing) (name : String) (w : Writer) (id : Nat)
    (outcome : Except Fault Unit) (s : Session) : Prop :=
  ∃ handed backlog d', messages = handed ++ backlog ∧ d.Leads d' ∧ d'.given = d.given ++ handed ∧
    s.parties.at? name = some (.closing w id backlog outcome) ∧
    s.couriers.at? id = some (.responder d'.responder)

section HandsOver

variable {d : Desk} {messages : List Outgoing} {name : String} {w : Writer} {id : Nat}
  {outcome : Except Fault Unit} {s s' : Session}

/-- The parties stay, and the courier goes on without being given anything. -/
theorem HandsOver.follow (h : HandsOver d messages name w id outcome s)
    (hparties : s'.parties = s.parties) (hcourier : ∀ c, s.couriers.at? id = some c →
      ∃ c', s'.couriers.at? id = some c' ∧ c.Follows [] c') :
    HandsOver d messages name w id outcome s' := by
  obtain ⟨handed, backlog, d₁, rfl, hleads, hgiven, hparty, hc⟩ := h
  obtain ⟨c', hc', hfollows⟩ := hcourier _ hc
  cases hfollows with
  | responder hnext =>
    obtain ⟨d₂, hleads₂, hgiven₂, rfl⟩ := hnext d₁ rfl
    refine ⟨handed, backlog, d₂, rfl, hleads.trans hleads₂, ?_, hparties ▸ hparty, hc'⟩
    rw [hgiven₂, hgiven, List.append_nil]

theorem HandsOver.party (h : HandsOver d messages name w id outcome s) :
    ∃ backlog, s.parties.at? name = some (.closing w id backlog outcome) := by
  obtain ⟨handed, backlog, d₁, -, -, -, hparty, -⟩ := h
  exact ⟨backlog, hparty⟩

theorem HandsOver.work (h : HandsOver d messages name w id outcome s) (waited : Duration) :
    HandsOver d messages name w id outcome (s.work waited) := by
  refine h.follow rfl fun c hc => ?_
  obtain ⟨n', hn'⟩ := s.at?_work waited id
  exact ⟨_, by rw [hn', hc]; rfl, c.follows_settle waited n'⟩

theorem HandsOver.closeDrained (h : HandsOver d messages name w id outcome s) :
    HandsOver d messages name w id outcome s.closeDrained := by
  refine h.follow rfl fun c hc => ⟨_, by rw [at?_closeDrained, hc]; rfl, ?_⟩
  dsimp only
  split
  · exact c.follows_close
  · exact .refl c

/-- **The writer hands over its next message**, or another does, to another courier. -/
theorem HandsOver.handOverNext (h : HandsOver d messages name w id outcome s) (htidy : Tidy s)
    (name' : String) : HandsOver d messages name w id outcome (s.handOverNext name') := by
  rcases s.handOverNext_cases name' with
    hnone | ⟨w', id', m, rest, outcome', c, c', network, hparty', hc', hgiven', hnext⟩
  · rw [hnone]
    exact h
  obtain ⟨handed, backlog, d₁, rfl, hleads, hgiven, hparty, hc⟩ := h
  rw [hnext]
  by_cases hname : name' = name
  · subst hname
    cases hparty.symm.trans hparty'
    cases hc.symm.trans hc'
    have hfollows := Courier.follows_handOver? hgiven'
    generalize hr : d₁.responder = r at hfollows
    cases hfollows with
    | responder hmore =>
      obtain ⟨d₂, hleads₂, hgiven₂, rfl⟩ := hmore d₁ hr
      refine ⟨handed ++ [m], rest, d₂, by simp, hleads.trans hleads₂, ?_, Table.at?_put_self ..,
        Table.at?_put_self ..⟩
      rw [hgiven₂, hgiven, List.append_assoc]
  · have hid : id ≠ id' := by
      rintro rfl
      exact hname (htidy.sole name' name id (courierOf_of_at? hparty') (courierOf_of_at? hparty))
    refine ⟨handed, backlog, d₁, rfl, hleads, hgiven, ?_, ?_⟩
    · exact (Table.at?_put_of_ne (Ne.symm hname) ..).trans hparty
    · exact (Table.at?_put_of_ne hid ..).trans hc

theorem HandsOver.foldl (h : HandsOver d messages name w id outcome s) (htidy : Tidy s)
    (names : List String) :
    HandsOver d messages name w id outcome (names.foldl Session.handOverNext s) := by
  induction names generalizing s with
  | nil => exact h
  | cons name' rest ih =>
    exact ih (h.handOverNext htidy name') (htidy.onward (onward_handOverNext s name'))

theorem HandsOver.workOff (h : HandsOver d messages name w id outcome s) (htidy : Tidy s)
    (waited : Duration) (rounds : Nat) :
    HandsOver d messages name w id outcome (Session.workOff waited rounds s) := by
  induction rounds generalizing s with
  | zero => exact h.work waited
  | succ rounds ih =>
    have htidy := htidy.onward (onward_work s waited)
    exact ih ((h.work waited).foldl htidy _) (htidy.onward (onward_foldl onward_handOverNext _ _))

/-- **Settling** loses none of the messages. -/
theorem HandsOver.settle (h : HandsOver d messages name w id outcome s) (htidy : Tidy s)
    (waited : Duration) : HandsOver d messages name w id outcome (s.settle waited) :=
  ((h.workOff htidy waited _).closeDrained).work waited

theorem HandsOver.of_waiting (h : HandsOver d messages name w id outcome s) (htidy : Tidy s)
    (hwaiting : id ∈ s.waitingCouriers) : ∃ d' : Desk, d.Leads d' ∧
      d'.given = d.given ++ messages ∧ s.couriers.at? id = some (.responder d'.responder) := by
  obtain ⟨handed, backlog, d₁, rfl, hleads, hgiven, hparty, hc⟩ := h
  obtain ⟨⟨name', p⟩, hmem, hp⟩ := List.mem_filterMap.mp hwaiting
  have hat := (Table.mem_iff_at? htidy.sorted).mp hmem
  dsimp only at hp
  split at hp
  · cases hp
    have hname : name' = name :=
      htidy.sole name' name id (courierOf_of_at? hat) (courierOf_of_at? hparty)
    subst hname
    cases hparty.symm.trans hat
    exact ⟨d₁, hleads, by rw [hgiven, List.append_nil], hc⟩
  · cases hp

end HandsOver

/-- A writer that closes hands over what it closes with. -/
theorem handsOver_closing {s : Session} (htidy : Tidy s) {name : String} {w : Writer} {id : Nat}
    (now : Moment) {d : Desk} (hparty : s.parties.at? name = some (.writer w id))
    (hcourier : s.couriers.at? id = some (.responder d.responder)) :
    HandsOver d ((w.close now).2.toOption.getD []) name (w.close now).1 id
      ((w.close now).2.map (fun _ => ())) (s.closing name w id now) := by
  have hput (p : Party) (hp : p.courier? = some id) :
      Tidy { s with parties := s.parties.put name p } :=
    htidy.onward ((Onward.refl s).put fun id' hid' =>
      (courierOf_of_at? hparty).trans (hp.symm.trans hid'))
  cases hclose : w.close now with
  | mk w' result =>
    rw [closing, hclose]
    cases result with
    | error f =>
      refine HandsOver.settle ?_ (hput _ rfl) .zero
      exact ⟨[], [], d, rfl, .refl d, (List.append_nil _).symm, Table.at?_put_self .., hcourier⟩
    | ok messages =>
      refine HandsOver.settle ?_ (hput _ rfl) .zero
      exact ⟨[], messages, d, rfl, .refl d, (List.append_nil _).symm, Table.at?_put_self ..,
        hcourier⟩

/-- **A writer without a limit closes when everything was collected**: with each message that it
handed over before, and with those it closed with, a reply was sent. -/
theorem closeWriter?_drained {s s' : Session} (hs : Reachable s) {name : String} {w : Writer}
    {id : Nat} {now : Moment} (hwriter : s.writer? name = some (w, id)) {d : Desk}
    (hreached : d.IsReached) (hcourier : s.couriers.at? id = some (.responder d.responder))
    (hopen : w.stage ≠ .closed) (hlimit : w.settings.drainTimeout = none)
    (h : s.closeWriter? name now = some (s', .ok ())) :
    ∃ messages, (w.close now).2 = .ok messages ∧ ∃ d' : Desk, d.Leads d' ∧
      d'.given = d.given ++ messages ∧ s'.couriers.at? id = some (.responder d'.responder) ∧
      d'.responder.tally.released = d'.responder.accepted ∧ sentOf d'.turns = d'.given := by
  have htidy := tidy_of_reachable hs
  have hparty := at?_of_writer? hwriter
  have hclosing := handsOver_closing htidy now hparty hcourier
  have htidy₁ := htidy.onward (onward_closing w now (courierOf_of_at? hparty))
  simp only [closeWriter?, hparty, Option.bind_eq_bind, Option.bind_some, if_neg hopen] at h
  obtain ⟨⟨s₂, result⟩, hjoin, h⟩ := Option.bind_eq_some_iff.mp h
  obtain ⟨rfl, hresult⟩ := Prod.mk.inj (Option.some.inj h)
  obtain ⟨w', id', backlog, outcome, s₁, hparty₁, -, hs₂, hcases⟩ := join?_cases hjoin
  obtain ⟨_, hparty₂⟩ := hclosing.party
  cases hparty₁.symm.trans hparty₂
  rcases hcases with ⟨f, -, rfl⟩ | ⟨houtcome, hdone⟩
  · cases hresult
  cases hmessages : (w.close now).2 with
  | error f =>
    rw [hmessages] at houtcome
    cases houtcome
  | ok messages =>
    have hnone : (w.close now).1.settings.drainLimit = none := by
      rw [w.settings_close, Settings.drainLimit, hlimit]
      rfl
    obtain ⟨hwaits, hwaiting, hdrained⟩ := hdone hnone
    rw [hmessages] at hclosing
    have hhands : Tidy s₁ ∧ HandsOver d messages name (w.close now).1 id (.ok ()) s₁ := by
      rcases hwaits with rfl | ⟨waited, rfl⟩
      · exact ⟨htidy₁, hclosing⟩
      · exact ⟨htidy₁.onward (onward_settle _ waited), hclosing.settle htidy₁ waited⟩
    obtain ⟨d', hleads, hgiven, hc⟩ := hhands.2.of_waiting hhands.1 hwaiting
    obtain ⟨settings, address, n, events, hdepth, hrun⟩ := hreached.leads hleads
    rw [hc] at hdrained
    exact ⟨messages, rfl, d', hleads, hgiven, by rw [hs₂]; exact hc,
      beq_iff_eq.mp hdrained, ((orderly_run hrun).isDrained_iff hdepth).mp hdrained⟩

/-! ## The whole promise -/

/-- **Every message is collected once, in order.** Whatever is handed over, whatever is asked for
and whichever replies fail: the messages whose reply was sent, in order, and those that the
responder keeps are together what was handed over; each of them counts as one release; other
requests are answered with an empty reply and take no message; and after a reply that failed, the
same message is offered next.

Behind every responder of a session there is a desk that has come about in this way. A writer
without a limit closes when each message that it handed over, the end of the stream being the last,
was collected. -/
theorem answers_once :
    (∀ (settings : Settings) (address : String) (n : Network) (events : List Event) (d : Desk),
      Desk.run? settings address n events = some d →
      d.given = sentOf d.turns ++ d.responder.kept ∧
      d.responder.tally = tallyOf (UInt64.ofNat settings.aggregation) (sentOf d.turns) ∧
      (∀ t ∈ d.turns, t.request ≠ stepRequest → t.message = none) ∧
      (∀ request, d.asked = some request → request ≠ stepRequest → ∀ x, ∃ ok d',
        d.handle? (.answer d.responder.limit x) = some d' ∧ d'.given = d.given ∧
        d'.turns = d.turns ++ [⟨request, none, ok⟩] ∧ d'.responder.kept = d.responder.kept) ∧
      (offersOf d.turns).IsChain (fun o o' => o.2 = false → o'.1 = o.1)) ∧
    (∀ (s : Session), Reachable s →
      (∀ id r, s.couriers.at? id = some (.responder r) →
        ∃ d : Desk, d.IsReached ∧ d.responder = r) ∧
      ∀ (name : String) (w : Writer) (id : Nat) (d : Desk) (now : Moment) (s' : Session),
        s.writer? name = some (w, id) → w.stage ≠ .closed → w.settings.drainTimeout = none →
        d.IsReached → s.couriers.at? id = some (.responder d.responder) →
        s.closeWriter? name now = some (s', .ok ()) →
        ∃ data final, ∃ d' : Desk, d.Leads d' ∧
          (w.close now).2 = .ok (data ++ [.finish (Frame.endRecord final) final]) ∧
          d'.given = d.given ++ data ++ [.finish (Frame.endRecord final) final] ∧
          s'.couriers.at? id = some (.responder d'.responder) ∧
          d'.responder.tally.released = d'.responder.accepted ∧ sentOf d'.turns = d'.given) := by
  constructor
  · intro settings address n events d hrun
    have horderly := orderly_run hrun
    exact ⟨horderly.given, horderly.tally, horderly.refused, fun request => horderly.refuses,
      horderly.repeated⟩
  · intro s hs
    refine ⟨(tidy_of_reachable hs).desks, ?_⟩
    intro name w id d now s' hwriter hopen hlimit hreached hcourier h
    obtain ⟨messages, hmessages, d', hleads, hgiven, hc, hreleased, hsent⟩ :=
      closeWriter?_drained hs hwriter hreached hcourier hopen hlimit h
    obtain ⟨data, final, rfl⟩ := Writer.exists_of_close hopen hmessages
    exact ⟨data, final, d', hleads, hmessages, by rw [hgiven, List.append_assoc], hc, hreleased,
      hsent⟩

/-! ### A case -/

/-- An exchange in which one client has sent a request, or waits for the reply to it. The client has
room for a reply, or none. -/
def sampleExchange (requests : List (Bytes × Nat)) (reply : Option Bytes) : Exchange :=
  let pending := if requests.isEmpty then some 0 else none
  { servers := [(0, { address := "a", capacity := 1, limit := .zero, requests, pending })]
    clients := [(0, { address := "a", limit := .zero, reply })] }

/-- An unknown request, and two for a message. The first reply with the message fails. -/
def sampleEvents : List Event :=
  [.handOver (.data [7] 0 0), .handOver (.finish [9] (some 0)),
    .answer .zero (sampleExchange [([1], 0)] none), .answer .zero (sampleExchange [] none),
    .answer .zero (sampleExchange [(stepRequest, 0)] none), .answer .zero {},
    .answer (.ofMillis 5000) (sampleExchange [] (some [3])),
    .answer .zero (sampleExchange [(stepRequest, 0)] none),
    .answer .zero (sampleExchange [] none)]

def sampleSettings : Settings := { address := some "a", delivery := .reliable }

/-- A writer comes, and a client that asks it for a message. -/
def sampleAsking? : Option Session := do
  let (s, _) ← ({} : Session).enterWriter? "w" "sim" sampleSettings 0 [] ⟨0, 0⟩
  let s ← s.enterClient? "c" "a" .zero ⟨0, 0⟩
  let (s, _) ← s.send? "c" stepRequest
  return s

theorem reachable_sampleAsking? {s : Session} (h : sampleAsking? = some s) : Reachable s := by
  simp only [sampleAsking?, Option.bind_eq_bind, Option.bind_eq_some_iff] at h
  obtain ⟨⟨s₁, _⟩, henter, s₂, hclient, ⟨s₃, _⟩, hsend, h⟩ := h
  cases h
  exact .act (.act (.act .empty (.enterWriter (by decide) henter)) (.enterClient hclient))
    (.send hsend)

/-- The courier works for a writer in reliable delivery. -/
def isResponder : Courier → Bool
  | .publication _ => false
  | .responder _ => true

theorem answers_once_sample :
    (∃ d, Desk.run? sampleSettings "a" {} sampleEvents = some d ∧
      offersOf d.turns = [(.data [7] 0 0, false), (.data [7] 0 0, true)] ∧
      d.given = sentOf d.turns ++ d.responder.kept) ∧
    ∃ s w id s', ∃ d' : Desk, sampleAsking? = some s ∧ s.writer? "w" = some (w, id) ∧
      s.closeWriter? "w" ⟨0, 0⟩ = some (s', .ok ()) ∧
      s'.couriers.at? id = some (.responder d'.responder) ∧
      d'.responder.tally.released = d'.responder.accepted ∧ sentOf d'.turns = d'.given := by
  constructor
  · have hruns : (Desk.run? sampleSettings "a" {} sampleEvents).any (fun d =>
        offersOf d.turns = [(.data [7] 0 0, false), (.data [7] 0 0, true)]) = true := by
      decide +kernel
    obtain ⟨d, hrun, hd⟩ := (Option.any_eq_true _ _).mp hruns
    exact ⟨d, hrun, of_decide_eq_true hd, (answers_once.1 _ _ _ _ d hrun).1⟩
  · have hruns : sampleAsking?.any (fun s => (s.writer? "w").any (fun e =>
        e.1.stage ≠ .closed ∧ e.1.settings.drainTimeout = none ∧
        (s.closeWriter? "w" ⟨0, 0⟩).any (·.2.isOk) ∧
        (s.couriers.at? e.2).any isResponder)) = true := by
      decide +kernel
    obtain ⟨s, hs, hruns⟩ := (Option.any_eq_true _ _).mp hruns
    obtain ⟨⟨w, id⟩, hwriter, hruns⟩ := (Option.any_eq_true _ _).mp hruns
    obtain ⟨hopen, hlimit, hclose, hcourier⟩ := of_decide_eq_true hruns
    obtain ⟨⟨s', result⟩, hclose, hok⟩ := (Option.any_eq_true _ _).mp hclose
    obtain ⟨c, hc, hresponder⟩ := (Option.any_eq_true _ _).mp hcourier
    cases c with
    | publication p => cases hresponder
    | responder r =>
      cases result with
      | error f => cases hok
      | ok u =>
        obtain ⟨hdesks, hcloses⟩ := answers_once.2 s (reachable_sampleAsking? hs)
        obtain ⟨d, hreached, rfl⟩ := hdesks id r hc
        obtain ⟨_, _, d', -, -, -, hc', hreleased, hsent⟩ :=
          hcloses "w" w id d ⟨0, 0⟩ s' hwriter hopen hlimit hreached hc hclose
        exact ⟨s, w, id, s', d', hs, hwriter, hclose, hc', hreleased, hsent⟩

end Session

end Stepcast
