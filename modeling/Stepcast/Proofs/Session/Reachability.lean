import Stepcast.Proofs.Outcomes
import Stepcast.Proofs.Session.Couriers

/-!
# Sessions that can be reached

A session begins empty, and parties come, act and leave. The invariant, `Session.Tidy`, says that
every courier works for one party at most, and that behind each responder there is a desk to which a
run leads. Every act but one goes onward; a writer that comes brings a courier of its own.

Main statements: `Tidy.enterWriter?`, `tidy_act`, `tidy_of_reachable`.
-/

namespace Stepcast

namespace Session

/-! ## Sessions in order -/

/-- Every courier works for one party at most, and there is a desk behind each responder. -/
structure Tidy (s : Session) : Prop where
  sorted : Table.Sorted s.parties
  opened : ∀ name id, s.courierOf name = some id → id < s.nextCourier
  sole : ∀ name name' id, s.courierOf name = some id → s.courierOf name' = some id → name = name'
  desks : ∀ id r, s.couriers.at? id = some (.responder r) →
    ∃ d : Desk, d.IsReached ∧ d.responder = r

section Tidy

variable {s s' : Session} {name : String} {id : Nat} {now : Moment}

theorem tidy_empty : Tidy {} where
  sorted := .nil
  opened := nofun
  sole := nofun
  desks := nofun

theorem Tidy.onward (h : Tidy s) (honward : Onward s s') : Tidy s' where
  sorted := honward.sorted h.sorted
  opened := fun name id hid => honward.next ▸ h.opened name id (honward.courierOf name id hid)
  sole := fun name name' id hid hid' =>
    h.sole name name' id (honward.courierOf name id hid) (honward.courierOf name' id hid')
  desks := by
    intro id r' hr'
    obtain ⟨c, handed, hc, hfollows⟩ := honward.couriers id _ hr'
    cases hfollows with
    | @responder r _ hleads =>
      obtain ⟨d, hreached, hd⟩ := h.desks id r hc
      obtain ⟨d', hd', -, hresponder⟩ := hleads d hd
      exact ⟨d', hreached.leads hd', hresponder⟩

/-- A courier comes, for which there is a desk if it answers requests. -/
theorem desks_open {settings : Settings} {address : String} {n n' : Network} {r : Responder}
    (hdepth : settings.queueDepth + 1 < 2 ^ 64)
    (h : Courier.open settings address n = .ok (.responder r, n')) :
    ∃ d : Desk, d.IsReached ∧ d.responder = r := by
  refine ⟨{ responder := r }, ⟨settings, address, n, [], hdepth, ?_⟩, rfl⟩
  simp only [Desk.run?, Desk.start?, h]
  rfl

theorem Tidy.openCourier (h : Tidy s) {settings : Settings} {rank : UInt32}
    (hdepth : settings.queueDepth + 1 < 2 ^ 64) (hs : s.openCourier settings rank = .ok (id, s')) :
    Tidy s' ∧ id < s'.nextCourier ∧ ∀ name, s'.courierOf name ≠ some id := by
  simp only [Session.openCourier, bind_eq_ok] at hs
  obtain ⟨_, -, endpoint, -, ⟨c, network⟩, hopen, hs⟩ := hs
  -- The session before the courier has done anything.
  have hfirst : Tidy { s with
      couriers := s.couriers.put s.nextCourier c, nextCourier := s.nextCourier + 1, network } := {
    sorted := h.sorted
    opened := fun name id hid => Nat.lt_succ_of_lt (h.opened name id hid)
    sole := h.sole
    desks := by
      intro id r hr
      rw [Table.at?_put] at hr
      by_cases hid : id = s.nextCourier
      · rw [if_pos hid] at hr
        cases hr
        exact desks_open hdepth hopen
      · rw [if_neg hid] at hr
        exact h.desks id r hr }
  have hnobody (name : String) : s.courierOf name ≠ some s.nextCourier :=
    fun hid => Nat.lt_irrefl _ (h.opened name _ hid)
  dsimp only at hs
  split at hs
  · cases hs
    have honward := onward_settle { s with
      couriers := s.couriers.put s.nextCourier c, nextCourier := s.nextCourier + 1, network }
        settings.timeoutDuration
    refine ⟨hfirst.onward honward, ?_, fun name hid => hnobody name (honward.courierOf name _ hid)⟩
    rw [honward.next]
    exact Nat.lt_succ_self _
  · cases hs
    exact ⟨hfirst, Nat.lt_succ_self _, hnobody⟩

theorem Tidy.enterWriter? (h : Tidy s) {stream : String} {settings : Settings} {rank : UInt32}
    {operators : Operators} {result : Except Fault Unit}
    (hdepth : settings.queueDepth + 1 < 2 ^ 64)
    (hs : s.enterWriter? name stream settings rank operators now = some (s', result)) :
    Tidy s' := by
  unfold Session.enterWriter? at hs
  split at hs
  · cases hs
    exact h
  · next id s₁ hopen =>
    simp only [Option.bind_eq_bind, Option.bind_eq_some_iff] at hs
    obtain ⟨s₂, henter, hs⟩ := hs
    cases hs
    obtain ⟨htidy, hnew, hnobody⟩ := h.openCourier hdepth hopen
    obtain ⟨s₃, honward, rfl⟩ := enter?_cases henter
    refine Tidy.onward ?_ (onward_settle _ .zero)
    have htidy := htidy.onward honward
    have hnobody (name : String) : s₃.courierOf name ≠ some id :=
      fun hid => hnobody name (honward.courierOf name id hid)
    have hput (name' : String) (id' : Nat) (hid : Session.courierOf { s₃ with
        parties := s₃.parties.put name (.writer (.create stream settings rank operators now) id) }
          name' = some id') : name' = name ∧ id' = id ∨ s₃.courierOf name' = some id' := by
      rw [Session.courierOf, Table.at?_put] at hid
      by_cases hname : name' = name
      · rw [if_pos hname] at hid
        cases hid
        exact .inl ⟨hname, rfl⟩
      · rw [if_neg hname] at hid
        exact .inr hid
    exact {
      sorted := htidy.sorted.put _ _
      opened := by
        intro name' id' hid
        rcases hput name' id' hid with ⟨-, rfl⟩ | hid
        · exact honward.next ▸ hnew
        · exact htidy.opened name' id' hid
      sole := by
        intro name₁ name₂ id' hid₁ hid₂
        rcases hput name₁ id' hid₁ with ⟨rfl, rfl⟩ | hold₁
        · rcases hput name₂ id' hid₂ with ⟨rfl, -⟩ | hold₂
          · rfl
          · exact absurd hold₂ (hnobody name₂)
        · rcases hput name₂ id' hid₂ with ⟨rfl, rfl⟩ | hold₂
          · exact absurd hold₁ (hnobody name₁)
          · exact htidy.sole name₁ name₂ id' hold₁ hold₂
      desks := htidy.desks }

end Tidy

/-- What a party can do, and who can come. No writer has a queue for more messages than it can
count. -/
inductive Act (s : Session) : Session → Prop
  | enterPublisher {name address : String} {now : Moment} {s' : Session}
      {result : Except Fault Unit} :
      s.enterPublisher? name address now = some (s', result) → Act s s'
  | enterSubscriber {name address : String} {depth : Nat} {now : Moment} {s' : Session} :
      s.enterSubscriber? name address depth now = some s' → Act s s'
  | enterServer {name address : String} {limit : Duration} {depth : Nat} {now : Moment}
      {s' : Session} {result : Except Fault Unit} :
      s.enterServer? name address limit depth now = some (s', result) → Act s s'
  | enterClient {name address : String} {limit : Duration} {now : Moment} {s' : Session} :
      s.enterClient? name address limit now = some s' → Act s s'
  | enterWriter {name stream : String} {settings : Settings} {rank : UInt32}
      {operators : Operators} {now : Moment} {s' : Session} {result : Except Fault Unit} :
      settings.queueDepth + 1 < 2 ^ 64 →
      s.enterWriter? name stream settings rank operators now = some (s', result) → Act s s'
  | enterReader {name stream : String} {settings : Settings} {writers : Nat}
      {operators : Operators} {now : Moment} {s' : Session} {result : Except Fault Unit} :
      s.enterReader? name stream settings writers operators now = some (s', result) → Act s s'
  | leave {name : String} {now : Moment} {s' : Session} : s.leave? name now = some s' → Act s s'
  | changeWriter {name : String} {act : Writer → Except Fault Writer} {s' : Session}
      {result : Except Fault Unit} : s.changeWriter? name act = some (s', result) → Act s s'
  | updateWriter {name : String} {act : Writer → Writer × Except Fault Unit} {s' : Session}
      {result : Except Fault Unit} : s.updateWriter? name act = some (s', result) → Act s s'
  | endWriting {name : String} {now : Moment} {s' : Session} {result : Except Fault Unit} :
      s.endWriting? name now = some (s', result) → Act s s'
  | closing {name : String} {w : Writer} {id : Nat} {now : Moment} :
      s.writer? name = some (w, id) → Act s (s.closing name w id now)
  | join {name : String} {s' : Session} {result : Except Fault Tally} :
      s.join? name = some (s', result) → Act s s'
  | closeWriter {name : String} {now : Moment} {s' : Session} {result : Except Fault Unit} :
      s.closeWriter? name now = some (s', result) → Act s s'
  | beginReading {name : String} {mode : StepMode} {limit : Duration} {now : Moment}
      {s' : Session} {result : Except Fault (StepStatus × Option UInt64)} :
      s.beginReading? name mode limit now = some (s', result) → Act s s'
  | endReading {name : String} {now : Moment} {s' : Session} {result : Except Fault Unit} :
      s.endReading? name now = some (s', result) → Act s s'
  | closeReader {name : String} {s' : Session} : s.closeReader? name = some s' → Act s s'
  | receive {name : String} {limit : Duration} {s' : Session}
      {result : Except Fault (Option Bytes)} :
      s.receive? name limit = some (s', result) → Act s s'
  | publish {name : String} {message : Bytes} {s' : Session} {accepted : Nat} :
      s.publish? name message = some (s', accepted) → Act s s'
  | send {name : String} {message : Bytes} {s' : Session} {result : Except Fault Unit} :
      s.send? name message = some (s', result) → Act s s'
  | wait (waited : Duration) : Act s (s.settle waited)

/-- **One act** leaves a session in order. -/
theorem tidy_act {s s' : Session} (h : Tidy s) (hact : Act s s') : Tidy s' := by
  cases hact with
  | enterWriter hdepth hs => exact h.enterWriter? hdepth hs
  | enterPublisher hs => exact h.onward (onward_enterPublisher? hs)
  | enterSubscriber hs => exact h.onward (onward_enterSubscriber? hs)
  | enterServer hs => exact h.onward (onward_enterServer? hs)
  | enterClient hs => exact h.onward (onward_enterClient? hs)
  | enterReader hs => exact h.onward (onward_enterReader? hs)
  | leave hs => exact h.onward (onward_leave? hs)
  | changeWriter hs => exact h.onward (onward_changeWriter? hs)
  | updateWriter hs => exact h.onward (onward_updateWriter? hs)
  | endWriting hs => exact h.onward (onward_endWriting? hs)
  | closing hs => exact h.onward (onward_closing _ _ (courierOf_of_writer? hs))
  | join hs => exact h.onward (onward_join? hs)
  | closeWriter hs => exact h.onward (onward_closeWriter? hs)
  | beginReading hs => exact h.onward (onward_beginReading? hs)
  | endReading hs => exact h.onward (onward_endReading? hs)
  | closeReader hs => exact h.onward (onward_closeReader? hs)
  | receive hs => exact h.onward (onward_receive? hs)
  | publish hs => exact h.onward (onward_publish? hs)
  | send hs => exact h.onward (onward_send? hs)
  | wait waited => exact h.onward (onward_settle s waited)

/-- The sessions to which acts lead. -/
inductive Reachable : Session → Prop
  | empty : Reachable {}
  | act {s s' : Session} : Reachable s → Act s s' → Reachable s'

theorem tidy_of_reachable {s : Session} (h : Reachable s) : Tidy s := by
  induction h with
  | empty => exact tidy_empty
  | act _ hact ih => exact tidy_act ih hact

end Session

end Stepcast
