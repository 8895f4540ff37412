import Stepcast.Proofs.Delivery.Offers
import Stepcast.Proofs.Delivery.Seats

/-!
# Publishers that take their time

Publishers and subscribers come and go at any number of addresses. A publisher that sends or leaves
goes through the subscribers at its address one after the other, and until it is through nobody
comes to the address and nothing else is sent there. But subscribers may receive and leave between
any two of its steps. So a queue may get room, or be gone, before what is sent comes to it.

When nothing comes between its steps, a publisher that sends has published the message, and one that
leaves has given up its address.

Main statements: `step_perform`, `foldl_advance_send`, `drop_eq_unbind`.
-/

namespace Stepcast

namespace Fanout

/-- What a publisher does with its subscribers. -/
inductive Errand where
  | send (message : Bytes) (accepted : Nat)
  | leave
deriving DecidableEq

/-- A publisher goes through its subscribers. -/
structure Round where
  errand : Errand
  /-- The subscribers that it has not come to. -/
  remaining : List Nat
deriving DecidableEq

/-- The message that a round brings to a subscriber that it has not come to. -/
def Round.due (r : Round) (id : Nat) : Option Bytes :=
  match r.errand with
  | .send message _ => if id ∈ r.remaining then some message else none
  | .leave => none

end Fanout

/-- A broadcast, those who use it, and what happened. -/
structure Fanout where
  broadcast : Broadcast := {}
  /-- The addresses of the publishers. -/
  publishers : Table Nat String := []
  nextPublisher : Nat := 0
  /-- The addresses at which a publisher is busy. -/
  rounds : Table String Fanout.Round := []
  log : List Fanout.Event := []

namespace Fanout

open Broadcast

/-- What can happen, in any order. -/
inductive Act where
  | bind (address : String)
  | subscribe (address : String) (depth : Nat)
  | unsubscribe (id : Nat)
  | send (publisher : Nat) (message : Bytes)
  | drop (publisher : Nat)
  /-- The publisher that is busy at an address takes its next step. -/
  | advance (address : String)
  | receive (id : Nat)

/-- The publisher that is busy at an address goes on to the next subscriber, or is through. -/
def advance (f : Fanout) (address : String) (r : Round) : Fanout :=
  match r.errand, r.remaining with
  | .send message accepted, id :: remaining =>
    let (taken, broadcast) := f.broadcast.offer address message id
    { f with
      broadcast
      rounds := f.rounds.put address
        ⟨.send message (if taken then accepted + 1 else accepted), remaining⟩
      log := f.log ++ [.reached id] }
  | .send _ accepted, [] =>
    { f with
      rounds := f.rounds.without address, log := f.log ++ [.returned address accepted] }
  | .leave, id :: remaining =>
    { f with
      broadcast := f.broadcast.forget address id
      rounds := f.rounds.put address ⟨.leave, remaining⟩ }
  | .leave, [] => { f with rounds := f.rounds.without address }

/-- What happens when somebody acts. Who is not there does nothing, and who comes to an address at
which a publisher is busy has to wait. -/
def perform (f : Fanout) : Act → Fanout
  | .bind address =>
    match f.rounds.at? address, f.broadcast.bind address with
    | none, .ok broadcast =>
      { f with
        broadcast
        publishers := f.publishers.put f.nextPublisher address
        nextPublisher := f.nextPublisher + 1 }
    | _, _ => f
  | .subscribe address depth =>
    match f.rounds.at? address with
    | none =>
      let (id, broadcast) := f.broadcast.subscribe address depth
      { f with broadcast, log := f.log ++ [.came id address depth] }
    | some _ => f
  | .unsubscribe id =>
    { f with broadcast := f.broadcast.unsubscribe id, log := f.log ++ [.left id] }
  | .send publisher message =>
    match f.publishers.at? publisher with
    | some address =>
      match f.rounds.at? address with
      | none =>
        { f with
          rounds := f.rounds.put address
            ⟨.send message 0, (f.broadcast.topic address).subscribers⟩
          log := f.log ++ [.sent address message] }
      | some _ => f
    | none => f
  | .drop publisher =>
    match f.publishers.at? publisher with
    | some address =>
      match f.rounds.at? address with
      | none =>
        { f with
          broadcast := f.broadcast.release address
          publishers := f.publishers.without publisher
          rounds := f.rounds.put address ⟨.leave, (f.broadcast.topic address).subscribers⟩
          log := f.log ++ [.dropped address] }
      | some _ => f
    | none => f
  | .advance address =>
    match f.rounds.at? address with
    | some r => f.advance address r
    | none => f
  | .receive id =>
    match f.broadcast.receive id with
    | (.ok (some message), broadcast) =>
      { f with broadcast, log := f.log ++ [.received id message] }
    | (.ok none, _) => f
    | (.error _, _) => { f with log := f.log ++ [.closed id] }

def run (acts : List Act) : Fanout := acts.foldl perform {}

/-! ## What an act can do -/

/-- All that an act can change. -/
inductive Step (f : Fanout) : Fanout → Prop
  | rest : Step f f
  | bind (address : String) : f.rounds.at? address = none →
      (f.broadcast.topic address).bound = false →
      Step f { f with
        broadcast := { f.broadcast with
          topics := f.broadcast.topics.put address
            { f.broadcast.topic address with bound := true } }
        publishers := f.publishers.put f.nextPublisher address
        nextPublisher := f.nextPublisher + 1 }
  | subscribe (address : String) (depth : Nat) : f.rounds.at? address = none →
      Step f { f with
        broadcast := (f.broadcast.subscribe address depth).2
        log := f.log ++ [.came f.broadcast.nextInbox address depth] }
  | unsubscribe (id : Nat) :
      Step f { f with broadcast := f.broadcast.unsubscribe id, log := f.log ++ [.left id] }
  | send (publisher : Nat) (address : String) (message : Bytes) :
      f.publishers.at? publisher = some address → f.rounds.at? address = none →
      Step f { f with
        rounds := f.rounds.put address
          ⟨.send message 0, (f.broadcast.topic address).subscribers⟩
        log := f.log ++ [.sent address message] }
  | drop (publisher : Nat) (address : String) : f.publishers.at? publisher = some address →
      f.rounds.at? address = none →
      Step f { f with
        broadcast := f.broadcast.release address
        publishers := f.publishers.without publisher
        rounds := f.rounds.put address ⟨.leave, (f.broadcast.topic address).subscribers⟩
        log := f.log ++ [.dropped address] }
  | offer (address : String) (message : Bytes) (accepted id : Nat) (remaining : List Nat) :
      f.rounds.at? address = some ⟨.send message accepted, id :: remaining⟩ →
      Step f { f with
        broadcast := (f.broadcast.offer address message id).2
        rounds := f.rounds.put address
          ⟨.send message (if f.broadcast.hasRoom id then accepted + 1 else accepted), remaining⟩
        log := f.log ++ [.reached id] }
  | sent (address : String) (message : Bytes) (accepted : Nat) :
      f.rounds.at? address = some ⟨.send message accepted, []⟩ →
      Step f { f with
        rounds := f.rounds.without address, log := f.log ++ [.returned address accepted] }
  | cut (address : String) (id : Nat) (remaining : List Nat) :
      f.rounds.at? address = some ⟨.leave, id :: remaining⟩ →
      Step f { f with
        broadcast := f.broadcast.forget address id
        rounds := f.rounds.put address ⟨.leave, remaining⟩ }
  | gone (address : String) : f.rounds.at? address = some ⟨.leave, []⟩ →
      Step f { f with rounds := f.rounds.without address }
  | receive (id : Nat) (i : Inbox) (message : Bytes) (messages : List Bytes) :
      f.broadcast.inboxes.at? id = some i → i.messages = message :: messages →
      Step f { f with
        broadcast := { f.broadcast with
          inboxes := f.broadcast.inboxes.put id { i with messages } }
        log := f.log ++ [.received id message] }
  | closed (id : Nat) (i : Inbox) : f.broadcast.inboxes.at? id = some i → i.messages = [] →
      id ∉ (f.broadcast.topic i.address).subscribers →
      Step f { f with log := f.log ++ [.closed id] }

section Step

variable (f : Fanout)

theorem step_advance {address : String} {r : Round} (hr : f.rounds.at? address = some r) :
    Step f (f.advance address r) := by
  obtain ⟨errand, remaining⟩ := r
  cases errand with
  | send message accepted =>
    cases remaining with
    | nil => exact .sent address message accepted hr
    | cons id remaining =>
      simp only [advance, fst_offer]
      exact .offer address message accepted id remaining hr
  | leave =>
    cases remaining with
    | nil => exact .gone address hr
    | cons id remaining => exact .cut address id remaining hr

theorem step_receive (id : Nat) : Step f (f.perform (.receive id)) := by
  cases hi : f.broadcast.inboxes.at? id with
  | none =>
    simp only [perform, Broadcast.receive, hi]
    exact .rest
  | some i =>
    cases hmessages : i.messages with
    | cons message messages =>
      simp only [perform, Broadcast.receive, hi, hmessages]
      exact .receive id i message messages hi hmessages
    | nil =>
      by_cases hcut : f.broadcast.isCutOff id i
      · simp only [perform, Broadcast.receive, hi, hmessages, hcut, if_true]
        refine .closed id i hi hmessages fun hmem => ?_
        simp [isCutOff, hmem] at hcut
      · simp only [perform, Broadcast.receive, hi, hmessages, hcut, Bool.false_eq_true, if_false]
        exact .rest

/-- **An act** changes what some step changes. -/
theorem step_perform (act : Act) : Step f (f.perform act) := by
  cases act with
  | bind address =>
    cases hround : f.rounds.at? address with
    | some r =>
      simp only [perform, hround]
      exact .rest
    | none =>
      by_cases hbound : (f.broadcast.topic address).bound
      · simp only [perform, hround, Broadcast.bind, hbound, if_true]
        exact .rest
      · simp only [perform, hround, Broadcast.bind, hbound, Bool.false_eq_true, if_false]
        exact .bind address hround (Bool.not_eq_true _ ▸ hbound)
  | subscribe address depth =>
    simp only [perform]
    split
    · next hround => exact .subscribe address depth hround
    · exact .rest
  | unsubscribe id => exact .unsubscribe id
  | send publisher message =>
    simp only [perform]
    split
    · next address hpublisher =>
      split
      · next hround => exact .send publisher address message hpublisher hround
      · exact .rest
    · exact .rest
  | drop publisher =>
    simp only [perform]
    split
    · next address hpublisher =>
      split
      · next hround => exact .drop publisher address hpublisher hround
      · exact .rest
    · exact .rest
  | advance address =>
    simp only [perform]
    split
    · next r hr => exact step_advance f hr
    · exact .rest
  | receive id => exact step_receive f id

end Step

/-! ## Rounds that nothing interrupts -/

section Uninterrupted

variable {f f' : Fanout} {address : String}

theorem listed_step (h : f.broadcast.Listed) (hstep : Step f f') : f'.broadcast.Listed := by
  cases hstep with
  | bind address _ _ => exact h.put_topic ..
  | subscribe address depth _ => exact ⟨h.topics.put .., h.inboxes.put ..⟩
  | unsubscribe id => exact ⟨h.topics, Table.sorted_without h.inboxes id⟩
  | drop publisher address _ _ => exact h.put_topic ..
  | offer address message n id remaining _ => exact h.offer address message id
  | cut address id remaining _ => exact h.put_topic ..
  | receive id i message messages _ _ => exact ⟨h.topics, h.inboxes.put ..⟩
  | rest | send | sent | gone | closed => exact h

theorem foldl_advance_send {ids : List Nat} {message : Bytes} {n : Nat}
    (hround : f.rounds.at? address = some ⟨.send message n, ids⟩) :
    ((List.replicate (ids.length + 1) (.advance address)).foldl perform f).broadcast =
        (f.broadcast.offerAll address message ids).2 ∧
      ((List.replicate (ids.length + 1) (.advance address)).foldl perform f).log.getLast? =
        some (.returned address (n + (f.broadcast.offerAll address message ids).1)) := by
  induction ids generalizing f n with
  | nil => simp [perform, hround, advance, offerAll]
  | cons id rest ih =>
    rw [List.length_cons, List.replicate_succ, List.foldl_cons]
    have hstep : f.perform (.advance address) =
        f.advance address ⟨.send message n, id :: rest⟩ := by simp only [perform, hround]
    rw [hstep]
    have hnext : (f.advance address ⟨.send message n, id :: rest⟩).rounds.at? address =
        some ⟨.send message (if (f.broadcast.offer address message id).1 then n + 1 else n),
          rest⟩ := Table.at?_put_self ..
    obtain ⟨hbroadcast, hlog⟩ := ih hnext
    refine ⟨hbroadcast, hlog.trans ?_⟩
    simp only [advance, offerAll]
    by_cases htaken : (f.broadcast.offer address message id).1 = true
    · rw [if_pos htaken, if_pos htaken, Nat.add_assoc, Nat.add_comm 1]
    · rw [if_neg htaken, if_neg htaken]

theorem foldl_advance_leave {ids : List Nat}
    (hround : f.rounds.at? address = some ⟨.leave, ids⟩) :
    ((List.replicate (ids.length + 1) (.advance address)).foldl perform f).broadcast =
      f.broadcast.forgetAll address ids := by
  induction ids generalizing f with
  | nil => simp [perform, hround, advance, forgetAll]
  | cons id rest ih =>
    rw [List.length_cons, List.replicate_succ, List.foldl_cons]
    have hstep : f.perform (.advance address) = f.advance address ⟨.leave, id :: rest⟩ := by
      simp only [perform, hround]
    rw [hstep]
    exact ih (Table.at?_put_self ..)

/-- **A publisher that leaves without interruption** is gone, and nobody knows its subscribers. -/
theorem drop_eq_unbind (hlisted : f.broadcast.Listed) {publisher : Nat}
    (hp : f.publishers.at? publisher = some address) (hround : f.rounds.at? address = none) :
    let acts := .drop publisher ::
      List.replicate (f.broadcast.subscriberCount address + 1) (.advance address)
    (acts.foldl perform f).broadcast = f.broadcast.unbind address := by
  intro acts
  have hdrop : f.perform (.drop publisher) = { f with
      broadcast := f.broadcast.release address
      publishers := f.publishers.without publisher
      rounds := f.rounds.put address ⟨.leave, (f.broadcast.topic address).subscribers⟩
      log := f.log ++ [.dropped address] } := by
    simp only [perform, hp, hround]
  show ((acts.foldl perform f)).broadcast = _
  rw [List.foldl_cons, hdrop]
  exact (foldl_advance_leave (Table.at?_put_self ..)).trans (forgetAll_eq_unbind hlisted)

end Uninterrupted

end Fanout

end Stepcast
