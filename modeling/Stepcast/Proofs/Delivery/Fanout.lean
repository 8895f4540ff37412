import Stepcast.Proofs.Delivery.Attendance

/-!
# What subscribers get

However publishers and subscribers come and go, send and receive, every subscriber gets what its
seat says, whatever the others do. What the calls give is so at the time: a send gives the number of
those that heard it, and a subscriber is told that nothing more comes only when it has received all
that it heard from a publisher that has left. An address has at most one publisher.

Main statements: `Truthful.step`, `Houses.step`, `fanout_run`.
-/

namespace Stepcast

namespace Fanout

open Broadcast

/-! ## What the calls tell -/

/-- What an event says about what happened before: a send gives the number of those that heard it,
and a subscriber is told that nothing more comes when it has received all that it heard, after a
publisher has left its address. -/
def Tells (log : List Event) : Event → Prop
  | .returned address n => Counts log address n
  | .closed id => ∃ s, seat id log = some s ∧ s.received = s.heard ∧
    ∃ before after, log = before ++ .dropped s.address :: after ∧ (seat id before).isSome
  | _ => True

/-- What the events say is so. -/
def Truthful (log : List Event) : Prop :=
  ∀ before e after, log = before ++ e :: after → Tells before e

section Telling

variable {f f' : Fanout} {log : List Event}

theorem Truthful.append (h : Truthful log) {e : Event} (he : Tells log e) :
    Truthful (log ++ [e]) := by
  intro before e' after heq
  rcases after.eq_nil_or_concat with rfl | ⟨rest, last, rfl⟩
  · obtain ⟨rfl, rfl⟩ := List.append_singleton_inj.mp heq
    exact he
  · rw [List.concat_eq_append, ← List.cons_append, ← List.append_assoc] at heq
    exact h before e' rest (List.append_singleton_inj.mp heq).1

theorem Kept.exists_seat (h : Kept f) {id : Nat} {i : Inbox}
    (hi : f.broadcast.inboxes.at? id = some i) : ∃ s, seat id f.log = some s := by
  have hcome : id < f.broadcast.nextInbox := by
    by_contra hnot
    cases hi.symm.trans (h.fresh id (Nat.le_of_not_lt hnot)).2
  exact Option.isSome_iff_exists.mp (h.came id hcome)

theorem Kept.tells_closed (h : Kept f) {id : Nat} {i : Inbox}
    (hi : f.broadcast.inboxes.at? id = some i) (hmessages : i.messages = [])
    (hcut : id ∉ (f.broadcast.topic i.address).subscribers) : Tells f.log (.closed id) := by
  obtain ⟨s, hs⟩ := h.exists_seat hi
  have hfits := h.fits id s hs
  obtain ⟨hthere, haddress, -, hqueue⟩ := Seat.Fits.of_inbox (hi ▸ hfits)
  have hregistered : s.registered = false := by
    cases hregistered : s.registered with
    | false => rfl
    | true => exact absurd (haddress ▸ hfits.listed hthere hregistered) hcut
  rw [hmessages, List.append_nil] at hqueue
  exact ⟨s, hs, hqueue, exists_dropped_of_seat hs hregistered⟩

/-- **An act tells the truth.** -/
theorem Truthful.step (h : Truthful f.log) (hkept : Kept f) (hstep : Step f f') :
    Truthful f'.log := by
  cases hstep with
  | sent address message n hround =>
    exact h.append ((hkept.runs address _ hround).counts message n rfl)
  | closed id i hi hmessages hcut => exact h.append (hkept.tells_closed hi hmessages hcut)
  | rest | bind | cut | gone => exact h
  | subscribe | unsubscribe | send | drop | offer | receive => exact h.append trivial

end Telling

/-! ## Publishers -/

/-- A publisher that is there has its address alone. -/
structure Houses (f : Fanout) : Prop where
  come : ∀ p a, f.publishers.at? p = some a → p < f.nextPublisher
  bound : ∀ p a, f.publishers.at? p = some a → (f.broadcast.topic a).bound = true
  single : ∀ p p' a, f.publishers.at? p = some a → f.publishers.at? p' = some a → p = p'
  free : ∀ a, (f.broadcast.topic a).bound = true → ∃ p, f.publishers.at? p = some a

section Houses

variable {f f' : Fanout} {address : String}

theorem Houses.congr (h : Houses f) (hpublishers : f'.publishers = f.publishers)
    (hnext : f'.nextPublisher = f.nextPublisher)
    (hbound : ∀ a, (f'.broadcast.topic a).bound = (f.broadcast.topic a).bound) : Houses f' := by
  refine ⟨?_, ?_, ?_, fun a hb => ?_⟩
  · rw [hpublishers, hnext]
    exact h.come
  · simp only [hpublishers, hbound]
    exact h.bound
  · rw [hpublishers]
    exact h.single
  · rw [hpublishers]
    exact h.free a ((hbound a).symm.trans hb)

/-- **A publisher comes** to an address that is free. -/
theorem Houses.bind (h : Houses f) (hfree : (f.broadcast.topic address).bound = false) :
    Houses { f with
      broadcast := { f.broadcast with
        topics := f.broadcast.topics.put address
          { f.broadcast.topic address with bound := true } }
      publishers := f.publishers.put f.nextPublisher address
      nextPublisher := f.nextPublisher + 1 } := by
  have hnobody (p : Nat) : f.publishers.at? p ≠ some address := fun hp => by
    cases hfree.symm.trans (h.bound p address hp)
  have hcases {p : Nat} {a : String}
      (hp : (f.publishers.put f.nextPublisher address).at? p = some a) :
      p = f.nextPublisher ∧ a = address ∨ f.publishers.at? p = some a ∧ a ≠ address := by
    rw [Table.at?_put] at hp
    split at hp
    · next hnew => exact .inl ⟨hnew, (Option.some.inj hp).symm⟩
    · exact .inr ⟨hp, fun ha => hnobody p (ha ▸ hp)⟩
  refine ⟨fun p a hp => ?_, fun p a hp => ?_, fun p p' a hp hp' => ?_, fun a ha => ?_⟩
  · rcases hcases hp with ⟨rfl, -⟩ | ⟨hp, -⟩
    · exact Nat.lt_succ_self _
    · exact Nat.lt_succ_of_lt (h.come p a hp)
  · rw [topic_put]
    rcases hcases hp with ⟨-, rfl⟩ | ⟨hp, hne⟩
    · rw [if_pos rfl]
    · rw [if_neg hne]
      exact h.bound p a hp
  · rcases hcases hp with ⟨rfl, rfl⟩ | ⟨hp, hne⟩ <;> rcases hcases hp' with ⟨rfl, ha⟩ | ⟨hp', hne'⟩
    · rfl
    · exact absurd rfl hne'
    · exact absurd ha hne
    · exact h.single p p' a hp hp'
  · rw [topic_put] at ha
    by_cases haddress : a = address
    · exact ⟨f.nextPublisher, haddress ▸ Table.at?_put_self ..⟩
    · rw [if_neg haddress] at ha
      obtain ⟨p, hp⟩ := h.free a ha
      exact ⟨p, (Table.at?_put_of_ne (Nat.ne_of_lt (h.come p a hp)) ..).trans hp⟩

/-- **A publisher leaves**, and its address is free. -/
theorem Houses.drop (h : Houses f) {publisher : Nat} {rounds : Table String Round}
    {log : List Event} (hp : f.publishers.at? publisher = some address) :
    Houses { f with
      broadcast := f.broadcast.release address
      publishers := f.publishers.without publisher
      rounds
      log } := by
  have hcases {p : Nat} {a : String} (hp' : (f.publishers.without publisher).at? p = some a) :
      p ≠ publisher ∧ f.publishers.at? p = some a := by
    rw [Table.at?_without] at hp'
    split at hp'
    · cases hp'
    · next hne => exact ⟨hne, hp'⟩
  refine ⟨fun p a hp' => h.come p a (hcases hp').2, fun p a hp' => ?_,
    fun p p' a hp' hp'' => h.single p p' a (hcases hp').2 (hcases hp'').2, fun a ha => ?_⟩
  · obtain ⟨hne, hold⟩ := hcases hp'
    have hother : a ≠ address := by
      rintro rfl
      exact hne (h.single p publisher a hold hp)
    rw [release, topic_put, if_neg hother]
    exact h.bound p a hold
  · rw [release, topic_put] at ha
    split at ha
    · cases ha
    · next hother =>
      obtain ⟨p, hp'⟩ := h.free a ha
      refine ⟨p, ?_⟩
      rw [Table.at?_without, if_neg ?_]
      · exact hp'
      · rintro rfl
        exact hother (Option.some.inj (hp'.symm.trans hp))

theorem Houses.step (h : Houses f) (hstep : Step f f') : Houses f' := by
  cases hstep with
  | bind address _ hfree => exact h.bind hfree
  | drop publisher address hp _ => exact h.drop hp
  | subscribe address depth _ => exact h.congr rfl rfl fun _ => bound_subscribe ..
  | offer address message n id remaining _ => exact h.congr rfl rfl fun _ => bound_offer ..
  | cut address id remaining _ => exact h.congr rfl rfl fun _ => bound_forget ..
  | rest | unsubscribe | send | sent | gone | receive | closed => exact h.congr rfl rfl fun _ => rfl

end Houses

/-! ## Every run -/

/-- All that is kept. -/
structure Sound (f : Fanout) : Prop where
  kept : Kept f
  truthful : Truthful f.log
  houses : Houses f
  listed : f.broadcast.Listed

section Run

variable {f : Fanout}

theorem sound_empty : Sound {} where
  kept := kept_empty
  truthful := fun before e after h => by simp at h
  houses := ⟨nofun, nofun, nofun, nofun⟩
  listed := ⟨List.Pairwise.nil, List.Pairwise.nil⟩

theorem Sound.foldl (h : Sound f) (acts : List Act) : Sound (acts.foldl perform f) := by
  induction acts generalizing f with
  | nil => exact h
  | cons act rest ih =>
    have hstep := step_perform f act
    exact ih {
      kept := h.kept.step hstep
      truthful := h.truthful.step h.kept hstep
      houses := h.houses.step hstep
      listed := listed_step h.listed hstep }

theorem Houses.bind_isOk (h : Houses f) (address : String) :
    (f.broadcast.bind address).isOk = true ↔ ∀ p, f.publishers.at? p ≠ some address := by
  unfold Broadcast.bind
  split
  · next hbound =>
    obtain ⟨p, hp⟩ := h.free address hbound
    exact iff_of_false Bool.false_ne_true fun hnobody => hnobody p hp
  · next hfree => exact ⟨fun _ p hp => hfree (h.bound p address hp), fun _ => rfl⟩

/-- **A publisher that sends without interruption** publishes the message. -/
theorem Kept.send_eq_publish (h : Kept f) (hlisted : f.broadcast.Listed) (hhouses : Houses f)
    {publisher : Nat} (hp : f.publishers.at? publisher = some address)
    (hround : f.rounds.at? address = none) (message : Bytes) :
    let acts := .send publisher message ::
      List.replicate (f.broadcast.subscriberCount address + 1) (.advance address)
    (acts.foldl perform f).broadcast = (f.broadcast.publish address message).2 ∧
      (acts.foldl perform f).log.getLast? =
        some (.returned address (f.broadcast.publish address message).1) := by
  have hbound := hhouses.bound publisher address hp
  obtain ⟨t, ht⟩ : ∃ t, f.broadcast.topics.at? address = some t := by
    cases ht : f.broadcast.topics.at? address with
    | some t => exact ⟨t, rfl⟩
    | none =>
      rw [topic, ht] at hbound
      cases hbound
  have htopic : f.broadcast.topic address = t := by rw [topic, ht, Option.getD_some]
  have hpublish := offerAll_eq_publish message hlisted ht (htopic ▸ h.nodup address)
  have hsend : f.perform (.send publisher message) = { f with
      rounds := f.rounds.put address ⟨.send message 0, t.subscribers⟩
      log := f.log ++ [.sent address message] } := by
    simp only [perform, hp, hround, htopic]
  intro acts
  have hacts : acts = .send publisher message ::
      List.replicate (t.subscribers.length + 1) (.advance address) := by
    rw [← htopic]
    rfl
  rw [hacts, List.foldl_cons, hsend, ← hpublish]
  refine ⟨(foldl_advance_send (Table.at?_put_self ..)).1, ?_⟩
  rw [(foldl_advance_send (Table.at?_put_self ..)).2, Nat.zero_add]

theorem Kept.there_iff (h : Kept f) {id : Nat} {s : Seat} (hs : seat id f.log = some s) :
    s.there = true ↔ (f.broadcast.inboxes.at? id).isSome := by
  have hfits := h.fits id s hs
  cases hthere : s.there with
  | true =>
    obtain ⟨i, hi, -⟩ := hfits.there hthere
    simp [hi]
  | false => simp [hfits.gone hthere]

end Run

/-- **What subscribers get**, however publishers and subscribers come and go, send and receive. What
a subscriber has received and what waits for it are together what it heard, in order. By its seat
that is what was sent at its address while it was registered, each message if fewer than its queue
has room for waited when it came to it; when no publisher is busy there, each has come to it. What
other subscribers do does not matter to that. A send gives the number of subscribers that heard the
message. A subscriber is told that nothing more comes only after the publisher has left, and when it
has received all it heard. An address has at most one publisher, and can be taken when it has none.
A send or a leave that nothing interrupts is a publication, or the end of the address. -/
theorem fanout_run (acts : List Act) :
    let f := run acts
    (∀ id i, f.broadcast.inboxes.at? id = some i → ∃ s, seat id f.log = some s ∧
      s.address = i.address ∧ s.received ++ i.messages = s.heard) ∧
    (∀ id s, seat id f.log = some s →
      (s.there = true ↔ (f.broadcast.inboxes.at? id).isSome) ∧
      s.received <+: s.heard ∧ s.heard.Sublist (sentAt s.address f.log) ∧
      (f.rounds.at? s.address = none → s.due = none) ∧
      seat id (f.log.filter (concerns id)) = some s) ∧
    (∀ before e after, f.log = before ++ e :: after → Tells before e) ∧
    (∀ p p' a, f.publishers.at? p = some a → f.publishers.at? p' = some a → p = p') ∧
    (∀ a, (f.broadcast.bind a).isOk = true ↔ ∀ p, f.publishers.at? p ≠ some a) ∧
    ∀ p a, f.publishers.at? p = some a → f.rounds.at? a = none →
      let steps := List.replicate (f.broadcast.subscriberCount a + 1) (Act.advance a)
      (∀ message,
        ((Act.send p message :: steps).foldl perform f).broadcast =
          (f.broadcast.publish a message).2 ∧
        ((Act.send p message :: steps).foldl perform f).log.getLast? =
          some (.returned a (f.broadcast.publish a message).1)) ∧
      ((Act.drop p :: steps).foldl perform f).broadcast = f.broadcast.unbind a := by
  intro f
  have h : Sound f := sound_empty.foldl acts
  refine ⟨fun id i hi => ?_, fun id s hs => ?_, h.truthful, h.houses.single, h.houses.bind_isOk,
    fun p a hp hround => ⟨fun message => ?_, ?_⟩⟩
  · obtain ⟨s, hs⟩ := h.kept.exists_seat hi
    obtain ⟨-, haddress, -, hqueue⟩ := Seat.Fits.of_inbox (hi ▸ h.kept.fits id s hs)
    exact ⟨s, hs, haddress.symm, hqueue⟩
  · have hfits := h.kept.fits id s hs
    refine ⟨h.kept.there_iff hs, hfits.order, ?_, fun hround => ?_, by rw [seat_filter, hs]⟩
    · exact (List.sublist_append_left ..).trans (Seat.heard_sublist hs)
    · rw [hfits.due, hround]
      exact ite_self _
  · exact h.kept.send_eq_publish h.listed h.houses hp hround message
  · exact drop_eq_unbind h.listed hp hround

/-- There is room for one message in the queue of the first subscriber, which misses the second one
because it receives the first too late. -/
def sampleActs : List Act :=
  [.subscribe "a" 1, .subscribe "a" 2, .bind "a", .send 0 [1], .advance "a", .advance "a",
    .advance "a", .bind "a", .send 0 [2], .advance "a", .receive 0, .receive 1, .advance "a",
    .advance "a", .drop 0, .advance "a", .receive 0, .receive 1]

theorem fanout_run_sample :
    let f := run sampleActs
    let before := [.came 0 "a" 1, .came 1 "a" 2, .sent "a" [1], .reached 0, .reached 1,
      .returned "a" 2, .sent "a" [2], .reached 0, .received 0 [1], .received 1 [1], .reached 1]
    f.log = before ++ .returned "a" 1 :: [.dropped "a", .closed 0, .received 1 [2]] ∧
    Counts before "a" 1 ∧ (∃ s, seat 1 f.log = some s ∧ s.received ++ [] = s.heard) ∧
    let g := run (sampleActs.take 3)
    let steps := List.replicate (g.broadcast.subscriberCount "a" + 1) (Act.advance "a")
    ((.send 0 [1] :: steps).foldl perform g).broadcast = (g.broadcast.publish "a" [1]).2 := by
  intro f before
  have hlog : f.log =
      before ++ .returned "a" 1 :: [.dropped "a", .closed 0, .received 1 [2]] := by decide +kernel
  obtain ⟨hinboxes, -, htells, -⟩ := fanout_run sampleActs
  have hinbox : f.broadcast.inboxes.at? 1 = some { address := "a", capacity := 2 } := by
    decide +kernel
  obtain ⟨s, hs, -, hqueue⟩ := hinboxes 1 _ hinbox
  obtain ⟨-, -, -, -, -, huninterrupted⟩ := fanout_run (sampleActs.take 3)
  have hsend := (huninterrupted 0 "a" (by decide +kernel) (by decide +kernel)).1 [1]
  exact ⟨hlog, htells _ _ _ hlog, ⟨s, hs, hqueue⟩, hsend.1⟩

end Fanout

end Stepcast
