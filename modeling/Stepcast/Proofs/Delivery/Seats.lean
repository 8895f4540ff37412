import Mathlib.Data.List.Sublists
import Stepcast.Network.Broadcast

/-!
# What a subscriber should hear

What happens on a broadcast is told by a log: who came and left, what was sent at an address, when a
message reached which subscriber, and what the calls gave. From the log alone one reads off what a
subscriber should hear. It is due each message that is sent at its address while it is there and
registered. When the message reaches it, it hears it if fewer messages wait in its queue than this
has room for. It stays registered until the publisher at its address leaves.

A seat looks at nothing but what happens to its subscriber and at its address. What other
subscribers do does not matter to it.

Main statements: `Seat.heard_sublist`, `seat_filter`, `exists_dropped_of_seat`.
-/

namespace Stepcast

namespace Fanout

/-- What happens on a broadcast. -/
inductive Event where
  | came (id : Nat) (address : String) (depth : Nat)
  | left (id : Nat)
  /-- The publisher at an address begins to send. -/
  | sent (address : String) (message : Bytes)
  /-- What is sent comes to a subscriber. -/
  | reached (id : Nat)
  /-- Sending a message has given this number. -/
  | returned (address : String) (accepted : Nat)
  /-- The publisher at an address leaves. -/
  | dropped (address : String)
  | received (id : Nat) (message : Bytes)
  /-- A subscriber is told that nothing more will come. -/
  | closed (id : Nat)
deriving DecidableEq

/-- What is known of a subscriber that has come. -/
structure Seat where
  address : String
  depth : Nat
  there : Bool := true
  /-- No publisher has left the address since it came. -/
  registered : Bool := true
  /-- The message that is being sent and has not reached it. -/
  due : Option Bytes := none
  /-- The last message that was sent at its address is one that it heard. -/
  took : Bool := false
  heard : List Bytes := []
  received : List Bytes := []
deriving DecidableEq

namespace Seat

/-- The messages that wait in its queue. -/
def waiting (s : Seat) : Nat := s.heard.length - s.received.length

/-- The message that is due, if there is room for it in the queue. -/
def accepted (s : Seat) : Option Bytes := if s.waiting < max s.depth 1 then s.due else none

/-- What is being sent reaches the subscriber. -/
def reach (s : Seat) : Seat :=
  { s with
    due := none
    took := s.took || s.accepted.isSome
    heard := s.heard ++ s.accepted.toList }

/-- The seat of subscriber `id` after an event. -/
def note (id : Nat) (s : Seat) : Event → Seat
  | .left k => if k = id then { s with there := false, due := none } else s
  | .sent address message =>
    if address = s.address then
      { s with due := if s.there ∧ s.registered then some message else none, took := false }
    else s
  | .reached k => if k = id then s.reach else s
  | .dropped address => if address = s.address then { s with registered := false } else s
  | .received k message => if k = id then { s with received := s.received ++ [message] } else s
  | .came _ _ _ | .returned _ _ | .closed _ => s

end Seat

/-- The seat of a subscriber, if it has come, after another event. -/
def seatNext (id : Nat) : Option Seat → Event → Option Seat
  | some s, e => some (s.note id e)
  | none, .came k address depth => if k = id then some { address, depth } else none
  | none, _ => none

/-- What a log tells of a subscriber. -/
def seat (id : Nat) (log : List Event) : Option Seat := log.foldl (seatNext id) none

/-- The messages that were sent at an address. -/
def sentAt (address : String) (log : List Event) : List Bytes :=
  log.filterMap fun e =>
    match e with
    | .sent a message => if a = address then some message else none
    | _ => none

/-- The event is about this subscriber, or about no subscriber. -/
def concerns (id : Nat) : Event → Bool
  | .came k _ _ | .left k | .reached k | .received k _ | .closed k => k = id
  | .sent _ _ | .returned _ _ | .dropped _ => true

section Seats

variable {id : Nat} {log : List Event} {s : Seat}

theorem seat_append (id : Nat) (log : List Event) (e : Event) :
    seat id (log ++ [e]) = seatNext id (seat id log) e := by
  rw [seat, List.foldl_append]
  rfl

theorem sentAt_append (address : String) (log : List Event) (e : Event) :
    sentAt address (log ++ [e]) = sentAt address log ++ sentAt address [e] :=
  List.filterMap_append

/-! ## What matters to a seat -/

theorem seatNext_of_not_concerns {e : Event} (h : concerns id e = false) (s : Option Seat) :
    seatNext id s e = s := by
  cases s with
  | none => cases e <;> simp_all [seatNext, concerns]
  | some s => cases e <;> simp_all [seatNext, concerns, Seat.note]

/-- **What other subscribers do does not matter.** -/
theorem seat_filter (id : Nat) (log : List Event) :
    seat id (log.filter (concerns id)) = seat id log := by
  induction log using List.reverseRecOn with
  | nil => rfl
  | append_singleton log e ih =>
    rw [List.filter_append, seat_append]
    cases he : concerns id e with
    | true => rw [List.filter_cons_of_pos he, List.filter_nil, seat_append, ih]
    | false =>
      rw [List.filter_cons_of_neg (by simp [he]), List.filter_nil, List.append_nil, ih,
        seatNext_of_not_concerns he]

/-! ## What a seat tells -/

@[simp] theorem Seat.address_note (id : Nat) (s : Seat) (e : Event) :
    (s.note id e).address = s.address := by
  cases e <;> simp only [Seat.note] <;> split <;> rfl

/-- Only sending, and what is sent, changes who heard the last message. -/
theorem Seat.took_note (id : Nat) (s : Seat) {e : Event} (hsent : ∀ a message, e ≠ .sent a message)
    (hreached : ∀ k, e ≠ .reached k) : (s.note id e).took = s.took := by
  cases e with
  | sent address message => exact absurd rfl (hsent address message)
  | reached k => exact absurd rfl (hreached k)
  | left | dropped | received =>
    simp only [Seat.note]
    split <;> rfl
  | came | returned | closed => rfl

theorem seatNext_eq_some {e : Event} {t : Seat} (h : seatNext id (seat id log) e = some t) :
    (∃ address depth, e = .came id address depth ∧ t = { address, depth }) ∨
      ∃ s, seat id log = some s ∧ t = s.note id e := by
  cases hs : seat id log with
  | some s =>
    rw [hs] at h
    exact .inr ⟨s, rfl, (Option.some.inj h).symm⟩
  | none =>
    rw [hs] at h
    cases e with
    | came k address depth =>
      simp only [seatNext] at h
      split at h
      · next hk => exact .inl ⟨address, depth, by rw [hk], (Option.some.inj h).symm⟩
      · cases h
    | _ => cases h

/-- **What a subscriber hears was sent at its address**, in order and each message at most once. -/
theorem Seat.heard_sublist (h : seat id log = some s) :
    (s.heard ++ s.due.toList).Sublist (sentAt s.address log) := by
  induction log using List.reverseRecOn generalizing s with
  | nil => cases h
  | append_singleton log e ih =>
    rw [seat_append] at h
    rw [sentAt_append]
    obtain ⟨address, depth, -, rfl⟩ | ⟨s, hs, rfl⟩ := seatNext_eq_some h
    · exact List.nil_sublist _
    · have hold := ih hs
      have hheard : s.heard.Sublist (sentAt s.address log) :=
        (List.sublist_append_left ..).trans hold
      rw [Seat.address_note]
      have hsame (t : Seat) (ht : t.heard ++ t.due.toList = s.heard ++ s.due.toList) :
          (t.heard ++ t.due.toList).Sublist (sentAt s.address log ++ sentAt s.address [e]) :=
        ht ▸ hold.trans (List.sublist_append_left ..)
      have hless (t : Seat) (ht : t.heard ++ t.due.toList = s.heard) :
          (t.heard ++ t.due.toList).Sublist (sentAt s.address log ++ sentAt s.address [e]) :=
        ht ▸ hheard.trans (List.sublist_append_left ..)
      cases e with
      | left k =>
        simp only [Seat.note]
        split
        · exact hless _ (List.append_nil _)
        · exact hsame _ rfl
      | sent address message =>
        simp only [Seat.note]
        split
        · next haddress =>
          have hsent : sentAt s.address [.sent address message] = [message] := by
            simp [sentAt, haddress]
          rw [hsent]
          split
          · exact hheard.append (List.Sublist.refl _)
          · exact (List.append_nil s.heard).symm ▸ hheard.trans (List.sublist_append_left ..)
        · exact hsame _ rfl
      | reached k =>
        simp only [Seat.note]
        split
        · by_cases hroom : s.waiting < max s.depth 1
          · exact hsame _ (by simp [Seat.reach, Seat.accepted, hroom])
          · exact hless _ (by simp [Seat.reach, Seat.accepted, hroom])
        · exact hsame _ rfl
      | dropped address =>
        simp only [Seat.note]
        split <;> exact hsame _ rfl
      | received k message =>
        simp only [Seat.note]
        split <;> exact hsame _ rfl
      | _ => exact hsame _ rfl

/-- **A subscriber stays registered** until a publisher leaves its address. -/
theorem exists_dropped_of_seat (h : seat id log = some s) (hnot : s.registered = false) :
    ∃ before after, log = before ++ .dropped s.address :: after ∧ (seat id before).isSome := by
  induction log using List.reverseRecOn generalizing s with
  | nil => cases h
  | append_singleton log e ih =>
    rw [seat_append] at h
    obtain ⟨address, depth, -, rfl⟩ | ⟨s, hs, rfl⟩ := seatNext_eq_some h
    · cases hnot
    · rw [Seat.address_note]
      have hold (hregistered : s.registered = false) :
          ∃ before after, log ++ [e] = before ++ .dropped s.address :: after ∧
            (seat id before).isSome := by
        obtain ⟨before, after, heq, hbefore⟩ := ih hs hregistered
        exact ⟨before, after ++ [e], by rw [heq, List.append_assoc, List.cons_append], hbefore⟩
      cases e with
      | dropped address =>
        by_cases haddress : address = s.address
        · subst haddress
          exact ⟨log, [], rfl, by rw [hs]; rfl⟩
        · simp only [Seat.note, haddress, if_false] at hnot
          exact hold hnot
      | _ =>
        simp only [Seat.note] at hnot
        first
          | exact hold hnot
          | split at hnot <;> exact hold hnot

end Seats

end Fanout

end Stepcast
