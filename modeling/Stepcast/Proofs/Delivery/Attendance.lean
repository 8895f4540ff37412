import Stepcast.Proofs.Delivery.Rounds

/-!
# Subscribers at their places

Each subscriber is compared with its seat, which is read off the log. Its inbox holds what it heard
and has not received. It is due the message of the round at its address if the round has yet to come
to it. The publisher knows of it while it is registered. A round that cuts inboxes off has yet to
come to those that the publisher still knows, and a round that sends has counted those that heard
its message.

Main statements: `Seat.Fits.reach`, `Kept.step`.
-/

namespace Stepcast

namespace Fanout

open Broadcast

/-! ## The invariant -/

/-- So many subscribers at the address heard what was sent there last. -/
def Counts (log : List Event) (address : String) (n : Nat) : Prop :=
  ∃ takers : List Nat, takers.Nodup ∧ n = takers.length ∧ ∀ id, id ∈ takers ↔
    ∃ s, seat id log = some s ∧ s.address = address ∧ s.took = true

/-- What a subscriber's inbox, the list of its publisher and the round at its address have to do
with its seat. -/
structure Seat.Fits (s : Seat) (id : Nat) (inbox : Option Inbox) (subscribers : List Nat)
    (round : Option Round) : Prop where
  there : s.there = true → ∃ i, inbox = some i ∧ i.address = s.address ∧
    i.capacity = max s.depth 1 ∧ s.received ++ i.messages = s.heard
  gone : s.there = false → inbox = none
  order : s.received <+: s.heard
  due : s.due = if s.there then round.bind (·.due id) else none
  took : s.took = true → round.bind (·.due id) = none
  listed : s.there = true → s.registered = true → id ∈ subscribers
  member : id ∈ subscribers → s.registered = true ∨ ∃ r, round = some r ∧ r.errand = .leave
  left : ∀ r, round = some r → r.errand = .leave → s.registered = false

/-- How far a round at an address has come. -/
structure Round.Runs (r : Round) (log : List Event) (address : String)
    (subscribers : List Nat) : Prop where
  sublist : r.remaining.Sublist subscribers
  leave : r.errand = .leave → r.remaining = subscribers
  counts : ∀ message n, r.errand = .send message n → Counts log address n

/-- Every subscriber fits its seat. -/
structure Kept (f : Fanout) : Prop where
  came : ∀ id < f.broadcast.nextInbox, (seat id f.log).isSome
  fresh : ∀ id, f.broadcast.nextInbox ≤ id →
    seat id f.log = none ∧ f.broadcast.inboxes.at? id = none
  fits : ∀ id s, seat id f.log = some s → s.Fits id (f.broadcast.inboxes.at? id)
    (f.broadcast.topic s.address).subscribers (f.rounds.at? s.address)
  known : ∀ a, ∀ id ∈ (f.broadcast.topic a).subscribers,
    ∃ s, seat id f.log = some s ∧ s.address = a
  nodup : ∀ a, (f.broadcast.topic a).subscribers.Nodup
  runs : ∀ a r, f.rounds.at? a = some r → r.Runs f.log a (f.broadcast.topic a).subscribers

section Kept

variable {f f' : Fanout} {address : String} {id n : Nat}

/-- What happens to those that have come. -/
structure Passes (f f' : Fanout) (g : Nat → Seat → Seat) : Prop where
  seat : ∀ id, seat id f'.log = (seat id f.log).map (g id)
  address : ∀ id s, (g id s).address = s.address
  next : f'.broadcast.nextInbox = f.broadcast.nextInbox
  inboxes : ∀ id, f.broadcast.inboxes.at? id = none → f'.broadcast.inboxes.at? id = none
  subscribers : ∀ a, (f'.broadcast.topic a).subscribers.Sublist (f.broadcast.topic a).subscribers

/-- **Nobody comes**, and those that have come fit. -/
theorem Kept.pass (h : Kept f) {g : Nat → Seat → Seat} (hpasses : Passes f f' g)
    (hfits : ∀ id s, seat id f.log = some s → s.Fits id (f.broadcast.inboxes.at? id)
        (f.broadcast.topic s.address).subscribers (f.rounds.at? s.address) →
      (g id s).Fits id (f'.broadcast.inboxes.at? id)
        (f'.broadcast.topic s.address).subscribers (f'.rounds.at? s.address))
    (hruns : ∀ a r, f'.rounds.at? a = some r →
      r.Runs f'.log a (f'.broadcast.topic a).subscribers) : Kept f' where
  came := fun id hid => by
    rw [hpasses.seat, Option.isSome_map]
    exact h.came id (hpasses.next ▸ hid)
  fresh := fun id hid => by
    rw [hpasses.next] at hid
    obtain ⟨hseat, hinbox⟩ := h.fresh id hid
    exact ⟨by rw [hpasses.seat, hseat]; rfl, hpasses.inboxes id hinbox⟩
  fits := fun id t ht => by
    rw [hpasses.seat] at ht
    obtain ⟨s, hs, rfl⟩ := Option.map_eq_some_iff.mp ht
    rw [hpasses.address]
    exact hfits id s hs (h.fits id s hs)
  known := fun a id hid => by
    obtain ⟨s, hs, haddress⟩ := h.known a id ((hpasses.subscribers a).subset hid)
    exact ⟨g id s, by rw [hpasses.seat, hs]; rfl, (hpasses.address id s).trans haddress⟩
  nodup := fun a => (h.nodup a).sublist (hpasses.subscribers a)
  runs := hruns

theorem seat_append_of_seated (log : List Event) {e : Event}
    (he : ∀ id address depth, e ≠ .came id address depth) (id : Nat) :
    seat id (log ++ [e]) = (seat id log).map (·.note id e) := by
  rw [seat_append]
  cases seat id log with
  | some s => rfl
  | none =>
    cases e with
    | came k address depth => exact absurd rfl (he k address depth)
    | _ => rfl

theorem passes_of_seat_eq (hseat : ∀ id, seat id f'.log = seat id f.log)
    (hnext : f'.broadcast.nextInbox = f.broadcast.nextInbox)
    (hinboxes : f'.broadcast.inboxes = f.broadcast.inboxes)
    (hsubscribers : ∀ a, (f'.broadcast.topic a).subscribers.Sublist
      (f.broadcast.topic a).subscribers) : Passes f f' fun _ s => s where
  seat := fun id => by rw [hseat, Option.map_id']
  address := fun _ _ => rfl
  next := hnext
  inboxes := fun _ hnone => hinboxes ▸ hnone
  subscribers := hsubscribers

theorem passes_of_event {e : Event} (he : ∀ id address depth, e ≠ .came id address depth)
    (hlog : f'.log = f.log ++ [e]) (hnext : f'.broadcast.nextInbox = f.broadcast.nextInbox)
    (hinboxes : ∀ id, f.broadcast.inboxes.at? id = none → f'.broadcast.inboxes.at? id = none)
    (hsubscribers : ∀ a, (f'.broadcast.topic a).subscribers.Sublist
      (f.broadcast.topic a).subscribers) : Passes f f' fun id s => s.note id e where
  seat := fun id => hlog ▸ seat_append_of_seated f.log he id
  address := fun id s => s.address_note id e
  next := hnext
  inboxes := hinboxes
  subscribers := hsubscribers

theorem Counts.pass {g : Nat → Seat → Seat} (h : Counts f.log address n) (hpasses : Passes f f' g)
    (htook : ∀ id s, seat id f.log = some s → s.address = address → (g id s).took = s.took) :
    Counts f'.log address n := by
  obtain ⟨takers, hnodup, hlength, hmem⟩ := h
  refine ⟨takers, hnodup, hlength, fun id => (hmem id).trans ⟨?_, ?_⟩⟩
  · rintro ⟨s, hs, hs', htaken⟩
    exact ⟨g id s, by rw [hpasses.seat, hs]; rfl, (hpasses.address id s).trans hs',
      (htook id s hs hs').trans htaken⟩
  · rintro ⟨t, ht, ht', htaken⟩
    rw [hpasses.seat] at ht
    obtain ⟨s, hs, rfl⟩ := Option.map_eq_some_iff.mp ht
    rw [hpasses.address] at ht'
    exact ⟨s, hs, ht', (htook id s hs ht').symm.trans htaken⟩

theorem Round.Runs.pass {r : Round} {subscribers : List Nat} {g : Nat → Seat → Seat}
    (h : r.Runs f.log address subscribers) (hpasses : Passes f f' g)
    (htook : ∀ id s, seat id f.log = some s → s.address = address → (g id s).took = s.took) :
    r.Runs f'.log address subscribers :=
  ⟨h.sublist, h.leave, fun message n hsend => (h.counts message n hsend).pass hpasses htook⟩

/-- Whose inbox is there has not left, and what it has received and what waits are what it heard. -/
theorem Seat.Fits.of_inbox {s : Seat} {i : Inbox} {subscribers : List Nat} {round : Option Round}
    (h : s.Fits id (some i) subscribers round) : s.there = true ∧ i.address = s.address ∧
      i.capacity = max s.depth 1 ∧ s.received ++ i.messages = s.heard := by
  cases hthere : s.there with
  | false => cases h.gone hthere
  | true =>
    obtain ⟨_, hi, hinbox⟩ := h.there hthere
    cases hi
    exact ⟨rfl, hinbox⟩

/-- While no publisher leaves, a subscriber that the publisher knows is registered. -/
theorem Seat.Fits.registered_of_mem {s : Seat} {inbox : Option Inbox} {subscribers : List Nat}
    {round : Option Round} (h : s.Fits id inbox subscribers round)
    (hstays : ∀ r, round = some r → r.errand ≠ .leave) (hmem : id ∈ subscribers) :
    s.registered = true := by
  rcases h.member hmem with hregistered | ⟨r, hr, hleave⟩
  · exact hregistered
  · exact absurd hleave (hstays r hr)

/-! ### Coming and going -/

theorem Kept.bind (h : Kept f) (address : String) :
    Kept { f with
      broadcast := { f.broadcast with
        topics := f.broadcast.topics.put address
          { f.broadcast.topic address with bound := true } }
      publishers := f.publishers.put f.nextPublisher address
      nextPublisher := f.nextPublisher + 1 } := by
  have hsubscribers := subscribers_put f.broadcast address
    (t := { f.broadcast.topic address with bound := true }) rfl
  refine h.pass (passes_of_seat_eq (fun _ => rfl) rfl rfl fun a => ?_) (fun id s _ hfits => ?_)
    fun a r hr => ?_
  · rw [hsubscribers]
  · rw [hsubscribers]
    exact hfits
  · rw [hsubscribers]
    exact h.runs a r hr

theorem seat_append_came {log : List Event} {k : Nat} (hnone : seat k log = none)
    (address : String) (depth id : Nat) :
    seat id (log ++ [.came k address depth]) =
      if id = k then some { address, depth } else seat id log := by
  rw [seat_append]
  by_cases hid : id = k
  · subst hid
    rw [hnone, if_pos rfl]
    exact if_pos rfl
  · rw [if_neg hid]
    cases seat id log with
    | none => exact if_neg (Ne.symm hid)
    | some s => rfl

/-- **A subscriber comes**, with an empty inbox that the publisher knows. -/
theorem Kept.subscribe (h : Kept f) (depth : Nat) (hround : f.rounds.at? address = none) :
    Kept { f with
      broadcast := (f.broadcast.subscribe address depth).2
      log := f.log ++ [.came f.broadcast.nextInbox address depth] } := by
  have hnew := (h.fresh f.broadcast.nextInbox (Nat.le_refl _)).1
  have hseat := seat_append_came hnew address depth
  have hold {a : String} {id : Nat} (hid : id ∈ (f.broadcast.topic a).subscribers) :
      id ≠ f.broadcast.nextInbox := by
    rintro rfl
    obtain ⟨s, hs, -⟩ := h.known a _ hid
    cases hnew.symm.trans hs
  have hinboxes (id : Nat) : (f.broadcast.subscribe address depth).2.inboxes.at? id =
      if id = f.broadcast.nextInbox then some { address, capacity := max depth 1 }
      else f.broadcast.inboxes.at? id := Table.at?_put ..
  exact {
    came := fun id hid => by
      rw [hseat]
      rcases Nat.lt_succ_iff_lt_or_eq.mp hid with hid | hid
      · rw [if_neg (Nat.ne_of_lt hid)]
        exact h.came id hid
      · rw [if_pos hid]
        rfl
    fresh := fun id hid => by
      have hne : id ≠ f.broadcast.nextInbox := Nat.ne_of_gt hid
      rw [hseat, hinboxes, if_neg hne, if_neg hne]
      exact h.fresh id (Nat.le_of_lt hid)
    fits := fun id s hs => by
      rw [hseat] at hs
      rw [hinboxes, topic_subscribe]
      by_cases hid : id = f.broadcast.nextInbox
      · rw [if_pos hid] at hs ⊢
        cases hs
        subst hid
        rw [if_pos rfl, hround]
        exact {
          there := fun _ => ⟨_, rfl, rfl, rfl, rfl⟩
          gone := by simp
          order := List.prefix_refl _
          due := rfl
          took := by simp
          listed := fun _ _ => List.mem_append_right _ List.mem_cons_self
          member := fun _ => .inl rfl
          left := by simp }
      · rw [if_neg hid] at hs ⊢
        have hfits := h.fits id s hs
        exact { hfits with
          listed := fun hthere hregistered =>
            List.mem_append_left _ (hfits.listed hthere hregistered)
          member := fun hmem => by
            refine hfits.member ((List.mem_append.mp hmem).resolve_right fun hlast => ?_)
            split at hlast
            · exact hid (List.mem_singleton.mp hlast)
            · cases hlast }
    known := fun a id hid => by
      rw [topic_subscribe] at hid
      rw [hseat]
      rcases List.mem_append.mp hid with hid | hid
      · rw [if_neg (hold hid)]
        exact h.known a id hid
      · split at hid
        · next ha =>
          rw [if_pos (List.mem_singleton.mp hid)]
          exact ⟨_, rfl, ha.symm⟩
        · cases hid
    nodup := fun a => by
      rw [topic_subscribe]
      refine List.nodup_append.mpr ⟨h.nodup a, ?_, fun k hk k' hk' => ?_⟩
      · split <;> simp
      · split at hk'
        · exact List.mem_singleton.mp hk' ▸ hold hk
        · cases hk'
    runs := fun a r hr => by
      have ha : a ≠ address := by
        rintro rfl
        cases hround.symm.trans hr
      have hruns := h.runs a r hr
      rw [topic_subscribe, if_neg ha, List.append_nil]
      refine ⟨hruns.sublist, hruns.leave, fun message n hsend => ?_⟩
      obtain ⟨takers, hnodup, hlength, hmem⟩ := hruns.counts message n hsend
      refine ⟨takers, hnodup, hlength, fun id => (hmem id).trans ?_⟩
      rw [hseat]
      by_cases hid : id = f.broadcast.nextInbox
      · subst hid
        rw [hnew, if_pos rfl]
        constructor
        · rintro ⟨s, hs, -⟩
          cases hs
        · rintro ⟨s, hs, haddress, -⟩
          cases hs
          exact absurd haddress.symm ha
      · rw [if_neg hid] }

/-- **A subscriber leaves**; its publisher still knows of it. -/
theorem Kept.unsubscribe (h : Kept f) (id : Nat) :
    Kept { f with broadcast := f.broadcast.unsubscribe id, log := f.log ++ [.left id] } := by
  have hpasses : Passes f { f with
      broadcast := f.broadcast.unsubscribe id, log := f.log ++ [.left id] }
      fun k s => s.note k (.left id) := by
    refine passes_of_event (by simp) rfl rfl (fun k hk => ?_) fun _ => List.Sublist.refl _
    rw [Broadcast.unsubscribe, Table.at?_without, hk, ite_self]
  refine h.pass hpasses (fun k s _ hfits => ?_) fun a r hr =>
    (h.runs a r hr).pass hpasses fun k s _ _ => s.took_note k (by simp) (by simp)
  · rw [Broadcast.unsubscribe, Table.at?_without]
    by_cases hk : id = k
    · subst hk
      simp only [Seat.note, if_true]
      exact { hfits with
        there := fun hthere => absurd hthere Bool.false_ne_true
        gone := fun _ => rfl
        due := rfl
        listed := fun hthere => absurd hthere Bool.false_ne_true }
    · simp only [Seat.note, if_neg hk, if_neg (Ne.symm hk)]
      exact hfits

/-! ### Sending and leaving -/

/-- **A publisher sends**: the message is due to all that are there and registered. -/
theorem Kept.send (h : Kept f) (message : Bytes) (hround : f.rounds.at? address = none) :
    Kept { f with
      rounds := f.rounds.put address ⟨.send message 0, (f.broadcast.topic address).subscribers⟩
      log := f.log ++ [.sent address message] } := by
  have hpasses : Passes f { f with
      rounds := f.rounds.put address ⟨.send message 0, (f.broadcast.topic address).subscribers⟩
      log := f.log ++ [.sent address message] } fun k s => s.note k (.sent address message) :=
    passes_of_event (by simp) rfl rfl (fun _ => id) fun _ => List.Sublist.refl _
  refine h.pass hpasses (fun k s _ hfits => ?_) fun a r hr => ?_
  · by_cases ha : address = s.address
    · subst ha
      rw [Table.at?_put_self]
      rw [hround] at hfits
      have hregistered := hfits.registered_of_mem (by simp)
      simp only [Seat.note, if_true]
      exact { hfits with
        due := by
          by_cases hthere : s.there = true
          · by_cases hyes : s.registered = true
            · simp [Round.due, hthere, hyes, hfits.listed hthere hyes]
            · simp [Round.due, hthere, hyes, mt hregistered hyes]
          · simp [hthere]
        took := fun htook => absurd htook Bool.false_ne_true
        member := fun hmem => .inl (hregistered hmem)
        left := fun r hr hleave => by
          cases hr
          cases hleave }
    · rw [Table.at?_put_of_ne (Ne.symm ha)]
      simp only [Seat.note, if_neg ha]
      exact hfits
  · rw [Table.at?_put] at hr
    by_cases ha : a = address
    · rw [if_pos ha] at hr
      cases hr
      subst ha
      refine ⟨List.Sublist.refl _, (by simp), fun m n hsend => ?_⟩
      cases hsend
      refine ⟨[], List.nodup_nil, rfl, fun k => ⟨(by simp), ?_⟩⟩
      rintro ⟨t, ht, haddress, htaken⟩
      rw [hpasses.seat] at ht
      obtain ⟨s, -, rfl⟩ := Option.map_eq_some_iff.mp ht
      rw [Seat.address_note] at haddress
      simp [Seat.note, haddress] at htaken
    · rw [if_neg ha] at hr
      refine (h.runs a r hr).pass hpasses fun k s _ hs => ?_
      have hne : address ≠ s.address := fun heq => ha (hs.symm.trans heq.symm)
      simp only [Seat.note, if_neg hne]

/-- **A publisher begins to leave**, and no subscriber is registered any more. -/
theorem Kept.drop (h : Kept f) (publisher : Nat) (hround : f.rounds.at? address = none) :
    Kept { f with
      broadcast := f.broadcast.release address
      publishers := f.publishers.without publisher
      rounds := f.rounds.put address ⟨.leave, (f.broadcast.topic address).subscribers⟩
      log := f.log ++ [.dropped address] } := by
  have hsubscribers := subscribers_put f.broadcast address
    (t := { f.broadcast.topic address with bound := false }) rfl
  have hpasses : Passes f { f with
      broadcast := f.broadcast.release address
      publishers := f.publishers.without publisher
      rounds := f.rounds.put address ⟨.leave, (f.broadcast.topic address).subscribers⟩
      log := f.log ++ [.dropped address] } fun k s => s.note k (.dropped address) := by
    refine passes_of_event (by simp) rfl rfl (fun _ => id) fun a => ?_
    rw [release, hsubscribers]
  refine h.pass hpasses (fun k s _ hfits => ?_) fun a r hr => ?_
  · rw [release, hsubscribers]
    by_cases ha : address = s.address
    · subst ha
      rw [Table.at?_put_self]
      rw [hround] at hfits
      simp only [Seat.note, if_true]
      exact { hfits with
        due := by
          rw [hfits.due]
          split <;> rfl
        took := fun _ => rfl
        listed := fun _ hregistered => absurd hregistered Bool.false_ne_true
        member := fun _ => .inr ⟨_, rfl, rfl⟩
        left := fun _ _ _ => rfl }
    · rw [Table.at?_put_of_ne (Ne.symm ha)]
      simp only [Seat.note, if_neg ha]
      exact hfits
  · rw [release, hsubscribers]
    rw [Table.at?_put] at hr
    by_cases ha : a = address
    · rw [if_pos ha] at hr
      cases hr
      subst ha
      exact ⟨List.Sublist.refl _, fun _ => rfl, by simp⟩
    · rw [if_neg ha] at hr
      exact (h.runs a r hr).pass hpasses fun k s _ _ => s.took_note k (by simp) (by simp)

theorem filter_cons_ne {remaining : List Nat} (hid : id ∉ remaining) :
    (id :: remaining).filter (fun k => k ≠ id) = remaining := by
  rw [List.filter_cons_of_neg (by simp)]
  refine List.filter_eq_self.mpr fun k hk => ?_
  have hne : k ≠ id := fun heq => hid (heq ▸ hk)
  simp [hne]

theorem Kept.next_spec (h : Kept f) {errand : Errand} {remaining : List Nat}
    (hround : f.rounds.at? address = some ⟨errand, id :: remaining⟩) :
    id ∉ remaining ∧ remaining.Sublist
        ((f.broadcast.topic address).subscribers.filter (fun k => k ≠ id)) ∧
      ∃ s, seat id f.log = some s ∧ s.address = address := by
  have hsublist := (h.runs address _ hround).sublist
  obtain ⟨hid, -⟩ := List.nodup_cons.mp ((h.nodup address).sublist hsublist)
  refine ⟨hid, ?_, h.known address id (hsublist.subset List.mem_cons_self)⟩
  have hfilter := hsublist.filter (fun k => decide (k ≠ id))
  rwa [filter_cons_ne hid] at hfilter

theorem due_of_ne {errand errand' : Errand} {remaining : List Nat} {k : Nat} (hk : k ≠ id)
    (hsend : ∀ message n, errand = .send message n → ∃ n', errand' = .send message n')
    (hleave : errand = .leave → errand' = .leave) :
    Round.due ⟨errand', remaining⟩ k = Round.due ⟨errand, id :: remaining⟩ k := by
  cases errand with
  | leave =>
    rw [hleave rfl]
    rfl
  | send message n =>
    obtain ⟨n', rfl⟩ := hsend message n rfl
    simp [Round.due, hk]

/-- **A publisher goes on** to its next subscriber: nothing changes for the others. -/
theorem Seat.Fits.next {s : Seat} {k : Nat} {inbox : Option Inbox}
    {subscribers subscribers' : List Nat} {errand errand' : Errand} {remaining : List Nat}
    (h : s.Fits k inbox subscribers (some ⟨errand, id :: remaining⟩)) (hk : k ≠ id)
    (hsend : ∀ message n, errand = .send message n → ∃ n', errand' = .send message n')
    (hleave : errand = .leave ↔ errand' = .leave)
    (hmem : k ∈ subscribers' ↔ k ∈ subscribers) :
    s.Fits k inbox subscribers' (some ⟨errand', remaining⟩) := by
  have hdue : Round.due ⟨errand', remaining⟩ k = Round.due ⟨errand, id :: remaining⟩ k :=
    due_of_ne hk hsend hleave.mp
  exact { h with
    due := by
      rw [h.due, Option.bind_some, Option.bind_some, hdue]
    took := fun htook => by
      rw [Option.bind_some, hdue]
      exact h.took htook
    listed := fun hthere hregistered => hmem.mpr (h.listed hthere hregistered)
    member := fun hin => by
      refine (h.member (hmem.mp hin)).imp_right ?_
      rintro ⟨r, hr, hgone⟩
      cases hr
      exact ⟨_, rfl, hleave.mp hgone⟩
    left := fun r hr hgone => by
      cases hr
      exact h.left _ rfl (hleave.mpr hgone) }

/-- **What is sent comes to a subscriber**: it goes to its queue if the subscriber is there and has
room, and the subscriber heard nothing else of this round. -/
theorem Seat.Fits.reach {s : Seat} {inbox : Option Inbox} {subscribers : List Nat}
    (subscribers' : List Nat) {message : Bytes} {n : Nat} (n' : Nat) {remaining : List Nat}
    (h : s.Fits id inbox subscribers (some ⟨.send message n, id :: remaining⟩))
    (hid : id ∉ remaining) (hmem : inbox.isSome → (id ∈ subscribers' ↔ id ∈ subscribers))
    (hnot : inbox = none → id ∉ subscribers') :
    let room := inbox.any (fun i => i.messages.length < i.capacity)
    s.took = false ∧ s.reach.took = room ∧
      s.reach.Fits id (inbox.map fun i => if room then i.push message else i) subscribers'
        (some ⟨.send message n', remaining⟩) := by
  intro room
  have hdue : s.due = if s.there then some message else none := by
    rw [h.due]
    simp [Round.due]
  have hnext : Round.due ⟨.send message n', remaining⟩ id = none := by simp [Round.due, hid]
  have htook : s.took = false := by
    cases htook : s.took with
    | false => rfl
    | true => simpa [Round.due] using h.took htook
  have hleft (r : Round) (hr : some ⟨.send message n', remaining⟩ = some r)
      (hleave : r.errand = .leave) : s.registered = false := by
    cases hr
    cases hleave
  have hregistered := h.registered_of_mem (by simp)
  cases hthere : s.there with
  | false =>
    obtain rfl := h.gone hthere
    have hnone : s.due = none := by rw [hdue, hthere]; rfl
    have haccepted : s.accepted = none := by rw [Seat.accepted, hnone, ite_self]
    have hreach : s.reach = s := by
      unfold Seat.reach
      rw [haccepted, Option.isSome_none, Bool.or_false, Option.toList_none, List.append_nil,
        ← hnone]
    rw [hreach]
    exact ⟨htook, htook, { h with
      due := by rw [hnone, hthere]; rfl
      took := fun _ => hnext
      listed := fun hthere' => by cases hthere.symm.trans hthere'
      member := fun hin => absurd hin (hnot rfl)
      left := hleft }⟩
  | true =>
    obtain ⟨i, rfl, haddress, hcapacity, hqueue⟩ := h.there hthere
    have hlength := congrArg List.length hqueue
    rw [List.length_append] at hlength
    have hwaiting : s.waiting < max s.depth 1 ↔ i.messages.length < i.capacity := by
      rw [hcapacity, Seat.waiting, ← hlength, Nat.add_sub_cancel_left]
    have haccepted : s.accepted = if room then some message else none := by
      rw [Seat.accepted, hdue, hthere]
      exact if_congr (hwaiting.trans decide_eq_true_iff.symm) rfl rfl
    clear_value room
    have hroom : s.reach.took = room := by
      cases room <;> simp [Seat.reach, haccepted, htook]
    have hinbox : s.received ++ (if room then i.push message else i).messages = s.reach.heard := by
      cases room <;> simp [Seat.reach, haccepted, Inbox.push, ← hqueue]
    have hin := hmem rfl
    exact ⟨htook, hroom, {
      there := fun _ => ⟨_, rfl, by split <;> exact haddress, by split <;> exact hcapacity, hinbox⟩
      gone := fun hgone => by cases hthere.symm.trans hgone
      order := h.order.trans (List.prefix_append ..)
      due := by simp [Seat.reach, hnext]
      took := fun _ => hnext
      listed := fun _ hregistered => hin.mpr (h.listed hthere hregistered)
      member := fun hin' => .inl (hregistered (hin.mp hin'))
      left := hleft }⟩

theorem Counts.reach {log : List Event} {s : Seat} {room : Bool} (h : Counts log address n)
    (hs : seat id log = some s) (haddress : s.address = address) (htook : s.took = false)
    (hreach : s.reach.took = room) :
    Counts (log ++ [.reached id]) address (if room then n + 1 else n) := by
  obtain ⟨takers, hnodup, hlength, hmem⟩ := h
  have hseat := seat_append_of_seated log (e := .reached id) (by simp)
  have hid : id ∉ takers := by
    intro hin
    obtain ⟨t, ht, -, htaken⟩ := (hmem id).mp hin
    cases hs.symm.trans ht
    cases htook.symm.trans htaken
  have hnew (k : Nat) : (∃ t, seat k (log ++ [.reached id]) = some t ∧ t.address = address ∧
      t.took = true) ↔ k ∈ takers ∨ k = id ∧ room = true := by
    rw [hseat]
    by_cases hk : k = id
    · subst hk
      rw [hs]
      constructor
      · rintro ⟨t, ht, -, htaken⟩
        cases ht
        simp only [Seat.note, if_true, hreach] at htaken
        exact .inr ⟨rfl, htaken⟩
      · intro hor
        refine ⟨_, rfl, (s.address_note k _).trans haddress, ?_⟩
        simp only [Seat.note, if_true, hreach]
        exact (hor.resolve_left hid).2
    · have hsame : (seat k log).map (fun s => s.note k (.reached id)) = seat k log := by
        simp [Seat.note, Ne.symm hk]
      rw [hsame, ← hmem k]
      exact ⟨.inl, fun hor => hor.resolve_right fun hmine => hk hmine.1⟩
  cases room with
  | false =>
    refine ⟨takers, hnodup, hlength, fun k => ?_⟩
    rw [hnew]
    exact ⟨.inl, fun hor => hor.resolve_right fun hmine => by cases hmine.2⟩
  | true =>
    refine ⟨id :: takers, List.nodup_cons.mpr ⟨hid, hnodup⟩, by simp [hlength], fun k => ?_⟩
    rw [hnew, List.mem_cons, or_comm]
    exact or_congr_right (and_iff_left rfl).symm

/-- **A message comes to the next subscriber.** -/
theorem Kept.offer (h : Kept f) {message : Bytes} {remaining : List Nat}
    (hround : f.rounds.at? address = some ⟨.send message n, id :: remaining⟩) :
    Kept { f with
      broadcast := (f.broadcast.offer address message id).2
      rounds := f.rounds.put address
        ⟨.send message (if f.broadcast.hasRoom id then n + 1 else n), remaining⟩
      log := f.log ++ [.reached id] } := by
  obtain ⟨hid, hsublist, s, hs, haddress⟩ := h.next_spec hround
  have hfits := h.fits id s hs
  rw [haddress, hround] at hfits
  obtain ⟨htook, hreach, hreached⟩ := hfits.reach
    ((f.broadcast.offer address message id).2.topic address).subscribers
    (if f.broadcast.hasRoom id then n + 1 else n) hid
    (fun hthere => by rw [topic_offer, isPresent, if_pos hthere])
    (fun hnone => by
      rw [topic_offer, isPresent, hnone, topic_forget, if_pos rfl]
      simp)
  have hpasses : Passes f { f with
      broadcast := (f.broadcast.offer address message id).2
      rounds := f.rounds.put address
        ⟨.send message (if f.broadcast.hasRoom id then n + 1 else n), remaining⟩
      log := f.log ++ [.reached id] } fun k s => s.note k (.reached id) := by
    refine passes_of_event (by simp) rfl nextInbox_offer (fun k hk => ?_) fun a => sublist_offer ..
    rw [at?_inboxes_offer, hk]
    rfl
  refine h.pass hpasses (fun k t ht hfits => ?_) fun a r hr => ?_
  · rw [at?_inboxes_offer]
    by_cases hk : k = id
    · subst hk
      cases hs.symm.trans ht
      rw [haddress, Table.at?_put_self]
      simp only [Seat.note, if_true, true_and]
      exact hreached
    · simp only [Seat.note, if_neg (Ne.symm hk), hk, false_and, if_false, Option.map_id']
      rw [Table.at?_put]
      by_cases ha : t.address = address
      · rw [if_pos ha, ha]
        rw [ha, hround] at hfits
        exact hfits.next hk (by simp) (by simp) (mem_offer address hk)
      · rw [if_neg ha]
        exact { hfits with
          listed := fun hthere hregistered =>
            (mem_offer t.address hk).mpr (hfits.listed hthere hregistered)
          member := fun hin => hfits.member ((mem_offer t.address hk).mp hin) }
  · rw [Table.at?_put] at hr
    by_cases ha : a = address
    · rw [if_pos ha] at hr
      cases hr
      subst ha
      refine ⟨?_, (by simp), fun m n' hsend => ?_⟩
      · rw [topic_offer]
        by_cases hthere : f.broadcast.isPresent id
        · rw [if_pos hthere]
          exact hsublist.trans List.filter_sublist
        · rw [if_neg hthere, topic_forget, if_pos rfl]
          exact hsublist
      · cases hsend
        exact ((h.runs a _ hround).counts message n rfl).reach hs haddress htook hreach
    · rw [if_neg ha] at hr
      have htopic : (f.broadcast.offer address message id).2.topic a = f.broadcast.topic a := by
        rw [topic_offer, topic_forget, if_neg ha, ite_self]
      rw [htopic]
      refine (h.runs a r hr).pass hpasses fun k t ht hta => ?_
      have hk : id ≠ k := by
        rintro rfl
        cases hs.symm.trans ht
        exact ha (hta.symm.trans haddress)
      simp only [Seat.note, if_neg hk]

theorem seat_append_of_silent {log : List Event} {e : Event}
    (he : (∃ a n, e = .returned a n) ∨ ∃ k, e = .closed k) (id : Nat) :
    seat id (log ++ [e]) = seat id log := by
  rw [seat_append]
  rcases he with ⟨a, n, rfl⟩ | ⟨k, rfl⟩ <;> cases seat id log <;> rfl

/-- **A publisher is through**, and the address is free again. -/
theorem Kept.finish (h : Kept f) {errand : Errand} {log : List Event}
    (hround : f.rounds.at? address = some ⟨errand, []⟩)
    (hseat : ∀ k, seat k log = seat k f.log) :
    Kept { f with rounds := f.rounds.without address, log } := by
  have hpasses : Passes f { f with rounds := f.rounds.without address, log } fun _ s => s :=
    passes_of_seat_eq hseat rfl rfl fun _ => List.Sublist.refl _
  refine h.pass hpasses (fun k s _ hfits => ?_) fun a r hr => ?_
  · rw [Table.at?_without]
    by_cases ha : s.address = address
    · rw [if_pos ha]
      rw [ha, hround] at hfits
      have hdue : Round.due ⟨errand, []⟩ k = none := by
        cases errand with
        | send message n => simp [Round.due]
        | leave => rfl
      exact { hfits with
        due := by
          rw [hfits.due, Option.bind_some, hdue]
          rfl
        took := fun _ => rfl
        listed := ha ▸ hfits.listed
        member := fun hin => by
          rw [ha] at hin
          refine (hfits.member hin).imp_right ?_
          -- A round that cuts off has come to all that the publisher knew.
          rintro ⟨r, hr, hleave⟩
          cases hr
          have hnone := (h.runs address _ hround).leave hleave
          change [] = _ at hnone
          rw [← hnone] at hin
          cases hin
        left := by simp }
    · rw [if_neg ha]
      exact hfits
  · rw [Table.at?_without] at hr
    split at hr
    · cases hr
    · exact (h.runs a r hr).pass hpasses fun _ _ _ _ => rfl

/-- **A publisher that leaves** cuts the next subscriber off. -/
theorem Kept.cut (h : Kept f) {remaining : List Nat}
    (hround : f.rounds.at? address = some ⟨.leave, id :: remaining⟩) :
    Kept { f with
      broadcast := f.broadcast.forget address id
      rounds := f.rounds.put address ⟨.leave, remaining⟩ } := by
  obtain ⟨hid, hsublist, -⟩ := h.next_spec hround
  refine h.pass (passes_of_seat_eq (fun _ => rfl) rfl rfl fun a => sublist_forget ..)
    (fun k s _ hfits => ?_) fun a r hr => ?_
  · rw [Table.at?_put]
    by_cases ha : s.address = address
    · rw [if_pos ha]
      rw [ha, hround] at hfits
      exact { hfits with
        due := hfits.due
        took := fun _ => rfl
        listed := fun _ hregistered => by cases (hfits.left _ rfl rfl).symm.trans hregistered
        member := fun _ => .inr ⟨_, rfl, rfl⟩
        left := fun _ _ _ => hfits.left _ rfl rfl }
    · rw [if_neg ha, topic_forget, if_neg ha]
      exact hfits
  · rw [Table.at?_put] at hr
    by_cases ha : a = address
    · rw [if_pos ha] at hr
      cases hr
      subst ha
      rw [topic_forget, if_pos rfl]
      refine ⟨hsublist, fun _ => ?_, by simp⟩
      rw [← (h.runs a _ hround).leave rfl]
      exact (filter_cons_ne hid).symm
    · rw [if_neg ha] at hr
      rw [topic_forget, if_neg ha]
      exact h.runs a r hr

/-- **A subscriber receives** the message that has waited longest. -/
theorem Kept.receive (h : Kept f) {i : Inbox} {message : Bytes} {messages : List Bytes}
    (hi : f.broadcast.inboxes.at? id = some i) (hmessages : i.messages = message :: messages) :
    Kept { f with
      broadcast := { f.broadcast with
        inboxes := f.broadcast.inboxes.put id { i with messages } }
      log := f.log ++ [.received id message] } := by
  have hpasses : Passes f { f with
      broadcast := { f.broadcast with
        inboxes := f.broadcast.inboxes.put id { i with messages } }
      log := f.log ++ [.received id message] } fun k s => s.note k (.received id message) := by
    refine passes_of_event (by simp) rfl rfl (fun k hk => ?_) fun _ => List.Sublist.refl _
    have hne : k ≠ id := by
      rintro rfl
      cases hi.symm.trans hk
    exact (Table.at?_put_of_ne hne ..).trans hk
  refine h.pass hpasses (fun k s _ hfits => ?_) fun a r hr =>
    (h.runs a r hr).pass hpasses fun k s _ _ => s.took_note k (by simp) (by simp)
  rw [Table.at?_put]
  by_cases hk : k = id
  · subst hk
    rw [if_pos rfl]
    simp only [Seat.note, if_true]
    rw [hi] at hfits
    obtain ⟨hthere, haddress, hcapacity, hqueue⟩ := hfits.of_inbox
    rw [hmessages, List.append_cons] at hqueue
    exact { hfits with
      there := fun _ => ⟨_, rfl, haddress, hcapacity, hqueue⟩
      gone := fun hgone => by cases hthere.symm.trans hgone
      order := ⟨messages, hqueue⟩ }
  · simp only [Seat.note, if_neg (Ne.symm hk), if_neg hk]
    exact hfits

/-- **An act keeps everybody at its place.** -/
theorem Kept.step (h : Kept f) (hstep : Step f f') : Kept f' := by
  cases hstep with
  | rest => exact h
  | bind address _ _ => exact h.bind address
  | subscribe address depth hround => exact h.subscribe depth hround
  | unsubscribe id => exact h.unsubscribe id
  | send publisher address message _ hround => exact h.send message hround
  | drop publisher address _ hround => exact h.drop publisher hround
  | offer address message accepted id remaining hround => exact h.offer hround
  | sent address message accepted hround =>
    exact h.finish hround (seat_append_of_silent (.inl ⟨_, _, rfl⟩))
  | cut address id remaining hround => exact h.cut hround
  | gone address hround => exact h.finish hround fun _ => rfl
  | receive id i message messages hi hmessages => exact h.receive hi hmessages
  | closed id i _ _ _ =>
    have hpasses : Passes f { f with log := f.log ++ [.closed id] } fun _ s => s :=
      passes_of_seat_eq (seat_append_of_silent (.inr ⟨_, rfl⟩)) rfl rfl
        fun _ => List.Sublist.refl _
    exact h.pass hpasses (fun _ _ _ hfits => hfits) fun a r hr =>
      (h.runs a r hr).pass hpasses fun _ _ _ _ => rfl

theorem kept_empty : Kept {} where
  came := nofun
  fresh := fun _ _ => ⟨rfl, rfl⟩
  fits := nofun
  known := nofun
  nodup := fun _ => List.nodup_nil
  runs := nofun

end Kept

end Fanout

end Stepcast
