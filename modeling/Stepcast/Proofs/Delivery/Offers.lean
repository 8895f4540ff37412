import Stepcast.Network.Broadcast
import Stepcast.Proofs.Tables

/-!
# One offer after the other

Publishing a message offers it to one subscriber after the other, and a publisher that leaves cuts
one inbox off after the other. When nothing happens in between, the offers together are
`Broadcast.publish`, and the cuts together are `Broadcast.unbind`.

Main statements: `Broadcast.offerAll_eq_publish`, `Broadcast.forgetAll_eq_unbind`.
-/

namespace Stepcast

namespace Broadcast

/-! ## One subscriber -/

/-- The publisher at an address forgets one of its subscribers. -/
def forget (b : Broadcast) (address : String) (id : Nat) : Broadcast :=
  let topic := b.topic address
  { b with
    topics := b.topics.put address
      { topic with subscribers := topic.subscribers.filter (fun k => k ≠ id) } }

/-- Offers a message to one subscriber at an address, and forgets it if it has left. Says whether it
accepted the message. -/
def offer (b : Broadcast) (address : String) (message : Bytes) (id : Nat) : Bool × Broadcast :=
  match b.inboxes.at? id with
  | none => (false, b.forget address id)
  | some i =>
    if i.messages.length < i.capacity then
      (true, { b with inboxes := b.inboxes.put id (i.push message) })
    else (false, b)

/-- The address is free again. -/
def release (b : Broadcast) (address : String) : Broadcast :=
  { b with topics := b.topics.put address { b.topic address with bound := false } }

/-! ## All of them -/

/-- Offers a message to subscribers at an address, one after the other; counts those that accepted
it. -/
def offerAll (b : Broadcast) (address : String) (message : Bytes) : List Nat → Nat × Broadcast
  | [] => (0, b)
  | id :: rest =>
    let (accepted, b) := b.offer address message id
    let (n, b) := b.offerAll address message rest
    (if accepted then n + 1 else n, b)

/-- Forgets subscribers at an address, one after the other. -/
def forgetAll (b : Broadcast) (address : String) : List Nat → Broadcast
  | [] => b
  | id :: rest => (b.forget address id).forgetAll address rest

/-- The topics and inboxes are listed in order. -/
structure Listed (b : Broadcast) : Prop where
  topics : Table.Sorted b.topics
  inboxes : Table.Sorted b.inboxes

section Laws

variable {b b' : Broadcast} {address a : String} {message : Bytes} {id k : Nat}

theorem topic_put (b : Broadcast) (address : String) (t : Topic) (a : String) :
    topic { b with topics := b.topics.put address t } a =
      if a = address then t else b.topic a := by
  rw [topic, Table.at?_put]
  by_cases ha : a = address
  · rw [if_pos ha, if_pos ha]
    rfl
  · rw [if_neg ha, if_neg ha]
    rfl

theorem topic_forget (b : Broadcast) (address : String) (id : Nat) (a : String) :
    (b.forget address id).topic a = if a = address then
      { b.topic address with
        subscribers := (b.topic address).subscribers.filter (fun k => k ≠ id) }
      else b.topic a :=
  topic_put ..

theorem Listed.ext (h : b.Listed) (h' : b'.Listed)
    (htopics : ∀ a, b.topics.at? a = b'.topics.at? a)
    (hinboxes : ∀ id, b.inboxes.at? id = b'.inboxes.at? id) (hnext : b.nextInbox = b'.nextInbox) :
    b = b' := by
  obtain ⟨topics, inboxes, next⟩ := b
  obtain ⟨topics', inboxes', next'⟩ := b'
  obtain rfl : topics = topics' := Table.eq_of_at?_eq h.topics h'.topics htopics
  obtain rfl : inboxes = inboxes' := Table.eq_of_at?_eq h.inboxes h'.inboxes hinboxes
  obtain rfl : next = next' := hnext
  rfl

/-! ### Offers -/

theorem Listed.put_topic (h : b.Listed) (address : String) (t : Topic) :
    Listed { b with topics := b.topics.put address t } :=
  ⟨h.topics.put address t, h.inboxes⟩

theorem Listed.offer (h : b.Listed) (address : String) (message : Bytes) (id : Nat) :
    (b.offer address message id).2.Listed := by
  unfold Broadcast.offer
  split
  · exact h.put_topic ..
  · split
    · exact ⟨h.topics, h.inboxes.put ..⟩
    · exact h

theorem fst_offer : (b.offer address message id).1 = b.hasRoom id := by
  unfold Broadcast.offer hasRoom
  cases b.inboxes.at? id with
  | none => rfl
  | some i =>
    by_cases hroom : i.messages.length < i.capacity <;> simp [hroom]

theorem nextInbox_offer : (b.offer address message id).2.nextInbox = b.nextInbox := by
  unfold Broadcast.offer
  split
  · rfl
  · split <;> rfl

theorem at?_inboxes_offer : (b.offer address message id).2.inboxes.at? k =
    (b.inboxes.at? k).map (fun i => if k = id ∧ b.hasRoom id then i.push message else i) := by
  unfold Broadcast.offer hasRoom
  cases hid : b.inboxes.at? id with
  | none => simp [forget]
  | some i =>
    by_cases hroom : i.messages.length < i.capacity
    · by_cases hk : k = id
      · simp [hroom, hk, hid, Table.at?_put_self]
      · simp [hroom, hk, Table.at?_put_of_ne]
    · simp [hroom]

theorem at?_topics_offer {t : Topic} (ht : b.topics.at? address = some t) :
    (b.offer address message id).2.topics.at? a = if a = address then
      some { t with subscribers := t.subscribers.filter (fun k => k ≠ id ∨ b.isPresent k) }
      else b.topics.at? a := by
  have htopic : b.topic address = t := by rw [topic, ht, Option.getD_some]
  cases hid : b.inboxes.at? id with
  | none =>
    have hoffer : (b.offer address message id).2 = b.forget address id := by
      simp only [Broadcast.offer, hid]
    have hfilter : t.subscribers.filter (fun k => k ≠ id) =
        t.subscribers.filter (fun k => k ≠ id ∨ b.isPresent k) := by
      refine List.filter_congr fun k _ => ?_
      by_cases hk : k = id
      · simp [hk, isPresent, hid]
      · simp [hk]
    simp only [hoffer, forget, htopic, Table.at?_put, hfilter]
  | some i =>
    have hoffer : (b.offer address message id).2.topics = b.topics := by
      simp only [Broadcast.offer, hid]
      split <;> rfl
    have hfilter : t.subscribers.filter (fun k => k ≠ id ∨ b.isPresent k) = t.subscribers := by
      refine List.filter_eq_self.mpr fun k _ => ?_
      by_cases hk : k = id
      · simp [hk, isPresent, hid]
      · simp [hk]
    rw [hoffer, hfilter]
    by_cases ha : a = address
    · rw [if_pos ha, ha, ht]
    · rw [if_neg ha]

theorem topic_offer (b : Broadcast) (address : String) (message : Bytes) (id : Nat) (a : String) :
    (b.offer address message id).2.topic a =
      if b.isPresent id then b.topic a else (b.forget address id).topic a := by
  unfold Broadcast.offer isPresent
  cases b.inboxes.at? id with
  | none => rfl
  | some i =>
    dsimp only
    split <;> rfl

theorem isPresent_offer : (b.offer address message id).2.isPresent k = b.isPresent k := by
  rw [isPresent, at?_inboxes_offer, Option.isSome_map, isPresent]

theorem hasRoom_offer (hk : k ≠ id) :
    (b.offer address message id).2.hasRoom k = b.hasRoom k := by
  rw [hasRoom, at?_inboxes_offer]
  simp [hk, hasRoom]

/-- **A round of offers**: what has room accepts, and what has left is forgotten. -/
theorem offerAll_spec (message : Bytes) {ids : List Nat} (hids : ids.Nodup) {t : Topic}
    (hlisted : b.Listed) (ht : b.topics.at? address = some t) :
    (b.offerAll address message ids).1 = (ids.filter b.hasRoom).length ∧
      (b.offerAll address message ids).2.Listed ∧
      (b.offerAll address message ids).2.nextInbox = b.nextInbox ∧
      (∀ k, (b.offerAll address message ids).2.inboxes.at? k = (b.inboxes.at? k).map
        (fun i => if k ∈ ids ∧ b.hasRoom k then i.push message else i)) ∧
      ∀ a, (b.offerAll address message ids).2.topics.at? a = if a = address then
        some { t with subscribers := t.subscribers.filter (fun k => k ∉ ids ∨ b.isPresent k) }
        else b.topics.at? a := by
  induction ids generalizing b t with
  | nil =>
    refine ⟨rfl, hlisted, rfl, fun k => by simp [offerAll], fun a => ?_⟩
    have hall : t.subscribers.filter (fun k => k ∉ [] ∨ b.isPresent k) = t.subscribers :=
      List.filter_eq_self.mpr (by simp)
    show b.topics.at? a = _
    by_cases ha : a = address
    · rw [if_pos ha, ha, ht, hall]
    · rw [if_neg ha]
  | cons id rest ih =>
    obtain ⟨hid, hrest⟩ := List.nodup_cons.mp hids
    have hother {k : Nat} (hk : k ∈ rest) : k ≠ id := fun heq => hid (heq ▸ hk)
    obtain ⟨hcount, hlisted', hnext, hinboxes, htopics⟩ := ih hrest
      (hlisted.offer address message id) ((at?_topics_offer ht).trans (if_pos rfl))
    refine ⟨?_, hlisted', hnext.trans nextInbox_offer, fun k => ?_, fun a => ?_⟩
    · have hrooms : rest.filter (b.offer address message id).2.hasRoom = rest.filter b.hasRoom :=
        List.filter_congr fun k hk => hasRoom_offer (hother hk)
      rw [hrooms] at hcount
      simp only [offerAll, hcount, fst_offer, List.filter_cons]
      split <;> rfl
    · refine (hinboxes k).trans ?_
      rw [at?_inboxes_offer, Option.map_map]
      congr 1
      funext i
      by_cases hk : k = id
      · subst hk
        simp [hid]
      · simp [hk, hasRoom_offer hk]
    · refine (htopics a).trans ?_
      rw [at?_topics_offer ht]
      by_cases ha : a = address
      · rw [if_pos ha, if_pos ha]
        congr 2
        rw [List.filter_filter]
        refine List.filter_congr fun k _ => ?_
        rw [isPresent_offer]
        by_cases hk : k = id
        · simp [hk, hid]
        · simp [hk]
      · rw [if_neg ha, if_neg ha, if_neg ha]

theorem at?_inboxes_publish : (b.publish address message).2.inboxes.at? id =
    (b.inboxes.at? id).map (fun i => if id ∈ b.takers address then i.push message else i) :=
  Table.at?_map (f := fun k => k) (fun h => h)
    (fun id (i : Inbox) => if id ∈ b.takers address then i.push message else i) b.inboxes id

theorem topic_publish : ((b.publish address message).2.topic address).subscribers =
    (b.topic address).subscribers.filter b.isPresent := by
  rw [topic, publish, Table.at?_put_self]
  rfl

theorem Listed.publish (h : b.Listed) (address : String) (message : Bytes) :
    (b.publish address message).2.Listed :=
  ⟨h.topics.put .., List.pairwise_map.mpr (h.inboxes.imp id)⟩

/-- **The offers of a round are a publication**, when nothing comes between. -/
theorem offerAll_eq_publish (message : Bytes) (hlisted : b.Listed) {t : Topic}
    (ht : b.topics.at? address = some t) (hnodup : t.subscribers.Nodup) :
    b.offerAll address message t.subscribers = b.publish address message := by
  have htopic : b.topic address = t := by rw [topic, ht, Option.getD_some]
  obtain ⟨hcount, hlisted', hnext, hinboxes, htopics⟩ :=
    offerAll_spec message hnodup hlisted ht
  refine Prod.ext ?_ (hlisted'.ext (hlisted.publish address message) (fun a => ?_) (fun k => ?_)
    hnext)
  · rw [hcount, publish, takers, htopic]
  · rw [htopics, publish, Table.at?_put, htopic]
    have hfilter : t.subscribers.filter (fun k => k ∉ t.subscribers ∨ b.isPresent k) =
        t.subscribers.filter b.isPresent :=
      List.filter_congr fun k hk => by simp [hk]
    rw [hfilter]
  · rw [hinboxes, at?_inboxes_publish, takers, htopic]
    simp only [List.mem_filter]

/-! ### Leaving -/

theorem topic_unbind : (b.unbind address).topic address = {} := by
  rw [topic, unbind, Table.at?_put_self]
  rfl

theorem Listed.forgetAll (h : b.Listed) (address : String) (ids : List Nat) :
    (b.forgetAll address ids).Listed := by
  induction ids generalizing b with
  | nil => exact h
  | cons id rest ih => exact ih (h.put_topic ..)

/-- **A round of cuts** leaves those that are not cut off, and touches nothing else. -/
theorem forgetAll_spec (ids : List Nat) {t : Topic} (ht : b.topics.at? address = some t) :
    (b.forgetAll address ids).inboxes = b.inboxes ∧
      (b.forgetAll address ids).nextInbox = b.nextInbox ∧
      ∀ a, (b.forgetAll address ids).topics.at? a = if a = address then
        some { t with subscribers := t.subscribers.filter (fun k => k ∉ ids) }
        else b.topics.at? a := by
  induction ids generalizing b t with
  | nil =>
    refine ⟨rfl, rfl, fun a => ?_⟩
    have hall : t.subscribers.filter (fun k => k ∉ []) = t.subscribers :=
      List.filter_eq_self.mpr (by simp)
    show b.topics.at? a = _
    by_cases ha : a = address
    · rw [if_pos ha, ha, ht, hall]
    · rw [if_neg ha]
  | cons id rest ih =>
    have htopic : b.topic address = t := by rw [topic, ht, Option.getD_some]
    obtain ⟨hinboxes, hnext, htopics⟩ := ih (b := b.forget address id) (Table.at?_put_self ..)
    refine ⟨hinboxes, hnext, fun a => ?_⟩
    refine (htopics a).trans ?_
    by_cases ha : a = address
    · rw [if_pos ha, if_pos ha, htopic, List.filter_filter]
      congr 2
      refine List.filter_congr fun k _ => ?_
      by_cases hk : k = id <;> simp [hk]
    · rw [if_neg ha, if_neg ha]
      exact Table.at?_put_of_ne ha ..

/-- **A publisher that frees its address and cuts off all subscribers** has left. -/
theorem forgetAll_eq_unbind (hlisted : b.Listed) :
    (b.release address).forgetAll address (b.topic address).subscribers = b.unbind address := by
  have hrelease : (b.release address).Listed := hlisted.put_topic ..
  obtain ⟨hinboxes, hnext, htopics⟩ := forgetAll_spec (b := b.release address)
    (b.topic address).subscribers (Table.at?_put_self ..)
  refine (hrelease.forgetAll ..).ext (hlisted.put_topic ..) (fun a => ?_)
    (fun k => by rw [hinboxes]; rfl) hnext
  refine (htopics a).trans ?_
  rw [unbind, Table.at?_put]
  by_cases ha : a = address
  · rw [if_pos ha, if_pos ha]
    have hnone : (b.topic address).subscribers.filter
        (fun k => k ∉ (b.topic address).subscribers) = [] :=
      List.filter_eq_nil_iff.mpr fun k hk => by simp [hk]
    rw [hnone]
  · rw [if_neg ha, if_neg ha]
    exact Table.at?_put_of_ne ha ..

/-! ### Who is known -/

theorem topic_subscribe (b : Broadcast) (address : String) (depth : Nat) (a : String) :
    ((b.subscribe address depth).2.topic a).subscribers =
      (b.topic a).subscribers ++ if a = address then [b.nextInbox] else [] := by
  rw [subscribe, topic, Table.at?_put]
  by_cases ha : a = address
  · subst ha
    rw [if_pos rfl, if_pos rfl]
    rfl
  · rw [if_neg ha, if_neg ha, List.append_nil]
    rfl

theorem subscribers_put (b : Broadcast) (address : String) {t : Topic}
    (ht : t.subscribers = (b.topic address).subscribers) (a : String) :
    (topic { b with topics := b.topics.put address t } a).subscribers =
      (b.topic a).subscribers := by
  rw [topic_put]
  split
  · next ha => rw [ha, ht]
  · rfl

theorem mem_forget {b : Broadcast} {address : String} {id : Nat} (a : String) {k : Nat}
    (hk : k ≠ id) :
    k ∈ ((b.forget address id).topic a).subscribers ↔ k ∈ (b.topic a).subscribers := by
  rw [topic_forget]
  split
  · next ha => simp [ha, hk]
  · rfl

theorem sublist_forget (b : Broadcast) (address : String) (id : Nat) (a : String) :
    ((b.forget address id).topic a).subscribers.Sublist (b.topic a).subscribers := by
  rw [topic_forget]
  split
  · next ha => exact ha ▸ List.filter_sublist
  · exact List.Sublist.refl _

theorem sublist_offer (b : Broadcast) (address : String) (message : Bytes) (id : Nat)
    (a : String) : ((b.offer address message id).2.topic a).subscribers.Sublist
      (b.topic a).subscribers := by
  rw [topic_offer]
  split
  · exact List.Sublist.refl _
  · exact sublist_forget ..

theorem mem_offer {b : Broadcast} {address : String} {message : Bytes} {id : Nat} (a : String)
    {k : Nat} (hk : k ≠ id) :
    k ∈ ((b.offer address message id).2.topic a).subscribers ↔ k ∈ (b.topic a).subscribers := by
  rw [topic_offer]
  split
  · rfl
  · exact mem_forget a hk

theorem bound_forget (b : Broadcast) (address : String) (id : Nat) (a : String) :
    ((b.forget address id).topic a).bound = (b.topic a).bound := by
  rw [topic_forget]
  split
  · next ha => rw [ha]
  · rfl

theorem bound_offer (b : Broadcast) (address : String) (message : Bytes) (id : Nat) (a : String) :
    ((b.offer address message id).2.topic a).bound = (b.topic a).bound := by
  rw [topic_offer]
  split
  · rfl
  · exact bound_forget ..

theorem bound_subscribe (b : Broadcast) (address : String) (depth : Nat) (a : String) :
    ((b.subscribe address depth).2.topic a).bound = (b.topic a).bound := by
  rw [subscribe, topic, Table.at?_put]
  by_cases ha : a = address
  · rw [if_pos ha, ha]
    rfl
  · rw [if_neg ha]
    rfl

end Laws

end Broadcast

end Stepcast
