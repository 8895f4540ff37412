import Stepcast.Proofs.Delivery.Requests

/-!
# Taking turns

A server answers its requests in the order in which it takes them. What it has in hand is the last
of them, which is later than all that its client got replies to, so the replies to a client are sent
in the order in which its requests were taken, whichever servers took them.

Main statements: `Turns.reply`, `Turns.step`, `Turns.alternate`.
-/

namespace Stepcast

open Exchange

namespace Correspondence

/-- Servers answer in the order in which they take, and each has at most one request in hand. -/
structure Turns (w : Correspondence) : Prop where
  distinct : (w.answers.map Answer.turn).Nodup
  settled : ∀ server, ∃ owed, owed.length ≤ 1 ∧
    w.turnsOf server = (w.answersBy server).map Answer.turn ++ owed
  idle : ∀ server s, w.exchange.servers.at? server = some s → s.pending = none →
    w.turnsOf server = (w.answersBy server).map Answer.turn
  busy : ∀ server s client, w.exchange.servers.at? server = some s → s.pending = some client →
    ∃ turn, w.turnsOf server = (w.answersBy server).map Answer.turn ++ [turn] ∧
      w.asker? turn = some client ∧ ∀ a ∈ w.repliesTo client, a.turn < turn
  rising : ∀ client, ((w.repliesTo client).map Answer.turn).Pairwise (· < ·)

section Turns

variable {w w' : Correspondence} {act : Act} {server client : Nat}

theorem turnsOf_take (w : Correspondence) (x : Exchange) (q : Inquiry) (server : Nat) :
    turnsOf { w with exchange := x, taken := w.taken ++ [q] } server =
      w.turnsOf server ++ if server = q.server then [w.taken.length] else [] := by
  by_cases hq : server = q.server
  · simp [turnsOf, List.zipIdx_append, hq]
  · simp [turnsOf, List.zipIdx_append, hq, Ne.symm hq]

theorem mem_turnsOf {turn : Nat} :
    turn ∈ w.turnsOf server ↔ ∃ q, w.taken[turn]? = some q ∧ q.server = server := by
  simp [turnsOf, List.mem_zipIdx_iff_getElem?]

theorem turnsOf_rising (w : Correspondence) (server : Nat) :
    (w.turnsOf server).Pairwise (· < ·) := by
  have hsublist : (w.turnsOf server).Sublist (List.range' 0 w.taken.length) := by
    rw [← List.zipIdx_map_snd 0 w.taken]
    exact List.filter_sublist.map Prod.snd
  exact List.Pairwise.sublist hsublist List.pairwise_lt_range'

theorem lt_of_mem_turnsOf {turn : Nat} (h : turn ∈ w.turnsOf server) : turn < w.taken.length := by
  obtain ⟨q, hq, -⟩ := mem_turnsOf.mp h
  exact (List.getElem?_eq_some_iff.mp hq).1

theorem Turns.turn_mem (h : Turns w) {a : Answer} (ha : a ∈ w.answers) :
    a.turn ∈ w.turnsOf a.server := by
  obtain ⟨owed, -, hturns⟩ := h.settled a.server
  rw [hturns]
  exact List.mem_append_left _
    (List.mem_map_of_mem (List.mem_filter.mpr ⟨ha, decide_eq_true rfl⟩))

theorem answersBy_append (w : Correspondence) (x : Exchange) (a : Answer) (server : Nat) :
    answersBy { w with exchange := x, answers := w.answers ++ [a] } server =
      w.answersBy server ++ if server = a.server then [a] else [] := by
  by_cases hserver : server = a.server
  · simp [answersBy, hserver]
  · simp [answersBy, hserver, Ne.symm hserver]

theorem repliesTo_append (w : Correspondence) (x : Exchange) {a : Answer}
    (hasker : w.asker? a.turn = some client) (i : Nat) :
    repliesTo { w with exchange := x, answers := w.answers ++ [a] } i =
      w.repliesTo i ++ if a.sent ∧ i = client then [a] else [] := by
  have hi : w.asker? a.turn = some i ↔ i = client := by
    rw [hasker, Option.some.injEq, eq_comm]
  rw [repliesTo, List.filter_append]
  congr 1
  show [a].filter (fun a => decide (a.sent ∧ w.asker? a.turn = some i)) = _
  simp only [List.filter_cons, List.filter_nil, hi, decide_eq_true_eq]

theorem asker?_take (w : Correspondence) (x : Exchange) (q : Inquiry) {turn : Nat}
    (h : turn < w.taken.length) :
    asker? { w with exchange := x, taken := w.taken ++ [q] } turn = w.asker? turn := by
  rw [asker?, List.getElem?_append_left h, asker?]

theorem Turns.repliesTo_take (h : Turns w) (x : Exchange) (q : Inquiry) (client : Nat) :
    repliesTo { w with exchange := x, taken := w.taken ++ [q] } client = w.repliesTo client :=
  List.filter_congr fun a ha => by
    rw [asker?_take w x q (lt_of_mem_turnsOf (h.turn_mem ha))]

theorem Turns.congr (h : Turns w) (htaken : w'.taken = w.taken) (hanswers : w'.answers = w.answers)
    (hservers : ∀ server s', w'.exchange.servers.at? server = some s' →
      (∃ s, w.exchange.servers.at? server = some s ∧ s.pending = s'.pending) ∨
        s'.pending = none ∧ w.turnsOf server = []) : Turns w' := by
  have hturns (server : Nat) : w'.turnsOf server = w.turnsOf server := by
    rw [turnsOf, htaken, turnsOf]
  have hby (server : Nat) : w'.answersBy server = w.answersBy server := by
    rw [answersBy, hanswers, answersBy]
  have hasker (turn : Nat) : w'.asker? turn = w.asker? turn := by rw [asker?, htaken, asker?]
  have hto (client : Nat) : w'.repliesTo client = w.repliesTo client := by
    simp only [repliesTo, hanswers, hasker]
  refine ⟨hanswers ▸ h.distinct, fun server => ?_, fun server s' hs' hnone => ?_,
    fun server s' client hs' hsome => ?_, fun client => ?_⟩
  · rw [hturns, hby]
    exact h.settled server
  · rw [hturns, hby]
    rcases hservers server s' hs' with ⟨s, hs, heq⟩ | ⟨-, hempty⟩
    · exact h.idle server s hs (heq.trans hnone)
    · obtain ⟨owed, -, hsettled⟩ := h.settled server
      rw [hempty] at hsettled ⊢
      exact (List.append_eq_nil_iff.mp hsettled.symm).1.symm
  · simp only [hturns, hby, hasker, hto]
    rcases hservers server s' hs' with ⟨s, hs, heq⟩ | ⟨hnone, -⟩
    · exact h.busy server s client hs (heq.trans hsome)
    · cases hnone.symm.trans hsome
  · rw [hto]
    exact h.rising client

/-- **A server takes a request** and has it in hand. -/
theorem Turns.take (h : Turns w) {s : Server} {message : Bytes} {requests : List (Bytes × Nat)}
    (hs : w.exchange.servers.at? server = some s) (hpending : s.pending = none) :
    Turns { w with
      exchange := { w.exchange with
        servers := w.exchange.servers.put server { s with requests, pending := some client } }
      taken := w.taken ++ [⟨client, server, message⟩] } := by
  have hidle := h.idle server s hs hpending
  refine ⟨h.distinct, fun id => ?_, fun id t ht hnone => ?_, fun id t i ht hsome => ?_, fun i => ?_⟩
  · rw [turnsOf_take]
    by_cases hid : id = server
    · subst hid
      exact ⟨[w.taken.length], Nat.le_refl _, by rw [if_pos rfl, hidle]; rfl⟩
    · rw [if_neg hid, List.append_nil]
      exact h.settled id
  · rw [Table.at?_put] at ht
    rw [turnsOf_take]
    by_cases hid : id = server
    · rw [if_pos hid] at ht
      cases ht
      cases hnone
    · rw [if_neg hid] at ht
      rw [if_neg hid, List.append_nil]
      exact h.idle id t ht hnone
  · rw [Table.at?_put] at ht
    simp only [turnsOf_take, h.repliesTo_take]
    by_cases hid : id = server
    · subst hid
      rw [if_pos rfl] at ht
      cases ht
      cases hsome
      refine ⟨w.taken.length, by rw [if_pos rfl, hidle]; rfl, ?_, fun a ha => ?_⟩
      · simp [asker?]
      · exact lt_of_mem_turnsOf (h.turn_mem (List.mem_filter.mp ha).1)
    · rw [if_neg hid] at ht
      obtain ⟨turn, hturns, hasker, hlater⟩ := h.busy id t i ht hsome
      have hmem : turn ∈ w.turnsOf id := by simp [hturns]
      have hturn := lt_of_mem_turnsOf hmem
      refine ⟨turn, ?_, (asker?_take _ _ _ hturn).trans hasker, hlater⟩
      rw [if_neg hid, List.append_nil]
      exact hturns
  · rw [h.repliesTo_take]
    exact h.rising i

theorem Queues.accepted_of_asker (h : Queues w) {turn : Nat} (hturn : turn ∈ w.turnsOf server)
    (hasker : w.asker? turn = some client) :
    ∃ q ∈ w.accepted, q.client = client ∧ q.server = server := by
  obtain ⟨q, hq, hserver⟩ := mem_turnsOf.mp hturn
  rw [asker?, hq] at hasker
  exact ⟨q, h.accepted_of_taken (List.mem_of_getElem? hq), Option.some.inj hasker, hserver⟩

/-- The request that a server answers is the one that it took last. -/
theorem Turns.turn_of_pending (h : Turns w) {s : Server}
    (hs : w.exchange.servers.at? server = some s) (hpending : s.pending = some client) :
    w.turnsOf server =
        (w.answersBy server).map Answer.turn ++ [(w.turnsOf server).getLastD 0] ∧
      w.asker? ((w.turnsOf server).getLastD 0) = some client ∧
      ∀ a ∈ w.repliesTo client, a.turn < (w.turnsOf server).getLastD 0 := by
  obtain ⟨turn, hturns, hasker, hlater⟩ := h.busy server s client hs hpending
  have hlast : (w.turnsOf server).getLastD 0 = turn := by rw [hturns, List.getLastD_concat]
  rw [hlast]
  exact ⟨hturns, hasker, hlater⟩

theorem Turns.not_answered (h : Turns w) {turn : Nat}
    (hturns : w.turnsOf server = (w.answersBy server).map Answer.turn ++ [turn]) :
    turn ∉ w.answers.map Answer.turn := by
  intro hanswered
  obtain ⟨a, ha, rfl⟩ := List.mem_map.mp hanswered
  obtain ⟨q, hq, hserver⟩ := mem_turnsOf.mp (h.turn_mem ha)
  have hmem : a.turn ∈ w.turnsOf server := by simp [hturns]
  obtain ⟨q', hq', hserver'⟩ := mem_turnsOf.mp hmem
  cases hq.symm.trans hq'
  -- The answer in this turn would be one of this server, which has none.
  have hmine : a.turn ∈ (w.answersBy server).map Answer.turn :=
    List.mem_map_of_mem
      (List.mem_filter.mpr ⟨ha, decide_eq_true (hserver.symm.trans hserver')⟩)
  have hnodup := (turnsOf_rising w server).imp Nat.ne_of_lt
  rw [hturns] at hnodup
  exact (List.nodup_append.mp hnodup).2.2 _ hmine _ List.mem_cons_self rfl

/-- No two servers that are there have taken requests of one client. -/
theorem Queues.server_of_asker (h : Queues w) (hhomes : Homes w) {id turn turn' : Nat}
    (hturn : turn ∈ w.turnsOf server) (hturn' : turn' ∈ w.turnsOf id)
    (hasker : w.asker? turn = some client) (hasker' : w.asker? turn' = some client)
    (hthere : (w.exchange.servers.at? server).isSome)
    (hthere' : (w.exchange.servers.at? id).isSome) : id = server := by
  obtain ⟨q, hq, hclient, rfl⟩ := h.accepted_of_asker hturn hasker
  obtain ⟨q', hq', hclient', rfl⟩ := h.accepted_of_asker hturn' hasker'
  exact hhomes.single q' hq' q hq (hclient'.trans hclient.symm) hthere' hthere

/-- **A server answers** the request that it took last, and has none in hand then. Whatever becomes
of the reply, no other server has a request of the same client in hand. -/
theorem Turns.reply (h : Turns w) (hqueues : Queues w) (hhomes : Homes w) {x : Exchange}
    {s : Server} {message : Bytes} {sent : Bool} (hs : w.exchange.servers.at? server = some s)
    (hpending : s.pending = some client)
    (hservers : ∀ id t, x.servers.at? id = some t → ∃ s', w.exchange.servers.at? id = some s' ∧
      s'.requests = t.requests ∧ t.pending = if id = server then none else s'.pending) :
    Turns { w with
      exchange := x
      answers := w.answers ++ [⟨server, (w.turnsOf server).getLastD 0, message, sent⟩] } := by
  obtain ⟨hturns, hasker, hlater⟩ := h.turn_of_pending hs hpending
  generalize (w.turnsOf server).getLastD 0 = turn at hturns hasker hlater
  have hanswered (id : Nat) :
      (answersBy { w with
        exchange := x, answers := w.answers ++ [⟨server, turn, message, sent⟩] } id).map
          Answer.turn =
        (w.answersBy id).map Answer.turn ++ if id = server then [turn] else [] := by
    rw [answersBy_append, List.map_append]
    by_cases hid : id = server <;> simp [hid]
  have hto := repliesTo_append w x (a := ⟨server, turn, message, sent⟩) hasker
  refine ⟨?_, fun id => ?_, fun id t ht hnone => ?_, fun id t i ht hsome => ?_, fun i => ?_⟩
  · rw [List.map_append]
    refine List.nodup_append.mpr ⟨h.distinct, by simp, fun k hk k' hk' heq => ?_⟩
    have hk' : k' = turn := List.mem_singleton.mp hk'
    exact h.not_answered hturns (hk' ▸ heq ▸ hk)
  · rw [hanswered]
    by_cases hid : id = server
    · subst hid
      exact ⟨[], Nat.zero_le _, by rw [if_pos rfl, List.append_nil]; exact hturns⟩
    · rw [if_neg hid, List.append_nil]
      exact h.settled id
  · obtain ⟨s', hs', -, hpending'⟩ := hservers id t ht
    rw [hanswered]
    by_cases hid : id = server
    · subst hid
      rw [if_pos rfl]
      exact hturns
    · rw [if_neg hid] at hpending' ⊢
      rw [List.append_nil]
      exact h.idle id s' hs' (hpending'.symm.trans hnone)
  · obtain ⟨s', hs', -, hpending'⟩ := hservers id t ht
    by_cases hid : id = server
    · rw [if_pos hid] at hpending'
      cases hpending'.symm.trans hsome
    · rw [if_neg hid] at hpending'
      obtain ⟨turn', hturns', hasker', hlater'⟩ :=
        h.busy id s' i hs' (hpending'.symm.trans hsome)
      have hi : i ≠ client := by
        rintro rfl
        exact hid (hqueues.server_of_asker hhomes (by simp [hturns]) (by simp [hturns']) hasker
          hasker' (by simp [hs]) (by simp [hs']))
      refine ⟨turn', ?_, hasker', ?_⟩
      · rw [hanswered, if_neg hid, List.append_nil]
        exact hturns'
      · rw [hto, if_neg (fun hmine => hi hmine.2), List.append_nil]
        exact hlater'
  · rw [hto]
    split
    · next hmine =>
      obtain ⟨-, rfl⟩ := hmine
      rw [List.map_append, List.pairwise_append]
      refine ⟨h.rising i, List.pairwise_singleton .., fun k hk k' hk' => ?_⟩
      obtain ⟨a, ha, rfl⟩ := List.mem_map.mp hk
      rw [List.mem_singleton.mp hk']
      exact hlater a ha
    · rw [List.append_nil]
      exact h.rising i

/-- **An act keeps the turns.** -/
theorem Turns.step (h : Turns w) (hqueues : Queues w) (hhomes : Homes w) (hstep : Step w act w') :
    Turns w' := by
  cases hstep with
  | rest _ => exact h
  | serve address limit depth _ =>
    refine h.congr rfl rfl fun id t ht => ?_
    rw [Table.at?_put] at ht
    by_cases hid : id = w.exchange.nextServer
    · subst hid
      rw [if_pos rfl] at ht
      cases ht
      refine .inr ⟨rfl, List.eq_nil_iff_forall_not_mem.mpr fun turn hturn => ?_⟩
      obtain ⟨q, hq, hserver⟩ := mem_turnsOf.mp hturn
      have hnumber := hqueues.numbered q (hqueues.accepted_of_taken (List.mem_of_getElem? hq))
      exact Nat.ne_of_lt hnumber hserver
    · rw [if_neg hid] at ht
      exact .inl ⟨t, ht, rfl⟩
  | retire server =>
    refine h.congr rfl rfl fun id t ht => ?_
    rw [at?_servers_retire] at ht
    split at ht
    · cases ht
    · exact .inl ⟨t, ht, rfl⟩
  | connect address limit => exact h.congr rfl rfl fun _ t ht => .inl ⟨t, ht, rfl⟩
  | disconnect client => exact h.congr rfl rfl fun _ t ht => .inl ⟨t, ht, rfl⟩
  | find client c _ => exact h.congr rfl rfl fun _ t ht => .inl ⟨t, ht, rfl⟩
  | refuse client c _ _ => exact h.congr rfl rfl fun _ t ht => .inl ⟨t, ht, rfl⟩
  | forget client found c _ _ _ _ => exact h.congr rfl rfl fun _ t ht => .inl ⟨t, ht, rfl⟩
  | accept client found c s message _ _ hs =>
    refine h.congr rfl rfl fun id t ht => .inl ?_
    rw [Table.at?_put] at ht
    by_cases hid : id = found
    · rw [if_pos hid] at ht
      cases ht
      exact ⟨s, hid ▸ hs, rfl⟩
    · rw [if_neg hid] at ht
      exact ⟨t, ht, rfl⟩
  | take server client s message requests hs hpending _ => exact h.take hs hpending
  | reply server client s message sent x hs hpending hplaced =>
    exact h.reply hqueues hhomes hs hpending fun id t ht => exists_server_of_placed hs hplaced ht
  | collect client c _ => exact h.congr rfl rfl fun _ t ht => .inl ⟨t, ht, rfl⟩

/-- A server that owes an answer takes no request, and one that owes none cannot answer. -/
theorem Turns.alternate (h : Turns w) (message : Bytes)
    (hthere : (w.exchange.servers.at? server).isSome) :
    if (w.answersBy server).length < (w.turnsOf server).length then
      w.exchange.takeRequest server = (.error (.transport .unanswered), w.exchange)
    else w.exchange.reply server message = (.error (.transport .nothingToAnswer), w.exchange) := by
  obtain ⟨s, hs⟩ := Option.isSome_iff_exists.mp hthere
  cases hpending : s.pending with
  | none =>
    have hlength := congrArg List.length (h.idle server s hs hpending)
    rw [List.length_map] at hlength
    rw [if_neg (by omega)]
    simp only [Exchange.reply, hs, hpending]
  | some client =>
    obtain ⟨turn, hturns, -⟩ := h.busy server s client hs hpending
    have hlength := congrArg List.length hturns
    rw [List.length_append, List.length_map, List.length_singleton] at hlength
    rw [if_pos (by omega)]
    simp only [takeRequest, hs, hpending, Option.isSome_some, if_true]

end Turns

end Correspondence

end Stepcast
