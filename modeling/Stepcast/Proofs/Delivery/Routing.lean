import Stepcast.Proofs.Delivery.Turns

/-!
# Who gets which reply

`Mailings`: the replies that were sent to a client are those that it collected and the one that
waits for it, in order. With `Queues`, `Homes` and `Turns` it is an invariant of whatever servers
and clients do, so a reply goes to the client that asked for it.

Main statements: `Mailings.step`, `Correspondence.routed_run`.
-/

namespace Stepcast

open Exchange

namespace Correspondence

/-- What was sent to a client is what it collected and what waits for it, in order. What a client
left behind and what came after that nobody gets. -/
def Mailings (w : Correspondence) : Prop :=
  ∀ client, ∃ missed, (w.repliesTo client).map Answer.reply =
      w.collectedBy client ++ (w.exchange.waiting client).toList ++ missed ∧
    ((w.exchange.clients.at? client).isSome → missed = [])

section Mailings

variable {w w' : Correspondence} {act : Act} {server client : Nat}

theorem Mailings.congr (h : Mailings w) (hreplies : ∀ i, w'.repliesTo i = w.repliesTo i)
    (hcollected : w'.collected = w.collected)
    (hwaiting : ∀ i, w'.exchange.waiting i = w.exchange.waiting i)
    (hthere : ∀ i, (w'.exchange.clients.at? i).isSome → (w.exchange.clients.at? i).isSome) :
    Mailings w' := by
  intro i
  obtain ⟨missed, hreply, hnone⟩ := h i
  refine ⟨missed, ?_, fun hi => hnone (hthere i hi)⟩
  rw [hreplies, collectedBy, hcollected, hwaiting]
  exact hreply

theorem Mailings.quiet (h : Mailings w) (hreplies : ∀ i, w'.repliesTo i = w.repliesTo i)
    (hcollected : w'.collected = w.collected) (hquiet : Quiet w.exchange w'.exchange) :
    Mailings w' :=
  h.congr hreplies hcollected hquiet.waiting fun i hi => hquiet.isSome i ▸ hi

theorem collectedBy_append (w : Correspondence) (x : Exchange) (reply : Option Bytes)
    (client i : Nat) :
    collectedBy { w with
      exchange := x, collected := w.collected ++ reply.toList.map (fun m => (client, m)) } i =
      w.collectedBy i ++ if i = client then reply.toList else [] := by
  by_cases hi : i = client
  · cases reply <;> simp [collectedBy, hi]
  · cases reply <;> simp [collectedBy, hi, Ne.symm hi]

/-- Nothing was ever sent to a client that has not come. -/
theorem Turns.repliesTo_fresh (h : Turns w) (hqueues : Queues w) (hhomes : Homes w) :
    w.repliesTo w.exchange.nextClient = [] := by
  refine List.filter_eq_nil_iff.mpr fun a ha hmine => ?_
  obtain ⟨-, hasker⟩ := of_decide_eq_true hmine
  obtain ⟨q, hq, hclient, -⟩ := hqueues.accepted_of_asker (h.turn_mem ha) hasker
  exact Nat.ne_of_lt (hhomes.numbered q hq) hclient

theorem Mailings.connect (h : Mailings w) (hcome : Numbered w.exchange)
    (hfresh : w.repliesTo w.exchange.nextClient = []) (address : String) (limit : Duration) :
    Mailings { w with exchange := (w.exchange.connect address limit).2 } := by
  intro i
  obtain ⟨missed, hreply, hnone⟩ := h i
  have hnew : w.exchange.clients.at? w.exchange.nextClient = none := by
    rw [← Option.not_isSome_iff_eq_none]
    exact fun hthere => Nat.lt_irrefl _ (hcome _ hthere)
  obtain ⟨-, -, hthere, hwaiting, -⟩ :=
    connect_spec hnew (Prod.eta (w.exchange.connect address limit)).symm
  refine ⟨missed, (by rw [hwaiting]; exact hreply), fun hi => ?_⟩
  rcases (hthere i).mp hi with rfl | hi
  · rw [hfresh, List.map_nil] at hreply
    exact (List.append_eq_nil_iff.mp hreply.symm).2
  · exact hnone hi

/-- **A client leaves**, and misses the reply that waits for it. -/
theorem Mailings.disconnect (h : Mailings w) (client : Nat) :
    Mailings { w with exchange := w.exchange.disconnect client } := by
  intro i
  obtain ⟨missed, hreply, hnone⟩ := h i
  by_cases hi : i = client
  · subst hi
    refine ⟨(w.exchange.waiting i).toList ++ missed, ?_, fun hthere => ?_⟩
    · rw [waiting_disconnect, if_pos rfl, Option.toList_none, List.append_nil, ← List.append_assoc]
      exact hreply
    · simp [Exchange.disconnect, Table.at?_without] at hthere
  · refine ⟨missed, ?_, fun hthere => hnone ?_⟩
    · rw [waiting_disconnect, if_neg hi]
      exact hreply
    · rwa [Exchange.disconnect, Table.at?_without, if_neg hi] at hthere

/-- **A reply** comes to wait for the client that asked, or it is missed, or it fails. -/
theorem Mailings.reply (h : Mailings w) {x x' : Exchange} {turn : Nat} {message : Bytes}
    {sent : Bool} (hasker : w.asker? turn = some client) (hplaced : Placed x client message sent x')
    (hclients : x.clients = w.exchange.clients) :
    Mailings { w with
      exchange := x', answers := w.answers ++ [⟨server, turn, message, sent⟩] } := by
  have hto := repliesTo_append w x' (a := ⟨server, turn, message, sent⟩) hasker
  have hwaits (i : Nat) : x.waiting i = w.exchange.waiting i := by
    rw [waiting, hclients, waiting]
  intro i
  obtain ⟨missed, hreply, hnone⟩ := h i
  rw [hto, List.map_append, hreply]
  cases hplaced with
  | missed hgone =>
    by_cases hi : i = client
    · subst hi
      refine ⟨missed ++ [message], ?_, fun hthere => ?_⟩
      · simp [hwaits, collectedBy]
      · change (x.clients.at? i).isSome at hthere
        simp [hgone] at hthere
    · refine ⟨missed, ?_, hclients ▸ hnone⟩
      simp [hi, hwaits, collectedBy]
  | refused c hc _ =>
    refine ⟨missed, ?_, hclients ▸ hnone⟩
    simp [hwaits, collectedBy]
  | delivered c hc hfree =>
    have hwaiting : ∀ i,
        waiting { x with clients := x.clients.put client { c with reply := some message } } i =
          if i = client then some message else x.waiting i := waiting_of_put rfl rfl
    refine ⟨missed, ?_, fun hthere => hnone ?_⟩
    · rw [hwaiting]
      by_cases hi : i = client
      · subst hi
        have hmissed : missed = [] := hnone (by rw [← hclients, hc]; rfl)
        have hnothing : w.exchange.waiting i = none := by rw [← hwaits, waiting, hc]; exact hfree
        simp [hmissed, hnothing, collectedBy]
      · simp [hi, hwaits, collectedBy]
    · rwa [Table.isSome_at?_put hc, hclients] at hthere

/-- **A client collects** the reply that waits for it. -/
theorem Mailings.collect (h : Mailings w) {c : Client}
    (hc : w.exchange.clients.at? client = some c) :
    Mailings { w with
      exchange := { w.exchange with
        clients := w.exchange.clients.put client { c with reply := none } }
      collected := w.collected ++ c.reply.toList.map (fun m => (client, m)) } := by
  intro i
  obtain ⟨missed, hreply, hnone⟩ := h i
  refine ⟨missed, ?_, fun hthere => hnone ?_⟩
  · rw [collectedBy_append, waiting_of_put rfl rfl]
    by_cases hi : i = client
    · subst hi
      rw [if_pos rfl, if_pos rfl, Option.toList_none, List.append_nil]
      rwa [waiting, hc] at hreply
    · rw [if_neg hi, if_neg hi, List.append_nil]
      exact hreply
  · rwa [Table.isSome_at?_put hc] at hthere

/-- **An act keeps the mailings.** -/
theorem Mailings.step (h : Mailings w) (hqueues : Queues w) (hhomes : Homes w) (hturns : Turns w)
    (hstep : Step w act w') : Mailings w' := by
  cases hstep with
  | rest _ => exact h
  | serve address limit depth _ => exact h.quiet (fun _ => rfl) rfl (quiet_of_eq rfl rfl)
  | retire server => exact h.quiet (fun _ => rfl) rfl (quiet_retire ..)
  | connect address limit =>
    exact h.connect hhomes.come (hturns.repliesTo_fresh hqueues hhomes) address limit
  | disconnect client => exact h.disconnect client
  | find client c hc => exact h.quiet (fun _ => rfl) rfl (quiet_of_put hc rfl rfl rfl)
  | refuse client c _ hc => exact h.quiet (fun _ => rfl) rfl (quiet_of_put hc rfl rfl rfl)
  | forget client found c _ hc _ _ =>
    exact h.quiet (fun _ => rfl) rfl (quiet_of_put hc rfl rfl rfl)
  | accept client found c s message hc _ _ =>
    exact h.quiet (fun _ => rfl) rfl (quiet_of_put hc rfl rfl rfl)
  | take server client s message requests _ _ _ =>
    exact h.quiet (hturns.repliesTo_take _ _) rfl (quiet_of_eq rfl rfl)
  | reply server client s message sent x hs hpending hplaced =>
    exact h.reply (hturns.turn_of_pending hs hpending).2.1 hplaced rfl
  | collect client c hc => exact h.collect hc

/-- Requests and replies go where they belong. -/
structure Routed (w : Correspondence) : Prop where
  queues : Queues w
  homes : Homes w
  turns : Turns w
  mailings : Mailings w

theorem routed_empty : Routed {} where
  queues := ⟨nofun, nofun, fun _ => List.nil_prefix, nofun⟩
  homes := ⟨nofun, nofun, nofun, nofun⟩
  turns := ⟨List.nodup_nil, fun _ => ⟨[], Nat.zero_le _, rfl⟩, nofun, nofun,
    fun _ => List.Pairwise.nil⟩
  mailings := fun _ => ⟨[], rfl, fun _ => rfl⟩

theorem Routed.perform (h : Routed w) (act : Act) : Routed (w.perform act) :=
  have hstep := step_perform w act
  { queues := h.queues.step hstep
    homes := h.homes.step h.queues hstep
    turns := h.turns.step h.queues h.homes hstep
    mailings := h.mailings.step h.queues h.homes h.turns hstep }

theorem Routed.foldl (h : Routed w) (acts : List Act) :
    Routed (acts.foldl Correspondence.perform w) := by
  induction acts generalizing w with
  | nil => exact h
  | cons act rest ih => exact ih (h.perform act)

theorem routed_of_run (acts : List Act) : Routed (run acts) := routed_empty.foldl acts

end Mailings

/-- **Every reply goes to the client that asked for it**, whoever comes and goes and however the
acts of servers and clients interleave. A server takes the requests that were accepted for it, one
after the other and each once. It answers them in the order in which it takes them, at most one is
not answered, and none is answered twice. The replies that were sent to a client answer requests of
its own, in the order in which these were taken. They are the replies that it collects, and the one
that waits for it, in order; only a client that has left misses some. A server that has not answered
takes no other request, one that has answered cannot answer again, and neither changes anything. -/
theorem routed_run (acts : List Act) :
    let w := run acts
    (∀ server, w.takenBy server <+: w.requestsTo server ∧
      ∀ s, w.exchange.servers.at? server = some s →
        w.requestsTo server = w.takenBy server ++ s.requests.map (fun r => ⟨r.2, server, r.1⟩)) ∧
    (w.answers.map Answer.turn).Nodup ∧
    (∀ server, ∃ owed, owed.length ≤ 1 ∧
      w.turnsOf server = (w.answersBy server).map Answer.turn ++ owed) ∧
    (∀ client, ((w.repliesTo client).map Answer.turn).Pairwise (· < ·) ∧
      (∀ a ∈ w.repliesTo client, ∃ q ∈ w.accepted, q.client = client ∧ q.server = a.server ∧
        w.taken[a.turn]? = some q) ∧
      ∃ missed, (w.repliesTo client).map Answer.reply =
          w.collectedBy client ++ (w.exchange.waiting client).toList ++ missed ∧
        ((w.exchange.clients.at? client).isSome → missed = [])) ∧
    ∀ server message, (w.exchange.servers.at? server).isSome →
      if (w.answersBy server).length < (w.turnsOf server).length then
        w.exchange.takeRequest server = (.error (.transport .unanswered), w.exchange)
      else
        w.exchange.reply server message =
          (.error (.transport .nothingToAnswer), w.exchange) := by
  intro w
  obtain ⟨hqueues, -, hturns, hmailings⟩ := routed_of_run acts
  refine ⟨fun server => ⟨hqueues.order server, hqueues.queue server⟩, hturns.distinct,
    hturns.settled, fun client => ⟨hturns.rising client, fun a ha => ?_, hmailings client⟩,
    fun server message hthere => hturns.alternate message hthere⟩
  obtain ⟨hanswer, hmine⟩ := List.mem_filter.mp ha
  obtain ⟨-, hasker⟩ := of_decide_eq_true hmine
  obtain ⟨q, hq, hserver⟩ := mem_turnsOf.mp (hturns.turn_mem hanswer)
  rw [asker?, hq] at hasker
  exact ⟨q, hqueues.accepted_of_taken (List.mem_of_getElem? hq), Option.some.inj hasker, hserver,
    hq⟩

/-- Two clients ask one server. The second request of the first client is answered before it has
collected the reply to its first one, and that fails. -/
def sampleActs : List Act :=
  [.serve "a" .zero 2, .connect "a" .zero, .connect "a" .zero, .find 1, .request 0 [1],
    .request 1 [2], .take 0, .reply 0 [10], .request 0 [3], .take 0, .reply 0 [20], .take 0,
    .reply 0 [30], .collect 0, .collect 1]

/-- Each client gets its reply. The third answer is lost, and there is nothing more to answer. -/
theorem routed_run_sample :
    let w := run sampleActs
    w.accepted = [⟨0, 0, [1]⟩, ⟨1, 0, [2]⟩, ⟨0, 0, [3]⟩] ∧
    w.answers = [⟨0, 0, [10], true⟩, ⟨0, 1, [20], true⟩, ⟨0, 2, [30], false⟩] ∧
    (w.repliesTo 1).map Answer.reply = w.collectedBy 1 ∧ w.collectedBy 1 = [[20]] ∧
    w.exchange.reply 0 [40] = (.error (.transport .nothingToAnswer), w.exchange) := by
  intro w
  obtain ⟨-, -, -, hclients, hservers⟩ := routed_run sampleActs
  obtain ⟨-, -, missed, hreplies, hnone⟩ := hclients 1
  refine ⟨by decide +kernel, by decide +kernel, ?_, by decide +kernel, ?_⟩
  · have hthere : (w.exchange.clients.at? 1).isSome := by decide +kernel
    have hwaiting : w.exchange.waiting 1 = none := by decide +kernel
    rw [hreplies, hnone hthere]
    change w.collectedBy 1 ++ (w.exchange.waiting 1).toList ++ [] = _
    rw [hwaiting, Option.toList_none, List.append_nil, List.append_nil]
  · have hserver := hservers 0 [40] (by decide +kernel)
    rwa [if_neg (by decide +kernel)] at hserver

end Correspondence

end Stepcast
