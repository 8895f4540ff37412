import Stepcast.Proofs.Delivery.Routing
import Stepcast.Session.Traffic

/-!
# Servers that vanish

When a server leaves, the requests that it has not answered are lost, and nobody tells the clients
that sent them. Such a client gets the replies that were sent to it before, and then it is told that
there is no reply yet, for as long as it waits. A link that waits for the reply asks no more and is
never lost. Only a client that asks again is told that its server is gone.

The invariant, `Forsaken`, says that all servers that have requests of the client are gone, which
stays so as long as it sends no other, and that it still takes the one that left for its server.

Main statements: `Correspondence.Forsaken.step`, `Correspondence.vanished_run`,
`Session.vanished_server_unnoticed`.
-/

namespace Stepcast

open Exchange

namespace Correspondence

/-- The server that the client knows is gone, and so are all servers that have requests of it. These
replies were sent to it. -/
structure Forsaken (w : Correspondence) (server client : Nat) (replies : List Answer) : Prop where
  gone : w.exchange.servers.at? server = none
  number : server < w.exchange.nextServer
  come : client < w.exchange.nextClient
  unserved : ∀ q ∈ w.accepted, q.client = client → w.exchange.servers.at? q.server = none
  known : ∀ c, w.exchange.clients.at? client = some c → c.server = some server
  replies : w.repliesTo client = replies

section Vanishing

variable {w w' : Correspondence} {act : Act} {server client : Nat} {replies : List Answer}

theorem gone_of_put {x : Exchange} {id : Nat} {s t : Server} (hs : x.servers.at? server = some s)
    (hgone : x.servers.at? id = none) : (x.servers.put server t).at? id = none := by
  rw [← Option.not_isSome_iff_eq_none, Table.isSome_at?_put hs, hgone]
  exact Bool.false_ne_true

/-- No server comes back, the client knows the one that it knew, and nothing is sent to it. -/
theorem Forsaken.congr (h : Forsaken w server client replies) (hqueues : Queues w)
    (haccepted : ∀ q ∈ w'.accepted, q.client = client → q ∈ w.accepted)
    (hreplies : w'.repliesTo client = w.repliesTo client)
    (hnext : w.exchange.nextServer ≤ w'.exchange.nextServer)
    (hcome : w.exchange.nextClient ≤ w'.exchange.nextClient)
    (hservers : ∀ id < w.exchange.nextServer, w.exchange.servers.at? id = none →
      w'.exchange.servers.at? id = none)
    (hknown : ∀ c', w'.exchange.clients.at? client = some c' →
      ∃ c, w.exchange.clients.at? client = some c ∧
        (c.server = some server → c'.server = some server)) :
    Forsaken w' server client replies where
  gone := hservers server h.number h.gone
  number := Nat.lt_of_lt_of_le h.number hnext
  come := Nat.lt_of_lt_of_le h.come hcome
  unserved := fun q hq hclient =>
    have hold := haccepted q hq hclient
    hservers q.server (hqueues.numbered q hold) (h.unserved q hold hclient)
  known := fun c' hc' =>
    have ⟨c, hc, hserver⟩ := hknown c' hc'
    hserver (h.known c hc)
  replies := hreplies.trans h.replies

theorem Forsaken.congr_put (h : Forsaken w server client replies) (hqueues : Queues w) {i : Nat}
    {c c' : Client} (hc : w.exchange.clients.at? i = some c)
    (haccepted : ∀ q ∈ w'.accepted, q.client = client → q ∈ w.accepted)
    (hreplies : w'.repliesTo client = w.repliesTo client)
    (hservers : ∀ id, w.exchange.servers.at? id = none → w'.exchange.servers.at? id = none)
    (hnextServer : w'.exchange.nextServer = w.exchange.nextServer)
    (hnextClient : w'.exchange.nextClient = w.exchange.nextClient)
    (hclients : w'.exchange.clients = w.exchange.clients.put i c')
    (hknows : client = i → c.server = some server → c'.server = some server) :
    Forsaken w' server client replies := by
  refine h.congr hqueues haccepted hreplies (Nat.le_of_eq hnextServer.symm)
    (Nat.le_of_eq hnextClient.symm) (fun id _ => hservers id) fun t ht => ?_
  rw [hclients, Table.at?_put] at ht
  by_cases hi : client = i
  · rw [if_pos hi] at ht
    cases ht
    exact ⟨c, hi ▸ hc, hknows hi⟩
  · rw [if_neg hi] at ht
    exact ⟨t, ht, id⟩

/-- No server that is there has a request of the client in hand. -/
theorem Forsaken.asker_ne (h : Forsaken w server client replies) (hqueues : Queues w)
    {id turn i : Nat} (hthere : (w.exchange.servers.at? id).isSome) (hturn : turn ∈ w.turnsOf id)
    (hasker : w.asker? turn = some i) : client ≠ i := by
  rintro rfl
  obtain ⟨q, hq, hclient, rfl⟩ := hqueues.accepted_of_asker hturn hasker
  rw [h.unserved q hq hclient] at hthere
  cases hthere

/-- **An act keeps the client forsaken**, unless it is a request of its own. -/
theorem Forsaken.step (h : Forsaken w server client replies) (hqueues : Queues w) (hturns : Turns w)
    (hstep : Step w act w') (hact : ∀ message, act ≠ .request client message) :
    Forsaken w' server client replies := by
  have hother {i : Nat} {message : Bytes} (heq : act = .request i message) : client ≠ i := by
    rintro rfl
    exact hact message heq
  cases hstep with
  | rest _ => exact h
  | serve address limit depth _ =>
    refine h.congr hqueues (fun _ hq _ => hq) rfl (Nat.le_succ _) (Nat.le_refl _)
      (fun id hid hgone => ?_) fun c hc => ⟨c, hc, id⟩
    exact (Table.at?_put_of_ne (Nat.ne_of_lt hid) ..).trans hgone
  | retire k =>
    refine h.congr hqueues (fun _ hq _ => hq) rfl (Nat.le_of_eq (nextServer_retire ..).symm)
      (Nat.le_of_eq (nextClient_retire ..).symm) (fun i _ hgone => ?_) fun c hc => ⟨c, ?_, id⟩
    · rw [at?_servers_retire, hgone, ite_self]
    · exact clients_retire w.exchange _ ▸ hc
  | connect address limit =>
    refine h.congr hqueues (fun _ hq _ => hq) rfl (Nat.le_refl _) (Nat.le_succ _)
      (fun _ _ => id) fun c hc => ⟨c, ?_, id⟩
    exact (Table.at?_put_of_ne (Nat.ne_of_lt h.come) ..).symm.trans hc
  | disconnect i =>
    refine h.congr hqueues (fun _ hq _ => hq) rfl (Nat.le_refl _) (Nat.le_refl _)
      (fun _ _ => id) fun c hc => ⟨c, ?_, id⟩
    simp only [Exchange.disconnect, Table.at?_without] at hc
    split at hc
    · cases hc
    · exact hc
  | find i c hc =>
    exact h.congr_put hqueues hc (fun _ hq _ => hq) rfl (fun _ => id) rfl rfl rfl
      fun _ hserver => found?_of_server hc hserver
  | refuse i c message hc =>
    exact h.congr_put hqueues hc (fun _ hq _ => hq) rfl (fun _ => id) rfl rfl rfl
      fun hi => absurd hi (hother rfl)
  | forget i found c message hc _ _ =>
    exact h.congr_put hqueues hc (fun _ hq _ => hq) rfl (fun _ => id) rfl rfl rfl
      fun hi => absurd hi (hother rfl)
  | accept i found c s message hc _ hs =>
    refine h.congr_put hqueues hc (fun q hq hclient => ?_) rfl (fun _ => gone_of_put hs) rfl rfl rfl
      fun hi => absurd hi (hother rfl)
    rcases List.mem_append.mp hq with hq | hq
    · exact hq
    · rw [List.mem_singleton.mp hq] at hclient
      exact absurd hclient.symm (hother rfl)
  | take k i s message requests hs _ _ =>
    exact h.congr hqueues (fun _ hq _ => hq) (hturns.repliesTo_take ..) (Nat.le_refl _)
      (Nat.le_refl _) (fun _ _ => gone_of_put hs) fun c hc => ⟨c, hc, id⟩
  | reply k i s message sent x hs hpending hplaced =>
    obtain ⟨hanswered, hasker, -⟩ := hturns.turn_of_pending hs hpending
    have hi : client ≠ i :=
      h.asker_ne hqueues (by rw [hs]; rfl) (by rw [hanswered]; simp) hasker
    have hreplies := (repliesTo_append w x
      (a := ⟨k, (w.turnsOf k).getLastD 0, message, sent⟩) hasker client).trans
        (by rw [if_neg (fun hmine => hi hmine.2), List.append_nil])
    cases hplaced with
    | missed _ =>
      exact h.congr hqueues (fun _ hq _ => hq) hreplies (Nat.le_refl _) (Nat.le_refl _)
        (fun _ _ => gone_of_put hs) fun c hc => ⟨c, hc, id⟩
    | refused _ _ _ =>
      exact h.congr hqueues (fun _ hq _ => hq) hreplies (Nat.le_refl _) (Nat.le_refl _)
        (fun _ _ => gone_of_put hs) fun c hc => ⟨c, hc, id⟩
    | delivered c hc _ =>
      exact h.congr_put hqueues hc (fun _ hq _ => hq) hreplies (fun _ => gone_of_put hs) rfl rfl
        rfl fun _ hserver => hserver
  | collect i c hc =>
    exact h.congr_put hqueues hc (fun _ hq _ => hq) rfl (fun _ => id) rfl rfl rfl
      fun _ hserver => hserver

/-- **The server leaves**, and the client that has sent it a request is forsaken. -/
theorem Routed.retire (h : Routed w) {q : Inquiry} (hq : q ∈ w.accepted)
    (hclient : q.client = client) (hserver : q.server = server)
    (hthere : (w.exchange.servers.at? server).isSome) :
    Forsaken (w.perform (.retire server)) server client (w.repliesTo client) where
  gone := (at?_servers_retire ..).trans (if_pos rfl)
  number := (nextServer_retire w.exchange server).symm ▸ hserver ▸ h.queues.numbered q hq
  come := (nextClient_retire w.exchange server).symm ▸ hclient ▸ h.homes.numbered q hq
  unserved := fun q' hq' hclient' => by
    refine (at?_servers_retire ..).trans ?_
    by_cases hthere' : (w.exchange.servers.at? q'.server).isSome
    · exact if_pos ((h.homes.single q' hq' q hq (hclient'.trans hclient.symm) hthere'
        (hserver ▸ hthere)).trans hserver)
    · rw [Option.not_isSome_iff_eq_none.mp hthere', ite_self]
  known := fun c hc => by
    change (w.exchange.retire server).clients.at? client = some c at hc
    rw [clients_retire] at hc
    subst hclient hserver
    exact h.homes.known q hq hthere c hc
  replies := rfl

theorem Forsaken.foldl (h : Forsaken w server client replies) (hrouted : Routed w)
    {acts : List Act} (hacts : ∀ message, .request client message ∉ acts) :
    Forsaken (acts.foldl Correspondence.perform w) server client replies := by
  induction acts generalizing w with
  | nil => exact h
  | cons act rest ih =>
    refine ih (h.step hrouted.queues hrouted.turns (step_perform w act) fun message heq => ?_)
      (hrouted.perform act) fun message hmem => hacts message (List.mem_cons_of_mem _ hmem)
    exact hacts message (heq ▸ List.mem_cons_self)

/-- A forsaken client that asks again is told that the server is gone. -/
theorem Forsaken.request (h : Forsaken w server client replies) {c : Client}
    (hc : w.exchange.clients.at? client = some c) (message : Bytes) :
    (w.exchange.request client message).1 = .error (.closed (.replier c.address)) := by
  have hfound : (c.server <|> w.exchange.bound.at? c.address) = some server :=
    (found?_eq hc).symm.trans (found?_of_server hc (h.known c hc))
  simp only [Exchange.request, hc, hfound, h.gone]

end Vanishing

end Correspondence

/-- While there is no reply, a link that waits for one stays as it is. -/
theorem Link.waits_on {l : Link} {n : Network} {client : Nat}
    (hchannel : l.channel = .client client true) (hdone : l.isDone = false)
    (hnone : n.exchange.waiting client = none) :
    l.request n = (l, n) ∧ ∃ n', l.receive n = ([], false, l, n') := by
  have hcollect : (n.exchange.collect client).1 = none :=
    (collect_spec (Prod.eta _).symm).1.trans hnone
  constructor
  · simp only [Link.request, hdone, hchannel]
  · simp only [Link.receive, hdone, hchannel, hcollect]
    exact ⟨_, rfl⟩

namespace Correspondence

/-- **A client whose server vanished is not told**, whatever happened before and whatever happens
after, as long as it sends no other request. It gets the replies that were sent to it before the
server left, and no other. Once it has collected them it is told that there is no reply yet, and a
link that waits for one asks no more and is never lost. Only another request of its own would fail
since the server is gone. -/
theorem vanished_run {before after : List Act} {server client : Nat} {q : Inquiry} {c : Client}
    (hq : q ∈ (run before).accepted) (hclient : q.client = client) (hserver : q.server = server)
    (hthere : ((run before).exchange.servers.at? server).isSome)
    (hafter : ∀ message, .request client message ∉ after)
    (hc : (run (before ++ .retire server :: after)).exchange.clients.at? client = some c) :
    let w := run (before ++ .retire server :: after)
    w.collectedBy client ++ (w.exchange.waiting client).toList =
      ((run before).repliesTo client).map Answer.reply ∧
    (w.exchange.waiting client = none →
      (w.exchange.collect client).1 = none ∧
      ∀ l : Link, l.channel = .client client true → l.isDone = false →
        ∀ n : Network, n.exchange = w.exchange →
          l.request n = (l, n) ∧ ∃ n', l.receive n = ([], false, l, n')) ∧
    ∀ message, (w.exchange.request client message).1 = .error (.closed (.replier c.address)) := by
  have hrun : run (before ++ .retire server :: after) =
      after.foldl perform ((run before).perform (.retire server)) := List.foldl_append ..
  have hbefore := routed_of_run before
  have hforsaken := (hbefore.retire hq hclient hserver hthere).foldl
    (hbefore.perform (.retire server)) hafter
  rw [← hrun] at hforsaken
  intro w
  obtain ⟨missed, hreplies, hnone⟩ :=
    (routed_of_run (before ++ .retire server :: after)).mailings client
  rw [hforsaken.replies, hnone (by rw [hc]; rfl), List.append_nil] at hreplies
  refine ⟨hreplies.symm, fun hwaiting => ⟨?_, fun l hchannel hdone n hn => ?_⟩,
    hforsaken.request hc⟩
  · exact (collect_spec (Prod.eta _).symm).1.trans hwaiting
  · exact Link.waits_on hchannel hdone (hn ▸ hwaiting)

/-- The server answers the first of two requests and leaves. -/
def unansweredActs : List Act :=
  [.serve "a" .zero 1, .connect "a" .zero, .request 0 [1], .take 0, .reply 0 [10], .request 0 [2]]

/-- Another server takes its place, and the client looks for a reply. -/
def laterActs : List Act := [.serve "a" .zero 1, .find 0, .collect 0, .collect 0]

theorem vanished_run_sample :
    let w := run (unansweredActs ++ .retire 0 :: laterActs)
    w.collectedBy 0 = [[10]] ∧ (w.exchange.collect 0).1 = none ∧
    ∀ message, (w.exchange.request 0 message).1 = .error (.closed (.replier "a")) := by
  intro w
  have hc : w.exchange.clients.at? 0 =
      some { address := "a", limit := .zero, server := some 0 } := by decide +kernel
  have hwaiting : w.exchange.waiting 0 = none := by rw [waiting, hc]; rfl
  have hasked : ⟨0, 0, [2]⟩ ∈ (run unansweredActs).accepted := by decide +kernel
  obtain ⟨hreplies, hnothing, hasking⟩ :=
    vanished_run hasked rfl rfl (by decide +kernel) (by simp [laterActs]) hc
  refine ⟨?_, (hnothing hwaiting).1, hasking⟩
  change w.collectedBy 0 ++ (w.exchange.waiting 0).toList = _ at hreplies
  rw [hwaiting, Option.toList_none, List.append_nil] at hreplies
  rw [hreplies]
  decide +kernel

end Correspondence

namespace Session

/-- A client and a reader send requests to a server, which accepts them and leaves. Gives what the
client is told when it receives, and the reader when it begins a step. -/
def forsake? (now : Moment) (limit : Duration) :
    Option (Except Fault (Option Bytes) × Except Fault (StepStatus × Option UInt64)) := do
  let settings : Settings := { address := some "a", delivery := .reliable }
  let (s, .ok ()) ← ({} : Session).enterServer? "s" "a" limit 4 now | none
  let s ← s.enterClient? "c" "a" limit now
  let (s, .ok ()) ← s.send? "c" [1] | none
  let (s, .ok ()) ← s.enterReader? "r" "sim" settings 1 [] now | none
  let s ← s.leave? "s" now
  let (s, received) ← s.receive? "c" limit
  let (_, begun) ← s.beginReading? "r" .next limit now
  return (received, begun)

/-- **The client is told that there is no reply yet, and the reader that there is no step.** -/
theorem vanished_server_unnoticed :
    (forsake? ⟨0, 0⟩ (.ofMillis 3000)).map (fun (received, begun) =>
      (received.toOption, begun.toOption)) = some (some none, some (.notReady, none)) := by
  decide +kernel

end Session

end Stepcast
