import Stepcast.Proofs.Delivery.Correspondence

/-!
# Requests at their servers

`Queues`: the requests that a server was sent are those that it has taken and those in its queue, in
order. `Homes`: of the servers that are there at most one has requests of a client, and a client
that is there knows it. So what two servers have in hand never comes from one client.

Main statements: `Queues.step`, `Homes.step`.
-/

namespace Stepcast

open Exchange

namespace Correspondence

/-- What a server was sent is what it took and what is in its queue, in order. -/
structure Queues (w : Correspondence) : Prop where
  come : ∀ server s, w.exchange.servers.at? server = some s → server < w.exchange.nextServer
  numbered : ∀ q ∈ w.accepted, q.server < w.exchange.nextServer
  order : ∀ server, w.takenBy server <+: w.requestsTo server
  queue : ∀ server s, w.exchange.servers.at? server = some s →
    w.requestsTo server = w.takenBy server ++ s.requests.map (fun r => ⟨r.2, server, r.1⟩)

/-- Of the servers that are there at most one has requests of a client, and a client that is there
knows it. -/
structure Homes (w : Correspondence) : Prop where
  come : Numbered w.exchange
  numbered : ∀ q ∈ w.accepted, q.client < w.exchange.nextClient
  known : ∀ q ∈ w.accepted, (w.exchange.servers.at? q.server).isSome →
    ∀ c, w.exchange.clients.at? q.client = some c → c.server = some q.server
  single : ∀ q ∈ w.accepted, ∀ q' ∈ w.accepted, q.client = q'.client →
    (w.exchange.servers.at? q.server).isSome → (w.exchange.servers.at? q'.server).isSome →
    q.server = q'.server

section Requests

variable {w w' : Correspondence} {act : Act} {server client : Nat}

/-! ## Queues -/

theorem at?_servers_retire (x : Exchange) (server q : Nat) :
    (x.retire server).servers.at? q = if q = server then none else x.servers.at? q := by
  unfold Exchange.retire
  cases hs : x.servers.at? server with
  | none =>
    by_cases hq : q = server
    · simp [hq, hs]
    · simp [hq]
  | some s => exact Table.at?_without ..

@[simp] theorem nextServer_retire (x : Exchange) (server : Nat) :
    (x.retire server).nextServer = x.nextServer := by
  unfold Exchange.retire
  split <;> rfl

@[simp] theorem clients_retire (x : Exchange) (server : Nat) :
    (x.retire server).clients = x.clients := by
  unfold Exchange.retire
  split <;> rfl

@[simp] theorem nextClient_retire (x : Exchange) (server : Nat) :
    (x.retire server).nextClient = x.nextClient := by
  unfold Exchange.retire
  split <;> rfl

theorem mem_requestsTo {q : Inquiry} :
    q ∈ w.requestsTo server ↔ q ∈ w.accepted ∧ q.server = server := by
  simp [requestsTo]

theorem Queues.accepted_of_taken (h : Queues w) {q : Inquiry} (hq : q ∈ w.taken) :
    q ∈ w.accepted := by
  have htaken : q ∈ w.takenBy q.server := List.mem_filter.mpr ⟨hq, decide_eq_true rfl⟩
  exact (mem_requestsTo.mp ((h.order q.server).subset htaken)).1

theorem Queues.congr (h : Queues w) (haccepted : w'.accepted = w.accepted)
    (htaken : w'.taken = w.taken) (hnext : w.exchange.nextServer ≤ w'.exchange.nextServer)
    (hservers : ∀ server s', w'.exchange.servers.at? server = some s' →
      ∃ s, w.exchange.servers.at? server = some s ∧ s.requests = s'.requests) : Queues w' := by
  have hrequests (server : Nat) : w'.requestsTo server = w.requestsTo server := by
    rw [requestsTo, haccepted, requestsTo]
  have htakes (server : Nat) : w'.takenBy server = w.takenBy server := by
    rw [takenBy, htaken, takenBy]
  refine ⟨fun server s' hs' => ?_, fun q hq => ?_, fun server => ?_, fun server s' hs' => ?_⟩
  · obtain ⟨s, hs, -⟩ := hservers server s' hs'
    exact Nat.lt_of_lt_of_le (h.come server s hs) hnext
  · exact Nat.lt_of_lt_of_le (h.numbered q (haccepted ▸ hq)) hnext
  · rw [hrequests, htakes]
    exact h.order server
  · obtain ⟨s, hs, heq⟩ := hservers server s' hs'
    rw [hrequests, htakes, ← heq]
    exact h.queue server s hs

theorem Queues.fresh (h : Queues w) : w.requestsTo w.exchange.nextServer = [] ∧
    w.takenBy w.exchange.nextServer = [] := by
  have hrequests : w.requestsTo w.exchange.nextServer = [] := by
    refine List.filter_eq_nil_iff.mpr fun q hq heq => ?_
    exact Nat.ne_of_lt (h.numbered q hq) (of_decide_eq_true heq)
  exact ⟨hrequests, List.prefix_nil.mp (hrequests ▸ h.order _)⟩

theorem Queues.come_put (h : Queues w) {s s' : Server}
    (hs : w.exchange.servers.at? server = some s) {id : Nat} {t : Server}
    (ht : (w.exchange.servers.put server s').at? id = some t) : id < w.exchange.nextServer := by
  rw [Table.at?_put] at ht
  by_cases hid : id = server
  · exact hid ▸ h.come server s hs
  · rw [if_neg hid] at ht
    exact h.come id t ht

theorem Queues.serve (h : Queues w) (address : String) (limit : Duration) (depth : Nat) :
    Queues { w with exchange := { w.exchange with
      bound := w.exchange.bound.put address w.exchange.nextServer
      servers := w.exchange.servers.put w.exchange.nextServer
        { address, limit, capacity := max depth 1 }
      nextServer := w.exchange.nextServer + 1 } } := by
  obtain ⟨hrequests, htakes⟩ := h.fresh
  refine ⟨fun id s hs => ?_, fun q hq => Nat.lt_succ_of_lt (h.numbered q hq), h.order,
    fun id s hs => ?_⟩ <;> rw [Table.at?_put] at hs
  · by_cases hid : id = w.exchange.nextServer
    · exact hid ▸ Nat.lt_succ_self _
    · rw [if_neg hid] at hs
      exact Nat.lt_succ_of_lt (h.come id s hs)
  · by_cases hid : id = w.exchange.nextServer
    · subst hid
      rw [if_pos rfl] at hs
      cases hs
      show w.requestsTo _ = w.takenBy _ ++ []
      rw [hrequests, htakes]
      rfl
    · rw [if_neg hid] at hs
      exact h.queue id s hs

theorem Queues.accept (h : Queues w) {x : Exchange} {s : Server} {message : Bytes}
    (hs : w.exchange.servers.at? server = some s) (hnext : x.nextServer = w.exchange.nextServer)
    (hservers : x.servers = w.exchange.servers.put server
      { s with requests := s.requests ++ [(message, client)] }) :
    Queues { w with exchange := x, accepted := w.accepted ++ [⟨client, server, message⟩] } := by
  have hrequests (id : Nat) :
      requestsTo { w with
        exchange := x, accepted := w.accepted ++ [⟨client, server, message⟩] } id =
      w.requestsTo id ++ if id = server then [⟨client, server, message⟩] else [] := by
    by_cases hid : id = server
    · simp [requestsTo, hid]
    · simp [requestsTo, hid, Ne.symm hid]
  refine ⟨fun id s' hs' => ?_, fun q hq => ?_, fun id => ?_, fun id s' hs' => ?_⟩
  · change x.servers.at? id = some s' at hs'
    show id < x.nextServer
    rw [hnext]
    exact h.come_put hs (hservers ▸ hs')
  · show q.server < x.nextServer
    rw [hnext]
    rcases List.mem_append.mp hq with hq | hq
    · exact h.numbered q hq
    · rw [List.mem_singleton.mp hq]
      exact h.come server s hs
  · rw [hrequests]
    exact (h.order id).trans (List.prefix_append ..)
  · change x.servers.at? id = some s' at hs'
    rw [hservers, Table.at?_put] at hs'
    rw [hrequests]
    by_cases hid : id = server
    · subst hid
      rw [if_pos rfl] at hs' ⊢
      cases hs'
      rw [h.queue id s hs, List.append_assoc, List.map_append]
      rfl
    · rw [if_neg hid] at hs' ⊢
      rw [List.append_nil]
      exact h.queue id s' hs'

theorem Queues.take (h : Queues w) {s : Server} {message : Bytes} {requests : List (Bytes × Nat)}
    (hs : w.exchange.servers.at? server = some s)
    (hrequests : s.requests = (message, client) :: requests) :
    Queues { w with
      exchange := { w.exchange with
        servers := w.exchange.servers.put server { s with requests, pending := some client } }
      taken := w.taken ++ [⟨client, server, message⟩] } := by
  have htakes (x : Exchange) (id : Nat) :
      takenBy { w with exchange := x, taken := w.taken ++ [⟨client, server, message⟩] } id =
      w.takenBy id ++ if id = server then [⟨client, server, message⟩] else [] := by
    by_cases hid : id = server
    · simp [takenBy, hid]
    · simp [takenBy, hid, Ne.symm hid]
  have hqueue := h.queue server s hs
  rw [hrequests, List.map_cons, List.append_cons] at hqueue
  refine ⟨fun id t ht => h.come_put hs ht, h.numbered, fun id => ?_, fun id s' hs' => ?_⟩
  · rw [htakes]
    by_cases hid : id = server
    · subst hid
      rw [if_pos rfl]
      show _ <+: w.requestsTo id
      rw [hqueue]
      exact List.prefix_append ..
    · rw [if_neg hid, List.append_nil]
      exact h.order id
  · rw [Table.at?_put] at hs'
    rw [htakes]
    by_cases hid : id = server
    · subst hid
      rw [if_pos rfl] at hs' ⊢
      cases hs'
      exact hqueue
    · rw [if_neg hid] at hs' ⊢
      rw [List.append_nil]
      exact h.queue id s' hs'

theorem exists_server_of_placed {s t : Server} {message : Bytes} {sent : Bool} {x : Exchange}
    (hs : w.exchange.servers.at? server = some s)
    (h : Placed { w.exchange with
      servers := w.exchange.servers.put server { s with pending := none } } client message sent x)
    {id : Nat} (ht : x.servers.at? id = some t) :
    ∃ s', w.exchange.servers.at? id = some s' ∧ s'.requests = t.requests ∧
      t.pending = if id = server then none else s'.pending := by
  have hservers : x.servers = w.exchange.servers.put server { s with pending := none } := by
    cases h <;> rfl
  rw [hservers, Table.at?_put] at ht
  by_cases hid : id = server
  · subst hid
    rw [if_pos rfl] at ht
    cases ht
    exact ⟨s, hs, rfl, (if_pos rfl).symm⟩
  · rw [if_neg hid] at ht
    exact ⟨t, ht, rfl, (if_neg hid).symm⟩

/-- **An act keeps the queues.** -/
theorem Queues.step (h : Queues w) (hstep : Step w act w') : Queues w' := by
  cases hstep with
  | rest _ => exact h
  | serve address limit depth _ => exact h.serve address limit depth
  | retire server =>
    refine h.congr rfl rfl (Nat.le_of_eq (nextServer_retire ..).symm) fun id s' hs' => ?_
    rw [at?_servers_retire] at hs'
    split at hs'
    · cases hs'
    · exact ⟨s', hs', rfl⟩
  | connect address limit =>
    exact h.congr rfl rfl (Nat.le_refl _) fun _ s' hs' => ⟨s', hs', rfl⟩
  | disconnect client => exact h.congr rfl rfl (Nat.le_refl _) fun _ s' hs' => ⟨s', hs', rfl⟩
  | find client c _ => exact h.congr rfl rfl (Nat.le_refl _) fun _ s' hs' => ⟨s', hs', rfl⟩
  | refuse client c _ _ => exact h.congr rfl rfl (Nat.le_refl _) fun _ s' hs' => ⟨s', hs', rfl⟩
  | forget client found c _ _ _ _ =>
    exact h.congr rfl rfl (Nat.le_refl _) fun _ s' hs' => ⟨s', hs', rfl⟩
  | accept client found c s message _ _ hs => exact h.accept hs rfl rfl
  | take server client s message requests hs _ hrequests => exact h.take hs hrequests
  | reply server client s message sent x hs _ hplaced =>
    refine h.congr rfl rfl ?_ fun id t ht => ?_
    · cases hplaced <;> exact Nat.le_refl _
    · obtain ⟨s', hs', hrequests, -⟩ := exists_server_of_placed hs hplaced ht
      exact ⟨s', hs', hrequests⟩
  | collect client c _ => exact h.congr rfl rfl (Nat.le_refl _) fun _ s' hs' => ⟨s', hs', rfl⟩

/-! ## Clients and their servers -/

theorem Homes.congr (h : Homes w) (haccepted : w'.accepted = w.accepted)
    (hcome : Numbered w'.exchange) (hnext : w.exchange.nextClient ≤ w'.exchange.nextClient)
    (hservers : ∀ q ∈ w.accepted, (w'.exchange.servers.at? q.server).isSome →
      (w.exchange.servers.at? q.server).isSome)
    (hclients : ∀ q ∈ w.accepted, (w.exchange.servers.at? q.server).isSome →
      ∀ c', w'.exchange.clients.at? q.client = some c' →
      ∃ c, w.exchange.clients.at? q.client = some c ∧
        (c.server = some q.server → c'.server = some q.server)) : Homes w' := by
  refine ⟨hcome, fun q hq => ?_, fun q hq hthere c' hc' => ?_,
    fun q hq q' hq' heq hthere hthere' => ?_⟩
  · exact Nat.lt_of_lt_of_le (h.numbered q (haccepted ▸ hq)) hnext
  · rw [haccepted] at hq
    have hthere := hservers q hq hthere
    obtain ⟨c, hc, hknows⟩ := hclients q hq hthere c' hc'
    exact hknows (h.known q hq hthere c hc)
  · rw [haccepted] at hq hq'
    exact h.single q hq q' hq' heq (hservers q hq hthere) (hservers q' hq' hthere')

theorem Homes.congr_put (h : Homes w) {c c' : Client}
    (hc : w.exchange.clients.at? client = some c) (haccepted : w'.accepted = w.accepted)
    (hservers : ∀ q ∈ w.accepted, (w'.exchange.servers.at? q.server).isSome →
      (w.exchange.servers.at? q.server).isSome)
    (hclients : w'.exchange.clients = w.exchange.clients.put client c')
    (hnext : w'.exchange.nextClient = w.exchange.nextClient)
    (hknows : ∀ q ∈ w.accepted, (w.exchange.servers.at? q.server).isSome → q.client = client →
      c.server = some q.server → c'.server = some q.server) : Homes w' := by
  refine h.congr haccepted (h.come.congr (sameClients_of_put hc hclients hnext))
    (Nat.le_of_eq hnext.symm) hservers fun q hq hthere t ht => ?_
  rw [hclients, Table.at?_put] at ht
  by_cases hq' : q.client = client
  · rw [if_pos hq'] at ht
    cases ht
    exact ⟨c, hq' ▸ hc, hknows q hq hthere hq'⟩
  · rw [if_neg hq'] at ht
    exact ⟨t, ht, id⟩

theorem found?_of_server {x : Exchange} {c : Client} (hc : x.clients.at? client = some c)
    (hserver : c.server = some server) : x.found? client = some server := by
  rw [found?_eq hc, hserver]
  rfl

theorem Homes.accept (h : Homes w) {x : Exchange} {c : Client} {s s' : Server} {message : Bytes}
    (hc : w.exchange.clients.at? client = some c) (hfound : w.exchange.found? client = some server)
    (hs : w.exchange.servers.at? server = some s)
    (hclients : x.clients = w.exchange.clients.put client { c with server := some server })
    (hnext : x.nextClient = w.exchange.nextClient)
    (hservers : x.servers = w.exchange.servers.put server s') :
    Homes { w with exchange := x, accepted := w.accepted ++ [⟨client, server, message⟩] } := by
  have hlive (id : Nat) : (x.servers.at? id).isSome = (w.exchange.servers.at? id).isSome := by
    rw [hservers, Table.isSome_at?_put hs]
  -- Whichever servers have requests of the client, the one that is there is the one it finds.
  have hknown (q : Inquiry) (hq : q ∈ w.accepted) (hclient : q.client = client)
      (hthere : (x.servers.at? q.server).isSome) : q.server = server := by
    rw [hlive] at hthere
    have hserver := h.known q hq hthere c (hclient ▸ hc)
    exact (Option.some.inj (hfound.symm.trans (found?_of_server hc hserver))).symm
  have hmem {q : Inquiry} (hq : q ∈ w.accepted ++ [⟨client, server, message⟩]) :
      q ∈ w.accepted ∨ q = ⟨client, server, message⟩ :=
    (List.mem_append.mp hq).imp_right List.mem_singleton.mp
  refine ⟨h.come.congr (sameClients_of_put hc hclients hnext), fun q hq => ?_,
    fun q hq hthere t ht => ?_, fun q hq q' hq' heq hthere hthere' => ?_⟩
  · show q.client < x.nextClient
    rw [hnext]
    rcases hmem hq with hq | rfl
    · exact h.numbered q hq
    · exact h.come client (by rw [hc]; rfl)
  · change x.clients.at? q.client = some t at ht
    rw [hclients, Table.at?_put] at ht
    by_cases hclient : q.client = client
    · rw [if_pos hclient] at ht
      cases ht
      rcases hmem hq with hq | rfl
      · rw [hknown q hq hclient hthere]
      · rfl
    · rw [if_neg hclient] at ht
      rcases hmem hq with hq | rfl
      · exact h.known q hq (hlive _ ▸ hthere) t ht
      · exact absurd rfl hclient
  · rcases hmem hq with hq | rfl <;> rcases hmem hq' with hq' | rfl
    · exact h.single q hq q' hq' heq (hlive _ ▸ hthere) (hlive _ ▸ hthere')
    · exact hknown q hq heq hthere
    · exact (hknown q' hq' heq.symm hthere').symm
    · rfl

/-- **An act keeps the homes.** -/
theorem Homes.step (h : Homes w) (hqueues : Queues w) (hstep : Step w act w') : Homes w' := by
  cases hstep with
  | rest _ => exact h
  | serve address limit depth _ =>
    refine h.congr rfl h.come (Nat.le_refl _) (fun q hq hthere => ?_)
      fun q _ _ c hc => ⟨c, hc, id⟩
    rwa [Table.at?_put_of_ne (Nat.ne_of_lt (hqueues.numbered q hq))] at hthere
  | retire server =>
    refine h.congr rfl ?_ ?_ (fun q hq hthere => ?_) fun q _ _ c hc => ⟨c, ?_, id⟩
    · exact h.come.congr (quiet_retire ..).toSameClients
    · exact Nat.le_of_eq (nextClient_retire ..).symm
    · rw [at?_servers_retire] at hthere
      split at hthere
      · cases hthere
      · exact hthere
    · exact clients_retire w.exchange server ▸ hc
  | connect address limit =>
    refine h.congr rfl (h.come.connect address limit) (Nat.le_succ _) (fun _ _ => id)
      fun q hq _ c hc => ⟨c, ?_, id⟩
    exact (Table.at?_put_of_ne (Nat.ne_of_lt (h.numbered q hq)) ..).symm.trans hc
  | disconnect client =>
    refine h.congr rfl (h.come.disconnect client) (Nat.le_refl _) (fun _ _ => id)
      fun q _ _ c hc => ⟨c, ?_, id⟩
    simp only [Exchange.disconnect, Table.at?_without] at hc
    split at hc
    · cases hc
    · exact hc
  | find client c hc =>
    refine h.congr_put hc rfl (fun _ _ => id) rfl rfl fun q _ _ _ hserver => ?_
    exact found?_of_server hc hserver
  | refuse client c _ hc =>
    refine h.congr_put hc rfl (fun _ _ => id) rfl rfl fun q _ _ _ hserver => ?_
    exact found?_of_server hc hserver
  | forget client found c _ hc hfound hgone =>
    refine h.congr_put hc rfl (fun _ _ => id) rfl rfl fun q _ hthere _ hserver => ?_
    -- The server that the client knew is gone.
    cases hfound.symm.trans (found?_of_server hc hserver)
    rw [hgone] at hthere
    cases hthere
  | accept client found c s message hc hfound hs => exact h.accept hc hfound hs rfl rfl rfl
  | take server client s message requests hs _ _ =>
    refine h.congr rfl h.come (Nat.le_refl _) (fun q _ hthere => ?_) fun q _ _ c hc => ⟨c, hc, id⟩
    rwa [Table.isSome_at?_put hs] at hthere
  | reply server client s message sent x hs _ hplaced =>
    have hlive (q : Inquiry) (hthere : ((w.exchange.servers.put server
        { s with pending := none }).at? q.server).isSome) :
        (w.exchange.servers.at? q.server).isSome := by
      rwa [Table.isSome_at?_put hs] at hthere
    cases hplaced with
    | missed _ =>
      exact h.congr rfl h.come (Nat.le_refl _) (fun q _ => hlive q) fun q _ _ c hc => ⟨c, hc, id⟩
    | refused c _ _ =>
      exact h.congr rfl h.come (Nat.le_refl _) (fun q _ => hlive q) fun q _ _ c hc => ⟨c, hc, id⟩
    | delivered c hc _ =>
      exact h.congr_put hc rfl (fun q _ => hlive q) rfl rfl fun _ _ _ _ hserver => hserver
  | collect client c hc =>
    exact h.congr_put hc rfl (fun _ _ => id) rfl rfl fun _ _ _ _ hserver => hserver

end Requests

end Correspondence

end Stepcast
