import Mathlib.Data.List.Nodup
import Stepcast.Proofs.Delivery.Lines
import Stepcast.Proofs.Endpoints

/-!
# The lines of a feed

Every rank of the crew has a line of its own, from the moment the reader connects. Whatever
happens, it happens on one line, and the other lines stay as they are.

Main statements: `connected_start`, `Connected.act`, `Connected.openWriter`, `Connected.ask`,
`Connected.receive`.
-/

namespace Stepcast

/-- A feed in reliable delivery whose writers wait for the reader without limit. -/
structure Crew.Valid (crew : Crew) : Prop where
  distinct : crew.ranks.Nodup
  reading : crew.settings.delivery = .reliable
  writing : ∀ rank ∈ crew.ranks, (crew.writers rank).delivery = .reliable
  /-- The writers have the address of the reader. -/
  address : ∀ rank ∈ crew.ranks, (crew.writers rank).address = crew.settings.address ∧
    (crew.writers rank).port = crew.settings.port
  patient : ∀ rank ∈ crew.ranks, (crew.writers rank).drainTimeout = none

namespace Feed

open Exchange

/-- The line of a rank whose writer has not come yet, or has. -/
inductive Lined (crew : Crew) (x : Exchange) (i : Nat) (rank : UInt32) :
    Link → Option Sender → List Batch → Prop
  | absent {address : String} : crew.settings.endpointOfRank rank = .ok address →
      Awaits x address i → Lined crew x i rank { channel := .client i false } none []
  | present {address : String} {l : Link} {s : Sender} {received coming : List Batch} {first : Nat}
      {current : Batch} {flight : Option Outgoing} :
      crew.settings.endpointOfRank rank = .ok address →
      Line (crew.operators rank) rank x address i l s received coming first current flight →
      Lined crew x i rank l (some s) received

/-- Every rank has its line, on which `received` has arrived. -/
structure Connected (crew : Crew) (x : Exchange) (senders : Table UInt32 Sender)
    (links : List Link) (received : UInt32 → List Batch) : Prop where
  length : links.length = crew.ranks.length
  lined : ∀ i rank, crew.ranks[i]? = some rank →
    ∃ l, links[i]? = some l ∧ Lined crew x i rank l (senders.at? rank) (received rank)
  member : ∀ rank s, senders.at? rank = some s → rank ∈ crew.ranks
  apart : ∀ rank rank' s s', senders.at? rank = some s → senders.at? rank' = some s' →
    s.responder.server = s'.responder.server → rank = rank'
  fresh : ∀ rank s, senders.at? rank = some s → s.responder.server < x.nextServer

section Connected

variable {crew : Crew} {x x' : Exchange} {senders senders' : Table UInt32 Sender}
  {links links' : List Link} {received received' : UInt32 → List Batch} {i : Nat} {rank : UInt32}
  {address : String} {l l' : Link} {s s' : Sender}

/-! ## One line at a time -/

theorem Lined.within {j server : Nat} {rank' : UInt32} {sender : Option Sender}
    {arrived : List Batch} (h : Lined crew x j rank' l sender arrived)
    (haddress : crew.settings.endpointOfRank rank = .ok address)
    (hx : Within x x' address server i) (hrank : rank' ≠ rank) (hi : j ≠ i)
    (hserver : ∀ s ∈ sender, s.responder.server ≠ server) :
    Lined crew x' j rank' l sender arrived := by
  have hne : ∀ a, crew.settings.endpointOfRank rank' = .ok a → a ≠ address := by
    intro a ha heq
    exact hrank (Settings.endpointOfRank_injective (heq ▸ ha) haddress)
  cases h with
  | absent ha hawaits => exact .absent ha (hawaits.within hx (hne _ ha) hi)
  | present ha hline => exact .present ha (hline.within hx (hne _ ha) (hserver _ rfl) hi)

/-- **What happens on one line leaves the others as they are.** -/
theorem Connected.update (h : Connected crew x senders links received)
    (hdistinct : crew.ranks.Nodup)
    (hi : crew.ranks[i]? = some rank) (haddress : crew.settings.endpointOfRank rank = .ok address)
    {server : Nat} (hx : Within x x' address server i)
    (hserver : ∀ rank' s, rank' ≠ rank → senders.at? rank' = some s → s.responder.server ≠ server)
    (hsenders : ∀ rank', rank' ≠ rank → senders'.at? rank' = senders.at? rank')
    (hsender : ∀ s, senders'.at? rank = some s →
      s.responder.server = server ∧ server < x'.nextServer)
    (hlength : links'.length = links.length) (hlinks : ∀ j, j ≠ i → links'[j]? = links[j]?)
    (hlink : links'[i]? = some l')
    (hreceived : ∀ rank', rank' ≠ rank → received' rank' = received rank')
    (hlined : Lined crew x' i rank l' (senders'.at? rank) (received' rank)) :
    Connected crew x' senders' links' received' where
  length := hlength.trans h.length
  lined := by
    intro j rank' hj
    by_cases hji : j = i
    · subst hji
      cases Option.some.inj (hi.symm.trans hj)
      exact ⟨l', hlink, hlined⟩
    · have hrank : rank' ≠ rank := by
        intro heq
        obtain ⟨hlt, -⟩ := List.getElem?_eq_some_iff.mp hj
        exact hji ((List.getElem?_inj hlt hdistinct).mp (by rw [hj, hi, heq]))
      obtain ⟨l, hl, hline⟩ := h.lined j rank' hj
      refine ⟨l, (hlinks j hji).trans hl, ?_⟩
      rw [hsenders rank' hrank, hreceived rank' hrank]
      exact hline.within haddress hx hrank hji fun s hs => hserver rank' s hrank hs
  member := by
    intro rank' s hs
    by_cases hrank : rank' = rank
    · exact hrank ▸ List.mem_of_getElem? hi
    · exact h.member rank' s (hsenders rank' hrank ▸ hs)
  apart := by
    intro rank₁ rank₂ s₁ s₂ h₁ h₂ heq
    by_cases hrank₁ : rank₁ = rank
    · by_cases hrank₂ : rank₂ = rank
      · rw [hrank₁, hrank₂]
      · have hne := hserver rank₂ s₂ hrank₂ (hsenders rank₂ hrank₂ ▸ h₂)
        exact absurd (heq.symm.trans (hsender s₁ (hrank₁ ▸ h₁)).1) hne
    · have hne := hserver rank₁ s₁ hrank₁ (hsenders rank₁ hrank₁ ▸ h₁)
      by_cases hrank₂ : rank₂ = rank
      · exact absurd (heq.trans (hsender s₂ (hrank₂ ▸ h₂)).1) hne
      · exact h.apart rank₁ rank₂ s₁ s₂ (hsenders rank₁ hrank₁ ▸ h₁)
          (hsenders rank₂ hrank₂ ▸ h₂) heq
  fresh := by
    intro rank' s hs
    by_cases hrank : rank' = rank
    · obtain ⟨heq, hlt⟩ := hsender s (hrank ▸ hs)
      exact heq ▸ hlt
    · exact Nat.lt_of_lt_of_le (h.fresh rank' s (hsenders rank' hrank ▸ hs)) hx.nextServer

/-! ## What writers and responders do -/

theorem Connected.server_ne (h : Connected crew x senders links received)
    (hs : senders.at? rank = some s) (rank' : UInt32) (s' : Sender) (hrank : rank' ≠ rank)
    (hs' : senders.at? rank' = some s') : s'.responder.server ≠ s.responder.server :=
  fun heq => hrank (h.apart rank' rank s' s hs' hs heq)

theorem Connected.line (h : Connected crew x senders links received)
    (hs : senders.at? rank = some s) :
    ∃ i l address coming first current flight, crew.ranks[i]? = some rank ∧ links[i]? = some l ∧
      crew.settings.endpointOfRank rank = .ok address ∧
      Line (crew.operators rank) rank x address i l s (received rank) coming first current
        flight := by
  obtain ⟨i, hi⟩ := List.mem_iff_getElem?.mp (h.member rank s hs)
  obtain ⟨l, hl, hlined⟩ := h.lined i rank hi
  rw [hs] at hlined
  cases hlined with
  | present haddress hline => exact ⟨i, l, _, _, _, _, _, hi, hl, haddress, hline⟩

/-- **What a writer or its responder does** keeps the lines, if it keeps its own. -/
theorem Connected.act (h : Connected crew x senders links received) (hcrew : crew.Valid)
    (hs : senders.at? rank = some s)
    (hact : ∀ {address : String} {i : Nat} {l : Link} {coming : List Batch} {first : Nat}
      {current : Batch} {flight : Option Outgoing},
      Line (crew.operators rank) rank x address i l s (received rank) coming first current flight →
      s'.responder.server = s.responder.server ∧ Within x x' address s.responder.server i ∧
        ∃ coming' first' current' flight', Line (crew.operators rank) rank x' address i l s'
          (received rank) coming' first' current' flight') :
    Connected crew x' (senders.put rank s') links received := by
  obtain ⟨i, l, address, coming, first, current, flight, hi, hl, haddress, hline⟩ := h.line hs
  obtain ⟨hserver, hwithin, coming', first', current', flight', hline'⟩ := hact hline
  refine h.update hcrew.distinct hi haddress hwithin (h.server_ne hs) ?_ ?_ rfl (fun _ _ => rfl)
    hl (fun _ _ => rfl) ?_
  · exact fun rank' hrank => Table.at?_put_of_ne hrank ..
  · intro s₁ hs₁
    rw [Table.at?_put_self] at hs₁
    cases hs₁
    exact ⟨hserver, Nat.lt_of_lt_of_le (h.fresh rank s hs) hwithin.nextServer⟩
  · rw [Table.at?_put_self]
    exact .present haddress hline'

/-- A writer that comes takes its place on its line. -/
theorem line_create {settings : Settings} {operators : Operators} {client server : Nat}
    {name : String} {now : Moment} {limit : Duration} {steps : UInt64} {depth : Nat}
    (hserves : Serves x address server [] none) (hattends : Attends x address server client none) :
    Line operators rank x address client { channel := .client client false }
      { writer := .create name settings rank operators now
        responder := { server, limit, stepsPerRelease := steps, outbox := .ofDepth depth } }
      [] [] 0 [] none where
  account := account_create name settings rank operators now
  shipment := .nil
  dialogue := .resting hserves rfl
  attends := hattends
  counted := rfl
  drained := fun hshut => nomatch hshut
  abandoned := rfl
  ended := fun hended => nomatch hended

/-- **A writer comes.** -/
theorem Connected.openWriter {f f' : Feed} {now : Moment}
    (h : Connected crew f.network.exchange f.senders f.reader.links received) (hcrew : crew.Valid)
    (hopen : f.openWriter? crew rank now = some f') :
    ∃ network senders, f' = { f with network, senders } ∧
      Connected crew network.exchange senders f.reader.links received := by
  unfold openWriter? at hopen
  simp only at hopen
  split at hopen
  · rename_i r network hopened
    split at hopen
    · rename_i hnew
      cases hopen
      simp only [Bool.and_eq_true, decide_eq_true_eq, Option.isNone_iff_eq_none] at hnew
      obtain ⟨hrank, hnone⟩ := hnew
      obtain ⟨-, -, hopened⟩ := bind_eq_ok.mp hopened
      obtain ⟨address, haddress, hopened⟩ := bind_eq_ok.mp hopened
      have hdelivery := hcrew.writing rank hrank
      simp only [Courier.open, hdelivery] at hopened
      obtain ⟨⟨server, x'⟩, hserve, hopened⟩ := bind_eq_ok.mp hopened
      cases hopened
      refine ⟨_, _, rfl, ?_⟩
      have haddress' : crew.settings.endpointOfRank rank = .ok address := by
        obtain ⟨ha, hp⟩ := hcrew.address rank hrank
        rw [← haddress, Settings.endpointOfRank_congr ha hp]
      obtain ⟨i, hi⟩ := List.mem_iff_getElem?.mp hrank
      obtain ⟨l, hl, hlined⟩ := h.lined i rank hi
      rw [hnone] at hlined
      generalize harrived : received rank = arrived at hlined
      cases hlined with
      | absent ha hawaits =>
        cases ha.symm.trans haddress'
        obtain ⟨rfl, hnext, hserves, hattends, hwithin⟩ := serve_of_awaits hawaits hserve
        refine h.update hcrew.distinct hi haddress' hwithin ?_ ?_ ?_ rfl (fun _ _ => rfl) hl
          (fun _ _ => rfl) ?_
        · intro rank' s _ hs
          exact Nat.ne_of_lt (h.fresh rank' s hs)
        · exact fun rank' hne => Table.at?_put_of_ne hne ..
        · intro s hs
          rw [Table.at?_put_self] at hs
          cases hs
          exact ⟨rfl, hnext ▸ Nat.lt_succ_self _⟩
        · rw [Table.at?_put_self, harrived]
          exact .present haddress' (line_create hserves hattends)
    · cases hopen
  · cases hopen

/-! ## What the reader does -/

theorem Connected.rank_of_link (h : Connected crew x senders links received)
    (hi : links[i]? = some l) : ∃ rank, crew.ranks[i]? = some rank ∧
      Lined crew x i rank l (senders.at? rank) (received rank) := by
  obtain ⟨hlt, -⟩ := List.getElem?_eq_some_iff.mp hi
  have hrank := List.getElem?_eq_getElem (h.length ▸ hlt)
  obtain ⟨l', hl', hlined⟩ := h.lined i _ hrank
  cases hi.symm.trans hl'
  exact ⟨_, hrank, hlined⟩

/-- **What the reader does over a link** keeps the lines, if it keeps the one of the link. -/
theorem Connected.look (h : Connected crew x senders links received) (hcrew : crew.Valid)
    (hi : links[i]? = some l) (hrank : crew.ranks[i]? = some rank)
    (hs : senders.at? rank = some s) (haddress : crew.settings.endpointOfRank rank = .ok address)
    (hwithin : Within x x' address s.responder.server i)
    (hreceived : ∀ rank', rank' ≠ rank → received' rank' = received rank')
    {coming : List Batch} {first : Nat} {current : Batch} {flight : Option Outgoing}
    (hline : Line (crew.operators rank) rank x' address i l' s (received' rank) coming first current
      flight) :
    Connected crew x' senders (links.set i l') received' := by
  obtain ⟨hlt, -⟩ := List.getElem?_eq_some_iff.mp hi
  refine h.update hcrew.distinct hrank haddress hwithin (h.server_ne hs) (fun _ _ => rfl) ?_
    List.length_set ?_ (List.getElem?_set_self hlt) hreceived ?_
  · intro s₁ hs₁
    cases hs.symm.trans hs₁
    exact ⟨rfl, Nat.lt_of_lt_of_le (h.fresh rank s hs) hwithin.nextServer⟩
  · exact fun j hj => List.getElem?_set_ne (Ne.symm hj)
  · rw [hs]
    exact .present haddress hline

/-- **Asking** keeps the lines. -/
theorem Connected.ask (h : Connected crew x senders links received) (hcrew : crew.Valid)
    (hi : links[i]? = some l) {n : Network} (hn : n.exchange = x) :
    Connected crew (l.request n).2.exchange senders (links.set i (l.request n).1) received := by
  subst hn
  obtain ⟨rank, hrank, hlined⟩ := h.rank_of_link hi
  generalize hs : senders.at? rank = sender at hlined
  generalize harrived : received rank = arrived at hlined
  cases hlined with
  | absent haddress hawaits =>
    have heq : Link.request { channel := .client i false } n =
        ({ channel := .client i false }, n) := by
      simp [Link.request, Link.isDone, request_of_awaits hawaits]
    rw [heq, set_eq_self_of_getElem? hi]
    exact h
  | present haddress hline =>
    obtain ⟨hwithin, hline'⟩ := hline.ask rfl
    exact h.look hcrew hi hrank hs haddress hwithin (fun _ _ => rfl) (harrived ▸ hline')

/-- **Looking at a link** brings nothing, or a sealed batch, or the end of the stream. -/
theorem Connected.receive (h : Connected crew x senders links received) (hcrew : crew.Valid)
    (hi : links[i]? = some l) {n : Network} (hn : n.exchange = x) :
    ∃ rank messages l' n', crew.ranks[i]? = some rank ∧ l.receive n = (messages, false, l', n') ∧
      ((messages = [] ∧ l' = l ∧ Connected crew n'.exchange senders links received) ∨
        (∃ b, ∃ m : Outgoing, messages = [m.bytes] ∧ m.Seals (crew.operators rank) rank b ∧
          Connected crew n'.exchange senders (links.set i l')
            (Function.update received rank (received rank ++ [b]))) ∨
        (∃ final, messages = [Frame.endRecord final] ∧
          Connected crew n'.exchange senders (links.set i { l' with ended := true })
            received)) := by
  subst hn
  obtain ⟨rank, hrank, hlined⟩ := h.rank_of_link hi
  generalize hs : senders.at? rank = sender at hlined
  generalize harrived : received rank = arrived at hlined
  cases hlined with
  | absent haddress hawaits =>
    exact ⟨rank, [], _, n, hrank, rfl, .inl ⟨rfl, rfl, h⟩⟩
  | present haddress hline =>
    obtain ⟨messages, l', n', hreceive, hwithin, hcases⟩ := hline.receive rfl
    refine ⟨rank, messages, l', n', hrank, hreceive, ?_⟩
    rcases hcases with ⟨hnone, rfl, hline'⟩ | ⟨b, rest, m, hm, -, hseals, hline'⟩ |
      ⟨final, hfinal, -, hline'⟩
    · have hlook := h.look hcrew hi hrank hs haddress hwithin (fun _ _ => rfl) (harrived ▸ hline')
      rw [set_eq_self_of_getElem? hi] at hlook
      exact .inl ⟨hnone, rfl, hlook⟩
    · have hupdate :
          Function.update received rank (received rank ++ [b]) rank = arrived ++ [b] := by
        rw [Function.update_self, harrived]
      exact .inr (.inl ⟨b, m, hm, hseals, h.look hcrew hi hrank hs haddress hwithin
        (fun rank' hne => Function.update_of_ne hne ..) (hupdate.symm ▸ hline')⟩)
    · exact .inr (.inr ⟨final, hfinal,
        h.look hcrew hi hrank hs haddress hwithin (fun _ _ => rfl) (harrived ▸ hline')⟩)

end Connected

/-! ## The beginning -/

/-- There are links for these ranks, in their order, and nobody else. -/
structure Opened (settings : Settings) (x : Exchange) (ranks : List UInt32) (links : List Link) :
    Prop where
  length : links.length = ranks.length
  nextClient : x.nextClient = ranks.length
  bound : x.bound = []
  awaits : ∀ i rank, ranks[i]? = some rank → links[i]? = some { channel := .client i false } ∧
    ∃ address, settings.endpointOfRank rank = .ok address ∧ Awaits x address i

theorem Opened.connect {settings : Settings} {x : Exchange} {ranks : List UInt32}
    {links : List Link} (h : Opened settings x ranks links) {rank : UInt32} {address : String}
    (haddress : settings.endpointOfRank rank = .ok address) (limit : Duration) :
    Opened settings (x.connect address limit).2 (ranks ++ [rank])
      (links ++ [{ channel := .client (x.connect address limit).1 false }]) where
  length := by simp [h.length]
  nextClient := by simp [Exchange.connect, h.nextClient]
  bound := h.bound
  awaits := by
    intro i r hi
    rcases Nat.lt_trichotomy i ranks.length with hlt | rfl | hgt
    · rw [List.getElem?_append_left hlt] at hi
      obtain ⟨hl, a, ha, hunbound, c, hc, hclient⟩ := h.awaits i r hi
      refine ⟨?_, a, ha, hunbound, c, ?_, hclient⟩
      · rw [List.getElem?_append_left (h.length ▸ hlt)]
        exact hl
      · have hne : i ≠ x.nextClient := h.nextClient ▸ Nat.ne_of_lt hlt
        exact (Table.at?_put_of_ne hne ..).trans hc
    · rw [List.getElem?_concat_length] at hi
      cases hi
      refine ⟨?_, address, haddress, ?_, { address, limit }, ?_, rfl, rfl, rfl⟩
      · rw [← h.length, List.getElem?_concat_length, h.length, ← h.nextClient]
        rfl
      · show x.bound.at? address = none
        rw [h.bound]
        rfl
      · rw [← h.nextClient]
        exact Table.at?_put_self ..
    · rw [List.getElem?_eq_none (by simp; omega)] at hi
      cases hi

theorem Opened.connectAll {settings : Settings} (hreliable : settings.delivery = .reliable) :
    ∀ {ranks before : List UInt32} {links links' : List Link} {n n' : Network},
      Opened settings n.exchange before links →
      Reader.connectAll settings links n ranks = (n', .ok links') →
      Opened settings n'.exchange (before ++ ranks) links'
  | [], before, links, links', n, n', h, hconnect => by
    cases hconnect
    rwa [List.append_nil]
  | rank :: ranks, before, links, links', n, n', h, hconnect => by
    rw [Reader.connectAll] at hconnect
    cases haddress : settings.endpointOfRank rank with
    | error f => simp [haddress] at hconnect
    | ok address =>
      simp only [haddress, Reader.connect, hreliable] at hconnect
      rw [List.append_cons]
      exact Opened.connectAll hreliable (h.connect haddress _) hconnect

/-- **At the beginning** there is a link for each rank, and no writer. -/
theorem connected_start {crew : Crew} {f : Feed} {now : Moment} (hcrew : crew.Valid)
    (hstart : start? crew now = some f) :
    Connected crew f.network.exchange f.senders f.reader.links fun _ => [] := by
  unfold start? at hstart
  split at hstart
  · rename_i network links hconnect
    cases hstart
    have hnone : Opened crew.settings ({} : Network).exchange [] [] :=
      ⟨rfl, rfl, rfl, fun i rank hi => nomatch hi⟩
    have hopened := hnone.connectAll hcrew.reading hconnect
    refine ⟨hopened.length, ?_, (fun _ _ h => nomatch h), (fun _ _ _ _ h => nomatch h),
      (fun _ _ h => nomatch h)⟩
    intro i rank hi
    obtain ⟨hl, address, haddress, hawaits⟩ := hopened.awaits i rank hi
    exact ⟨_, hl, .absent haddress hawaits⟩
  · cases hstart

end Feed

end Stepcast
