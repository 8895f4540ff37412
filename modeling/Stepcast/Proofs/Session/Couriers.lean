import Stepcast.Proofs.Delivery.Answering
import Stepcast.Session.Reading
import Stepcast.Session.Traffic
import Stepcast.Session.Writing

/-!
# The couriers of a session

A courier changes only as it carries messages: it takes steps, it is given a message, and it is let
go. `Courier.Follows` says that one courier has become another in this way, and `Session.Onward`
that all couriers of a session have, while none has got another party to work for. Every act but the
coming of a writer is such a change.

Main statements: `Courier.follows_settle`, `Session.onward_settle`, `Session.join?_cases`.
-/

namespace Stepcast

/-! ## Desks behind responders -/

namespace Desk

/-- Events lead from one desk to another. -/
def Leads (d d' : Desk) : Prop := ∃ events : List Event, events.foldlM handle? d = some d'

theorem Leads.refl (d : Desk) : d.Leads d := ⟨[], rfl⟩

theorem Leads.trans {d d' d'' : Desk} (h : d.Leads d') (h' : d'.Leads d'') : d.Leads d'' := by
  obtain ⟨events, h⟩ := h
  obtain ⟨events', h'⟩ := h'
  exact ⟨events ++ events', by rw [List.foldlM_append, h]; exact h'⟩

theorem leads_of_handle? {d d' : Desk} {e : Event} (h : d.handle? e = some d') : d.Leads d' :=
  ⟨[e], by rw [List.foldlM_cons, h]; rfl⟩

/-- A responder has come to this desk, with a queue for fewer messages than it can count. -/
def IsReached (d : Desk) : Prop :=
  ∃ settings address n events, settings.queueDepth + 1 < 2 ^ 64 ∧
    run? settings address n events = some d

theorem IsReached.leads {d d' : Desk} (h : d.IsReached) (h' : d.Leads d') : d'.IsReached := by
  obtain ⟨settings, address, n, events, hdepth, hrun⟩ := h
  obtain ⟨events', h'⟩ := h'
  refine ⟨settings, address, n, events ++ events', hdepth, ?_⟩
  obtain ⟨d₀, hstart, hevents⟩ := Option.bind_eq_some_iff.mp hrun
  refine Option.bind_eq_some_iff.mpr ⟨d₀, hstart, ?_⟩
  rw [List.foldlM_append, hevents]
  exact h'

end Desk

namespace Courier

/-- The one courier has become the other and was given messages. -/
inductive Follows (handed : List Outgoing) : Courier → Courier → Prop
  | publication (p p' : Publication) : Follows handed (.publication p) (.publication p')
  | responder {r r' : Responder} : (∀ d : Desk, d.responder = r →
      ∃ d' : Desk, d.Leads d' ∧ d'.given = d.given ++ handed ∧ d'.responder = r') →
      Follows handed (.responder r) (.responder r')

section Follows

variable {c c' c'' : Courier} {n n' : Network} {waited : Duration} {m : Outgoing}
  {handed handed' : List Outgoing}

theorem Follows.refl (c : Courier) : Follows [] c c := by
  cases c with
  | publication p => exact .publication p p
  | responder r =>
    exact .responder fun d hd => ⟨d, .refl d, (List.append_nil _).symm, hd⟩

theorem Follows.trans (h : Follows handed c c') (h' : Follows handed' c' c'') :
    Follows (handed ++ handed') c c'' := by
  cases h with
  | publication p p' =>
    cases h' with
    | publication _ p'' => exact .publication p p''
  | responder h =>
    cases h' with
    | responder h' =>
      refine .responder fun d hd => ?_
      obtain ⟨d', hleads, hgiven, hd'⟩ := h d hd
      obtain ⟨d'', hleads', hgiven', hd''⟩ := h' d' hd'
      exact ⟨d'', hleads.trans hleads', by rw [hgiven', hgiven, List.append_assoc], hd''⟩

theorem given_note (d : Desk) (x : Exchange) : (d.note x).given = d.given := by
  unfold Desk.note
  split <;> rfl

theorem follows_step? (h : c.step? waited n = some (c', n')) : Follows [] c c' := by
  cases c with
  | publication p =>
    simp only [step?, Option.bind_eq_bind, Option.bind_eq_some_iff] at h
    obtain ⟨⟨p', broadcast⟩, -, h⟩ := h
    cases h
    exact .publication p p'
  | responder r =>
    simp only [step?, Option.bind_eq_bind, Option.bind_eq_some_iff] at h
    obtain ⟨⟨r', exchange⟩, hstep, h⟩ := h
    cases h
    refine .responder ?_
    rintro d rfl
    refine ⟨{ d.note n.exchange with responder := r' },
      Desk.leads_of_handle? (e := .answer waited n.exchange) ?_, ?_, rfl⟩
    · simp only [Desk.handle?, hstep]
      rfl
    · exact (given_note d _).trans (List.append_nil _).symm

theorem follows_settle (c : Courier) (waited : Duration) (n : Network) :
    Follows [] c (c.settle waited n).1 := by
  rw [settle]
  generalize c.effort n = fuel
  induction fuel generalizing c n with
  | zero => exact .refl c
  | succ fuel ih =>
    rw [run]
    split
    · next c' n' hstep => exact (follows_step? hstep).trans (ih c' n')
    · exact .refl c

theorem follows_handOver? (h : c.handOver? n m = some (c', n')) : Follows [m] c c' := by
  cases c with
  | publication p =>
    simp only [handOver?, Option.bind_eq_bind, Option.bind_eq_some_iff] at h
    obtain ⟨⟨p', broadcast⟩, -, h⟩ := h
    cases h
    exact .publication p p'
  | responder r =>
    simp only [handOver?, Option.bind_eq_bind, Option.bind_eq_some_iff] at h
    obtain ⟨r', hgiven, h⟩ := h
    cases h
    refine .responder ?_
    rintro d rfl
    refine ⟨{ d with responder := r', given := d.given ++ [m] },
      Desk.leads_of_handle? (e := .handOver m) ?_, rfl, rfl⟩
    simp only [Desk.handle?, hgiven]
    rfl

theorem follows_close (c : Courier) : Follows [] c c.close := by
  cases c with
  | publication p => exact .publication p _
  | responder r =>
    refine .responder ?_
    rintro d rfl
    exact ⟨_, Desk.leads_of_handle? (e := .close) rfl, (List.append_nil _).symm, rfl⟩

theorem follows_abandon (c : Courier) : Follows [] c c.abandon := by
  cases c with
  | publication p => exact .publication p _
  | responder r =>
    refine .responder ?_
    rintro d rfl
    exact ⟨_, Desk.leads_of_handle? (e := .abandon) rfl, (List.append_nil _).symm, rfl⟩

end Follows

end Courier

/-! ## What acts do to couriers -/

/-- The courier that works for a party. -/
def Party.courier? : Party → Option Nat
  | .writer _ id | .closing _ id _ _ => some id
  | _ => none

namespace Session

/-- The courier that works for whoever acts under a name. -/
def courierOf (s : Session) (name : String) : Option Nat :=
  (s.parties.at? name).bind Party.courier?

/-- No courier is new, and none has got another party to work for. -/
structure Onward (s s' : Session) : Prop where
  next : s'.nextCourier = s.nextCourier
  sorted : Table.Sorted s.parties → Table.Sorted s'.parties
  courierOf : ∀ name id, s'.courierOf name = some id → s.courierOf name = some id
  couriers : ∀ id c', s'.couriers.at? id = some c' →
    ∃ c handed, s.couriers.at? id = some c ∧ c.Follows handed c'

section Onward

variable {s s' s'' : Session} {name : String} {id : Nat} {now : Moment} {waited : Duration}

theorem Onward.trans (h : Onward s s') (h' : Onward s' s'') : Onward s s'' where
  next := h'.next.trans h.next
  sorted := fun hs => h'.sorted (h.sorted hs)
  courierOf := fun name id hid => h.courierOf name id (h'.courierOf name id hid)
  couriers := by
    intro id c'' hc''
    obtain ⟨c', handed', hc', hfollows'⟩ := h'.couriers id c'' hc''
    obtain ⟨c, handed, hc, hfollows⟩ := h.couriers id c' hc'
    exact ⟨c, handed ++ handed', hc, hfollows.trans hfollows'⟩

theorem onward_of_couriers (hnext : s'.nextCourier = s.nextCourier)
    (hcouriers : s'.couriers = s.couriers)
    (hsorted : Table.Sorted s.parties → Table.Sorted s'.parties)
    (hparties : ∀ name id, s'.courierOf name = some id → s.courierOf name = some id) :
    Onward s s' where
  next := hnext
  sorted := hsorted
  courierOf := hparties
  couriers := by
    intro id c hc
    rw [hcouriers] at hc
    exact ⟨c, [], hc, .refl c⟩

theorem onward_network (s : Session) (network : Network) : Onward s { s with network } :=
  onward_of_couriers rfl rfl id (fun _ _ => id)

theorem Onward.refl (s : Session) : Onward s s := onward_network s s.network

/-- A party becomes another, for which no other courier works. -/
theorem Onward.put (h : Onward s s') {p : Party}
    (hp : ∀ id, p.courier? = some id → s.courierOf name = some id) :
    Onward s { s' with parties := s'.parties.put name p } where
  next := h.next
  sorted := fun hs => (h.sorted hs).put _ _
  courierOf := by
    intro name' id hid
    rw [Session.courierOf, Table.at?_put] at hid
    by_cases hname : name' = name
    · rw [if_pos hname] at hid
      exact hname ▸ hp id hid
    · rw [if_neg hname] at hid
      exact h.courierOf name' id hid
  couriers := h.couriers

theorem courierOf_of_at? {p : Party} (h : s.parties.at? name = some p) :
    s.courierOf name = p.courier? := by
  rw [Session.courierOf, h]
  rfl

theorem onward_without (s : Session) (name : String) :
    Onward s { s with parties := s.parties.without name } := by
  refine onward_of_couriers rfl rfl (fun hs => Table.sorted_without hs _) fun name' id hid => ?_
  rw [Session.courierOf, Table.at?_without] at hid
  split at hid
  · cases hid
  · exact hid

/-! ### Settling -/

theorem at?_settleCouriers (waited : Duration) (t : Table Nat Courier) (n : Network) (id : Nat) :
    ∃ n', (settleCouriers waited t n).1.at? id =
      (t.at? id).map (fun c => (c.settle waited n').1) := by
  induction t generalizing n with
  | nil => exact ⟨n, rfl⟩
  | cons e rest ih =>
    obtain ⟨k, c⟩ := e
    simp only [settleCouriers, Table.at?_cons]
    by_cases hid : id = k
    · exact ⟨n, by simp [hid]⟩
    · obtain ⟨n', hn'⟩ := ih (c.settle waited n).2
      exact ⟨n', by simpa [hid] using hn'⟩

theorem at?_work (s : Session) (waited : Duration) (id : Nat) :
    ∃ n', (s.work waited).couriers.at? id =
      (s.couriers.at? id).map (fun c => (c.settle waited n').1) :=
  at?_settleCouriers waited s.couriers s.network id

theorem onward_work (s : Session) (waited : Duration) : Onward s (s.work waited) where
  next := rfl
  sorted := id
  courierOf := fun _ _ => id
  couriers := by
    intro id c' hc'
    obtain ⟨n', hn'⟩ := s.at?_work waited id
    rw [hn', Option.map_eq_some_iff] at hc'
    obtain ⟨c, hc, rfl⟩ := hc'
    exact ⟨c, [], hc, c.follows_settle waited n'⟩

/-- A closing writer hands over its next message, or nothing happens. -/
theorem handOverNext_cases (s : Session) (name : String) : s.handOverNext name = s ∨
    ∃ w id m backlog outcome c c' network,
      s.parties.at? name = some (.closing w id (m :: backlog) outcome) ∧
      s.couriers.at? id = some c ∧ c.handOver? s.network m = some (c', network) ∧
      s.handOverNext name = { s with
        network
        couriers := s.couriers.put id c'
        parties := s.parties.put name (.closing w id backlog outcome) } := by
  unfold handOverNext
  split
  · next w id m backlog outcome hparty =>
    split
    · next c' network hgiven =>
      obtain ⟨c, hc, hgiven⟩ := Option.bind_eq_some_iff.mp hgiven
      exact .inr ⟨w, id, m, backlog, outcome, c, c', network, hparty, hc, hgiven, rfl⟩
    · exact .inl rfl
  · exact .inl rfl

theorem onward_putCourier {c c' : Courier} {handed : List Outgoing}
    (hc : s.couriers.at? id = some c) (hfollows : c.Follows handed c') :
    Onward s { s with couriers := s.couriers.put id c' } where
  next := rfl
  sorted := fun hs => hs
  courierOf := fun _ _ h => h
  couriers := by
    intro q c'' hc''
    rw [Table.at?_put] at hc''
    by_cases hq : q = id
    · rw [if_pos hq] at hc''
      cases hc''
      exact ⟨c, handed, hq ▸ hc, hfollows⟩
    · rw [if_neg hq] at hc''
      exact ⟨c'', [], hc'', .refl c''⟩

theorem onward_handOverNext (s : Session) (name : String) : Onward s (s.handOverNext name) := by
  rcases s.handOverNext_cases name with
    hnone | ⟨w, id, m, backlog, outcome, c, c', network, hparty, hc, hgiven, hnext⟩
  · rw [hnone]
    exact .refl s
  · rw [hnext]
    refine ((onward_putCourier hc (Courier.follows_handOver? hgiven)).trans
      (onward_network _ network)).put fun id' hid' => ?_
    rw [courierOf_of_at? hparty, ← hid']
    rfl

theorem onward_foldl {f : Session → String → Session} (hf : ∀ s name, Onward s (f s name))
    (names : List String) (s : Session) : Onward s (names.foldl f s) := by
  induction names generalizing s with
  | nil => exact .refl s
  | cons name rest ih => exact (hf s name).trans (ih _)

theorem onward_workOff (waited : Duration) (rounds : Nat) (s : Session) :
    Onward s (workOff waited rounds s) := by
  induction rounds generalizing s with
  | zero => exact s.onward_work waited
  | succ rounds ih =>
    exact (s.onward_work waited).trans ((onward_foldl onward_handOverNext _ _).trans (ih _))

theorem at?_closeDrained (s : Session) (id : Nat) : s.closeDrained.couriers.at? id =
    (s.couriers.at? id).map
      (fun c => if s.waitingCouriers.contains id && c.isDrained then c.close else c) :=
  Table.at?_map (f := fun k => k) (fun h => h)
    (fun id (c : Courier) => if s.waitingCouriers.contains id && c.isDrained then c.close else c)
    s.couriers id

theorem onward_closeDrained (s : Session) : Onward s s.closeDrained where
  next := rfl
  sorted := fun hs => hs
  courierOf := fun _ _ h => h
  couriers := by
    intro id c' hc'
    rw [at?_closeDrained, Option.map_eq_some_iff] at hc'
    obtain ⟨c, hc, rfl⟩ := hc'
    refine ⟨c, [], hc, ?_⟩
    split
    · exact c.follows_close
    · exact .refl c

/-- **Settling** changes couriers only as they carry messages. -/
theorem onward_settle (s : Session) (waited : Duration) : Onward s (s.settle waited) :=
  (onward_workOff waited _ s).trans ((onward_closeDrained _).trans (onward_work _ waited))

theorem onward_onward (s : Session) (network : Network) : Onward s (s.onward network) :=
  (onward_network s network).trans (onward_settle _ .zero)

/-! ### Writers and their couriers -/

theorem onward_withCourier (s : Session) (id : Nat) {f : Courier → Courier}
    (hf : ∀ c : Courier, c.Follows [] (f c)) : Onward s (s.withCourier id f) := by
  unfold withCourier
  split
  · next c hc => exact onward_putCourier hc (hf c)
  · exact .refl s

theorem onward_handOver? {m : Outgoing} (h : s.handOver? id m = some s') : Onward s s' := by
  simp only [handOver?, Option.bind_eq_bind, Option.bind_eq_some_iff] at h
  obtain ⟨c, hc, ⟨c', network⟩, hgiven, h⟩ := h
  cases h
  exact (onward_putCourier hc (Courier.follows_handOver? hgiven)).trans (onward_onward _ network)

theorem onward_handOverAll? {w : Writer} {messages : List Outgoing}
    (h : s.handOverAll? w id messages = some s') : Onward s s' := by
  induction messages generalizing s with
  | nil =>
    cases h
    exact .refl _
  | cons m rest ih =>
    simp only [handOverAll?, Option.bind_eq_bind, Option.bind_eq_some_iff] at h
    obtain ⟨s₁, hgiven, hrest⟩ := h
    refine .trans ?_ (ih hrest)
    cases hnow : s.handOver? id m with
    | some s₂ =>
      rw [hnow] at hgiven
      cases hgiven
      exact onward_handOver? hnow
    | none =>
      rw [hnow] at hgiven
      exact (onward_settle s _).trans (onward_handOver? hgiven)

theorem onward_closing (w : Writer) (now : Moment) (h : s.courierOf name = some id) :
    Onward s (s.closing name w id now) := by
  unfold closing
  refine .trans (Onward.put (.refl s) ?_) (onward_settle _ .zero)
  intro id' hid'
  dsimp only at hid'
  split at hid' <;> exact h.trans hid'

/-- How waiting for the readers of a closing writer ends. -/
theorem join?_cases {result : Except Fault Tally} (h : s.join? name = some (s', result)) :
    ∃ w id backlog outcome s₁, s.parties.at? name = some (.closing w id backlog outcome) ∧
      Onward s s₁ ∧ s' = { s₁ with parties := s₁.parties.put name (.writer w id) } ∧
      ((∃ f, outcome = .error f ∧ result = .error f) ∨ outcome = .ok () ∧
        (w.settings.drainLimit = none → (s₁ = s ∨ ∃ waited, s₁ = s.settle waited) ∧
          id ∈ s₁.waitingCouriers ∧ (s₁.couriers.at? id).all Courier.isDrained)) := by
  simp only [join?, Option.bind_eq_bind, Option.bind_eq_some_iff] at h
  obtain ⟨p, hparty, h⟩ := h
  cases p with
  | closing w id backlog outcome =>
    dsimp only at h
    cases outcome with
    | error f =>
      cases h
      exact ⟨w, id, backlog, _, s, hparty, .refl s, rfl, .inl ⟨f, rfl, rfl⟩⟩
    | ok _ =>
      dsimp only at h
      generalize hs₁ : (if s.waitingCouriers.contains id then s
        else s.settle w.settings.timeoutDuration) = s₁ at h
      have hwaits : s₁ = s ∨ ∃ waited, s₁ = s.settle waited := by
        rw [← hs₁]
        split
        · exact .inl rfl
        · exact .inr ⟨_, rfl⟩
      have honward : Onward s s₁ := by
        rcases hwaits with rfl | ⟨waited, rfl⟩
        · exact .refl _
        · exact onward_settle s waited
      split at h
      · cases h
      · next hwaiting =>
        split at h
        · next hdrained =>
          cases h
          refine ⟨w, id, backlog, _, s₁, hparty, honward, rfl, .inr ⟨rfl, fun _ => ?_⟩⟩
          exact ⟨hwaits, by simpa using hwaiting, hdrained⟩
        · obtain ⟨limit, hlimit, h⟩ := Option.bind_eq_some_iff.mp h
          cases h
          refine ⟨w, id, backlog, _, _, hparty, ?_, rfl, .inr ⟨rfl, fun hnone => ?_⟩⟩
          · exact honward.trans ((onward_settle s₁ limit).trans
              ((onward_withCourier _ id Courier.follows_close).trans (onward_settle _ _)))
          · rw [hlimit] at hnone
            cases hnone
  | _ => cases h

theorem onward_join? {result : Except Fault Tally} (h : s.join? name = some (s', result)) :
    Onward s s' := by
  obtain ⟨w, id, backlog, outcome, s₁, hparty, honward, rfl, -⟩ := join?_cases h
  exact honward.put fun id' hid' => (courierOf_of_at? hparty).trans hid'

theorem onward_closeWriter? {result : Except Fault Unit}
    (h : s.closeWriter? name now = some (s', result)) : Onward s s' := by
  simp only [closeWriter?, Option.bind_eq_bind, Option.bind_eq_some_iff] at h
  obtain ⟨p, hparty, h⟩ := h
  cases p with
  | writer w id =>
    dsimp only at h
    split at h
    · cases h
      exact .refl s
    · obtain ⟨⟨s₁, result₁⟩, hjoin, h⟩ := Option.bind_eq_some_iff.mp h
      cases h
      exact (onward_closing _ _ (courierOf_of_at? hparty)).trans (onward_join? hjoin)
  | _ => cases h

/-! ### Coming and going -/

theorem onward_gone (s : Session) (name : String) (network : Network) :
    Onward s ({ s with parties := s.parties.without name }.onward network) :=
  (onward_without s name).trans (onward_onward _ network)

theorem onward_leave? (h : s.leave? name now = some s') : Onward s s' := by
  simp only [leave?, Option.bind_eq_bind, Option.bind_eq_some_iff] at h
  obtain ⟨p, hparty, h⟩ := h
  cases p with
  | writer w id =>
    obtain ⟨⟨s₁, result⟩, hclose, h⟩ := Option.bind_eq_some_iff.mp h
    cases h
    exact (onward_closeWriter? hclose).trans
      ((onward_withCourier s₁ id Courier.follows_abandon).trans (onward_gone _ name _))
  | closing w id backlog outcome =>
    obtain ⟨⟨s₁, result⟩, hjoin, h⟩ := Option.bind_eq_some_iff.mp h
    cases h
    exact (onward_join? hjoin).trans
      ((onward_withCourier s₁ id Courier.follows_abandon).trans (onward_gone _ name _))
  | _ =>
    cases h
    exact onward_gone s name _

/-- Whoever acted under the name of a party that comes leaves first. -/
theorem enter?_cases {p : Party} (h : s.enter? name p now = some s') :
    ∃ s₁, Onward s s₁ ∧
      s' = { s₁ with parties := s₁.parties.put name p }.settle .zero := by
  unfold enter? at h
  simp only [Option.bind_eq_bind, Option.pure_def] at h
  split at h
  · obtain ⟨s₁, hleave, h⟩ := Option.bind_eq_some_iff.mp h
    cases h
    exact ⟨s₁, onward_leave? hleave, rfl⟩
  · cases h
    exact ⟨s, .refl s, rfl⟩

theorem onward_enter? {p : Party} (hp : p.courier? = none) (h : s.enter? name p now = some s') :
    Onward s s' := by
  obtain ⟨s₁, honward, rfl⟩ := enter?_cases h
  refine (honward.put fun id hid => ?_).trans (onward_settle _ .zero)
  rw [hp] at hid
  cases hid

/-! ### Acts -/

theorem at?_of_writer? {w : Writer} (h : s.writer? name = some (w, id)) :
    s.parties.at? name = some (.writer w id) := by
  simp only [writer?, Option.bind_eq_bind, Option.bind_eq_some_iff] at h
  obtain ⟨p, hparty, h⟩ := h
  cases p with
  | writer w' id' =>
    cases h
    exact hparty
  | _ => cases h

theorem courierOf_of_writer? {w : Writer} (h : s.writer? name = some (w, id)) :
    s.courierOf name = some id := courierOf_of_at? (at?_of_writer? h)

theorem onward_putWriter {w w' : Writer} (h : s.writer? name = some (w, id)) :
    Onward s (s.putWriter name w' id) :=
  (Onward.refl s).put fun _ hid => (courierOf_of_writer? h).trans hid

theorem onward_putReader (s : Session) (name : String) (r : Reader) :
    Onward s (s.putReader name r) :=
  (Onward.refl s).put nofun

theorem onward_changeWriter? {act : Writer → Except Fault Writer} {result : Except Fault Unit}
    (h : s.changeWriter? name act = some (s', result)) : Onward s s' := by
  simp only [changeWriter?, Option.bind_eq_bind, Option.bind_eq_some_iff] at h
  obtain ⟨⟨w, id⟩, hwriter, h⟩ := h
  dsimp only at h
  split at h
  · cases h
    exact onward_putWriter hwriter
  · cases h
    exact .refl s

theorem onward_updateWriter? {act : Writer → Writer × Except Fault Unit}
    {result : Except Fault Unit} (h : s.updateWriter? name act = some (s', result)) :
    Onward s s' := by
  simp only [updateWriter?, Option.bind_eq_bind, Option.bind_eq_some_iff] at h
  obtain ⟨⟨w, id⟩, hwriter, h⟩ := h
  cases h
  exact onward_putWriter hwriter

theorem onward_endWriting? {result : Except Fault Unit}
    (h : s.endWriting? name now = some (s', result)) : Onward s s' := by
  simp only [endWriting?, Option.bind_eq_bind, Option.bind_eq_some_iff] at h
  obtain ⟨⟨w, id⟩, hwriter, h⟩ := h
  dsimp only at h
  split at h
  · cases h
    exact onward_putWriter hwriter
  · obtain ⟨s₁, hgiven, h⟩ := Option.bind_eq_some_iff.mp h
    cases h
    exact (onward_putWriter hwriter).trans (onward_handOverAll? hgiven)

theorem onward_requestLinks {r r' : Reader} {links : List Nat} {result : Except Fault Unit}
    (h : s.requestLinks r links = (s', r', result)) : Onward s s' := by
  induction links generalizing s r with
  | nil =>
    cases h
    exact .refl _
  | cons i rest ih =>
    simp only [requestLinks] at h
    have hasked := onward_onward s (r.requestLink i s.network).2
    split at h
    · exact hasked.trans ((onward_network _ _).trans (ih h))
    · cases h
      exact hasked.trans (onward_network _ _)

theorem onward_seekStep {mode : StepMode} {rounds : Nat} {r r' : Reader}
    {result : Except Fault StepStatus} (h : seekStep mode now rounds s r = (s', r', result)) :
    Onward s s' := by
  induction rounds generalizing s r with
  | zero =>
    unfold seekStep at h
    split at h <;> cases h <;> exact onward_network s _
  | succ rounds ih =>
    unfold seekStep at h
    split at h
    · cases h
      exact onward_network s _
    · cases h
      exact onward_network s _
    · next r₁ network _ =>
      refine (onward_network s network).trans ?_
      dsimp only at h
      split at h
      · next hasked =>
        cases h
        exact onward_requestLinks hasked
      · next hasked => exact (onward_requestLinks hasked).trans (ih h)

theorem onward_beginReading {mode : StepMode} {limit : Duration} {r r' : Reader}
    {result : Except Fault StepStatus} (h : s.beginReading r mode limit now = (s', r', result)) :
    Onward s s' := by
  unfold beginReading at h
  split at h
  · cases h
    exact .refl s
  · dsimp only at h
    split at h
    · exact onward_seekStep h
    · split at h
      · next hsought =>
        exact (onward_seekStep hsought).trans ((onward_settle _ limit).trans (onward_seekStep h))
      · exact onward_seekStep h

theorem onward_beginReading? {mode : StepMode} {limit : Duration}
    {result : Except Fault (StepStatus × Option UInt64)}
    (h : s.beginReading? name mode limit now = some (s', result)) : Onward s s' := by
  simp only [beginReading?, Option.bind_eq_bind, Option.bind_eq_some_iff] at h
  obtain ⟨r, -, h⟩ := h
  cases hbegin : s.beginReading r mode limit now with
  | mk s₁ found =>
    obtain ⟨r', outcome⟩ := found
    rw [hbegin] at h
    cases h
    exact (onward_beginReading hbegin).trans
      ((onward_putReader s₁ name r').trans (onward_settle _ .zero))

theorem onward_endReading? {result : Except Fault Unit}
    (h : s.endReading? name now = some (s', result)) : Onward s s' := by
  simp only [endReading?, Option.bind_eq_bind, Option.bind_eq_some_iff] at h
  obtain ⟨r, -, h⟩ := h
  cases h
  exact (onward_putReader s name _).trans (onward_onward _ _)

theorem onward_closeReader? (h : s.closeReader? name = some s') : Onward s s' := by
  simp only [closeReader?, Option.bind_eq_bind, Option.bind_eq_some_iff] at h
  obtain ⟨r, -, h⟩ := h
  cases h
  exact (onward_putReader s name _).trans (onward_onward _ _)

theorem onward_await {α : Type} (s : Session) (limit : Duration)
    (attempt : Network → Except Fault (Option α) × Network) :
    Onward s (s.await limit attempt).1 := by
  unfold await
  split
  · exact (onward_settle s limit).trans (onward_onward _ _)
  · exact onward_onward s _

theorem onward_receive? {limit : Duration} {result : Except Fault (Option Bytes)}
    (h : s.receive? name limit = some (s', result)) : Onward s s' := by
  simp only [receive?, Option.bind_eq_bind, Option.bind_eq_some_iff] at h
  obtain ⟨p, -, h⟩ := h
  have hawait (attempt : Network → Except Fault (Option Bytes) × Network)
      (h : s.await limit attempt = (s', result)) : Onward s s' := by
    have honward := onward_await s limit attempt
    rwa [h] at honward
  cases p with
  | subscriber id | server id | client id => exact hawait _ (Option.some.inj h)
  | _ => cases h

theorem onward_publish? {message : Bytes} {accepted : Nat}
    (h : s.publish? name message = some (s', accepted)) : Onward s s' := by
  simp only [publish?, Option.bind_eq_bind, Option.bind_eq_some_iff] at h
  obtain ⟨p, -, h⟩ := h
  cases p with
  | publisher address =>
    cases h
    exact onward_onward s _
  | _ => cases h

theorem onward_send? {message : Bytes} {result : Except Fault Unit}
    (h : s.send? name message = some (s', result)) : Onward s s' := by
  simp only [send?, Option.bind_eq_bind, Option.bind_eq_some_iff] at h
  obtain ⟨p, -, h⟩ := h
  cases p with
  | server id =>
    obtain ⟨rfl, -⟩ := Prod.mk.inj (Option.some.inj h)
    exact onward_onward s _
  | client id =>
    dsimp only at h
    split at h
    · next s₁ _ limit hfirst =>
      obtain ⟨rfl, -⟩ := Prod.mk.inj hfirst
      obtain ⟨rfl, -⟩ := Prod.mk.inj (Option.some.inj h)
      exact (onward_onward s _).trans ((onward_settle _ limit).trans (onward_onward _ _))
    · next hfirst _ =>
      obtain ⟨rfl, -⟩ := Prod.mk.inj (Option.some.inj h)
      exact onward_onward s _
  | _ => cases h

theorem onward_enterPublisher? {address : String} {result : Except Fault Unit}
    (h : s.enterPublisher? name address now = some (s', result)) : Onward s s' := by
  unfold enterPublisher? at h
  split at h
  · cases h
    exact .refl s
  · simp only [Option.bind_eq_bind, Option.bind_eq_some_iff] at h
    obtain ⟨s₁, henter, h⟩ := h
    cases h
    exact (onward_network s _).trans (onward_enter? rfl henter)

theorem onward_enterSubscriber? {address : String} {depth : Nat}
    (h : s.enterSubscriber? name address depth now = some s') : Onward s s' :=
  (onward_network s _).trans (onward_enter? rfl h)

theorem onward_enterServer? {address : String} {limit : Duration} {depth : Nat}
    {result : Except Fault Unit}
    (h : s.enterServer? name address limit depth now = some (s', result)) : Onward s s' := by
  unfold enterServer? at h
  split at h
  · cases h
    exact .refl s
  · simp only [Option.bind_eq_bind, Option.bind_eq_some_iff] at h
    obtain ⟨s₁, henter, h⟩ := h
    cases h
    exact (onward_network s _).trans (onward_enter? rfl henter)

theorem onward_enterClient? {address : String} {limit : Duration}
    (h : s.enterClient? name address limit now = some s') : Onward s s' :=
  (onward_network s _).trans (onward_enter? rfl h)

theorem onward_enterReader? {stream : String} {settings : Settings} {writers : Nat}
    {operators : Operators} {result : Except Fault Unit}
    (h : s.enterReader? name stream settings writers operators now = some (s', result)) :
    Onward s s' := by
  unfold enterReader? at h
  split at h
  · cases h
    exact onward_network s _
  · simp only [Option.bind_eq_bind, Option.bind_eq_some_iff] at h
    obtain ⟨s₁, henter, h⟩ := h
    cases h
    exact (onward_network s _).trans (onward_enter? rfl henter)

end Onward

end Session

end Stepcast
