import Stepcast.Proofs.Rendezvous.Gathering

/-!
# Processes that agree

A process that has opened a stream takes whatever has been sent to it with every poll: it has a
receive for all that has not arrived yet. So a stream is settled for it just if all announcements of
the stream have been sent to it, never before and never missed, and all processes for which a stream
is settled know the same of it.

Main statements: `Informed.step`, `Reachable.sound`, `converged_poll_iff`.
-/

namespace Stepcast

namespace Gathering

/-! ## What has arrived -/

/-- The announcement has arrived: it was sent, and is no longer on its way. -/
def Arrived (w : Gathering) (d : Dispatch) : Prop := d ∈ w.sent ∧ d.letter ∉ w.mail

/-- What the announcements say that have arrived at a process. -/
def Noted (w : Gathering) (p : UInt32) (x : UInt32 × Announcement) : Prop :=
  ∃ d, w.Arrived d ∧ d.key.dest = p ∧ d.opening.process = x.1 ∧
    Announcement.decode d.letter.body = .ok x.2

/-- The processes whose announcement of a stream has arrived at a process. -/
def Heard (w : Gathering) (p : UInt32) (stream : String) (q : UInt32) : Prop :=
  ∃ d, w.Arrived d ∧ d.key.dest = p ∧ d.opening.process = q ∧ d.opening.stream = stream

/-- Processes that have started have a receive for whatever has not arrived, and know just what has
arrived. -/
structure Informed (plan : Plan) (w : Gathering) : Prop where
  started : ∀ p, (w.members p).receives = [] ↔ ¬ w.Started p
  own : ∀ p, ∀ r ∈ (w.members p).receives, r.key.dest = p
  awaited : ∀ p, w.Started p → ∀ peer slot, peer < plan.poolSize →
    slot.toNat < plan.settings.maxStreams →
      Receive.Open (w.members p).receives ⟨p, peer, slot⟩ ∨
        ∃ d, w.Arrived d ∧ d.key = ⟨p, peer, slot⟩
  knows : ∀ p, (w.members p).Knows (w.Noted p)
  settled : ∀ p stream, (p, stream) ∈ w.settled → plan.openers stream ≠ [] →
    plan.settings.expectedGroups = (plan.openers stream).length →
      plan.Complete stream (w.Heard p stream)

/-- What arrives is what the plan says of the processes that are heard. -/
theorem tells_noted {plan : Plan} (hplan : plan.Valid) {w : Gathering} (h : Posted plan w)
    (p : UInt32) (stream : String) : plan.Tells (w.Noted p) stream (w.Heard p stream) := by
  -- An announcement that has arrived reads as the plan has it.
  have hread : ∀ d, w.Arrived d → ∃ app ∈ plan.applications, ∃ role,
      d.opening.process ∈ app.members ∧ app.role? d.opening.stream = some role ∧
        Announcement.decode d.letter.body = .ok (app.announcement role d.opening.stream) := by
    intro d hd
    obtain ⟨app, happ, role, hmember, hrole, hbody⟩ :=
      (h.written d (List.mem_append_right _ hd.1)).body
    have hname := hplan.names app happ d.opening.stream (by rw [hrole]; rfl)
    exact ⟨app, happ, role, hmember, hrole, Announcement.decode_of_encode hname hbody⟩
  intro q role master size
  constructor
  · intro hx
    obtain ⟨d, hd, hdest, rfl, hdecode⟩ := hx
    obtain ⟨app, happ, role', hmember, hrole, hdecode'⟩ := hread d hd
    rw [hdecode'] at hdecode
    cases hdecode
    exact ⟨⟨d, hd, hdest, rfl, rfl⟩, app, happ, hmember, hrole, rfl, rfl⟩
  · intro hx
    obtain ⟨⟨d, hd, hdest, rfl, rfl⟩, app, happ, hmember, hrole, rfl, rfl⟩ := hx
    obtain ⟨app', happ', role', hmember', hrole', hdecode⟩ := hread d hd
    obtain rfl := hplan.eq_of_mem happ happ' hmember hmember'
    rw [hrole] at hrole'
    cases hrole'
    exact ⟨d, hd, hdest, rfl, hdecode⟩

/-! ## One step -/

theorem Heard.mono {w w' : Gathering} (harrived : ∀ d, w.Arrived d → w'.Arrived d) {p q : UInt32}
    {stream : String} (h : w.Heard p stream q) : w'.Heard p stream q :=
  let ⟨d, hd, hrest⟩ := h
  ⟨d, harrived d hd, hrest⟩

/-- Steps at which nothing arrives and no process changes keep all that is known. -/
theorem Informed.of_same {plan : Plan} {w w' : Gathering} (h : Informed plan w)
    (hmembers : w'.members = w.members) (hopenings : w'.openings = w.openings)
    (hsettled : w'.settled = w.settled) (harrived : ∀ d, w'.Arrived d ↔ w.Arrived d) :
    Informed plan w' where
  started := by simpa only [hmembers, Started, hopenings] using h.started
  own := by simpa only [hmembers] using h.own
  awaited := by simpa only [hmembers, Started, hopenings, harrived] using h.awaited
  knows := fun p => by
    rw [hmembers]
    exact (h.knows p).congr fun x => exists_congr fun d => and_congr_left fun _ =>
      (harrived d).symm
  settled := fun p stream hmem hopened hexpected app happ q hq =>
    (h.settled p stream (hsettled ▸ hmem) hopened hexpected app happ q hq).mono
      fun d => (harrived d).mpr

theorem open_allReceives {c : Coordinator} {peer slot : UInt32} (hpeer : peer < c.poolSize)
    (hslot : slot.toNat < c.settings.maxStreams) :
    Receive.Open c.allReceives ⟨c.rank, peer, slot⟩ := by
  refine ⟨{ key := ⟨c.rank, peer, slot⟩ }, ?_, rfl, rfl⟩
  refine List.mem_flatMap.mpr ⟨slot.toNat, List.mem_range.mpr hslot, List.mem_map.mpr ?_⟩
  refine ⟨peer.toNat, List.mem_range.mpr (UInt32.lt_iff_toNat_lt.mp hpeer), ?_⟩
  rw [UInt32.ofNat_toNat, UInt32.ofNat_toNat]

theorem dest_of_mem_allReceives {c : Coordinator} {r : Receive} (h : r ∈ c.allReceives) :
    r.key.dest = c.rank := by
  obtain ⟨slot, -, h⟩ := List.mem_flatMap.mp h
  obtain ⟨peer, -, rfl⟩ := List.mem_map.mp h
  rfl

/-- With the first slot a process posts a receive for every process and slot. -/
theorem Informed.openAt {plan : Plan} {w : Gathering} (hopenings : Openings plan w)
    (h : Informed plan w) {o : Opening} {c : Coordinator} (hpool : o.process < plan.poolSize)
    (hslot : (w.members o.process).takeSlot o.stream = .ok (o.slot, c)) :
    Informed plan (w.openAt o c) := by
  obtain ⟨hlt, -, hc⟩ := takeSlot_eq_ok hslot
  rw [hopenings.settings] at hlt
  have hall : ∀ peer slot, peer < plan.poolSize → slot.toNat < plan.settings.maxStreams →
      Receive.Open (w.members o.process).allReceives ⟨o.process, peer, slot⟩ := by
    intro peer slot hpeer hslot
    have hopen : Receive.Open (w.members o.process).allReceives
        ⟨(w.members o.process).rank, peer, slot⟩ :=
      open_allReceives (by rwa [hopenings.poolSize]) (by rwa [hopenings.settings])
    rwa [hopenings.rank] at hopen
  -- Either these are the first receives, or those of an earlier opening stay.
  have hreceives : (w.members o.process).receives = [] ∧
      c.receives = (w.members o.process).allReceives ∨
      w.Started o.process ∧ c.receives = (w.members o.process).receives := by
    by_cases hnone : (w.members o.process).receives = []
    · exact .inl ⟨hnone, by rw [hc, hnone]; rfl⟩
    · refine .inr ⟨not_not.mp (mt (h.started o.process).mpr hnone), ?_⟩
      rw [hc]
      exact if_neg (mt List.isEmpty_iff.mp hnone)
  have hother : ∀ q, q ≠ o.process → ((w.openAt o c).Started q ↔ w.Started q) := by
    intro q hq
    simp only [Started, Gathering.openAt, List.mem_cons, exists_eq_or_imp, Ne.symm hq, false_or]
  exact {
    started := fun q => by
      rw [members_openAt]
      by_cases hq : q = o.process
      · have hstarted : (w.openAt o c).Started q := ⟨o, List.mem_cons_self, hq.symm⟩
        rw [if_pos hq]
        refine iff_of_false ?_ (not_not.mpr hstarted)
        rcases hreceives with ⟨-, heq⟩ | ⟨hold, heq⟩
        · rw [heq]
          obtain ⟨r, hr, -⟩ := hall o.process 0 hpool (Nat.lt_of_le_of_lt (Nat.zero_le _) hlt)
          exact List.ne_nil_of_mem hr
        · rw [heq]
          exact fun hnone => (h.started o.process).mp hnone hold
      · rw [if_neg hq, hother q hq]
        exact h.started q
    own := fun q => by
      rw [members_openAt]
      split
      · rename_i hq
        rcases hreceives with ⟨-, heq⟩ | ⟨-, heq⟩
        · rw [heq, hq]
          exact fun r hr => (dest_of_mem_allReceives hr).trans (hopenings.rank _)
        · rw [heq, hq]
          exact h.own o.process
      · exact h.own q
    awaited := fun q hq peer slot hpeer hslot => by
      rw [members_openAt]
      split
      · rename_i heq
        subst heq
        rcases hreceives with ⟨-, heq⟩ | ⟨hold, heq⟩
        · rw [heq]
          exact .inl (hall peer slot hpeer hslot)
        · rw [heq]
          exact h.awaited _ hold peer slot hpeer hslot
      · rename_i hne
        exact h.awaited q ((hother q hne).mp hq) peer slot hpeer hslot
    knows := fun q => by
      rw [members_openAt]
      split
      · rename_i hq
        subst hq
        rw [hc]
        exact (h.knows o.process).of_tables rfl rfl rfl
      · exact h.knows q
    settled := h.settled }

theorem arrived_pollAt {plan : Plan} {w : Gathering} (hposted : Posted plan w) (p : UInt32)
    (d : Dispatch) : (w.pollAt p).Arrived d ↔ w.Arrived d ∨
      d ∈ w.sent ∧ d.letter ∈ w.mail ∧ Receive.Open (w.members p).receives d.key := by
  have htested := Coordinator.tested_testAll (w.members p).receives hposted.mail_distinct
  have hmail : ∀ l, l ∈ (w.pollAt p).mail ↔
      l ∈ w.mail ∧ ¬ Receive.Open (w.members p).receives l.key := htested.mem_mail
  rw [Arrived, Arrived, hmail]
  show (d ∈ w.sent ∧ ¬ (d.letter ∈ w.mail ∧ ¬ Receive.Open _ d.key)) ↔ _
  tauto

theorem Informed.pollAt {plan : Plan} {w : Gathering} (hposted : Posted plan w)
    (h : Informed plan w) (p : UInt32) : Informed plan (w.pollAt p) := by
  have htested := Coordinator.tested_testAll (w.members p).receives hposted.mail_distinct
  have hreceives : ((w.members p).poll w.mail).1.receives =
      (Coordinator.testAll (w.members p).receives w.mail).2.1 :=
    (Coordinator.sameSetup_poll (w.members p) w.mail).receives
  have harrived := arrived_pollAt hposted p
  have hdest : ∀ key, Receive.Open (w.members p).receives key → key.dest = p := by
    intro key hx
    obtain ⟨r, hr, rfl, -⟩ := hx
    exact h.own p r hr
  exact {
    started := fun q => by
      rw [members_pollAt]
      split
      · rename_i hq
        rw [hreceives, ← List.map_eq_nil_iff (f := Receive.key), htested.keys,
          List.map_eq_nil_iff, hq]
        exact h.started p
      · exact h.started q
    own := fun q r hr => by
      rw [members_pollAt] at hr
      split at hr
      · rename_i hq
        rw [hreceives] at hr
        have hkey := List.mem_map_of_mem (f := Receive.key) hr
        rw [htested.keys] at hkey
        obtain ⟨r', hr', heq⟩ := List.mem_map.mp hkey
        rw [← heq, hq]
        exact h.own p r' hr'
      · exact h.own q r hr
    awaited := fun q hq peer slot hpeer hslot => by
      rw [members_pollAt]
      rcases h.awaited q hq peer slot hpeer hslot with hopen | ⟨d, hd, hkey⟩
      · split
        · rename_i heq
          subst heq
          rw [hreceives]
          by_cases hcame : ∀ l ∈ w.mail, l.key ≠ ⟨q, peer, slot⟩
          · exact .inl (htested.still_open _ hopen hcame)
          · simp only [not_forall, not_not] at hcame
            obtain ⟨l, hl, hkey⟩ := hcame
            obtain ⟨d, hd, rfl⟩ := hposted.mail_sent l hl
            exact .inr ⟨d,
              (harrived d).mpr (.inr ⟨hd, hl, by rw [Dispatch.key, hkey]; exact hopen⟩),
              hkey⟩
        · exact .inl hopen
      · exact .inr ⟨d, (harrived d).mpr (.inl hd), hkey⟩
    knows := fun q => by
      rw [members_pollAt]
      split
      · rename_i hq
        subst hq
        refine ((h.knows q).poll hposted.mail_distinct).congr fun x => ?_
        constructor
        · intro hx
          rcases hx with ⟨d, hd, hrest⟩ | ⟨l, hl, hopen, hsource, hdecode⟩
          · exact ⟨d, (harrived d).mpr (.inl hd), hrest⟩
          · obtain ⟨d, hd, rfl⟩ := hposted.mail_sent l hl
            have hwritten := hposted.written d (List.mem_append_right _ hd)
            exact ⟨d, (harrived d).mpr (.inr ⟨hd, hl, hopen⟩), hdest _ hopen,
              hwritten.source.symm.trans hsource, hdecode⟩
        · intro hx
          obtain ⟨d, hd, hto, hfrom, hdecode⟩ := hx
          rcases (harrived d).mp hd with hd | ⟨hd, hl, hopen⟩
          · exact .inl ⟨d, hd, hto, hfrom, hdecode⟩
          · have hwritten := hposted.written d (List.mem_append_right _ hd)
            exact .inr ⟨d.letter, hl, hopen, hwritten.source.trans hfrom, hdecode⟩
      · rename_i hq
        refine (h.knows q).congr fun x => exists_congr fun d => ?_
        rw [harrived]
        constructor
        · exact fun ⟨hd, hrest⟩ => ⟨.inl hd, hrest⟩
        · intro hx
          rcases hx with ⟨hd | ⟨-, -, hopen⟩, hrest⟩
          · exact ⟨hd, hrest⟩
          · exact absurd (hrest.1.symm.trans (hdest _ hopen)) hq
    settled := fun q stream hmem hopened hexpected app happ q' hq' =>
      (h.settled q stream hmem hopened hexpected app happ q' hq').mono
        fun d hd => (harrived d).mpr (.inl hd) }

theorem arrived_send {plan : Plan} {w : Gathering} (hposted : Posted plan w) {d : Dispatch}
    {before after : List Dispatch} (hunsent : w.unsent = before ++ d :: after) (e : Dispatch) :
    Arrived { w with
      mail := w.mail ++ [d.letter]
      unsent := before ++ after
      sent := d :: w.sent } e ↔ w.Arrived e := by
  have hd : d ∈ w.unsent := hunsent ▸ List.mem_append_right _ List.mem_cons_self
  simp only [Arrived, List.mem_cons, List.mem_append, List.not_mem_nil, or_false, not_or]
  constructor
  · intro h
    rcases h with ⟨rfl | he, hmail, hne⟩
    · exact absurd rfl hne
    · exact ⟨he, hmail⟩
  · intro h
    obtain ⟨he, hmail⟩ := h
    exact ⟨.inr he, hmail, fun heq => hposted.sent_key_ne hd he (congrArg Letter.key heq).symm⟩

theorem converged_iff_complete {plan : Plan} (hplan : plan.Valid) {w : Gathering}
    (hopenings : Openings plan w) (hposted : Posted plan w) (h : Informed plan w) (p : UInt32)
    {stream : String} (hopened : plan.openers stream ≠ [])
    (hexpected : plan.settings.expectedGroups = (plan.openers stream).length) :
    (w.members p).converged stream = true ↔ plan.Complete stream (w.Heard p stream) :=
  Coordinator.converged_iff hplan (h.knows p) (tells_noted hplan hposted p stream) hopened
    (by rw [hopenings.settings, hexpected])

theorem Informed.step {plan : Plan} (hplan : plan.Valid) {w w' : Gathering}
    (hopenings : Openings plan w) (hposted : Posted plan w) (h : Informed plan w)
    (hstep : Step plan w w') : Informed plan w' := by
  cases hstep with
  | takeSlot happ hp _ _ hslot => exact h.openAt hopenings (hplan.inPool _ happ _ hp) hslot
  | announce => exact h.of_same rfl rfl rfl fun _ => Iff.rfl
  | send hunsent hmail =>
    rw [send_eq_ok hmail]
    exact h.of_same rfl rfl rfl (arrived_send hposted hunsent)
  | poll p => exact h.pollAt hposted p
  | @wait p stream c mail hwait =>
    obtain ⟨rfl, rfl, hconverged⟩ := wait_eq_ok hwait
    have hpoll := h.pollAt hposted p
    refine { hpoll with settled := fun q s hmem hopened hexpected => ?_ }
    rcases List.mem_cons.mp hmem with heq | hmem
    · cases heq
      have hmember : (w.pollAt p).members p = ((w.members p).poll w.mail).1 := by
        rw [members_pollAt, if_pos rfl]
      rw [← hmember] at hconverged
      exact (converged_iff_complete hplan (hopenings.pollAt p) (hposted.pollAt p) hpoll p hopened
        hexpected).mp hconverged
    · exact hpoll.settled q s hmem hopened hexpected

/-! ## Runs -/

/-- What holds of the processes at every moment. -/
structure Sound (plan : Plan) (w : Gathering) : Prop where
  openings : Openings plan w
  broadcasts : Broadcasts plan w
  posted : Posted plan w
  informed : Informed plan w

theorem sound_initial (plan : Plan) : Sound plan (initial plan) where
  openings := ⟨fun _ => rfl, fun _ => rfl, fun _ => rfl, fun _ => Nat.zero_le _,
    fun _ h => absurd h List.not_mem_nil, fun _ h => absurd h List.not_mem_nil,
    fun _ h => absurd h List.not_mem_nil⟩
  broadcasts := by
    intro i app g happ hg
    rw [initial, List.getElem?_map, happ] at hg
    cases hg
    exact ⟨List.length_replicate, Group.holds_ofSize _ _⟩
  posted := ⟨List.nodup_nil, fun _ h => absurd h List.not_mem_nil,
    fun _ h => absurd h List.not_mem_nil, fun _ h => absurd h List.not_mem_nil, List.nodup_nil,
    List.nodup_nil, fun _ h => absurd h List.not_mem_nil⟩
  informed := by
    have hnone : ∀ p, ¬ (initial plan).Started p := fun p ⟨o, ho, _⟩ => absurd ho List.not_mem_nil
    exact {
      started := fun p => iff_of_true rfl (hnone p)
      own := fun _ _ h => absurd h List.not_mem_nil
      awaited := fun p h => absurd h (hnone p)
      knows := fun p => (Coordinator.knows_nothing rfl rfl rfl).congr fun x =>
        iff_of_false id fun ⟨d, hd, _⟩ => absurd hd.1 List.not_mem_nil
      settled := fun _ _ h => absurd h List.not_mem_nil }

theorem Sound.step {plan : Plan} (hplan : plan.Valid) {w w' : Gathering} (h : Sound plan w)
    (hstep : Step plan w w') : Sound plan w' where
  openings := h.openings.step hplan hstep
  broadcasts := h.broadcasts.step h.openings hstep
  posted := h.posted.step h.openings h.broadcasts hstep
  informed := h.informed.step hplan h.openings h.posted hstep

theorem Reachable.sound {plan : Plan} (hplan : plan.Valid) {w : Gathering}
    (h : Reachable plan w) : Sound plan w := by
  induction h with
  | initial => exact sound_initial plan
  | step _ hstep ih => exact ih.step hplan hstep

/-- After a poll of a process that has opened a stream, all that was sent to it has arrived. -/
theorem heard_pollAt_iff {plan : Plan} {w : Gathering} (h : Sound plan w) {p : UInt32}
    (hp : w.Started p) (stream : String) (q : UInt32) :
    (w.pollAt p).Heard p stream q ↔ w.Announced q stream p := by
  constructor
  · intro hx
    obtain ⟨d, hd, hdest, hprocess, hstream⟩ := hx
    exact ⟨d, hd.1, hprocess, hstream, hdest⟩
  · intro hx
    obtain ⟨d, hd, hprocess, hstream, hdest⟩ := hx
    refine ⟨d, (arrived_pollAt h.posted p d).mpr ?_, hdest, hprocess, hstream⟩
    by_cases hmail : d.letter ∈ w.mail
    · have hwritten := h.posted.written d (List.mem_append_right _ hd)
      obtain ⟨hopening, -⟩ := h.posted.opening_mem d (List.mem_append_right _ hd)
      have hslot := Nat.lt_of_lt_of_le (h.openings.slot_lt _ hopening) (h.openings.slots _)
      have hkey : d.key = ⟨p, d.opening.process, d.opening.slot⟩ := by
        rw [← hdest, ← hwritten.source, ← hwritten.tag]
        rfl
      rcases h.informed.awaited p hp _ _ (h.openings.inPool _ hopening) hslot with
        hopen | ⟨d', hd', hkey'⟩
      · exact .inr ⟨hd, hmail, hkey ▸ hopen⟩
      · have hdistinct := h.posted.distinct
        rw [List.map_append, List.nodup_append] at hdistinct
        have heq := List.inj_on_of_nodup_map hdistinct.2.1 hd'.1 hd (hkey'.trans hkey.symm)
        exact absurd hmail (heq ▸ hd'.2)
    · exact .inl ⟨hd, hmail⟩

/-- **Processes that agree.** After any poll of a process that has opened a stream, a stream is
settled for it just if every member of every application that opens the stream has sent its
announcement to it. The process then knows the groups as the plan has them, and so do all processes
that waited until the stream was settled. -/
theorem converged_poll_iff {plan : Plan} (hplan : plan.Valid) {w : Gathering}
    (h : Reachable plan w) {p : UInt32} (hp : w.Started p) {stream : String}
    (hopened : plan.openers stream ≠ [])
    (hexpected : plan.settings.expectedGroups = (plan.openers stream).length) :
    (((w.members p).poll w.mail).1.converged stream = true ↔
      ∀ app ∈ plan.openers stream, ∀ q ∈ app.members, w.Announced q stream p) ∧
    (((w.members p).poll w.mail).1.converged stream = true →
      ((w.members p).poll w.mail).1.writerMap stream = plan.rankMap .writer stream ∧
      ((w.members p).poll w.mail).1.readerMap stream = plan.rankMap .reader stream) ∧
    ∀ q q', (q, stream) ∈ w.settled → (q', stream) ∈ w.settled →
      (w.members q).writerMap stream = (w.members q').writerMap stream ∧
      (w.members q).readerMap stream = (w.members q').readerMap stream ∧
      (w.members q).topology stream = (w.members q').topology stream := by
  have hsound := h.sound hplan
  have hpolled : Sound plan (w.pollAt p) := hsound.step hplan (.poll p)
  have hmember : (w.pollAt p).members p = ((w.members p).poll w.mail).1 := by
    rw [members_pollAt, if_pos rfl]
  have hiff := converged_iff_complete hplan hpolled.openings hpolled.posted hpolled.informed p
    hopened hexpected
  rw [← hmember]
  refine ⟨hiff.trans ?_, fun hconverged => ?_, fun q q' hq hq' => ?_⟩
  · simp only [Plan.Complete, heard_pollAt_iff hsound hp]
  · have hmap := Coordinator.mapOf_eq_of_complete hplan (hpolled.informed.knows p)
      (tells_noted hplan hpolled.posted p stream) (hiff.mp hconverged)
    exact ⟨hmap .writer, hmap .reader⟩
  · have hmap : ∀ q, (q, stream) ∈ w.settled → ∀ role,
        (w.members q).mapOf role stream = plan.rankMap role stream := fun q hq =>
      Coordinator.mapOf_eq_of_complete hplan (hsound.informed.knows q)
        (tells_noted hplan hsound.posted q stream)
        (hsound.informed.settled q stream hq hopened hexpected)
    have hwriters : (w.members q).writerMap stream = (w.members q').writerMap stream :=
      (hmap q hq .writer).trans (hmap q' hq' .writer).symm
    have hreaders : (w.members q).readerMap stream = (w.members q').readerMap stream :=
      (hmap q hq .reader).trans (hmap q' hq' .reader).symm
    refine ⟨hwriters, hreaders, ?_⟩
    rw [Coordinator.topology, Coordinator.topology, hwriters, hreaders]

/-- Two applications of one process each, a writing and a reading one. -/
def samplePlan : Plan :=
  { settings := { maxStreams := 1, maxName := 8 }
    poolSize := 2
    applications := [⟨[0], fun stream => if stream = "s" then some .writer else none⟩,
      ⟨[1], fun stream => if stream = "s" then some .reader else none⟩] }

theorem samplePlan_valid : samplePlan.Valid where
  disjoint := by decide
  nonempty := by simp [samplePlan]
  inPool := by
    simp only [samplePlan, List.forall_mem_cons, List.not_mem_nil, false_imp_iff, implies_true,
      and_true]
    decide
  slots := by decide
  names := by
    intro app happ stream hrole
    have hstream : stream = "s" := by
      by_contra hne
      simp only [samplePlan, List.mem_cons, List.not_mem_nil, or_false] at happ
      rcases happ with rfl | rfl <;> simp [hne] at hrole
    subst hstream
    decide

/-- The group of the process `p`. -/
def sampleGroup (p : UInt32) (role : Role) : Application :=
  ⟨[p], fun stream => if stream = "s" then some role else none⟩

/-- The coordinator of the process `p` with a slot taken. -/
def sampleCoordinator (p : UInt32) : Coordinator :=
  { rank := p, poolSize := 2, settings := samplePlan.settings, nextSlot := 1, openStreams := 1
    receives := [{ key := ⟨p, 0, 0⟩ }, { key := ⟨p, 1, 0⟩ }] }

/-- The letters by which the process `p` announces the stream. -/
def sampleLetters (p : UInt32) (role : Role) : Mail :=
  let body := [role.tag, p.toUInt8, 0, 0, 0, 1, 0, 0, 0, 0x73, 0, 0, 0, 0, 0, 0, 0]
  [⟨⟨0, p, 0⟩, body⟩, ⟨⟨1, p, 0⟩, body⟩]

/-- Both processes have sent their announcements, and neither has polled. -/
def sampleSent : Gathering :=
  { members := Function.update (Function.update (initial samplePlan).members 0
      (sampleCoordinator 0)) 1 (sampleCoordinator 1)
    groups := [Group.ofSize 1, Group.ofSize 1]
    mail := sampleLetters 0 .writer ++ sampleLetters 1 .reader
    openings := [⟨1, "s", 0⟩, ⟨0, "s", 0⟩]
    sent := (Opening.dispatches ⟨1, "s", 0⟩ (sampleLetters 1 .reader)).reverse ++
      (Opening.dispatches ⟨0, "s", 0⟩ (sampleLetters 0 .writer)).reverse }

theorem announce_sampleCoordinator_writer :
    (sampleCoordinator 0).announce 0 .writer "s" 0 1 = .ok (sampleLetters 0 .writer) := rfl

theorem announce_sampleCoordinator_reader :
    (sampleCoordinator 1).announce 0 .reader "s" 1 1 = .ok (sampleLetters 1 .reader) := rfl

theorem reachable_sampleSent : Reachable samplePlan sampleSent := by
  have hfirst : Reachable samplePlan _ := Reachable.initial.opensAlone (o := ⟨0, "s", 0⟩) rfl rfl
    (show _[0]? = some (sampleGroup 0 .writer) from rfl) rfl rfl rfl
    (fun _ h => absurd h List.not_mem_nil) rfl announce_sampleCoordinator_writer (by decide)
  exact hfirst.opensAlone (o := ⟨1, "s", 0⟩) rfl rfl
    (show _[1]? = some (sampleGroup 1 .reader) from rfl) rfl rfl rfl
    (by decide) rfl announce_sampleCoordinator_reader (by decide)

/-- The one process and then the other has waited until the stream was settled. -/
def sampleSettled : Gathering :=
  { (sampleSent.pollAt 0).pollAt 1 with settled := [(1, "s"), (0, "s")] }

theorem reachable_sampleSettled : Reachable samplePlan sampleSettled := by
  have hfirst : Reachable samplePlan { sampleSent.pollAt 0 with settled := [(0, "s")] } :=
    reachable_sampleSent.step (.wait (p := 0) rfl)
  exact hfirst.step (.wait (p := 1) rfl)

theorem converged_poll_sample :
    ((sampleSent.members 0).poll sampleSent.mail).1.converged "s" = true ∧
    ((sampleSent.members 0).poll sampleSent.mail).1.writerMap "s" = [(0, [(0, ())])] ∧
    ((sampleSent.members 0).poll sampleSent.mail).1.readerMap "s" = [(1, [(1, ())])] ∧
    (sampleSettled.members 0).writerMap "s" = (sampleSettled.members 1).writerMap "s" ∧
    (sampleSettled.members 0).readerMap "s" = (sampleSettled.members 1).readerMap "s" ∧
    (sampleSettled.members 0).topology "s" = (sampleSettled.members 1).topology "s" := by
  have hopeners : samplePlan.openers "s" = [sampleGroup 0 .writer, sampleGroup 1 .reader] := rfl
  have hopened : samplePlan.openers "s" ≠ [] := hopeners ▸ List.cons_ne_nil _ _
  have hexpected : samplePlan.settings.expectedGroups = (samplePlan.openers "s").length := rfl
  have hannounced : ∀ app ∈ samplePlan.openers "s", ∀ q ∈ app.members,
      sampleSent.Announced q "s" 0 := by
    rw [hopeners]
    simp only [List.forall_mem_cons, sampleGroup, List.not_mem_nil, false_imp_iff, implies_true,
      and_true]
    exact ⟨⟨⟨⟨0, "s", 0⟩, _⟩, .tail _ (.tail _ (.tail _ (.head _))), rfl, rfl, rfl⟩,
      ⟨⟨⟨1, "s", 0⟩, _⟩, .tail _ (.head _), rfl, rfl, rfl⟩⟩
  obtain ⟨hiff, hmaps, -⟩ := converged_poll_iff samplePlan_valid reachable_sampleSent
    ⟨⟨0, "s", 0⟩, .tail _ (.head _), rfl⟩ hopened hexpected
  obtain ⟨-, -, hagree⟩ := converged_poll_iff samplePlan_valid reachable_sampleSettled
    ⟨⟨0, "s", 0⟩, .tail _ (.head _), rfl⟩ hopened hexpected
  have hconverged := hiff.mpr hannounced
  obtain ⟨hwriters, hreaders⟩ := hmaps hconverged
  exact ⟨hconverged, hwriters, hreaders, hagree 0 1 (.tail _ (.head _)) (.head _)⟩

end Gathering

end Stepcast
