import Mathlib.Logic.Function.Basic
import Stepcast.Proofs.Outcomes
import Stepcast.Proofs.Rendezvous.Agreement
import Stepcast.Proofs.Rendezvous.Announcements
import Stepcast.Proofs.Rendezvous.Inboxes

/-!
# Processes that gather

All processes of a plan run at once. Opening a stream is not one step: a process takes a slot, waits
for the broadcast of its group, and then sends its announcement to one process after the other.
Between any two of these other processes do the same, and poll for what was sent to them.

Three things hold at every moment: a process uses a slot for one opening only, groups pass on
nothing but the rank of their master, and the letters on their way are announcements as the plan has
them, no two of them alike in their keys.

Main statements: `Openings.step`, `Broadcasts.step`, `Posted.step`.
-/

namespace Stepcast

/-! ## Announcing -/

namespace Coordinator

/-- What remains of opening a stream when the slot is taken and the broadcast is over. -/
def announce (c : Coordinator) (slot : UInt32) (role : Role) (stream : String)
    (master groupSize : UInt32) : Except Fault (List Letter) := do
  let body ← Announcement.encode { role, master, groupSize, stream } c.settings.maxName
  return c.letters slot body

/-- Opening a stream is taking a slot, and then announcing it. -/
theorem start_eq {c c' : Coordinator} {slot : UInt32} {stream : String}
    (h : c.takeSlot stream = .ok (slot, c')) (role : Role) (master groupSize : UInt32) :
    c.start role stream (.ok master) groupSize =
      (c', c'.announce slot role stream master groupSize) := by
  rw [start, h]
  rfl

end Coordinator

/-! ## Broadcasts -/

namespace Group

/-- No other value than `value` waits in an inbox. -/
def Holds (g : Group) (value : UInt32) : Prop := ∀ inbox ∈ g.inboxes, ∀ v ∈ inbox, v = value

theorem holds_ofSize (size : Nat) (value : UInt32) : (ofSize size).Holds value := by
  intro inbox hinbox v hv
  rw [(List.mem_replicate.mp hinbox).2] at hv
  cases hv

theorem holds_push {g : Group} {value : UInt32} (h : g.Holds value) (member : Nat) :
    (g.push member value).Holds value := by
  intro inbox hinbox v hv
  obtain ⟨j, hj⟩ := List.mem_iff_getElem?.mp hinbox
  rw [push, List.getElem?_modify] at hj
  obtain ⟨old, hold, heq⟩ := Option.map_eq_some_iff.mp hj
  have hmem : old ∈ g.inboxes := List.mem_of_getElem? hold
  split at heq
  · rw [← heq] at hv
    rcases List.mem_append.mp hv with hv | hv
    · exact h old hmem v hv
    · exact List.mem_singleton.mp hv
  · exact h old hmem v (heq ▸ hv)

theorem holds_foldl_push {g : Group} {value : UInt32} (h : g.Holds value) (members : List Nat) :
    (members.foldl (fun g other => g.push other value) g).size = g.size ∧
      (members.foldl (fun g other => g.push other value) g).Holds value := by
  induction members generalizing g with
  | nil => exact ⟨rfl, h⟩
  | cons member rest ih =>
    obtain ⟨hsize, hholds⟩ := ih (holds_push h member)
    exact ⟨hsize.trans (size_push g member value), hholds⟩

theorem holds_pop? {g g' : Group} {value v : UInt32} {member : Nat} (h : g.Holds value)
    (hpop : g.pop? member = some (v, g')) : v = value ∧ g'.size = g.size ∧ g'.Holds value := by
  unfold pop? at hpop
  split at hpop
  · rename_i w rest hat
    cases hpop
    have hmem := List.mem_of_getElem? hat
    refine ⟨h _ hmem v List.mem_cons_self, by simp [size], fun inbox hinbox u hu => ?_⟩
    rcases List.mem_or_eq_of_mem_set hinbox with hinbox | rfl
    · exact h inbox hinbox u hu
    · exact h _ hmem u (List.mem_cons_of_mem _ hu)
  · cases hpop

/-- A broadcast of the master gives its rank to everyone. -/
theorem holds_broadcast {g g' : Group} {value v master : UInt32} {k : Nat} (h : g.Holds value)
    (hroot : k = 0 → v = value) (hb : g.broadcast k v 0 = some (.ok master, g')) :
    master = value ∧ g'.size = g.size ∧ g'.Holds value := by
  unfold broadcast at hb
  split at hb
  · cases hb
  · split at hb
    · rename_i hk
      obtain rfl := hroot hk
      cases hb
      exact ⟨rfl, holds_foldl_push h _⟩
    · obtain ⟨⟨v', g''⟩, hpop, heq⟩ := Option.map_eq_some_iff.mp hb
      cases heq
      exact holds_pop? h hpop

theorem broadcast_ofSize_one (value : UInt32) :
    (ofSize 1).broadcast 0 value 0 = some (.ok value, ofSize 1) := rfl

theorem forall_set {α : Type} {P : α → Group → Prop} {as : List α} {groups : List Group}
    (h : ∀ (i : Nat) (a : α) (g : Group), as[i]? = some a → groups[i]? = some g → P a g) {i : Nat}
    {g' : Group} (hnew : ∀ a, as[i]? = some a → P a g') (j : Nat) (a : α) (g : Group)
    (ha : as[j]? = some a) (hg : (groups.set i g')[j]? = some g) : P a g := by
  rw [List.getElem?_set] at hg
  split at hg
  · rename_i hij
    subst hij
    split at hg
    · cases hg
      exact hnew a ha
    · cases hg
  · exact h j a g ha hg

end Group

/-! ## The processes of a plan -/

/-- The opening of a stream by a process that has taken a slot for it. -/
structure Opening where
  process : UInt32
  stream : String
  slot : UInt32
deriving DecidableEq

/-- The letter by which an opening is announced to one process. -/
structure Dispatch where
  opening : Opening
  letter : Letter

/-- The letters that announce an opening. -/
def Opening.dispatches (o : Opening) (letters : List Letter) : List Dispatch := letters.map (⟨o, ·⟩)

def Dispatch.key (d : Dispatch) : MailKey := d.letter.key

/-- The processes of a plan at one moment. -/
structure Gathering where
  members : UInt32 → Coordinator
  /-- The inboxes of the groups, in the order of the applications. -/
  groups : List Group
  mail : Mail := []
  /-- The streams that were opened. -/
  openings : List Opening := []
  /-- The openings that wait for the broadcast. -/
  waiting : List Opening := []
  /-- The announcements that are to be sent. -/
  unsent : List Dispatch := []
  /-- The announcements that were sent. -/
  sent : List Dispatch := []
  /-- The processes that waited for a stream until it was settled. -/
  settled : List (UInt32 × String) := []

namespace Gathering

/-- The processes before anything has happened. -/
def initial (plan : Plan) : Gathering :=
  { members := fun p => { rank := p, poolSize := plan.poolSize, settings := plan.settings }
    groups := plan.applications.map (fun app => Group.ofSize app.members.length) }

/-- A process, now `c`, has taken a slot. -/
def openAt (w : Gathering) (o : Opening) (c : Coordinator) : Gathering :=
  { w with
    members := Function.update w.members o.process c
    openings := o :: w.openings
    waiting := o :: w.waiting }

/-- A process has polled. -/
def pollAt (w : Gathering) (p : UInt32) : Gathering :=
  { w with
    members := Function.update w.members p ((w.members p).poll w.mail).1
    mail := ((w.members p).poll w.mail).2 }

theorem members_openAt (w : Gathering) (o : Opening) (c : Coordinator) (q : UInt32) :
    (w.openAt o c).members q = if q = o.process then c else w.members q :=
  Function.update_apply ..

theorem members_pollAt (w : Gathering) (p q : UInt32) : (w.pollAt p).members q =
    if q = p then ((w.members p).poll w.mail).1 else w.members q :=
  Function.update_apply ..

/-- What can happen next. -/
inductive Step (plan : Plan) : Gathering → Gathering → Prop
  /-- A process opens a stream that it has not opened, and takes a slot for it. -/
  | takeSlot {w : Gathering} {app : Application} {p slot : UInt32} {stream : String}
      {c : Coordinator} :
      app ∈ plan.applications → p ∈ app.members → (app.role? stream).isSome →
      (∀ o ∈ w.openings, o.process = p → o.stream ≠ stream) →
      (w.members p).takeSlot stream = .ok (slot, c) →
      Step plan w (w.openAt ⟨p, stream, slot⟩ c)
  /-- The member `k` of a group has its part in the broadcast and makes up its announcements. -/
  | announce {w : Gathering} {i k : Nat} {app : Application} {g g' : Group} {o : Opening}
      {before after : List Opening} {role : Role} {master : UInt32} {letters : List Letter} :
      w.waiting = before ++ o :: after →
      plan.applications[i]? = some app → app.members[k]? = some o.process →
      app.role? o.stream = some role → w.groups[i]? = some g →
      g.broadcast k (w.members o.process).rank 0 = some (.ok master, g') →
      (w.members o.process).announce o.slot role o.stream master (UInt32.ofNat g.size) =
        .ok letters →
      Step plan w { w with
        groups := w.groups.set i g'
        waiting := before ++ after
        unsent := w.unsent ++ o.dispatches letters }
  /-- One announcement is sent. -/
  | send {w : Gathering} {d : Dispatch} {before after : List Dispatch} {mail : Mail} :
      w.unsent = before ++ d :: after →
      w.mail.send plan.poolSize d.letter.key d.letter.body = .ok mail →
      Step plan w { w with mail, unsent := before ++ after, sent := d :: w.sent }
  /-- A process polls. -/
  | poll {w : Gathering} (p : UInt32) : Step plan w (w.pollAt p)
  /-- A process polls and finds a stream settled. -/
  | wait {w : Gathering} {p : UInt32} {stream : String} {c : Coordinator} {mail : Mail} :
      (w.members p).wait w.mail stream = (.ok (), c, mail) →
      Step plan w { w with
        members := Function.update w.members p c
        mail
        settled := (p, stream) :: w.settled }

/-- The states that the processes can come to. -/
inductive Reachable (plan : Plan) : Gathering → Prop
  | initial : Reachable plan (initial plan)
  | step {w w' : Gathering} : Reachable plan w → Step plan w w' → Reachable plan w'

/-- The process has opened a stream. -/
def Started (w : Gathering) (p : UInt32) : Prop := ∃ o ∈ w.openings, o.process = p

/-- The process `q` has sent its announcement of the stream to `p`. -/
def Announced (w : Gathering) (q : UInt32) (stream : String) (p : UInt32) : Prop :=
  ∃ d ∈ w.sent, d.opening.process = q ∧ d.opening.stream = stream ∧ d.letter.key.dest = p

/-! ## Invariants -/

/-- The letter announces the opening to a process of the pool as the plan has it. -/
structure Written (plan : Plan) (d : Dispatch) : Prop where
  source : d.letter.key.source = d.opening.process
  tag : d.letter.key.tag = d.opening.slot
  body : ∃ app ∈ plan.applications, ∃ role, d.opening.process ∈ app.members ∧
    app.role? d.opening.stream = some role ∧
      (app.announcement role d.opening.stream).encode plan.settings.maxName = .ok d.letter.body

/-- Slots are given out once to each opening of a process. -/
structure Openings (plan : Plan) (w : Gathering) : Prop where
  rank : ∀ p, (w.members p).rank = p
  poolSize : ∀ p, (w.members p).poolSize = plan.poolSize
  settings : ∀ p, (w.members p).settings = plan.settings
  slots : ∀ p, (w.members p).nextSlot ≤ plan.settings.maxStreams
  inPool : ∀ o ∈ w.openings, o.process < plan.poolSize
  slot_lt : ∀ o ∈ w.openings, o.slot.toNat < (w.members o.process).nextSlot
  unique : ∀ o ∈ w.openings, ∀ o' ∈ w.openings, o.process = o'.process →
    o.stream = o'.stream ∨ o.slot = o'.slot → o = o'

/-- Groups pass on nothing but the rank of their master. -/
def Broadcasts (plan : Plan) (w : Gathering) : Prop :=
  ∀ (i : Nat) (app : Application) (g : Group), plan.applications[i]? = some app →
    w.groups[i]? = some g → g.size = app.members.length ∧ g.Holds app.master

/-- Announcements are written once for each opening and process, and the mail is what was sent. -/
structure Posted (plan : Plan) (w : Gathering) : Prop where
  nodup_waiting : w.waiting.Nodup
  waiting_sub : ∀ o ∈ w.waiting, o ∈ w.openings
  opening_mem : ∀ d ∈ w.unsent ++ w.sent, d.opening ∈ w.openings ∧ d.opening ∉ w.waiting
  written : ∀ d ∈ w.unsent ++ w.sent, Written plan d
  distinct : ((w.unsent ++ w.sent).map Dispatch.key).Nodup
  mail_distinct : w.mail.Distinct
  mail_sent : ∀ l ∈ w.mail, ∃ d ∈ w.sent, d.letter = l

/-! ## One step: openings -/

theorem takeSlot_eq_ok {c c' : Coordinator} {stream : String} {slot : UInt32}
    (h : c.takeSlot stream = .ok (slot, c')) : c.nextSlot < c.settings.maxStreams ∧
      slot = UInt32.ofNat c.nextSlot ∧ c' = { c with
        receives := if c.receives.isEmpty then c.allReceives else c.receives
        nextSlot := c.nextSlot + 1
        openStreams := c.openStreams + 1 } := by
  unfold Coordinator.takeSlot at h
  split at h
  · cases h
  · split at h
    · cases h
    · rename_i hslot
      cases h
      exact ⟨Nat.lt_of_not_le hslot, rfl, rfl⟩

theorem Openings.pollAt {plan : Plan} {w : Gathering} (h : Openings plan w) (p : UInt32) :
    Openings plan (w.pollAt p) := by
  have hsetup := Coordinator.sameSetup_poll (w.members p) w.mail
  have hmember : ∀ q, ((w.pollAt p).members q).rank = (w.members q).rank ∧
      ((w.pollAt p).members q).poolSize = (w.members q).poolSize ∧
      ((w.pollAt p).members q).settings = (w.members q).settings ∧
      ((w.pollAt p).members q).nextSlot = (w.members q).nextSlot := by
    intro q
    rw [members_pollAt]
    split
    · rename_i hq
      rw [hq]
      exact ⟨hsetup.rank, hsetup.poolSize, hsetup.settings, hsetup.nextSlot⟩
    · exact ⟨rfl, rfl, rfl, rfl⟩
  exact {
    rank := fun q => (hmember q).1.trans (h.rank q)
    poolSize := fun q => (hmember q).2.1.trans (h.poolSize q)
    settings := fun q => (hmember q).2.2.1.trans (h.settings q)
    slots := fun q => (hmember q).2.2.2 ▸ h.slots q
    inPool := h.inPool
    slot_lt := fun o ho => (hmember o.process).2.2.2 ▸ h.slot_lt o ho
    unique := h.unique }

theorem Openings.openAt {plan : Plan} (hplan : plan.Valid) {w : Gathering} (h : Openings plan w)
    {o : Opening} {c : Coordinator} (hpool : o.process < plan.poolSize)
    (hnew : ∀ o' ∈ w.openings, o'.process = o.process → o'.stream ≠ o.stream)
    (hslot : (w.members o.process).takeSlot o.stream = .ok (o.slot, c)) :
    Openings plan (w.openAt o c) := by
  obtain ⟨hlt, hnext, rfl⟩ := takeSlot_eq_ok hslot
  have hslots : plan.settings.maxStreams < UInt32.size := hplan.slots
  rw [h.settings] at hlt
  have hslot : o.slot.toNat = (w.members o.process).nextSlot := by
    rw [hnext]
    exact UInt32.toNat_ofNat_of_lt' (Nat.lt_trans hlt hslots)
  have hfresh : ∀ o' ∈ w.openings, o'.process = o.process →
      ¬ (o'.stream = o.stream ∨ o'.slot = o.slot) := by
    intro o' ho' hprocess
    have hlt' := h.slot_lt o' ho'
    rw [hprocess] at hlt'
    intro hx
    rcases hx with hstream | heq
    · exact hnew o' ho' hprocess hstream
    · rw [heq, hslot] at hlt'
      exact Nat.lt_irrefl _ hlt'
  exact {
    rank := fun q => by
      rw [members_openAt]
      split
      · rename_i hq
        exact hq ▸ h.rank o.process
      · exact h.rank q
    poolSize := fun q => by
      rw [members_openAt]
      split
      · exact h.poolSize o.process
      · exact h.poolSize q
    settings := fun q => by
      rw [members_openAt]
      split
      · exact h.settings o.process
      · exact h.settings q
    slots := fun q => by
      rw [members_openAt]
      split
      · exact hlt
      · exact h.slots q
    inPool := fun o' ho' => by
      rcases List.mem_cons.mp ho' with rfl | ho'
      · exact hpool
      · exact h.inPool o' ho'
    slot_lt := fun o' ho' => by
      rw [members_openAt]
      rcases List.mem_cons.mp ho' with rfl | ho'
      · rw [if_pos rfl, hslot]
        exact Nat.lt_succ_self _
      · have hlt' := h.slot_lt o' ho'
        split
        · rename_i hprocess
          rw [hprocess] at hlt'
          exact Nat.lt_succ_of_lt hlt'
        · exact hlt'
    unique := fun o₁ h₁ o₂ h₂ hprocess hsame => by
      rcases List.mem_cons.mp h₁ with rfl | hold₁
      · rcases List.mem_cons.mp h₂ with rfl | hold₂
        · rfl
        · exact absurd (hsame.imp Eq.symm Eq.symm) (hfresh o₂ hold₂ hprocess.symm)
      · rcases List.mem_cons.mp h₂ with rfl | hold₂
        · exact absurd hsame (hfresh o₁ hold₁ hprocess)
        · exact h.unique o₁ hold₁ o₂ hold₂ hprocess hsame }

theorem wait_eq_ok {c c' : Coordinator} {m m' : Mail} {stream : String}
    (h : c.wait m stream = (.ok (), c', m')) :
    c' = (c.poll m).1 ∧ m' = (c.poll m).2 ∧ c'.converged stream = true := by
  unfold Coordinator.wait at h
  simp only [Prod.mk.injEq] at h
  obtain ⟨hresult, rfl, rfl⟩ := h
  split at hresult
  · rename_i hconverged
    exact ⟨rfl, rfl, hconverged⟩
  · cases hresult

theorem Openings.step {plan : Plan} (hplan : plan.Valid) {w w' : Gathering} (h : Openings plan w)
    (hstep : Step plan w w') : Openings plan w' := by
  cases hstep with
  | takeSlot happ hp _ hnew hslot => exact h.openAt hplan (hplan.inPool _ happ _ hp) hnew hslot
  | announce => exact ⟨h.rank, h.poolSize, h.settings, h.slots, h.inPool, h.slot_lt, h.unique⟩
  | send => exact ⟨h.rank, h.poolSize, h.settings, h.slots, h.inPool, h.slot_lt, h.unique⟩
  | poll p => exact h.pollAt p
  | @wait p stream c mail hwait =>
    obtain ⟨rfl, rfl, -⟩ := wait_eq_ok hwait
    have h := h.pollAt p
    exact ⟨h.rank, h.poolSize, h.settings, h.slots, h.inPool, h.slot_lt, h.unique⟩

/-! ## One step: broadcasts -/

theorem Openings.rank_eq_master {plan : Plan} {w : Gathering} (h : Openings plan w)
    {app : Application} {k : Nat} {p : UInt32} (hk : app.members[k]? = some p) (hroot : k = 0) :
    (w.members p).rank = app.master := by
  rw [h.rank, app.master_eq hk hroot]

theorem Broadcasts.step {plan : Plan} {w w' : Gathering} (hopenings : Openings plan w)
    (h : Broadcasts plan w) (hstep : Step plan w w') : Broadcasts plan w' := by
  cases hstep with
  | takeSlot => exact h
  | send => exact h
  | poll => exact h
  | wait => exact h
  | @announce i k app g g' o before after role master letters hwaiting happ hk hrole hg hb hann =>
    have hholds := h i app g happ hg
    obtain ⟨-, hsize, hholds'⟩ :=
      Group.holds_broadcast hholds.2 (hopenings.rank_eq_master hk) hb
    refine Group.forall_set h fun app' happ' => ?_
    rw [happ] at happ'
    cases happ'
    exact ⟨hsize.trans hholds.1, hholds'⟩

/-! ## One step: the mail -/

theorem announce_eq_ok {c : Coordinator} {slot master size : UInt32} {role : Role}
    {stream : String} {letters : List Letter}
    (h : c.announce slot role stream master size = .ok letters) :
    ∃ body, Announcement.encode ⟨role, master, size, stream⟩ c.settings.maxName = .ok body ∧
      letters = c.letters slot body := by
  obtain ⟨body, hbody, hletters⟩ := bind_eq_ok.mp h
  cases hletters
  exact ⟨body, hbody, rfl⟩

theorem mem_letters {c : Coordinator} {slot : UInt32} {body : Bytes} {l : Letter}
    (h : l ∈ c.letters slot body) : l.key.source = c.rank ∧ l.key.tag = slot ∧ l.body = body := by
  obtain ⟨dest, -, rfl⟩ := List.mem_map.mp h
  exact ⟨rfl, rfl, rfl⟩

theorem nodup_letters (c : Coordinator) (slot : UInt32) (body : Bytes) :
    ((c.letters slot body).map Letter.key).Nodup := by
  rw [Coordinator.letters, List.map_map]
  refine List.Nodup.map_on (fun m hm n hn heq => ?_) List.nodup_range
  have hm := Nat.lt_trans (List.mem_range.mp hm) c.poolSize.toNat_lt
  have hn := Nat.lt_trans (List.mem_range.mp hn) c.poolSize.toNat_lt
  have hdest : UInt32.ofNat m = UInt32.ofNat n := congrArg MailKey.dest heq
  rw [← UInt32.toNat_ofNat_of_lt' hm, ← UInt32.toNat_ofNat_of_lt' hn, hdest]

theorem Posted.sent_key_ne {plan : Plan} {w : Gathering} (h : Posted plan w) {d d' : Dispatch}
    (hd : d ∈ w.unsent) (hd' : d' ∈ w.sent) : d.key ≠ d'.key := by
  have hdistinct := h.distinct
  rw [List.map_append, List.nodup_append] at hdistinct
  exact hdistinct.2.2 _ (List.mem_map_of_mem hd) _ (List.mem_map_of_mem hd')

theorem Posted.openAt {plan : Plan} {w : Gathering} (h : Posted plan w) {o : Opening}
    (c : Coordinator) (hnew : o ∉ w.openings) : Posted plan (w.openAt o c) where
  nodup_waiting := List.nodup_cons.mpr ⟨fun ho => hnew (h.waiting_sub o ho), h.nodup_waiting⟩
  waiting_sub := by
    intro o' ho'
    rcases List.mem_cons.mp ho' with rfl | ho'
    · exact List.mem_cons_self
    · exact List.mem_cons_of_mem _ (h.waiting_sub o' ho')
  opening_mem := by
    intro d hd
    obtain ⟨hmem, hnot⟩ := h.opening_mem d hd
    refine ⟨List.mem_cons_of_mem _ hmem, fun hwaiting => ?_⟩
    rcases List.mem_cons.mp hwaiting with rfl | hwaiting
    · exact hnew hmem
    · exact hnot hwaiting
  written := h.written
  distinct := h.distinct
  mail_distinct := h.mail_distinct
  mail_sent := h.mail_sent

/-- The announcements of an opening are new: none were made while it waited. -/
theorem Posted.announce {plan : Plan} {w : Gathering} (hopenings : Openings plan w)
    (h : Posted plan w) {o : Opening} {before after : List Opening}
    (hwaiting : w.waiting = before ++ o :: after) {app : Application} {role : Role} {body : Bytes}
    (happ : app ∈ plan.applications) (hmember : o.process ∈ app.members)
    (hrole : app.role? o.stream = some role)
    (hbody : (app.announcement role o.stream).encode plan.settings.maxName = .ok body)
    (groups : List Group) :
    Posted plan { w with
      groups
      waiting := before ++ after
      unsent := w.unsent ++ o.dispatches ((w.members o.process).letters o.slot body) } := by
  have ho : o ∈ w.waiting := hwaiting ▸ List.mem_append_right _ List.mem_cons_self
  have hnodup := h.nodup_waiting
  have hsub : ∀ o' ∈ before ++ after, o' ∈ w.waiting := by
    intro o' ho'
    rw [hwaiting]
    simp only [List.mem_append, List.mem_cons] at ho' ⊢
    exact ho'.imp_right .inr
  rw [hwaiting, List.nodup_middle, List.nodup_cons] at hnodup
  let fresh := o.dispatches ((w.members o.process).letters o.slot body)
  have hperm : (w.unsent ++ fresh ++ w.sent).Perm (fresh ++ (w.unsent ++ w.sent)) := by
    rw [← List.append_assoc]
    exact List.perm_append_comm.append_right w.sent
  have hfresh : ∀ d ∈ fresh, d.opening = o ∧ d.key.source = o.process ∧ d.key.tag = o.slot ∧
      d.letter.body = body := by
    intro d hd
    obtain ⟨l, hl, rfl⟩ := List.mem_map.mp hd
    obtain ⟨hsource, htag, hbody⟩ := mem_letters hl
    exact ⟨rfl, hsource.trans (hopenings.rank _), htag, hbody⟩
  exact {
    nodup_waiting := hnodup.2
    waiting_sub := fun o' ho' => h.waiting_sub o' (hsub o' ho')
    opening_mem := fun d hd => by
      rcases List.mem_append.mp (hperm.mem_iff.mp hd) with hd | hd
      · rw [(hfresh d hd).1]
        exact ⟨h.waiting_sub o ho, hnodup.1⟩
      · obtain ⟨hopening, hnot⟩ := h.opening_mem d hd
        exact ⟨hopening, fun hd => hnot (hsub _ hd)⟩
    written := fun d hd => by
      rcases List.mem_append.mp (hperm.mem_iff.mp hd) with hd | hd
      · obtain ⟨rfl, hsource, htag, hbodyEq⟩ := hfresh d hd
        exact ⟨hsource, htag, app, happ, role, hmember, hrole, hbodyEq ▸ hbody⟩
      · exact h.written d hd
    distinct := by
      have hkeys : fresh.map Dispatch.key =
          ((w.members o.process).letters o.slot body).map Letter.key := List.map_map
      have hdisjoint : ∀ d ∈ fresh, ∀ d' ∈ w.unsent ++ w.sent, d.key ≠ d'.key := by
        intro d hd d' hd' heq
        obtain ⟨-, hsource, htag, -⟩ := hfresh d hd
        have hwritten := h.written d' hd'
        obtain ⟨hopening, hnot⟩ := h.opening_mem d' hd'
        refine hnot (hopenings.unique _ hopening o (h.waiting_sub o ho) ?_ (.inr ?_) ▸ ho)
        · rw [← hwritten.source, ← hsource, heq]
          rfl
        · rw [← hwritten.tag, ← htag, heq]
          rfl
      rw [(hperm.map Dispatch.key).nodup_iff, List.map_append, List.nodup_append]
      refine ⟨hkeys ▸ nodup_letters _ _ _, h.distinct, fun key hkey key' hkey' => ?_⟩
      obtain ⟨d, hd, rfl⟩ := List.mem_map.mp hkey
      obtain ⟨d', hd', rfl⟩ := List.mem_map.mp hkey'
      exact hdisjoint d hd d' hd'
    mail_distinct := h.mail_distinct
    mail_sent := h.mail_sent }

theorem send_eq_ok {m m' : Mail} {size : UInt32} {l : Letter}
    (h : m.send size l.key l.body = .ok m') : m' = m ++ [l] := by
  unfold Mail.send at h
  split at h
  · cases h
  · cases h
    rfl

theorem Posted.send {plan : Plan} {w : Gathering} (h : Posted plan w) {d : Dispatch}
    {before after : List Dispatch} (hunsent : w.unsent = before ++ d :: after) :
    Posted plan { w with
      mail := w.mail ++ [d.letter]
      unsent := before ++ after
      sent := d :: w.sent } := by
  have hperm : (before ++ after ++ d :: w.sent).Perm (w.unsent ++ w.sent) := by
    rw [hunsent, List.append_assoc, List.append_assoc]
    exact List.perm_middle.append_left before
  have hnodup := (hperm.map Dispatch.key).nodup_iff.mpr h.distinct
  exact {
    nodup_waiting := h.nodup_waiting
    waiting_sub := h.waiting_sub
    opening_mem := fun d' hd' => h.opening_mem d' (hperm.mem_iff.mp hd')
    written := fun d' hd' => h.written d' (hperm.mem_iff.mp hd')
    distinct := hnodup
    mail_distinct := by
      rw [Mail.Distinct, List.map_append, List.nodup_append]
      refine ⟨h.mail_distinct, List.nodup_singleton _, fun key hkey key' hkey' => ?_⟩
      obtain ⟨l, hl, rfl⟩ := List.mem_map.mp hkey
      obtain ⟨d', hd', rfl⟩ := h.mail_sent l hl
      obtain rfl := List.mem_singleton.mp hkey'
      have hd : d ∈ w.unsent := hunsent ▸ List.mem_append_right _ List.mem_cons_self
      exact (h.sent_key_ne hd hd').symm
    mail_sent := fun l hl => by
      rcases List.mem_append.mp hl with hl | hl
      · obtain ⟨d', hd', heq⟩ := h.mail_sent l hl
        exact ⟨d', List.mem_cons_of_mem _ hd', heq⟩
      · exact ⟨d, List.mem_cons_self, (List.mem_singleton.mp hl).symm⟩ }

theorem Posted.pollAt {plan : Plan} {w : Gathering} (h : Posted plan w) (p : UInt32) :
    Posted plan (w.pollAt p) := by
  have hsub := (Coordinator.tested_testAll (w.members p).receives h.mail_distinct).sublist
  exact { h with
    mail_distinct := h.mail_distinct.sublist hsub
    mail_sent := fun l hl => h.mail_sent l (hsub.mem hl) }

theorem Posted.step {plan : Plan} {w w' : Gathering} (hopenings : Openings plan w)
    (hbroadcasts : Broadcasts plan w) (h : Posted plan w) (hstep : Step plan w w') :
    Posted plan w' := by
  cases hstep with
  | takeSlot happ hp _ hnew hslot => exact h.openAt _ fun ho => hnew _ ho rfl rfl
  | @announce i k app g g' o before after role master letters hwaiting happ hk hrole hg hb hann =>
    obtain ⟨body, hbody, rfl⟩ := announce_eq_ok hann
    obtain ⟨hsize, hholds⟩ := hbroadcasts i app g happ hg
    obtain ⟨rfl, -, -⟩ := Group.holds_broadcast hholds (hopenings.rank_eq_master hk) hb
    rw [hopenings.settings, hsize] at hbody
    exact h.announce hopenings hwaiting (List.mem_of_getElem? happ) (List.mem_of_getElem? hk)
      hrole hbody _
  | send hunsent hmail =>
    rw [send_eq_ok hmail]
    exact h.send hunsent
  | poll p => exact h.pollAt p
  | @wait p stream c mail hwait =>
    obtain ⟨rfl, rfl, -⟩ := wait_eq_ok hwait
    exact { h.pollAt p with }

/-! ## A process alone in its group -/

theorem Reachable.sendAll {plan : Plan} {o : Opening} {letters : List Letter} {w : Gathering}
    (h : Reachable plan w) (hunsent : w.unsent = o.dispatches letters)
    (hdest : ∀ l ∈ letters, l.key.dest < plan.poolSize) :
    Reachable plan { w with
      mail := w.mail ++ letters
      unsent := []
      sent := (o.dispatches letters).reverse ++ w.sent } := by
  induction letters generalizing w with
  | nil =>
    obtain ⟨members, groups, mail, openings, waiting, unsent, sent, settled⟩ := w
    obtain rfl : unsent = [] := hunsent
    rw [List.append_nil]
    exact h
  | cons l rest ih =>
    have hsend : w.mail.send plan.poolSize l.key l.body = .ok (w.mail ++ [l]) :=
      if_neg (UInt32.not_le.mpr (hdest l List.mem_cons_self))
    have hfirst : w.unsent = [] ++ ⟨o, l⟩ :: o.dispatches rest := hunsent
    have hsent := h.step (.send hfirst hsend)
    have hrest := ih hsent rfl fun l' hl' => hdest l' (List.mem_cons_of_mem _ hl')
    simpa [Opening.dispatches] using hrest

/-- A process that is alone in its group can open a stream without a pause. -/
theorem Reachable.opensAlone {plan : Plan} {w : Gathering} (h : Reachable plan w)
    (hwaiting : w.waiting = []) (hunsent : w.unsent = []) {app : Application} {o : Opening}
    {role : Role} {c : Coordinator} {letters : List Letter} {i : Nat}
    (happ : plan.applications[i]? = some app) (halone : app.members = [o.process])
    (hrole : app.role? o.stream = some role) (hgroup : w.groups[i]? = some (Group.ofSize 1))
    (hnew : ∀ o' ∈ w.openings, o'.process = o.process → o'.stream ≠ o.stream)
    (hslot : (w.members o.process).takeSlot o.stream = .ok (o.slot, c))
    (hletters : c.announce o.slot role o.stream c.rank 1 = .ok letters)
    (hdest : ∀ l ∈ letters, l.key.dest < plan.poolSize) :
    Reachable plan { w with
      members := Function.update w.members o.process c
      mail := w.mail ++ letters
      openings := o :: w.openings
      sent := (o.dispatches letters).reverse ++ w.sent } := by
  have hmember : (w.openAt o c).members o.process = c := (members_openAt ..).trans (if_pos rfl)
  have hopened := h.step (.takeSlot (List.mem_of_getElem? happ)
    (halone ▸ List.mem_cons_self) (by rw [hrole]; rfl) hnew hslot)
  have hwait : (w.openAt o c).waiting = [] ++ o :: [] := congrArg (o :: ·) hwaiting
  have hannounced := hopened.step (.announce (k := 0) hwait happ (by rw [halone]; rfl) hrole hgroup
    (by rw [hmember]; exact Group.broadcast_ofSize_one _) (by rw [hmember]; exact hletters))
  have hsent := hannounced.sendAll (show w.unsent ++ _ = _ by rw [hunsent]; rfl) hdest
  simpa only [openAt, set_eq_self_of_getElem? hgroup, hwaiting, hunsent, List.append_nil]
    using hsent

end Gathering

end Stepcast
