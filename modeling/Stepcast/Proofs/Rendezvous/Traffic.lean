import Stepcast.Proofs.Rendezvous.Convergence
import Stepcast.Proofs.Rendezvous.Queues

/-!
# Processes that come back

A process that closes its last stream forgets everything, and a new life begins for it: its slots
count from zero again, and with the next stream it posts its receives anew. The others keep their
slots and receives, and the letters on their way stay. So letters may agree in their keys, and then
they are from different lives of their sender.

Four things hold at every moment: a process is set up as the plan says and has a receive for every
process and slot, or none; groups pass on nothing but the rank of their master; what is sent are
announcements as the plan has them; and in one life a process makes at most one letter for each
process and slot.

Main statements: `Staffed.step`, `Broadcasts.step`, `Posted.step`, `Once.step`.
-/

namespace Stepcast

/-- The processes of a plan, with all letters that were ever sent, at one moment. -/
structure Traffic where
  members : UInt32 → Coordinator
  /-- The inboxes of the groups, in the order of the applications. -/
  groups : List Group
  mail : Mail := []
  /-- The openings that wait for the broadcast. -/
  waiting : List Opening := []
  /-- The letters that are to be sent. -/
  unsent : Mail := []
  /-- The letters that were sent, the oldest first. -/
  sent : Mail := []
  /-- How many letters with a key the addressee took in its earlier lives. -/
  spent : MailKey → Nat := fun _ => 0
  /-- How many letters with a key the sender sent in its earlier lives. -/
  past : MailKey → Nat := fun _ => 0

namespace Traffic

/-- The processes before anything has happened. -/
def initial (plan : Plan) : Traffic :=
  { members := fun p => { rank := p, poolSize := plan.poolSize, settings := plan.settings }
    groups := plan.applications.map (fun app => Group.ofSize app.members.length) }

/-- How many letters with a key have been taken. -/
def taken (w : Traffic) (key : MailKey) : Nat :=
  (w.sent.waiting key).length - (w.mail.waiting key).length

/-- A process, now `c`, has taken a slot. -/
def openAt (w : Traffic) (o : Opening) (c : Coordinator) : Traffic :=
  { w with members := Function.update w.members o.process c, waiting := o :: w.waiting }

/-- A process has polled. -/
def pollAt (w : Traffic) (p : UInt32) : Traffic :=
  { w with
    members := Function.update w.members p ((w.members p).poll w.mail).1
    mail := ((w.members p).poll w.mail).2 }

/-- A process has closed a stream that was not its last one. -/
def closeAt (w : Traffic) (p : UInt32) : Traffic :=
  { w with members := Function.update w.members p (w.members p).finalize.2 }

/-- A process has closed its last stream. -/
def leaveAt (w : Traffic) (p : UInt32) : Traffic :=
  { w.closeAt p with
    spent := fun key => if key.dest = p then w.taken key else w.spent key
    past := fun key => if key.source = p then (w.sent.waiting key).length else w.past key }

/-- No opening of the process is under way. -/
def Idle (w : Traffic) (p : UInt32) : Prop :=
  (∀ o ∈ w.waiting, o.process ≠ p) ∧ ∀ l ∈ w.unsent, l.key.source ≠ p

/-- What can happen next. -/
inductive Step (plan : Plan) : Traffic → Traffic → Prop
  /-- A process opens a stream, one that it opened before or not, and takes a slot for it. -/
  | takeSlot {w : Traffic} {app : Application} {p slot : UInt32} {stream : String}
      {c : Coordinator} :
      app ∈ plan.applications → p ∈ app.members → (app.role? stream).isSome →
      (w.members p).takeSlot stream = .ok (slot, c) →
      Step plan w (w.openAt ⟨p, stream, slot⟩ c)
  /-- The member `k` of a group has its part in the broadcast and makes up its announcements. -/
  | announce {w : Traffic} {i k : Nat} {app : Application} {g g' : Group} {o : Opening}
      {before after : List Opening} {role : Role} {master : UInt32} {letters : List Letter} :
      w.waiting = before ++ o :: after →
      plan.applications[i]? = some app → app.members[k]? = some o.process →
      app.role? o.stream = some role → w.groups[i]? = some g →
      g.broadcast k (w.members o.process).rank 0 = some (.ok master, g') →
      (w.members o.process).announce o.slot role o.stream master (UInt32.ofNat g.size) =
        .ok letters →
      Step plan w { w with
        groups := w.groups.set i g'
        waiting := before ++ after
        unsent := w.unsent ++ letters }
  /-- One announcement is sent. -/
  | send {w : Traffic} {l : Letter} {before after : List Letter} {mail : Mail} :
      w.unsent = before ++ l :: after →
      w.mail.send plan.poolSize l.key l.body = .ok mail →
      Step plan w { w with mail, unsent := before ++ after, sent := w.sent ++ [l] }
  /-- A process polls, as it does time and again while it waits for a stream. -/
  | poll {w : Traffic} (p : UInt32) : Step plan w (w.pollAt p)
  /-- A process closes a stream, and others are still open. -/
  | close {w : Traffic} {p : UInt32} :
      (w.members p).finalize.1 = false → Step plan w (w.closeAt p)
  /-- A process that opens no stream at the moment closes its last one. -/
  | leave {w : Traffic} {p : UInt32} :
      (w.members p).finalize.1 = true → w.Idle p → Step plan w (w.leaveAt p)

/-- The states that the processes can come to. -/
inductive Reachable (plan : Plan) : Traffic → Prop
  | initial : Reachable plan (initial plan)
  | step {w w' : Traffic} : Reachable plan w → Step plan w w' → Reachable plan w'

theorem members_openAt (w : Traffic) (o : Opening) (c : Coordinator) (q : UInt32) :
    (w.openAt o c).members q = if q = o.process then c else w.members q :=
  Function.update_apply ..

theorem members_pollAt (w : Traffic) (p q : UInt32) : (w.pollAt p).members q =
    if q = p then ((w.members p).poll w.mail).1 else w.members q :=
  Function.update_apply ..

theorem members_closeAt (w : Traffic) (p q : UInt32) : (w.closeAt p).members q =
    if q = p then (w.members p).finalize.2 else w.members q :=
  Function.update_apply ..

end Traffic

/-! ## One process -/

namespace Coordinator

/-- The process `p` as the plan sets it up: once it has taken a slot, it has a receive for every
process and slot. -/
structure Serves (plan : Plan) (p : UInt32) (c : Coordinator) : Prop where
  rank : c.rank = p
  poolSize : c.poolSize = plan.poolSize
  settings : c.settings = plan.settings
  slots : c.nextSlot ≤ plan.settings.maxStreams
  receives : c.nextSlot = 0 ∧ c.receives = [] ∨
    c.receives.map Receive.key = c.allReceives.map Receive.key

variable {plan : Plan} {p : UInt32} {c c' : Coordinator}

theorem allReceives_congr (hrank : c'.rank = c.rank) (hpool : c'.poolSize = c.poolSize)
    (hsettings : c'.settings = c.settings) : c'.allReceives = c.allReceives := by
  rw [allReceives, allReceives, hrank, hpool, hsettings]

theorem Serves.takeSlot (h : c.Serves plan p) {stream : String} {slot : UInt32}
    (hslot : c.takeSlot stream = .ok (slot, c')) : c'.Serves plan p := by
  obtain ⟨hlt, -, rfl⟩ := Gathering.takeSlot_eq_ok hslot
  refine ⟨h.rank, h.poolSize, h.settings, h.settings ▸ hlt, .inr ?_⟩
  show (if c.receives.isEmpty then c.allReceives else c.receives).map Receive.key = _
  split
  · rfl
  · rename_i hposted
    rcases h.receives with ⟨-, hnone⟩ | hall
    · exact absurd (List.isEmpty_iff.mpr hnone) hposted
    · exact hall

theorem mem_keys_allReceives {key : MailKey} (hdest : key.dest = c.rank)
    (hsource : key.source < c.poolSize) (htag : key.tag.toNat < c.settings.maxStreams) :
    key ∈ c.allReceives.map Receive.key := by
  have hopen : Receive.Open c.allReceives ⟨c.rank, key.source, key.tag⟩ :=
    Gathering.open_allReceives hsource htag
  rw [← hdest] at hopen
  exact hopen.mem_keys

theorem nodup_allReceives (hslots : c.settings.maxStreams < UInt32.size) :
    (c.allReceives.map Receive.key).Nodup := by
  have hword : ∀ m n : Nat, m < UInt32.size → n < UInt32.size →
      UInt32.ofNat m = UInt32.ofNat n → m = n := by
    intro m n hm hn heq
    rw [← UInt32.toNat_ofNat_of_lt' hm, ← UInt32.toNat_ofNat_of_lt' hn, heq]
  rw [allReceives, List.map_flatMap, List.nodup_flatMap]
  constructor
  · intro slot _
    rw [List.map_map]
    refine List.Nodup.map_on (fun m hm n hn heq => ?_) List.nodup_range
    have hm := Nat.lt_trans (List.mem_range.mp hm) c.poolSize.toNat_lt
    have hn := Nat.lt_trans (List.mem_range.mp hn) c.poolSize.toNat_lt
    exact hword m n hm hn (congrArg MailKey.source heq)
  · refine List.nodup_range.imp_of_mem fun {m n} hm hn hne => ?_
    have hm := Nat.lt_trans (List.mem_range.mp hm) hslots
    have hn := Nat.lt_trans (List.mem_range.mp hn) hslots
    intro key hkey hkey'
    simp only [List.map_map, List.mem_map] at hkey hkey'
    obtain ⟨_, -, rfl⟩ := hkey
    obtain ⟨_, -, heq⟩ := hkey'
    exact hne (hword m n hm hn (congrArg MailKey.tag heq.symm))

theorem Serves.nodup_keys (hplan : plan.Valid) (h : c.Serves plan p) :
    (c.receives.map Receive.key).Nodup := by
  rcases h.receives with ⟨-, hnone⟩ | hall
  · rw [hnone]
    exact List.nodup_nil
  · rw [hall]
    exact nodup_allReceives (h.settings ▸ hplan.slots)

theorem Serves.drawn (hplan : plan.Valid) (h : c.Serves plan p) (m : Mail) :
    Drawn c.receives m (testAll c.receives m).1 (c.poll m).1.receives (c.poll m).2 := by
  rw [(sameSetup_poll c m).receives]
  exact drawn_testAll (h.nodup_keys hplan) m

theorem Serves.poll (hplan : plan.Valid) (h : c.Serves plan p) (m : Mail) :
    (c.poll m).1.Serves plan p := by
  have hsetup := sameSetup_poll c m
  have hkeys := (h.drawn hplan m).keys
  refine ⟨hsetup.rank.trans h.rank, hsetup.poolSize.trans h.poolSize,
    hsetup.settings.trans h.settings, hsetup.nextSlot ▸ h.slots, ?_⟩
  rw [hkeys, hsetup.nextSlot, allReceives_congr hsetup.rank hsetup.poolSize hsetup.settings]
  refine h.receives.imp_left fun hnone => ⟨hnone.1, ?_⟩
  rw [hnone.2] at hkeys
  exact List.map_eq_nil_iff.mp hkeys

/-- A process that closes a stream forgets nothing, or all. -/
theorem finalize_eq (c : Coordinator) :
    c.finalize = (false, { c with openStreams := c.openStreams - 1 }) ∨
      c.finalize = (true, { rank := c.rank, poolSize := c.poolSize, settings := c.settings }) := by
  unfold finalize
  by_cases hopen : 0 < c.openStreams - 1
  · exact .inl (if_pos hopen)
  · exact .inr (if_neg hopen)

theorem Serves.finalize (h : c.Serves plan p) : c.finalize.2.Serves plan p := by
  rcases c.finalize_eq with heq | heq
  · rw [heq]
    exact ⟨h.rank, h.poolSize, h.settings, h.slots, h.receives⟩
  · rw [heq]
    exact ⟨h.rank, h.poolSize, h.settings, Nat.zero_le _, .inl ⟨rfl, rfl⟩⟩

end Coordinator

namespace Traffic

/-! ## All processes -/

/-- All processes are set up as the plan says. -/
def Staffed (plan : Plan) (w : Traffic) : Prop := ∀ p, (w.members p).Serves plan p

theorem Staffed.update {plan : Plan} {members : UInt32 → Coordinator}
    (h : ∀ p, (members p).Serves plan p) {p : UInt32} {c : Coordinator} (hc : c.Serves plan p)
    (q : UInt32) : (Function.update members p c q).Serves plan q := by
  rw [Function.update_apply]
  split
  · rename_i hq
    exact hq ▸ hc
  · exact h q

theorem Staffed.step {plan : Plan} (hplan : plan.Valid) {w w' : Traffic} (h : Staffed plan w)
    (hstep : Step plan w w') : Staffed plan w' := by
  cases hstep with
  | @takeSlot app p slot stream c _ _ _ hslot => exact Staffed.update h ((h p).takeSlot hslot)
  | announce => exact h
  | send => exact h
  | poll p => exact Staffed.update h ((h p).poll hplan w.mail)
  | @close p _ => exact Staffed.update h (h p).finalize
  | @leave p _ _ => exact Staffed.update h (h p).finalize

/-! ## Announcements -/

/-- Groups pass on nothing but the rank of their master. -/
def Broadcasts (plan : Plan) (w : Traffic) : Prop :=
  ∀ (i : Nat) (app : Application) (g : Group), plan.applications[i]? = some app →
    w.groups[i]? = some g → g.size = app.members.length ∧ g.Holds app.master

/-- The letter is an announcement as the plan has it. -/
structure Genuine (plan : Plan) (l : Letter) : Prop where
  slot_lt : l.key.tag.toNat < plan.settings.maxStreams
  reads : ∃ app ∈ plan.applications, l.key.source ∈ app.members ∧ ∃ role stream,
    app.role? stream = some role ∧
      Announcement.decode l.body = .ok (app.announcement role stream)

/-- Slots are within the limit, and what is sent are announcements as the plan has them. -/
structure Posted (plan : Plan) (w : Traffic) : Prop where
  slot_lt : ∀ o ∈ w.waiting, o.slot.toNat < plan.settings.maxStreams
  unsent : ∀ l ∈ w.unsent, Genuine plan l
  sent : ∀ l ∈ w.sent, Genuine plan l

section Announcing

variable {plan : Plan} {w : Traffic} {i k : Nat} {app : Application} {g g' : Group} {o : Opening}
  {role : Role} {master : UInt32} {letters : List Letter}

/-- In a broadcast of a group, each member gets the rank of the first one. -/
theorem Broadcasts.broadcast (hstaffed : Staffed plan w) (h : Broadcasts plan w)
    (happ : plan.applications[i]? = some app) (hk : app.members[k]? = some o.process)
    (hg : w.groups[i]? = some g)
    (hb : g.broadcast k (w.members o.process).rank 0 = some (.ok master, g')) :
    master = app.master ∧ g.size = app.members.length ∧ g'.size = g.size ∧
      g'.Holds app.master := by
  obtain ⟨hsize, hholds⟩ := h i app g happ hg
  have hroot : k = 0 → (w.members o.process).rank = app.master := fun hroot => by
    rw [(hstaffed o.process).rank, app.master_eq hk hroot]
  obtain ⟨hmaster, hsize', hholds'⟩ := Group.holds_broadcast hholds hroot hb
  exact ⟨hmaster, hsize, hsize', hholds'⟩

theorem Posted.genuine (hplan : plan.Valid) (hstaffed : Staffed plan w)
    (h : Posted plan w) (ho : o ∈ w.waiting) (happ : app ∈ plan.applications)
    (hmember : o.process ∈ app.members) (hrole : app.role? o.stream = some role)
    (hann : (w.members o.process).announce o.slot role o.stream app.master
      (UInt32.ofNat app.members.length) = .ok letters) : ∀ l ∈ letters, Genuine plan l := by
  intro l hl
  obtain ⟨body, hbody, rfl⟩ := Gathering.announce_eq_ok hann
  obtain ⟨hsource, htag, rfl⟩ := Gathering.mem_letters hl
  rw [(hstaffed o.process).rank] at hsource
  have hname := hplan.names app happ o.stream (by rw [hrole]; rfl)
  exact ⟨htag ▸ h.slot_lt o ho, app, happ, hsource ▸ hmember, role, o.stream, hrole,
    Announcement.decode_of_encode hname hbody⟩

end Announcing

theorem Broadcasts.step {plan : Plan} {w w' : Traffic} (hstaffed : Staffed plan w)
    (h : Broadcasts plan w) (hstep : Step plan w w') : Broadcasts plan w' := by
  cases hstep with
  | takeSlot => exact h
  | send => exact h
  | poll => exact h
  | close => exact h
  | leave => exact h
  | @announce i k app g g' o before after role master letters hwaiting happ hk hrole hg hb hann =>
    obtain ⟨-, hsize, hsize', hholds⟩ := h.broadcast hstaffed happ hk hg hb
    refine Group.forall_set h fun app' happ' => ?_
    rw [happ] at happ'
    cases happ'
    exact ⟨hsize'.trans hsize, hholds⟩

theorem Posted.step {plan : Plan} (hplan : plan.Valid) {w w' : Traffic}
    (hstaffed : Staffed plan w) (hbroadcasts : Broadcasts plan w) (h : Posted plan w)
    (hstep : Step plan w w') : Posted plan w' := by
  cases hstep with
  | @takeSlot app p slot stream c _ _ _ hslot =>
    obtain ⟨hlt, rfl, -⟩ := Gathering.takeSlot_eq_ok hslot
    rw [(hstaffed p).settings] at hlt
    have hword : (UInt32.ofNat (w.members p).nextSlot).toNat = (w.members p).nextSlot :=
      UInt32.toNat_ofNat_of_lt' (Nat.lt_trans hlt hplan.slots)
    refine ⟨fun o ho => ?_, h.unsent, h.sent⟩
    rcases List.mem_cons.mp ho with rfl | ho
    · show (UInt32.ofNat (w.members p).nextSlot).toNat < _
      rw [hword]
      exact hlt
    · exact h.slot_lt o ho
  | @announce i k app g g' o before after role master letters hwaiting happ hk hrole hg hb hann =>
    obtain ⟨rfl, hsize, -, -⟩ := hbroadcasts.broadcast hstaffed happ hk hg hb
    rw [hsize] at hann
    have ho : o ∈ w.waiting := hwaiting ▸ List.mem_append_right _ List.mem_cons_self
    refine ⟨fun o' ho' => h.slot_lt o' ?_, fun l hl => ?_, h.sent⟩
    · rw [hwaiting]
      simp only [List.mem_append, List.mem_cons] at ho' ⊢
      exact ho'.imp_right .inr
    · rcases List.mem_append.mp hl with hl | hl
      · exact h.unsent l hl
      · exact h.genuine hplan hstaffed ho (List.mem_of_getElem? happ) (List.mem_of_getElem? hk)
          hrole hann l hl
  | @send l before after mail hunsent hmail =>
    have hmem : ∀ l' ∈ before ++ l :: after, Genuine plan l' := hunsent ▸ h.unsent
    refine ⟨h.slot_lt, fun l' hl' => hmem l' ?_, fun l' hl' => ?_⟩
    · simp only [List.mem_append, List.mem_cons] at hl' ⊢
      exact hl'.imp_right .inr
    · rcases List.mem_append.mp hl' with hl' | hl'
      · exact h.sent l' hl'
      · obtain rfl := List.mem_singleton.mp hl'
        exact hmem _ (List.mem_append_right _ List.mem_cons_self)
  | poll => exact ⟨h.slot_lt, h.unsent, h.sent⟩
  | close => exact ⟨h.slot_lt, h.unsent, h.sent⟩
  | leave => exact ⟨h.slot_lt, h.unsent, h.sent⟩

/-! ## One letter for each key and life -/

/-- How many openings wait of the slot and process that a key names. -/
def pending (w : Traffic) (key : MailKey) : Nat :=
  w.waiting.countP (fun o => o.process = key.source ∧ o.slot = key.tag)

/-- How many letters there are with a key, with those still to be sent or to be written. -/
def made (w : Traffic) (key : MailKey) : Nat :=
  (w.sent.waiting key).length + (w.unsent.waiting key).length + w.pending key

/-- In one life a process makes one letter with a key at most, and none with a slot that it has not
taken. -/
structure Once (w : Traffic) : Prop where
  past_le : ∀ key, w.past key ≤ (w.sent.waiting key).length
  made_le : ∀ key, w.made key ≤ w.past key + 1
  made_fresh : ∀ key, (w.members key.source).nextSlot ≤ key.tag.toNat → w.made key ≤ w.past key

/-- Steps that make no letter, and after which no process has fewer slots taken. -/
theorem Once.of_made_le {w w' : Traffic} (h : Once w)
    (hmade : ∀ key, w'.made key ≤ w.made key)
    (hsent : ∀ key, (w.sent.waiting key).length ≤ (w'.sent.waiting key).length)
    (hslots : ∀ p, (w.members p).nextSlot ≤ (w'.members p).nextSlot)
    (hpast : w'.past = w.past) : Once w' where
  past_le := fun key => by
    rw [hpast]
    exact Nat.le_trans (h.past_le key) (hsent key)
  made_le := fun key => by
    rw [hpast]
    exact Nat.le_trans (hmade key) (h.made_le key)
  made_fresh := fun key hkey => by
    rw [hpast]
    exact Nat.le_trans (hmade key) (h.made_fresh key (Nat.le_trans (hslots _) hkey))

/-- An opening makes one letter with a key at most. -/
theorem length_waiting_letters_le (c : Coordinator) (slot : UInt32) (body : Bytes) (key : MailKey) :
    (Mail.waiting (c.letters slot body) key).length ≤
      if c.rank = key.source ∧ slot = key.tag then 1 else 0 := by
  have hcount : (Mail.waiting (c.letters slot body) key).length =
      ((c.letters slot body).map Letter.key).count key := by
    rw [Mail.waiting, List.length_map, List.count_eq_countP, List.countP_map,
      List.countP_eq_length_filter]
    rfl
  rw [hcount]
  split
  · exact List.nodup_iff_count_le_one.mp (Gathering.nodup_letters c slot body) key
  · rename_i hother
    rw [Nat.le_zero, List.count_eq_zero]
    intro hkey
    obtain ⟨l, hl, rfl⟩ := List.mem_map.mp hkey
    obtain ⟨hsource, htag, -⟩ := Gathering.mem_letters hl
    exact hother ⟨hsource.symm, htag.symm⟩

/-- The letters that an opening makes take its place. -/
theorem made_announce_le {w : Traffic} {o : Opening} {before after : List Opening}
    (hwaiting : w.waiting = before ++ o :: after) {c : Coordinator} (hrank : c.rank = o.process)
    (body : Bytes) (groups : List Group) (key : MailKey) :
    made { w with
      groups
      waiting := before ++ after
      unsent := w.unsent ++ c.letters o.slot body } key ≤ w.made key := by
  have hletters := length_waiting_letters_le c o.slot body key
  have hpending : w.pending key = (before ++ after).countP
      (fun o => o.process = key.source ∧ o.slot = key.tag) +
        if o.process = key.source ∧ o.slot = key.tag then 1 else 0 := by
    rw [pending, hwaiting, List.perm_middle.countP_eq, List.countP_cons]
    simp only [decide_eq_true_eq]
  rw [hrank] at hletters
  have hunsent := congrArg List.length (Mail.waiting_append w.unsent (c.letters o.slot body) key)
  rw [List.length_append] at hunsent
  show (w.sent.waiting key).length + (Mail.waiting (w.unsent ++ c.letters o.slot body) key).length +
    (before ++ after).countP (fun o => o.process = key.source ∧ o.slot = key.tag) ≤ _
  rw [made]
  omega

theorem made_send {w : Traffic} {l : Letter} {before after : List Letter}
    (hunsent : w.unsent = before ++ l :: after) (mail : Mail) (key : MailKey) :
    made { w with mail, unsent := before ++ after, sent := w.sent ++ [l] } key = w.made key := by
  have hsent := congrArg List.length (Mail.waiting_append w.sent [l] key)
  have hmiddle := congrArg List.length (Mail.waiting_append before (l :: after) key)
  have hrest := congrArg List.length (Mail.waiting_append before after key)
  have hcons : Mail.waiting (l :: after) key =
      Mail.waiting [l] key ++ Mail.waiting after key := Mail.waiting_append [l] after key
  rw [hcons, ← hunsent] at hmiddle
  simp only [List.length_append] at hsent hmiddle hrest
  show (Mail.waiting (w.sent ++ [l]) key).length + (Mail.waiting (before ++ after) key).length +
    w.pending key = _
  rw [made]
  omega

theorem Once.openAt {w : Traffic} (h : Once w) {o : Opening} {c : Coordinator}
    (hslot : o.slot.toNat = (w.members o.process).nextSlot)
    (hnext : c.nextSlot = (w.members o.process).nextSlot + 1) : Once (w.openAt o c) := by
  have hmade : ∀ key, (w.openAt o c).made key = w.made key +
      if o.process = key.source ∧ o.slot = key.tag then 1 else 0 := by
    intro key
    have hpending : (w.openAt o c).pending key = w.pending key +
        if o.process = key.source ∧ o.slot = key.tag then 1 else 0 := by
      rw [pending, Traffic.openAt, List.countP_cons]
      simp only [decide_eq_true_eq, pending]
    rw [made, hpending, ← Nat.add_assoc]
    rfl
  exact {
    past_le := h.past_le
    made_le := fun key => by
      rw [hmade]
      split
      · rename_i hkey
        have hfresh := h.made_fresh key (by rw [← hkey.1, ← hkey.2, hslot])
        exact Nat.succ_le_succ hfresh
      · exact h.made_le key
    made_fresh := fun key hkey => by
      rw [members_openAt] at hkey
      rw [hmade, if_neg]
      · refine h.made_fresh key ?_
        split at hkey
        · rename_i hsource
          rw [hsource]
          omega
        · exact hkey
      · intro hown
        rw [if_pos hown.1.symm, hnext, ← hown.2, hslot] at hkey
        exact Nat.not_succ_le_self _ hkey }

theorem idle_of_settled {w : Traffic} (hwaiting : w.waiting = []) (hunsent : w.unsent = [])
    (p : UInt32) : w.Idle p := by
  constructor
  · rw [hwaiting]
    exact List.forall_mem_nil _
  · rw [hunsent]
    exact List.forall_mem_nil _

/-- With nothing under way, all letters of the process are sent. -/
theorem Idle.made_eq {w : Traffic} {p : UInt32} (h : w.Idle p) {key : MailKey}
    (hkey : key.source = p) : w.made key = (w.sent.waiting key).length := by
  have hunsent : w.unsent.waiting key = [] := by
    refine List.eq_nil_iff_forall_not_mem.mpr fun body hbody => ?_
    exact h.2 _ (Mail.mem_waiting.mp hbody) hkey
  have hpending : w.pending key = 0 := by
    refine List.countP_eq_zero.mpr fun o ho => ?_
    simp [hkey, h.1 o ho]
  rw [made, hunsent, hpending, List.length_nil, Nat.add_zero]

theorem Once.leaveAt {w : Traffic} (h : Once w) {p : UInt32} (hidle : w.Idle p) :
    Once (w.leaveAt p) := by
  have hpast : ∀ key, (w.leaveAt p).past key =
      if key.source = p then (w.sent.waiting key).length else w.past key := fun _ => rfl
  have hmade : ∀ key, (w.leaveAt p).made key = w.made key := fun _ => rfl
  exact {
    past_le := fun key => by
      rw [hpast]
      split
      · exact Nat.le_refl _
      · exact h.past_le key
    made_le := fun key => by
      rw [hpast, hmade]
      split
      · rename_i hkey
        rw [hidle.made_eq hkey]
        exact Nat.le_succ _
      · exact h.made_le key
    made_fresh := fun key hfresh => by
      rw [hpast, hmade]
      split
      · rename_i hkey
        exact Nat.le_of_eq (hidle.made_eq hkey)
      · rename_i hkey
        refine h.made_fresh key ?_
        have hmember : (w.leaveAt p).members key.source = w.members key.source := by
          rw [Traffic.leaveAt, members_closeAt, if_neg hkey]
        exact hmember ▸ hfresh }

theorem Once.step {plan : Plan} (hplan : plan.Valid) {w w' : Traffic} (hstaffed : Staffed plan w)
    (h : Once w) (hstep : Step plan w w') : Once w' := by
  cases hstep with
  | @takeSlot app p slot stream c _ _ _ hslot =>
    obtain ⟨hlt, rfl, rfl⟩ := Gathering.takeSlot_eq_ok hslot
    rw [(hstaffed p).settings] at hlt
    exact h.openAt (UInt32.toNat_ofNat_of_lt' (Nat.lt_trans hlt hplan.slots)) rfl
  | @announce i k app g g' o before after role master letters hwaiting _ _ _ _ _ hann =>
    obtain ⟨body, -, rfl⟩ := Gathering.announce_eq_ok hann
    exact h.of_made_le (made_announce_le hwaiting (hstaffed o.process).rank body _)
      (fun _ => Nat.le_refl _) (fun _ => Nat.le_refl _) rfl
  | @send l before after mail hunsent _ =>
    refine h.of_made_le (fun key => Nat.le_of_eq (made_send hunsent mail key)) (fun key => ?_)
      (fun _ => Nat.le_refl _) rfl
    rw [Mail.waiting_append, List.length_append]
    exact Nat.le_add_right _ _
  | poll p =>
    refine h.of_made_le (fun _ => Nat.le_refl _) (fun _ => Nat.le_refl _) (fun q => ?_) rfl
    rw [members_pollAt]
    split
    · rename_i hq
      rw [hq]
      exact Nat.le_of_eq (Coordinator.sameSetup_poll (w.members p) w.mail).nextSlot.symm
    · exact Nat.le_refl _
  | @close p hlast =>
    refine h.of_made_le (fun _ => Nat.le_refl _) (fun _ => Nat.le_refl _) (fun q => ?_) rfl
    rw [members_closeAt]
    split
    · rename_i hq
      rcases (w.members p).finalize_eq with heq | heq
      · rw [hq, heq]
      · rw [heq] at hlast
        cases hlast
    · exact Nat.le_refl _
  | leave _ hidle => exact h.leaveAt hidle

/-! ## A process alone in its group -/

theorem Reachable.sendAll {plan : Plan} {letters : List Letter} {w : Traffic}
    (h : Reachable plan w) (hunsent : w.unsent = letters)
    (hdest : ∀ l ∈ letters, l.key.dest < plan.poolSize) :
    Reachable plan { w with
      mail := w.mail ++ letters
      unsent := []
      sent := w.sent ++ letters } := by
  induction letters generalizing w with
  | nil =>
    obtain ⟨members, groups, mail, waiting, unsent, sent, spent, past⟩ := w
    obtain rfl : unsent = [] := hunsent
    rw [List.append_nil, List.append_nil]
    exact h
  | cons l rest ih =>
    have hsend : w.mail.send plan.poolSize l.key l.body = .ok (w.mail ++ [l]) :=
      if_neg (UInt32.not_le.mpr (hdest l List.mem_cons_self))
    have hfirst : w.unsent = [] ++ l :: rest := hunsent
    have hsent := h.step (.send hfirst hsend)
    have hrest := ih hsent rfl fun l' hl' => hdest l' (List.mem_cons_of_mem _ hl')
    simpa using hrest

/-- A process that is alone in its group can open a stream without a pause, in every life. -/
theorem Reachable.opensAlone {plan : Plan} {w : Traffic} (h : Reachable plan w)
    (hwaiting : w.waiting = []) (hunsent : w.unsent = []) {app : Application} {o : Opening}
    {role : Role} {c : Coordinator} {letters : List Letter} {i : Nat}
    (happ : plan.applications[i]? = some app) (halone : app.members = [o.process])
    (hrole : app.role? o.stream = some role) (hgroup : w.groups[i]? = some (Group.ofSize 1))
    (hslot : (w.members o.process).takeSlot o.stream = .ok (o.slot, c))
    (hletters : c.announce o.slot role o.stream c.rank 1 = .ok letters)
    (hdest : ∀ l ∈ letters, l.key.dest < plan.poolSize) :
    Reachable plan { w with
      members := Function.update w.members o.process c
      mail := w.mail ++ letters
      sent := w.sent ++ letters } := by
  have hmember : (w.openAt o c).members o.process = c := (members_openAt ..).trans (if_pos rfl)
  have hopened := h.step (.takeSlot (List.mem_of_getElem? happ)
    (halone ▸ List.mem_cons_self) (by rw [hrole]; rfl) hslot)
  have hwait : (w.openAt o c).waiting = [] ++ o :: [] := congrArg (o :: ·) hwaiting
  have hannounced := hopened.step (.announce (k := 0) hwait happ (by rw [halone]; rfl) hrole hgroup
    (by rw [hmember]; exact Group.broadcast_ofSize_one _) (by rw [hmember]; exact hletters))
  have hsent := hannounced.sendAll (show w.unsent ++ letters = letters by rw [hunsent]; rfl) hdest
  simpa only [openAt, set_eq_self_of_getElem? hgroup, hwaiting, hunsent, List.append_nil]
    using hsent

end Traffic

end Stepcast
