import Stepcast.Proofs.Rendezvous.Traffic
import Stepcast.Rendezvous.Assembly

/-!
# What a process hears when it comes back

Letters with one key wait in a line, and in one life a process takes one of them: the first that it
did not take in an earlier life. So it is not what its peers announce in their present lives that
counts. A letter that a process left in the line when it closed its last stream comes first in its
next life; and a process that keeps its receives takes no second letter from a peer whose slots
start over.

A stream is settled just if the letters that come next in the lines announce it. Where a process and
its peers came back in step, so that it has taken just what they sent in their earlier lives, these
are the announcements of their present lives.

Main statements: `Aware.step`, `settles_iff_hears`, `misses_reopened_stream`.
-/

namespace Stepcast

namespace Receive

theorem Open.not_closed {receives : List Receive} (hkeys : (receives.map Receive.key).Nodup)
    {key : MailKey} (h : Open receives key) : ¬ Closed receives key := by
  obtain ⟨r, hr, rfl, hopen⟩ := h
  intro hclosed
  obtain ⟨r', hr', hkey, hdone⟩ := hclosed
  obtain rfl := List.inj_on_of_nodup_map hkeys hr' hr hkey
  rw [hopen] at hdone
  cases hdone

theorem open_or_closed {receives : List Receive} {key : MailKey}
    (h : key ∈ receives.map Receive.key) : Open receives key ∨ Closed receives key := by
  obtain ⟨r, hr, rfl⟩ := List.mem_map.mp h
  cases hdone : r.done with
  | false => exact .inl ⟨r, hr, rfl, hdone⟩
  | true => exact .inr ⟨r, hr, rfl, hdone⟩

end Receive

theorem Coordinator.Serves.dest_eq {plan : Plan} {p : UInt32} {c : Coordinator}
    (h : c.Serves plan p) {key : MailKey} (hkey : key ∈ c.receives.map Receive.key) :
    key.dest = p := by
  rcases h.receives with ⟨-, hnone⟩ | hall
  · rw [hnone] at hkey
    cases hkey
  · rw [hall] at hkey
    obtain ⟨r, hr, rfl⟩ := List.mem_map.mp hkey
    exact (Gathering.dest_of_mem_allReceives hr).trans h.rank

namespace Traffic

/-! ## What counts -/

/-- The addressee has taken a letter with the key in its present life. -/
def Took (w : Traffic) (key : MailKey) : Prop :=
  Receive.Closed (w.members key.dest).receives key

/-- The first letter with a key that its addressee did not take in an earlier life. -/
def next? (w : Traffic) (key : MailKey) : Option Bytes := (w.sent.waiting key)[w.spent key]?

/-- What the letters say that a process has taken in its present life. -/
def Counted (w : Traffic) (p : UInt32) (x : UInt32 × Announcement) : Prop :=
  ∃ slot body, w.Took ⟨p, x.1, slot⟩ ∧ w.next? ⟨p, x.1, slot⟩ = some body ∧
    Announcement.decode body = .ok x.2

/-- Of the letters in a line, the first `n` were taken and the others wait. -/
structure Lined (sent waiting : List Bytes) (n : Nat) : Prop where
  le : n ≤ sent.length
  eq : waiting = sent.drop n

theorem Lined.append {sent waiting : List Bytes} {n : Nat} (h : Lined sent waiting n)
    (more : List Bytes) : Lined (sent ++ more) (waiting ++ more) n where
  le := by
    rw [List.length_append]
    exact Nat.le_add_right_of_le h.le
  eq := by rw [List.drop_append_of_le_length h.le, ← h.eq]

theorem Lined.tail {sent waiting : List Bytes} {n : Nat} (h : Lined sent waiting n)
    (hne : waiting ≠ []) : Lined sent waiting.tail (n + 1) where
  le := by
    rw [h.eq] at hne
    exact Nat.lt_of_not_le fun hle => hne (List.drop_eq_nil_of_le hle)
  eq := by rw [h.eq, List.tail_drop]

theorem Lined.length_sub {sent waiting : List Bytes} {n : Nat} (h : Lined sent waiting n) :
    sent.length - waiting.length = n := by
  have hle := h.le
  rw [h.eq, List.length_drop]
  omega

/-- Each process has taken the letters that come first in the lines, in its present life one of each
line at most, and knows what these say. -/
structure Aware (w : Traffic) : Prop where
  line : ∀ key, ¬ w.Took key → Lined (w.sent.waiting key) (w.mail.waiting key) (w.spent key)
  line_took : ∀ key, w.Took key →
    Lined (w.sent.waiting key) (w.mail.waiting key) (w.spent key + 1)
  knows : ∀ p, (w.members p).Knows (w.Counted p)

/-! ## One step -/

theorem Aware.of_same {w w' : Traffic} (h : Aware w) (hsent : w'.sent = w.sent)
    (hmail : w'.mail = w.mail) (hspent : w'.spent = w.spent)
    (htook : ∀ key, w'.Took key ↔ w.Took key)
    (hknows : ∀ p N, (w.members p).Knows N → (w'.members p).Knows N) : Aware w' where
  line := by simpa only [hsent, hmail, hspent, htook] using h.line
  line_took := by simpa only [hsent, hmail, hspent, htook] using h.line_took
  knows := fun p => (hknows p _ (h.knows p)).congr fun x => by
    simp only [Counted, next?, hsent, hspent, htook]

theorem Aware.send {w : Traffic} (h : Aware w) (l : Letter) (unsent : Mail) :
    Aware { w with mail := w.mail ++ [l], unsent, sent := w.sent ++ [l] } where
  line := fun key hkey => by
    rw [Mail.waiting_append, Mail.waiting_append]
    exact (h.line key hkey).append _
  line_took := fun key hkey => by
    rw [Mail.waiting_append, Mail.waiting_append]
    exact (h.line_took key hkey).append _
  knows := fun p => (h.knows p).congr fun x => by
    refine exists_congr fun slot => exists_congr fun body => and_congr_right fun hkey => ?_
    have hlt : w.spent ⟨p, x.1, slot⟩ < (w.sent.waiting ⟨p, x.1, slot⟩).length :=
      (h.line_took _ hkey).le
    rw [next?, next?, Mail.waiting_append, List.getElem?_append_left hlt]

theorem Aware.next?_eq {w : Traffic} (h : Aware w) {key : MailKey} (hkey : ¬ w.Took key) :
    w.next? key = (w.mail.waiting key).head? := by
  rw [next?, (h.line key hkey).eq, List.head?_drop]

section Poll

variable {plan : Plan} {w : Traffic} {p : UInt32}

theorem Staffed.not_took (hplan : plan.Valid) (hstaffed : Staffed plan w) {key : MailKey}
    (hopen : Receive.Open (w.members p).receives key) : ¬ w.Took key := by
  obtain rfl := (hstaffed p).dest_eq hopen.mem_keys
  exact hopen.not_closed ((hstaffed key.dest).nodup_keys hplan)

/-- With a poll, a process takes a letter from each line that has an open receive. -/
theorem took_pollAt (hplan : plan.Valid) (hstaffed : Staffed plan w) (key : MailKey) :
    (w.pollAt p).Took key ↔ w.Took key ∨
      Receive.Open (w.members p).receives key ∧ w.mail.waiting key ≠ [] := by
  have hdrawn := (hstaffed p).drawn hplan w.mail
  rw [Took, members_pollAt]
  split
  · rename_i hdest
    rw [hdrawn.closed, Took, hdest]
  · rename_i hdest
    refine (or_iff_left fun hx => hdest ?_).symm
    exact (hstaffed p).dest_eq hx.1.mem_keys

theorem Aware.pollAt (hplan : plan.Valid) (hstaffed : Staffed plan w) (h : Aware w) (p : UInt32) :
    Aware (w.pollAt p) := by
  have hdrawn := (hstaffed p).drawn hplan w.mail
  have htook := took_pollAt (p := p) hplan hstaffed
  have hmail : ∀ key, (w.pollAt p).mail.waiting key =
      ((w.members p).poll w.mail).2.waiting key := fun _ => rfl
  exact {
    line := fun key hkey => by
      rw [htook, not_or] at hkey
      have hline := h.line key hkey.1
      by_cases hopen : Receive.Open (w.members p).receives key
      · have hnone : w.mail.waiting key = [] := not_not.mp fun hne => hkey.2 ⟨hopen, hne⟩
        rw [hmail, hdrawn.taken key hopen, hnone]
        rwa [hnone] at hline
      · rw [hmail, hdrawn.left key hopen]
        exact hline
    line_took := fun key hkey => by
      rcases (htook key).mp hkey with hkey | ⟨hopen, hne⟩
      · have hopen : ¬ Receive.Open (w.members p).receives key :=
          fun hopen => hstaffed.not_took hplan hopen hkey
        rw [hmail, hdrawn.left key hopen]
        exact h.line_took key hkey
      · rw [hmail, hdrawn.taken key hopen]
        exact (h.line key (hstaffed.not_took hplan hopen)).tail hne
    knows := fun q => by
      rw [members_pollAt]
      split
      · rename_i hq
        subst hq
        refine ((h.knows q).poll_told w.mail).congr fun x => ?_
        simp only [Coordinator.Told, hdrawn.mem_letters]
        constructor
        · intro hx
          rcases hx with ⟨slot, body, hkey, hrest⟩ | ⟨body, ⟨key, hopen, hsource, hhead⟩, hdecode⟩
          · exact ⟨slot, body, (htook _).mpr (.inl hkey), hrest⟩
          · have hkey : key = ⟨q, x.1, key.tag⟩ := by
              rw [← hsource, ← (hstaffed q).dest_eq hopen.mem_keys]
            have hnot := hstaffed.not_took hplan hopen
            refine ⟨key.tag, body, hkey ▸ (htook key).mpr (.inr ⟨hopen, ?_⟩), hkey ▸ ?_, hdecode⟩
            · exact fun hnone => by simp [hnone] at hhead
            · exact (h.next?_eq hnot).trans hhead
        · intro hx
          obtain ⟨slot, body, hkey, hnext, hdecode⟩ := hx
          rcases (htook _).mp hkey with hkey | ⟨hopen, -⟩
          · exact .inl ⟨slot, body, hkey, hnext, hdecode⟩
          · have hnot := hstaffed.not_took hplan hopen
            exact .inr ⟨body, ⟨_, hopen, rfl, (h.next?_eq hnot).symm.trans hnext⟩, hdecode⟩
      · rename_i hq
        refine (h.knows q).congr fun x => exists_congr fun slot => exists_congr fun body =>
          and_congr_left fun _ => ?_
        rw [htook]
        refine (or_iff_left fun hx => hq ?_).symm
        exact (hstaffed p).dest_eq hx.1.mem_keys }

end Poll

section Step

variable {plan : Plan} {w : Traffic} {p : UInt32}

theorem Aware.openAt (h : Aware w) {o : Opening} {c : Coordinator}
    (hslot : (w.members o.process).takeSlot o.stream = .ok (o.slot, c)) : Aware (w.openAt o c) := by
  obtain ⟨-, -, rfl⟩ := Gathering.takeSlot_eq_ok hslot
  refine h.of_same rfl rfl rfl (fun key => ?_) (fun q N hknows => ?_)
  · rw [Took, Took, members_openAt]
    split
    · rename_i hdest
      rw [hdest]
      by_cases hnone : (w.members o.process).receives = []
      · simp [Receive.Closed, hnone, Coordinator.allReceives]
      · show Receive.Closed (if (w.members o.process).receives.isEmpty then _ else _) key ↔ _
        rw [if_neg (mt List.isEmpty_iff.mp hnone)]
    · exact Iff.rfl
  · rw [members_openAt]
    split
    · rename_i hq
      subst hq
      exact hknows.of_tables rfl rfl rfl
    · exact hknows

theorem Aware.closeAt (h : Aware w) (hlast : (w.members p).finalize.1 = false) :
    Aware (w.closeAt p) := by
  have heq := (w.members p).finalize_eq.resolve_right fun heq => by
    rw [heq] at hlast
    cases hlast
  refine h.of_same rfl rfl rfl (fun key => ?_) (fun q N hknows => ?_)
  · rw [Took, Took, members_closeAt, heq]
    split
    · rename_i hdest
      rw [hdest]
    · exact Iff.rfl
  · rw [members_closeAt, heq]
    split
    · rename_i hq
      subst hq
      exact hknows.of_tables rfl rfl rfl
    · exact hknows

/-- What a process took is spent when it forgets everything. -/
theorem Aware.leaveAt (h : Aware w) (hlast : (w.members p).finalize.1 = true) :
    Aware (w.leaveAt p) := by
  have heq := (w.members p).finalize_eq.resolve_left fun heq => by
    rw [heq] at hlast
    cases hlast
  have hmember : ∀ q, (w.leaveAt p).members q = if q = p then
      { rank := (w.members p).rank
        poolSize := (w.members p).poolSize
        settings := (w.members p).settings } else w.members q := by
    intro q
    rw [Traffic.leaveAt, members_closeAt, heq]
  have hspent : ∀ key, (w.leaveAt p).spent key =
      if key.dest = p then w.taken key else w.spent key := fun _ => rfl
  have hforgot : ∀ key, key.dest = p → ¬ (w.leaveAt p).Took key := by
    intro key hdest
    rw [Took, hmember, if_pos hdest]
    simp [Receive.Closed]
  have hothers : ∀ key, key.dest ≠ p → ((w.leaveAt p).Took key ↔ w.Took key) := by
    intro key hdest
    rw [Took, Took, hmember, if_neg hdest]
  have htaken : ∀ key, Lined (w.sent.waiting key) (w.mail.waiting key) (w.taken key) := by
    intro key
    by_cases hkey : w.Took key
    · have hline := h.line_took key hkey
      rw [taken, hline.length_sub]
      exact hline
    · have hline := h.line key hkey
      rw [taken, hline.length_sub]
      exact hline
  exact {
    line := fun key hkey => by
      rw [hspent]
      split
      · exact htaken key
      · rename_i hdest
        exact h.line key (mt (hothers key hdest).mpr hkey)
    line_took := fun key hkey => by
      have hdest : key.dest ≠ p := fun hdest => hforgot key hdest hkey
      rw [hspent, if_neg hdest]
      exact h.line_took key ((hothers key hdest).mp hkey)
    knows := fun q => by
      rw [hmember]
      split
      · rename_i hq
        refine (Coordinator.knows_nothing rfl rfl rfl).congr fun x => iff_of_false id fun hx => ?_
        obtain ⟨slot, -, hkey, -⟩ := hx
        exact hforgot _ hq hkey
      · rename_i hq
        refine (h.knows q).congr fun x => exists_congr fun slot => exists_congr fun body => ?_
        have hnext : (w.leaveAt p).next? ⟨q, x.1, slot⟩ = w.next? ⟨q, x.1, slot⟩ := by
          rw [next?, next?, hspent, if_neg hq]
          rfl
        rw [hothers _ hq, hnext] }

theorem Aware.step (hplan : plan.Valid) {w' : Traffic} (hstaffed : Staffed plan w) (h : Aware w)
    (hstep : Step plan w w') : Aware w' := by
  cases hstep with
  | takeSlot _ _ _ hslot => exact h.openAt hslot
  | announce => exact h.of_same rfl rfl rfl (fun _ => Iff.rfl) fun _ _ hknows => hknows
  | send _ hmail =>
    rw [Gathering.send_eq_ok hmail]
    exact h.send _ _
  | poll p => exact h.pollAt hplan hstaffed p
  | close hlast => exact h.closeAt hlast
  | leave hlast _ => exact h.leaveAt hlast

end Step

/-! ## Runs -/

/-- What holds of the processes at every moment. -/
structure Sound (plan : Plan) (w : Traffic) : Prop where
  staffed : Staffed plan w
  broadcasts : Broadcasts plan w
  posted : Posted plan w
  once : Once w
  aware : Aware w

theorem sound_initial (plan : Plan) : Sound plan (initial plan) where
  staffed := fun _ => ⟨rfl, rfl, rfl, Nat.zero_le _, .inl ⟨rfl, rfl⟩⟩
  broadcasts := by
    intro i app g happ hg
    rw [initial, List.getElem?_map, happ] at hg
    cases hg
    exact ⟨List.length_replicate, Group.holds_ofSize _ _⟩
  posted := ⟨fun _ h => absurd h List.not_mem_nil, fun _ h => absurd h List.not_mem_nil,
    fun _ h => absurd h List.not_mem_nil⟩
  once := ⟨fun _ => Nat.le_refl _, fun _ => Nat.zero_le _, fun _ _ => Nat.le_refl _⟩
  aware := by
    have hnot : ∀ key, ¬ (initial plan).Took key := fun _ ⟨_, hr, _⟩ => absurd hr List.not_mem_nil
    exact {
      line := fun _ _ => ⟨Nat.le_refl _, rfl⟩
      line_took := fun key hkey => absurd hkey (hnot key)
      knows := fun p => (Coordinator.knows_nothing rfl rfl rfl).congr fun x =>
        iff_of_false id fun ⟨_, _, hkey, _⟩ => hnot _ hkey }

theorem Sound.step {plan : Plan} (hplan : plan.Valid) {w w' : Traffic} (h : Sound plan w)
    (hstep : Step plan w w') : Sound plan w' where
  staffed := h.staffed.step hplan hstep
  broadcasts := h.broadcasts.step h.staffed hstep
  posted := h.posted.step hplan h.staffed h.broadcasts hstep
  once := h.once.step hplan h.staffed hstep
  aware := h.aware.step hplan h.staffed hstep

theorem Reachable.sound {plan : Plan} (hplan : plan.Valid) {w : Traffic} (h : Reachable plan w) :
    Sound plan w := by
  induction h with
  | initial => exact sound_initial plan
  | step _ hstep ih => exact ih.step hplan hstep

/-! ## Settling -/

/-- Some letter that comes next from `q` to `p` announces the stream. -/
def Hears (w : Traffic) (p q : UInt32) (stream : String) : Prop :=
  ∃ slot body a, w.next? ⟨p, q, slot⟩ = some body ∧ Announcement.decode body = .ok a ∧
    a.stream = stream

/-- The process `q` has sent its announcement of the stream to `p` in its present life. -/
def Announced (w : Traffic) (q : UInt32) (stream : String) (p : UInt32) : Prop :=
  ∃ slot, ∃ body ∈ (w.sent.waiting ⟨p, q, slot⟩).drop (w.past ⟨p, q, slot⟩), ∃ a,
    Announcement.decode body = .ok a ∧ a.stream = stream

/-- In its earlier lives, `p` took just what `q` sent it in its own earlier lives. -/
def InStep (w : Traffic) (p q : UInt32) : Prop :=
  ∀ slot, w.spent ⟨p, q, slot⟩ = w.past ⟨p, q, slot⟩

/-- Two processes are in step when they have closed their last streams and nothing from the one to
the other is left in the mail. -/
theorem inStep_leave {w : Traffic} {p q : UInt32}
    (hmail : ∀ slot, w.mail.waiting ⟨p, q, slot⟩ = []) :
    ((w.leaveAt p).leaveAt q).InStep p q ∧ ((w.leaveAt q).leaveAt p).InStep p q := by
  have htaken : ∀ slot, w.taken ⟨p, q, slot⟩ = (w.sent.waiting ⟨p, q, slot⟩).length := by
    intro slot
    rw [taken, hmail, List.length_nil, Nat.sub_zero]
  refine ⟨fun slot => ?_, fun slot => ?_⟩
  · show (if p = q then (w.leaveAt p).taken _ else if p = p then w.taken _ else _) =
      if q = q then _ else _
    rw [if_pos rfl, if_pos rfl]
    exact (ite_self _).trans (htaken slot)
  · show (if p = p then (w.leaveAt q).taken _ else _) = if q = p then _ else if q = q then _ else _
    rw [if_pos rfl, if_pos rfl]
    exact (htaken slot).trans (ite_self _).symm

section Settling

variable {plan : Plan} {w : Traffic} {p q : UInt32} {stream : String}

theorem Sound.genuine_next (h : Sound plan w) {key : MailKey} {body : Bytes}
    (hnext : w.next? key = some body) : Genuine plan ⟨key, body⟩ :=
  h.posted.sent _ (Mail.mem_waiting.mp (List.mem_of_getElem? hnext))

/-- After a poll of a process that has opened a stream, all letters that come next have been
taken. -/
theorem counted_pollAt_iff (hplan : plan.Valid) (h : Sound plan w)
    (hp : 0 < (w.members p).nextSlot) (x : UInt32 × Announcement) :
    (w.pollAt p).Counted p x ↔ ∃ slot body, w.next? ⟨p, x.1, slot⟩ = some body ∧
      Announcement.decode body = .ok x.2 := by
  constructor
  · intro hx
    obtain ⟨slot, body, -, hrest⟩ := hx
    exact ⟨slot, body, hrest⟩
  · intro hx
    obtain ⟨slot, body, hnext, hdecode⟩ := hx
    refine ⟨slot, body, ?_, hnext, hdecode⟩
    obtain ⟨hslot, app, happ, hmember, -⟩ := h.genuine_next hnext
    have hserves := h.staffed p
    have hposted : ⟨p, x.1, slot⟩ ∈ (w.members p).receives.map Receive.key := by
      rw [hserves.receives.resolve_left fun hnone => Nat.ne_of_gt hp hnone.1]
      refine Coordinator.mem_keys_allReceives hserves.rank.symm ?_ ?_
      · rw [hserves.poolSize]
        exact hplan.inPool app happ _ hmember
      · rw [hserves.settings]
        exact hslot
    rw [took_pollAt hplan h.staffed]
    rcases Receive.open_or_closed hposted with hopen | hclosed
    · refine .inr ⟨hopen, fun hnone => ?_⟩
      rw [h.aware.next?_eq (h.staffed.not_took hplan hopen), hnone] at hnext
      cases hnext
    · exact .inl hclosed

/-- What comes next in the lines is what the plan says of the processes that are heard. -/
theorem tells_next (hplan : plan.Valid) (h : Sound plan w) (p : UInt32) (stream : String) :
    plan.Tells (fun x => ∃ slot body, w.next? ⟨p, x.1, slot⟩ = some body ∧
      Announcement.decode body = .ok x.2) stream (fun q => w.Hears p q stream) := by
  intro q role master size
  constructor
  · intro hx
    obtain ⟨slot, body, hnext, hdecode⟩ := hx
    obtain ⟨-, app, happ, hmember, role', stream', hrole, hreads⟩ := h.genuine_next hnext
    have hheard : w.Hears p q stream := ⟨slot, body, _, hnext, hdecode, rfl⟩
    rw [hreads] at hdecode
    cases hdecode
    exact ⟨hheard, app, happ, hmember, hrole, rfl, rfl⟩
  · intro hx
    obtain ⟨⟨slot, body, a, hnext, hdecode, rfl⟩, app, happ, hmember, hrole, rfl, rfl⟩ := hx
    obtain ⟨-, app', happ', hmember', role', stream', hrole', hreads⟩ := h.genuine_next hnext
    obtain rfl := hplan.eq_of_mem happ happ' hmember hmember'
    rw [hreads] at hdecode
    cases hdecode
    have hsame : role' = role := Option.some.inj (hrole'.symm.trans hrole)
    exact ⟨slot, body, hnext, hsame ▸ hreads⟩

/-- The letter that comes next is the one of the sender's present life, if both came back in
step. -/
theorem hears_iff_announced (h : Once w) (hstep : w.InStep p q) :
    w.Hears p q stream ↔ w.Announced q stream p := by
  refine exists_congr fun slot => ?_
  have hone : ((w.sent.waiting ⟨p, q, slot⟩).drop (w.past ⟨p, q, slot⟩)).length ≤ 1 := by
    have hmade := h.made_le ⟨p, q, slot⟩
    rw [made] at hmade
    rw [List.length_drop]
    omega
  have hnext : ∀ body, w.next? ⟨p, q, slot⟩ = some body ↔
      body ∈ (w.sent.waiting ⟨p, q, slot⟩).drop (w.past ⟨p, q, slot⟩) := by
    intro body
    rw [next?, hstep slot, ← List.head?_drop]
    cases hdrop : (w.sent.waiting ⟨p, q, slot⟩).drop (w.past ⟨p, q, slot⟩) with
    | nil => simp
    | cons first rest =>
      rw [hdrop, List.length_cons] at hone
      have hrest : rest = [] := List.length_eq_zero_iff.mp (by omega)
      rw [hrest, List.head?_cons, List.mem_singleton, Option.some.injEq, eq_comm]
  constructor
  · intro hx
    obtain ⟨body, a, hbody, hrest⟩ := hx
    exact ⟨body, (hnext body).mp hbody, a, hrest⟩
  · intro hx
    obtain ⟨body, hbody, a, hrest⟩ := hx
    exact ⟨body, a, (hnext body).mpr hbody, hrest⟩

end Settling

/-- **What settles a stream when processes come back.** After any poll of a process that has opened
a stream in its present life, a stream is settled for it just if, for every member of every
application that opens the stream, a letter that comes next announces it. The process then knows the
groups as the plan has them. If it came back in step with these members, that is just if they have
announced the stream to it in their present lives. -/
theorem settles_iff_hears {plan : Plan} (hplan : plan.Valid) {w : Traffic}
    (h : Reachable plan w) {p : UInt32} (hp : 0 < (w.members p).nextSlot) {stream : String}
    (hopened : plan.openers stream ≠ [])
    (hexpected : plan.settings.expectedGroups = (plan.openers stream).length) :
    (((w.members p).poll w.mail).1.converged stream = true ↔
      ∀ app ∈ plan.openers stream, ∀ q ∈ app.members, w.Hears p q stream) ∧
    (((w.members p).poll w.mail).1.converged stream = true →
      ((w.members p).poll w.mail).1.writerMap stream = plan.rankMap .writer stream ∧
      ((w.members p).poll w.mail).1.readerMap stream = plan.rankMap .reader stream) ∧
    ((∀ app ∈ plan.openers stream, ∀ q ∈ app.members, w.InStep p q) →
      (((w.members p).poll w.mail).1.converged stream = true ↔
        ∀ app ∈ plan.openers stream, ∀ q ∈ app.members, w.Announced q stream p)) := by
  have hsound := h.sound hplan
  have hpolled : Sound plan (w.pollAt p) := hsound.step hplan (.poll p)
  have hmember : (w.pollAt p).members p = ((w.members p).poll w.mail).1 := by
    rw [members_pollAt, if_pos rfl]
  have hknows := (hpolled.aware.knows p).congr (counted_pollAt_iff hplan hsound hp)
  have htells := tells_next hplan hsound p stream
  have hexpected' : ((w.pollAt p).members p).settings.expectedGroups =
      (plan.openers stream).length := by
    rw [(hpolled.staffed p).settings, hexpected]
  have hiff := Coordinator.converged_iff hplan hknows htells hopened hexpected'
  rw [← hmember]
  refine ⟨hiff, fun hconverged => ?_, fun hstep => hiff.trans ?_⟩
  · have hmap := Coordinator.mapOf_eq_of_complete hplan hknows htells (hiff.mp hconverged)
    exact ⟨hmap .writer, hmap .reader⟩
  · exact forall₂_congr fun app happ => forall₂_congr fun q hq =>
      hears_iff_announced hsound.once (hstep app happ q hq)

/-- Both processes have sent their announcements, and neither has polled. -/
def sampleSent : Traffic :=
  { members := Function.update (Function.update (initial Gathering.samplePlan).members 0
      (Gathering.sampleCoordinator 0)) 1 (Gathering.sampleCoordinator 1)
    groups := [Group.ofSize 1, Group.ofSize 1]
    mail := Gathering.sampleLetters 0 .writer ++ Gathering.sampleLetters 1 .reader
    sent := Gathering.sampleLetters 0 .writer ++ Gathering.sampleLetters 1 .reader }

/-- The processes open the stream one after the other, as they do in every life. -/
theorem Reachable.sampleStart {w : Traffic} (h : Reachable Gathering.samplePlan w)
    (hwaiting : w.waiting = []) (hunsent : w.unsent = [])
    (hgroups : w.groups = [Group.ofSize 1, Group.ofSize 1])
    (hwriter : (w.members 0).takeSlot "s" = .ok (0, Gathering.sampleCoordinator 0))
    (hreader : (w.members 1).takeSlot "s" = .ok (0, Gathering.sampleCoordinator 1)) :
    Reachable Gathering.samplePlan { w with
      members := Function.update (Function.update w.members 0
        (Gathering.sampleCoordinator 0)) 1 (Gathering.sampleCoordinator 1)
      mail := w.mail ++ Gathering.sampleLetters 0 .writer ++ Gathering.sampleLetters 1 .reader
      sent := w.sent ++ Gathering.sampleLetters 0 .writer ++
        Gathering.sampleLetters 1 .reader } := by
  have hfirst := h.opensAlone (o := ⟨0, "s", 0⟩) hwaiting hunsent
    (show _[0]? = some (Gathering.sampleGroup 0 .writer) from rfl) rfl rfl (by rw [hgroups]; rfl)
    hwriter Gathering.announce_sampleCoordinator_writer (by decide)
  exact hfirst.opensAlone (o := ⟨1, "s", 0⟩) hwaiting hunsent
    (show _[1]? = some (Gathering.sampleGroup 1 .reader) from rfl) rfl rfl
    (show w.groups[1]? = _ by rw [hgroups]; rfl) hreader
    Gathering.announce_sampleCoordinator_reader (by decide)

theorem reachable_sampleSent : Reachable Gathering.samplePlan sampleSent :=
  Reachable.initial.sampleStart rfl rfl rfl rfl rfl

/-- The first process has closed the stream without a look at the mail, and has taken a slot for it
again. -/
def sampleStale : Traffic :=
  (sampleSent.leaveAt 0).openAt ⟨0, "s", 0⟩ (Gathering.sampleCoordinator 0)

theorem reachable_sampleStale : Reachable Gathering.samplePlan sampleStale := by
  have hleft := reachable_sampleSent.step (.leave rfl (idle_of_settled rfl rfl 0))
  have hwriter : Gathering.sampleGroup 0 .writer ∈ Gathering.samplePlan.applications :=
    List.mem_cons_self
  exact hleft.step (.takeSlot hwriter (by decide) (by decide) rfl)

/-- Both processes have read their mail and closed the stream. -/
def sampleLeft : Traffic := (((sampleSent.pollAt 0).pollAt 1).leaveAt 0).leaveAt 1

/-- Both processes have come back and have sent their announcements again. -/
def sampleReturned : Traffic :=
  { sampleLeft with
    members := Function.update (Function.update sampleLeft.members 0
      (Gathering.sampleCoordinator 0)) 1 (Gathering.sampleCoordinator 1)
    mail := sampleLeft.mail ++ Gathering.sampleLetters 0 .writer ++
      Gathering.sampleLetters 1 .reader
    sent := sampleLeft.sent ++ Gathering.sampleLetters 0 .writer ++
      Gathering.sampleLetters 1 .reader }

theorem reachable_sampleReturned : Reachable Gathering.samplePlan sampleReturned := by
  have hread := (reachable_sampleSent.step (.poll 0)).step (.poll 1)
  have hfirst := hread.step (.leave rfl (idle_of_settled rfl rfl 0))
  have hleft := hfirst.step (.leave rfl (idle_of_settled rfl rfl 1))
  exact hleft.sampleStart rfl rfl rfl rfl rfl

theorem not_announced_sampleStale : ¬ sampleStale.Announced 0 "s" 0 := by
  intro hx
  obtain ⟨slot, body, hbody, -⟩ := hx
  have hnone : (sampleStale.sent.waiting ⟨0, 0, slot⟩).drop (sampleStale.past ⟨0, 0, slot⟩) = [] :=
    List.drop_length
  rw [hnone] at hbody
  cases hbody

theorem inStep_sampleReturned : ∀ q, q = 0 ∨ q = 1 → sampleReturned.InStep 0 q := by
  intro q hq
  rcases hq with rfl | rfl
  · exact fun slot => rfl
  · have hleft : sampleLeft.InStep 0 1 := (inStep_leave fun slot => rfl).1
    exact hleft

theorem settles_iff_hears_sample :
    -- The stale letters of the one who came back settle the stream before it announces anything.
    (¬ sampleStale.Announced 0 "s" 0 ∧
      ((sampleStale.members 0).poll sampleStale.mail).1.converged "s" = true ∧
      ((sampleStale.members 0).poll sampleStale.mail).1.writerMap "s" = [(0, [(0, ())])] ∧
      ((sampleStale.members 0).poll sampleStale.mail).1.readerMap "s" = [(1, [(1, ())])]) ∧
    -- Where both came back in step, their new letters do.
    (sampleReturned.past ⟨0, 0, 0⟩ = 1 ∧ sampleReturned.past ⟨0, 1, 0⟩ = 1 ∧
      ((sampleReturned.members 0).poll sampleReturned.mail).1.converged "s" = true) := by
  have hopeners : Gathering.samplePlan.openers "s" =
      [Gathering.sampleGroup 0 .writer, Gathering.sampleGroup 1 .reader] := rfl
  have hopened : Gathering.samplePlan.openers "s" ≠ [] := hopeners ▸ List.cons_ne_nil _ _
  have hexpected : Gathering.samplePlan.settings.expectedGroups =
      (Gathering.samplePlan.openers "s").length := rfl
  have hmembers : ∀ P : UInt32 → Prop, P 0 → P 1 →
      ∀ app ∈ Gathering.samplePlan.openers "s", ∀ q ∈ app.members, P q := by
    intro P hzero hone
    simp only [hopeners, List.forall_mem_cons, Gathering.sampleGroup, List.not_mem_nil,
      false_imp_iff, implies_true, and_true]
    exact ⟨hzero, hone⟩
  obtain ⟨hiff, hmaps, -⟩ := settles_iff_hears Gathering.samplePlan_valid reachable_sampleStale
    (p := 0) Nat.one_pos hopened hexpected
  obtain ⟨-, -, hreturned⟩ := settles_iff_hears Gathering.samplePlan_valid reachable_sampleReturned
    (p := 0) Nat.one_pos hopened hexpected
  have hstale := hiff.mpr (hmembers _ ⟨0, _, _, rfl, rfl, rfl⟩ ⟨0, _, _, rfl, rfl, rfl⟩)
  have hstep := hmembers _ (inStep_sampleReturned 0 (.inl rfl)) (inStep_sampleReturned 1 (.inr rfl))
  have hannounced := hmembers (sampleReturned.Announced · "s" 0)
    ⟨0, _, .head _, _, rfl, rfl⟩ ⟨0, _, .head _, _, rfl, rfl⟩
  exact ⟨⟨not_announced_sampleStale, hstale, hmaps hstale⟩, rfl, rfl,
    (hreturned hstep).mpr hannounced⟩

/-- A process that kept its receives misses a stream of one that came back. -/
theorem misses_reopened_stream : (do
    let (_, a) ← (Assembly.ofGroups [1, 1] {}).start? 0 .writer "a"
    let (_, a) ← a.start? 1 .reader "a"
    let (first, a) ← a.wait? 0 "a"
    let (second, a) ← a.wait? 1 "a"
    let (last, a) ← a.finalize? 0
    let (_, a) ← a.start? 0 .writer "b"
    let (_, a) ← a.start? 1 .reader "b"
    let (third, a) ← a.wait? 0 "b"
    let (fourth, _) ← a.wait? 1 "b"
    return (first.toOption, second.toOption, last, third.toOption, fourth.toOption)) =
      some (some (), some (), true, some (), none) := by
  decide +kernel

end Traffic

end Stepcast
