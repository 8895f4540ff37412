import Mathlib.Logic.Function.Basic
import Stepcast.Proofs.Outcomes
import Stepcast.Proofs.Rendezvous.Queues

/-!
# Every letter is taken once, in order

The members of a pool send letters, post receives for them, and test or cancel these receives, one
at a time and in any order. All letters wait in one place, but what happens at one key is as if the
pool were there for that key alone: `perform?_eq_some` describes an act by the line of its own key,
the letters that wait there and the receives, and no other line changes.

So it is enough to follow one line. Its letters come in at the end and are taken from the front,
each of them by a receive that is done from then on. The invariant of this argument, `Accounts`,
counts what was sent, what was taken and what waits, and says of each receive that it is done just
if it took a letter or was cancelled.

Main statement: `delivers_run`.
-/

namespace Stepcast

/-- The mail of a pool, and the receives that were posted: for each key, in the order in which they
were posted, whether they are done. -/
structure Mailroom where
  mail : Mail := []
  receives : MailKey → List Bool := fun _ => []

namespace Mailroom

/-- What a member does with the letters for one key. The source of the key sends them, its
destination does the rest. -/
inductive Errand where
  | send (body : Bytes)
  | post
  /-- Tests the receive with that number among those that were posted for the key. -/
  | test (receive : Nat)
  | cancel (receive : Nat)

structure Act where
  key : MailKey
  errand : Errand

/-- The body of the letter that came, nothing, or why the act was refused. -/
abbrev Reply := Except Fault (Option Bytes)

/-- The mailroom with other mail and with other receives for a key. -/
def keep (room : Mailroom) (mail : Mail) (key : MailKey) (receives : List Bool) : Mailroom :=
  { mail, receives := Function.update room.receives key receives }

/-- The mailroom of a pool of `size` members after an act; nothing when there is no such receive. -/
def perform? (size : UInt32) (room : Mailroom) : Act → Option (Reply × Mailroom)
  | ⟨key, .send body⟩ =>
    match room.mail.send size key body with
    | .ok mail => some (.ok none, { room with mail })
    | .error f => some (.error f, room)
  | ⟨key, .post⟩ =>
    match Receive.post size key with
    | .ok r => some (.ok none, room.keep room.mail key (room.receives key ++ [r.done]))
    | .error f => some (.error f, room)
  | ⟨key, .test n⟩ => do
    let done ← (room.receives key)[n]?
    let (body, r, mail) := Receive.test { key, done } room.mail
    return (.ok body, room.keep mail key ((room.receives key).set n r.done))
  | ⟨key, .cancel n⟩ => do
    let done ← (room.receives key)[n]?
    let r := Receive.cancel { key, done }
    return (.ok none, room.keep room.mail key ((room.receives key).set n r.done))

/-! ## One line -/

/-- What there is for one key: the letters that wait, the oldest first, and the receives. -/
structure Line where
  waiting : List Bytes
  receives : List Bool

def line (room : Mailroom) (key : MailKey) : Line := ⟨room.mail.waiting key, room.receives key⟩

/-- What an act at the key does to its line. -/
inductive Line.Step (size : UInt32) (key : MailKey) : Errand → Reply → Line → Line → Prop
  | send {waiting receives} (body : Bytes) (h : key.dest < size) :
      Step size key (.send body) (.ok none) ⟨waiting, receives⟩ ⟨waiting ++ [body], receives⟩
  | sendOutside {l} (body : Bytes) (h : size ≤ key.dest) : Step size key (.send body)
      (.error (.argument (.poolRank key.dest size.toNat))) l l
  | post {waiting receives} (h : key.source < size) :
      Step size key .post (.ok none) ⟨waiting, receives⟩ ⟨waiting, receives ++ [false]⟩
  | postOutside {l} (h : size ≤ key.source) : Step size key .post
      (.error (.argument (.poolRank key.source size.toNat))) l l
  | pass {waiting receives n} (done : Bool) (hn : receives[n]? = some done)
      (h : done = true ∨ waiting = []) :
      Step size key (.test n) (.ok none) ⟨waiting, receives⟩ ⟨waiting, receives⟩
  | take {waiting receives n} (body : Bytes) (hn : receives[n]? = some false) :
      Step size key (.test n) (.ok (some body)) ⟨body :: waiting, receives⟩
        ⟨waiting, receives.set n true⟩
  | cancel {waiting receives n} (done : Bool) (hn : receives[n]? = some done) :
      Step size key (.cancel n) (.ok none) ⟨waiting, receives⟩ ⟨waiting, receives.set n true⟩

section Step

variable {size : UInt32} {room room' : Mailroom} {key : MailKey} {errand : Errand} {reply : Reply}
  {act : Act} {l l' : Line}

theorem line_keep_self {mail : Mail} {receives : List Bool} :
    (room.keep mail key receives).line key = ⟨mail.waiting key, receives⟩ := by
  simp [line, keep]

theorem line_keep_of_ne {mail : Mail} {receives : List Bool} {other : MailKey} (h : other ≠ key)
    (hmail : mail.waiting other = room.mail.waiting other) :
    (room.keep mail key receives).line other = room.line other := by
  simp [line, keep, h, hmail]

/-- **What an act does**: a step of the line of its key, and nothing to the others. -/
theorem perform?_eq_some (h : room.perform? size act = some (reply, room')) :
    Line.Step size act.key act.errand reply (room.line act.key) (room'.line act.key) ∧
      ∀ other, other ≠ act.key → room'.line other = room.line other := by
  obtain ⟨key, errand⟩ := act
  cases errand with
  | send body =>
    by_cases hdest : size ≤ key.dest
    · simp only [perform?, Mail.send, if_pos hdest] at h
      cases h
      exact ⟨.sendOutside body hdest, fun _ _ => rfl⟩
    · simp only [perform?, Mail.send, if_neg hdest] at h
      cases h
      have hwaiting (other : MailKey) :
          line { room with mail := room.mail ++ [⟨key, body⟩] } other =
            ⟨room.mail.waiting other ++ if key = other then [body] else [],
              room.receives other⟩ := by
        rw [line, Mail.waiting_append, Mail.waiting_cons, Mail.waiting_nil]
      refine ⟨?_, fun other hother => ?_⟩
      · rw [hwaiting, if_pos rfl]
        exact .send body (Std.not_le.mp hdest)
      · rw [hwaiting, if_neg (Ne.symm hother), List.append_nil, line]
  | post =>
    by_cases hsource : size ≤ key.source
    · simp only [perform?, Receive.post, if_pos hsource] at h
      cases h
      exact ⟨.postOutside hsource, fun _ _ => rfl⟩
    · simp only [perform?, Receive.post, if_neg hsource] at h
      cases h
      exact ⟨line_keep_self ▸ .post (Std.not_le.mp hsource), fun _ h => line_keep_of_ne h rfl⟩
  | test n =>
    obtain ⟨done, hn, h⟩ := Option.bind_eq_some_iff.mp h
    have hpass (hidle : done = true ∨ room.mail.waiting key = []) :
        Line.Step size key (.test n) (.ok none) (room.line key)
          ((room.keep room.mail key ((room.receives key).set n done)).line key) := by
      rw [line_keep_self, set_eq_self_of_getElem? hn]
      exact .pass done hn hidle
    cases done with
    | true =>
      cases h
      exact ⟨hpass (.inl rfl), fun _ h => line_keep_of_ne h rfl⟩
    | false =>
      rcases room.mail.waiting_take? key with ⟨htake, hnone⟩ | ⟨body, mail, htake, hsome, hrest⟩
      · simp only [Receive.test, Bool.false_eq_true, if_false, htake] at h
        cases h
        exact ⟨hpass (.inr hnone), fun _ h => line_keep_of_ne h rfl⟩
      · simp only [Receive.test, Bool.false_eq_true, if_false, htake] at h
        cases h
        refine ⟨?_, fun other h => line_keep_of_ne h (hrest other h)⟩
        rw [line_keep_self, line, hsome]
        exact .take body hn
  | cancel n =>
    obtain ⟨done, hn, h⟩ := Option.bind_eq_some_iff.mp h
    cases h
    exact ⟨line_keep_self ▸ .cancel done hn, fun _ h => line_keep_of_ne h rfl⟩

theorem exists_perform? (h : Line.Step size key errand reply (room.line key) l) :
    ∃ room', room.perform? size ⟨key, errand⟩ = some (reply, room') ∧ room'.line key = l := by
  generalize hl : room.line key = l₀ at h
  cases h with
  | send body hdest =>
    refine ⟨{ room with mail := room.mail ++ [⟨key, body⟩] }, ?_, ?_⟩
    · simp only [perform?, Mail.send, if_neg (Std.not_le.mpr hdest)]
    · cases hl
      simp only [line, Mail.waiting_append, Mail.waiting_cons, if_pos, Mail.waiting_nil]
  | sendOutside body hdest =>
    exact ⟨room, by simp only [perform?, Mail.send, if_pos hdest], hl⟩
  | post hsource =>
    refine ⟨_, by simp only [perform?, Receive.post, if_neg (Std.not_le.mpr hsource)]; rfl, ?_⟩
    cases hl
    exact line_keep_self
  | postOutside hsource =>
    exact ⟨room, by simp only [perform?, Receive.post, if_pos hsource], hl⟩
  | @pass waiting receives n done hn hidle =>
    cases hl
    have htest : Receive.test { key, done } room.mail = (none, { key, done }, room.mail) := by
      cases done with
      | true => rfl
      | false =>
        have hnone : room.mail.waiting key = [] := hidle.resolve_left (by decide)
        rcases room.mail.waiting_take? key with ⟨htake, -⟩ | ⟨body, mail, -, hsome, -⟩
        · simp only [Receive.test, htake, Bool.false_eq_true, if_false]
        · rw [hsome] at hnone
          cases hnone
    refine ⟨_, by simp only [perform?, hn, Option.bind_eq_bind, Option.bind_some, htest]; rfl, ?_⟩
    rw [line_keep_self, set_eq_self_of_getElem? hn]
  | @take waiting receives n body hn =>
    obtain ⟨hwaiting, rfl⟩ := Line.mk.inj hl
    rcases room.mail.waiting_take? key with ⟨-, hnone⟩ | ⟨body', mail, htake, hsome, -⟩
    · rw [hnone] at hwaiting
      cases hwaiting
    · rw [hsome] at hwaiting
      cases hwaiting
      refine ⟨room.keep mail key ((room.receives key).set n true), ?_, line_keep_self⟩
      simp only [perform?, hn, Option.bind_eq_bind, Option.bind_some, Receive.test,
        Bool.false_eq_true, if_false, htake]
      rfl
  | @cancel waiting receives n done hn =>
    cases hl
    refine ⟨room.keep room.mail key ((room.receives key).set n true), ?_, line_keep_self⟩
    simp only [perform?, hn, Option.bind_eq_bind, Option.bind_some]
    rfl

end Step

/-! ## Histories -/

/-- An act and what came of it. -/
abbrev Event := Act × Reply

/-- The mailroom after some acts, and what came of each of them. -/
def run? (size : UInt32) (room : Mailroom) : List Act → Option (List Event × Mailroom)
  | [] => some ([], room)
  | act :: rest => do
    let (reply, room) ← room.perform? size act
    let (events, room) ← run? size room rest
    return ((act, reply) :: events, room)

/-- The letter that was sent for the key. -/
def sentBy (key : MailKey) : Event → Option Bytes
  | (⟨other, .send body⟩, .ok _) => if other = key then some body else none
  | _ => none

/-- The letter for the key that was taken by a receive that `p` asks for. -/
def takenBy (key : MailKey) (p : Nat → Bool) : Event → Option Bytes
  | (⟨other, .test n⟩, .ok body) => if other = key ∧ p n = true then body else none
  | _ => none

/-- The letters that were sent for the key, in order. -/
def sent (key : MailKey) (events : List Event) : List Bytes := events.filterMap (sentBy key)

/-- The letters for the key that tests gave, in order. -/
def taken (key : MailKey) (events : List Event) : List Bytes :=
  events.filterMap (takenBy key fun _ => true)

/-- The letters that tests of one receive gave. -/
def takenAt (key : MailKey) (n : Nat) (events : List Event) : List Bytes :=
  events.filterMap (takenBy key (· == n))

/-- The receive was cancelled. -/
def Cancelled (key : MailKey) (n : Nat) (events : List Event) : Prop :=
  ∃ e ∈ events, e.1 = ⟨key, .cancel n⟩

section Histories

variable {size : UInt32} {room room' room₁ : Mailroom} {key : MailKey} {acts : List Act}
  {events before : List Event} {e : Event} {n : Nat} {l l' : Line}

@[simp] theorem sent_append (events more : List Event) :
    sent key (events ++ more) = sent key events ++ sent key more := List.filterMap_append ..

@[simp] theorem taken_append (events more : List Event) :
    taken key (events ++ more) = taken key events ++ taken key more := List.filterMap_append ..

@[simp] theorem takenAt_append (events more : List Event) :
    takenAt key n (events ++ more) = takenAt key n events ++ takenAt key n more :=
  List.filterMap_append ..

@[simp] theorem cancelled_concat :
    Cancelled key n (events ++ [e]) ↔ Cancelled key n events ∨ e.1 = ⟨key, .cancel n⟩ := by
  simp [Cancelled, or_and_right, exists_or]

theorem split_concat {c : Event} {after : List Event} (h : events ++ [e] = before ++ c :: after) :
    (after = [] ∧ before = events ∧ c = e) ∨
      ∃ rest, after = rest ++ [e] ∧ events = before ++ c :: rest := by
  rcases List.eq_nil_or_concat after with rfl | ⟨rest, last, rfl⟩
  · obtain ⟨rfl, hlast⟩ := List.append_inj' h rfl
    cases hlast
    exact .inl ⟨rfl, rfl, rfl⟩
  · rw [List.concat_eq_append, ← List.cons_append, ← List.append_assoc] at h
    obtain ⟨rfl, hlast⟩ := List.append_inj' h rfl
    cases hlast
    exact .inr ⟨rest, List.concat_eq_append .., rfl⟩

/-- **What happens at a key is as if there were no other keys**: its acts alone give the same
replies, and the same line in the end. -/
theorem run?_filter (hline : room₁.line key = room.line key)
    (h : room.run? size acts = some (events, room')) :
    ∃ room₁', room₁.run? size (acts.filter (·.key = key)) =
      some (events.filter (·.1.key = key), room₁') ∧ room₁'.line key = room'.line key := by
  induction acts generalizing room room₁ events with
  | nil =>
    cases h
    exact ⟨room₁, rfl, hline⟩
  | cons act rest ih =>
    obtain ⟨⟨reply, room₂⟩, hact, h⟩ := Option.bind_eq_some_iff.mp h
    obtain ⟨⟨later, room₃⟩, hrest, h⟩ := Option.bind_eq_some_iff.mp h
    cases h
    obtain ⟨hstep, hothers⟩ := perform?_eq_some hact
    by_cases hkey : act.key = key
    · subst hkey
      obtain ⟨room₁', hact₁, hline₁⟩ := exists_perform? (hline ▸ hstep)
      obtain ⟨room₁'', hrest₁, hline'⟩ := ih hline₁ hrest
      refine ⟨room₁'', ?_, hline'⟩
      simp [run?, hact₁, hrest₁]
    · obtain ⟨room₁', hrest₁, hline'⟩ := ih (hline.trans (hothers key (Ne.symm hkey)).symm) hrest
      refine ⟨room₁', ?_, hline'⟩
      simp [hkey, hrest₁]

/-! ## Accounts of one line -/

/-- What the events so far amount to for a line. -/
structure Accounts (key : MailKey) (events : List Event) (l : Line) : Prop where
  letters : sent key events = taken key events ++ l.waiting
  /-- The receives that are done took a letter or were cancelled. -/
  done_iff : ∀ n, l.receives[n]? = some true ↔
    takenAt key n events ≠ [] ∨ Cancelled key n events
  once : ∀ n, (takenAt key n events).length ≤ 1
  quiet : ∀ n before after reply, events = before ++ (⟨key, .cancel n⟩, reply) :: after →
    takenAt key n after = []
  /-- A test that gives nothing, of a receive that is not done, finds that all was taken. -/
  prompt : ∀ n before after, events = before ++ (⟨key, .test n⟩, .ok none) :: after →
    takenAt key n before ≠ [] ∨ Cancelled key n before ∨ taken key before = sent key before

theorem accounts_nil (key : MailKey) : Accounts key [] ⟨[], []⟩ where
  letters := rfl
  done_iff := by simp [takenAt, Cancelled]
  once := by simp [takenAt]
  quiet := by simp
  prompt := by simp

/-- One more event keeps the accounts, if it accounts for what changes in the line and does not
give a letter to a receive that is done. -/
theorem Accounts.concat (h : Accounts key events l)
    (hletters : l.waiting ++ sent key [e] = taken key [e] ++ l'.waiting)
    (hdone : ∀ n, l'.receives[n]? = some true ↔
      l.receives[n]? = some true ∨ takenAt key n [e] ≠ [] ∨ e.1 = ⟨key, .cancel n⟩)
    (hopen : ∀ n, takenAt key n [e] ≠ [] → l.receives[n]? ≠ some true)
    (hprompt : ∀ n, e = (⟨key, .test n⟩, .ok none) →
      l.receives[n]? = some true ∨ l.waiting = []) :
    Accounts key (events ++ [e]) l' where
  letters := by
    rw [sent_append, taken_append, h.letters, List.append_assoc, hletters, List.append_assoc]
  done_iff n := by
    rw [hdone, h.done_iff, takenAt_append, cancelled_concat, Ne, Ne, Ne, List.append_eq_nil_iff]
    tauto
  once n := by
    have hone : (takenAt key n [e]).length ≤ 1 := List.length_filterMap_le ..
    rw [takenAt_append, List.length_append]
    by_cases hnil : takenAt key n [e] = []
    · rw [hnil]
      exact h.once n
    · have hnone : takenAt key n events = [] := by
        by_contra hsome
        exact hopen n hnil ((h.done_iff n).mpr (.inl hsome))
      rw [hnone]
      simpa using hone
  quiet n before after reply hsplit := by
    rcases split_concat hsplit with ⟨rfl, -, -⟩ | ⟨rest, rfl, rfl⟩
    · rfl
    · have hnil : takenAt key n [e] = [] := by
        by_contra hsome
        exact hopen n hsome ((h.done_iff n).mpr (.inr ⟨(⟨key, .cancel n⟩, reply), by simp, rfl⟩))
      rw [takenAt_append, hnil, h.quiet n before rest reply rfl]
      rfl
  prompt n before after hsplit := by
    rcases split_concat hsplit with ⟨-, rfl, he⟩ | ⟨rest, rfl, hbefore⟩
    · rcases hprompt n he.symm with hdone | hwaiting
      · exact ((h.done_iff n).mp hdone).imp_right .inl
      · exact .inr (.inr (by rw [h.letters, hwaiting, List.append_nil]))
    · exact h.prompt n before rest hbefore

/-- An event that neither sends, takes nor cancels anything, and is no test, is no matter for the
accounts. -/
theorem Accounts.idle (h : Accounts key events l) (hsent : sentBy key e = none)
    (htaken : ∀ p, takenBy key p e = none) (hcancel : ∀ n, e.1 ≠ ⟨key, .cancel n⟩)
    (htest : ∀ n, e.1 ≠ ⟨key, .test n⟩) : Accounts key (events ++ [e]) l := by
  refine h.concat ?_ (fun n => ?_) (fun n hn => ?_) (fun n hn => ?_)
  · simp [sent, taken, hsent, htaken]
  · simp [takenAt, htaken, hcancel]
  · simp [takenAt, htaken] at hn
  · exact absurd (congrArg Prod.fst hn) (htest n)

theorem Accounts.other (h : Accounts key events l) (hkey : e.1.key ≠ key) :
    Accounts key (events ++ [e]) l := by
  obtain ⟨⟨other, errand⟩, reply⟩ := e
  have hkey : other ≠ key := hkey
  refine h.idle ?_ (fun p => ?_) (fun n => ?_) (fun n => ?_)
  · cases errand <;> cases reply <;> simp [sentBy, hkey]
  · cases errand <;> cases reply <;> simp [takenBy, hkey]
  · simp [hkey]
  · simp [hkey]

theorem getElem?_concat_false {receives : List Bool} :
    (receives ++ [false])[n]? = some true ↔ receives[n]? = some true := by
  rw [List.getElem?_append]
  split
  · rfl
  · next hn =>
    rw [List.getElem?_eq_none (Nat.le_of_not_lt hn)]
    cases n - receives.length <;> simp

theorem getElem?_set_true {receives : List Bool} {done : Bool} {m : Nat}
    (hm : receives[m]? = some done) :
    (receives.set m true)[n]? = some true ↔ receives[n]? = some true ∨ m = n := by
  by_cases hn : m = n
  · subst hn
    simp [(List.getElem?_eq_some_iff.mp hm).1]
  · simp [hn]

/-- **One act** keeps the accounts of its line. -/
theorem Accounts.step {errand : Errand} {reply : Reply} (h : Accounts key events l)
    (hstep : Line.Step size key errand reply l l') :
    Accounts key (events ++ [(⟨key, errand⟩, reply)]) l' := by
  cases hstep with
  | send body hdest => apply h.concat <;> simp [sent, taken, takenAt, sentBy, takenBy]
  | sendOutside body hdest => exact h.idle rfl (fun _ => rfl) (by simp) (by simp)
  | post hsource =>
    refine h.concat (List.append_nil _) (fun n => ?_) ?_ ?_ <;>
      simp [takenAt, takenBy, getElem?_concat_false]
  | postOutside hsource => exact h.idle rfl (fun _ => rfl) (by simp) (by simp)
  | pass done hn hidle =>
    have hprompt := hidle.imp_left fun hdone => hdone ▸ hn
    apply h.concat <;> simp [sent, taken, takenAt, sentBy, takenBy, hprompt]
  | take body hn =>
    have hopen : _ ≠ some true := fun hdone => nomatch hn.symm.trans hdone
    apply h.concat <;> simp [sent, taken, takenAt, sentBy, takenBy, getElem?_set_true hn, hopen]
  | cancel done hn =>
    refine h.concat (List.append_nil _) (fun n => ?_) ?_ ?_ <;>
      simp [takenAt, takenBy, getElem?_set_true hn]

/-- **A run keeps the accounts** of every line. -/
theorem Accounts.run (h : Accounts key before (room.line key))
    (hrun : room.run? size acts = some (events, room')) :
    Accounts key (before ++ events) (room'.line key) := by
  induction acts generalizing room before events with
  | nil =>
    cases hrun
    rwa [List.append_nil]
  | cons act rest ih =>
    obtain ⟨⟨reply, room₁⟩, hact, hrun⟩ := Option.bind_eq_some_iff.mp hrun
    obtain ⟨⟨later, room₂⟩, hrest, hrun⟩ := Option.bind_eq_some_iff.mp hrun
    cases hrun
    obtain ⟨hstep, hothers⟩ := perform?_eq_some hact
    have hnext : Accounts key (before ++ [(act, reply)]) (room₁.line key) := by
      by_cases hkey : act.key = key
      · subst hkey
        exact h.step hstep
      · rw [hothers key (Ne.symm hkey)]
        exact h.other hkey
    rw [List.append_cons]
    exact ih hnext hrest

end Histories

/-- **Every letter is taken once, in order.** Take any acts of the members of a pool, refused ones
among them. For each key, the letters that were sent are those that tests gave, in the order of the
tests, and then those that wait. A receive gives one letter at most, and none after it was
cancelled; a test of one that has given none and was not cancelled comes back empty only when all
letters sent before were taken. And what happens at the key is just what would happen if nobody
ever used another one. -/
theorem delivers_run {size : UInt32} {acts : List Act} {events : List Event} {room : Mailroom}
    (h : run? size {} acts = some (events, room)) (key : MailKey) :
    sent key events = taken key events ++ room.mail.waiting key ∧
      (∀ n, (takenAt key n events).length ≤ 1) ∧
      (∀ n before after reply, events = before ++ (⟨key, .cancel n⟩, reply) :: after →
        takenAt key n after = []) ∧
      (∀ n before after, events = before ++ (⟨key, .test n⟩, .ok none) :: after →
        takenAt key n before ≠ [] ∨ Cancelled key n before ∨
          taken key before = sent key before) ∧
      ∃ alone, run? size {} (acts.filter (·.key = key)) =
          some (events.filter (·.1.key = key), alone) ∧
        alone.mail.waiting key = room.mail.waiting key ∧
          alone.receives key = room.receives key := by
  have hempty : Accounts key [] (line {} key) := accounts_nil key
  obtain ⟨hletters, -, honce, hquiet, hprompt⟩ := hempty.run h
  obtain ⟨alone, halone, hline⟩ := run?_filter (rfl : line {} key = line {} key) h
  exact ⟨hletters, honce, hquiet, hprompt, alone, halone, congrArg Line.waiting hline,
    congrArg Line.receives hline⟩

/-- Three receives for one key, one of which is cancelled before it could take a letter, and other
letters in between: under another tag, and to a member that the pool does not have. -/
def sampleActs : List Act :=
  let key : MailKey := ⟨2, 0, 5⟩
  [⟨key, .post⟩, ⟨key, .test 0⟩, ⟨⟨2, 0, 4⟩, .send [9]⟩, ⟨key, .test 0⟩, ⟨key, .send [1]⟩,
    ⟨key, .post⟩, ⟨key, .post⟩, ⟨key, .cancel 1⟩, ⟨key, .send [2]⟩, ⟨key, .test 1⟩,
    ⟨key, .test 2⟩, ⟨⟨7, 0, 5⟩, .send [8]⟩, ⟨key, .test 0⟩, ⟨key, .test 0⟩, ⟨key, .send [3]⟩]

theorem delivers_run_sample : ∃ events room, run? 3 {} sampleActs = some (events, room) ∧
    sent ⟨2, 0, 5⟩ events = [[1], [2], [3]] ∧ taken ⟨2, 0, 5⟩ events = [[1], [2]] ∧
    takenAt ⟨2, 0, 5⟩ 2 events = [[1]] ∧ room.mail.waiting ⟨2, 0, 5⟩ = [[3]] := by
  have hsome : ∃ events room, run? 3 {} sampleActs = some (events, room) ∧
      sent ⟨2, 0, 5⟩ events = [[1], [2], [3]] ∧ taken ⟨2, 0, 5⟩ events = [[1], [2]] ∧
      takenAt ⟨2, 0, 5⟩ 2 events = [[1]] := ⟨_, _, rfl, rfl, rfl, rfl⟩
  obtain ⟨events, room, hrun, hsent, htaken, hsecond⟩ := hsome
  obtain ⟨hletters, -⟩ := delivers_run hrun ⟨2, 0, 5⟩
  rw [hsent, htaken] at hletters
  have hwaiting : [[3]] = room.mail.waiting _ := (List.cons.inj (List.cons.inj hletters).2).2
  exact ⟨events, room, hrun, hsent, htaken, hsecond, hwaiting.symm⟩

end Mailroom

end Stepcast
