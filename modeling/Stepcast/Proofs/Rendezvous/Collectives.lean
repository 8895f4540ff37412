import Mathlib.Data.List.Infix
import Mathlib.Data.List.Perm.Subperm
import Mathlib.Logic.Function.Basic
import Stepcast.Proofs.Rendezvous.Inboxes

/-!
# Collective broadcasts, step by step

The members of a group make the same broadcasts, one after the other, each of them at its own pace.
A root sends to the others one by one, and all others may act in between: a member that has its
value goes on to the next broadcast, and may be its root, while others wait for the first one.

A member has one inbox for all roots, so in the `p`-th broadcast in which it is not the root it gets
the `p`-th value that was sent to it. The account of this, `Keeps`, knows of each root to whom it
has sent its values, and of each member which values it has taken and which ones wait.

Main definition: `Ensemble.step?`. Main statements: `Keeps.step`, `run_keeps`, and
`Ensemble.run?_alone`, which says that a member that is not interrupted does what `Group.broadcast`
does at once.
-/

namespace Stepcast

/-! ## Broadcasts to make -/

/-- A broadcast: its root, and what each member passes to it. -/
structure Collective where
  root : UInt32
  value : Nat → UInt32

/-- What the broadcast is to return to every member of a group. -/
def Collective.answer (c : Collective) (size : Nat) : Except Fault UInt32 :=
  if size ≤ c.root.toNat then .error (.argument (.broadcastRoot c.root size))
  else .ok (c.value c.root.toNat)

/-- The broadcasts that the members of a group make, in order. -/
structure Agenda where
  size : Nat
  calls : List Collective

namespace Agenda

/-- The root of a broadcast, if it is a member. -/
def sender? (a : Agenda) (k : Nat) : Option Nat :=
  (a.calls[k]?.map (·.root.toNat)).filter (· < a.size)

/-- What the root passes to a broadcast. -/
def value (a : Agenda) (k : Nat) : UInt32 := a.calls[k]?.elim 0 fun c => c.value c.root.toNat

/-- The member takes a value from its inbox in the broadcast. -/
def takes (a : Agenda) (m k : Nat) : Bool := (a.sender? k).any (· ≠ m)

/-- The broadcasts before `k` in which the member takes a value. -/
def inbound (a : Agenda) (m k : Nat) : List Nat := (List.range k).filter (a.takes m)

/-- The members to whom a root sends, in order. -/
def others (a : Agenda) (root : Nat) : List Nat := (Group.ofSize a.size).others root

section Calls

variable {a : Agenda} {c : Collective} {m k : Nat}

theorem sender?_eq_some {root : Nat} :
    a.sender? k = some root ↔ ∃ c, a.calls[k]? = some c ∧ c.root.toNat = root ∧ root < a.size := by
  simp only [sender?, Option.filter_eq_some_iff, Option.map_eq_some_iff, decide_eq_true_eq]
  constructor
  · rintro ⟨⟨c, hc, hroot⟩, hlt⟩
    exact ⟨c, hc, hroot, hlt⟩
  · rintro ⟨c, hc, hroot, hlt⟩
    exact ⟨⟨c, hc, hroot⟩, hlt⟩

theorem sender?_lt {root : Nat} (h : a.sender? k = some root) : root < a.size := by
  obtain ⟨-, -, -, hlt⟩ := sender?_eq_some.mp h
  exact hlt

theorem takes_iff : a.takes m k = true ↔ ∃ root, a.sender? k = some root ∧ root ≠ m := by
  simp [takes, Option.any_eq_true]

theorem value_of_sender {root : Nat} (hc : a.calls[k]? = some c) (h : a.sender? k = some root) :
    c.value root = a.value k := by
  obtain ⟨c', hc', rfl, -⟩ := sender?_eq_some.mp h
  obtain rfl : c' = c := Option.some.inj (hc'.symm.trans hc)
  rw [value, hc]
  rfl

theorem answer_of_sender {root : Nat} (hc : a.calls[k]? = some c) (h : a.sender? k = some root) :
    c.answer a.size = .ok (a.value k) := by
  obtain ⟨c', hc', rfl, hlt⟩ := sender?_eq_some.mp h
  obtain rfl : c' = c := Option.some.inj (hc'.symm.trans hc)
  rw [Collective.answer, if_neg (Nat.not_le.mpr hlt), value_of_sender hc h]

theorem mem_inbound {i : Nat} : i ∈ a.inbound m k ↔ i < k ∧ a.takes m i = true := by
  simp [inbound]

theorem nodup_inbound (a : Agenda) (m k : Nat) : (a.inbound m k).Nodup := List.nodup_range.filter _

theorem inbound_succ (a : Agenda) (m k : Nat) :
    a.inbound m (k + 1) = a.inbound m k ++ if a.takes m k then [k] else [] := by
  rw [inbound, List.range_succ, List.filter_append, ← inbound, List.filter_singleton]
  cases a.takes m k <;> rfl

theorem inbound_mono {n : Nat} (h : k ≤ n) : a.inbound m k <+: a.inbound m n := by
  obtain ⟨d, rfl⟩ := Nat.exists_eq_add_of_le h
  rw [inbound, inbound, List.range_add, List.filter_append]
  exact List.prefix_append ..

theorem others_of_size {g : Group} (h : g.size = a.size) (root : Nat) :
    g.others root = a.others root := by
  rw [others, Group.others, Group.others, Group.size_ofSize, h]

theorem mem_others {root : Nat} : m ∈ a.others root ↔ m < a.size ∧ m ≠ root := by
  rw [others, Group.mem_others, Group.size_ofSize]

theorem length_others_lt {root : Nat} (h : root < a.size) : (a.others root).length < a.size := by
  have hlt : (a.others root).length < (Group.ofSize a.size).size :=
    Group.length_others_lt (by rwa [Group.size_ofSize])
  rwa [Group.size_ofSize] at hlt

theorem nodup_others (a : Agenda) (root : Nat) : (a.others root).Nodup := Group.nodup_others root

end Calls

end Agenda

/-! ## Members at work -/

/-- What the broadcasts so far have returned to a member. When it is the root of the next one and
has begun, it still has to send to some others. -/
structure Member where
  returned : List (Except Fault UInt32) := []
  sending : Option (List Nat) := none

/-- A group and its members, and what was sent so far: each time the number of the broadcast, and
the member for whom the value was. -/
structure Ensemble where
  group : Group
  members : Nat → Member := fun _ => {}
  sends : List (Nat × Nat) := []

namespace Ensemble

/-- The number of the broadcast that the member makes or is to make. -/
def position (e : Ensemble) (m : Nat) : Nat := (e.members m).returned.length

/-- The broadcast that the member makes or is to make. -/
def next? (a : Agenda) (e : Ensemble) (m : Nat) : Option Collective :=
  if m < a.size then a.calls[e.position m]? else none

def put (e : Ensemble) (m : Nat) (member : Member) : Ensemble :=
  { e with members := Function.update e.members m member }

/-- The broadcast of the member returns. -/
def give (e : Ensemble) (m : Nat) (reply : Except Fault UInt32) : Ensemble :=
  e.put m { returned := (e.members m).returned ++ [reply] }

/-- A member goes on with its broadcast, or begins the next one; nothing when it has to wait, or has
made all broadcasts. -/
def step? (a : Agenda) (e : Ensemble) (m : Nat) : Option Ensemble :=
  match e.next? a m, (e.members m).sending with
  | none, _ => none
  | some c, some (dest :: rest) =>
    some { e.put m { e.members m with sending := some rest } with
      group := e.group.push dest (c.value m)
      sends := e.sends ++ [(e.position m, dest)] }
  | some c, some [] => some (e.give m (.ok (c.value m)))
  | some c, none =>
    if e.group.size ≤ c.root.toNat then
      some (e.give m (.error (.argument (.broadcastRoot c.root e.group.size))))
    else if m = c.root.toNat then
      some (e.put m { e.members m with sending := some (e.group.others m) })
    else (e.group.pop? m).map fun (value, group) => { e.give m (.ok value) with group }

/-- The members after they have acted in some order. -/
def run? (a : Agenda) (e : Ensemble) (schedule : List Nat) : Option Ensemble :=
  schedule.foldlM (step? a) e

/-- Nobody has begun. -/
def start (a : Agenda) : Ensemble := { group := .ofSize a.size }

/-- What one step of a member does. -/
inductive Step (a : Agenda) (e : Ensemble) (m : Nat) : Ensemble → Prop
  | refuse (c : Collective) (hc : a.calls[e.position m]? = some c)
      (hidle : (e.members m).sending = none) (hroot : a.size ≤ c.root.toNat) :
      Step a e m (e.give m (c.answer a.size))
  | begin (c : Collective) (hc : a.calls[e.position m]? = some c)
      (hidle : (e.members m).sending = none) (hroot : a.sender? (e.position m) = some m) :
      Step a e m (e.put m { e.members m with sending := some (a.others m) })
  | send (c : Collective) (dest : Nat) (rest : List Nat) (hc : a.calls[e.position m]? = some c)
      (hsending : (e.members m).sending = some (dest :: rest)) :
      Step a e m { e.put m { e.members m with sending := some rest } with
        group := e.group.push dest (c.value m)
        sends := e.sends ++ [(e.position m, dest)] }
  | finish (c : Collective) (hc : a.calls[e.position m]? = some c)
      (hsending : (e.members m).sending = some []) : Step a e m (e.give m (.ok (c.value m)))
  | take (c : Collective) (value : UInt32) (group : Group)
      (hc : a.calls[e.position m]? = some c) (hidle : (e.members m).sending = none)
      (htakes : a.takes m (e.position m) = true) (hpop : e.group.pop? m = some (value, group)) :
      Step a e m { e.give m (.ok value) with group }

section Step

variable {a : Agenda} {e e' : Ensemble} {m other : Nat}

theorem run?_cons (schedule : List Nat) :
    e.run? a (m :: schedule) = (e.step? a m).bind (·.run? a schedule) := rfl

theorem next?_eq_some {c : Collective} :
    e.next? a m = some c ↔ m < a.size ∧ a.calls[e.position m]? = some c := by
  rw [next?, Option.ite_none_right_eq_some]

theorem takes_of_next? {c : Collective} (hc : e.next? a m = some c)
    (hroot : ¬ a.size ≤ c.root.toNat) (hself : ¬ m = c.root.toNat) :
    a.takes m (e.position m) = true :=
  Agenda.takes_iff.mpr ⟨_, Agenda.sender?_eq_some.mpr
    ⟨c, (next?_eq_some.mp hc).2, rfl, Nat.lt_of_not_le hroot⟩, Ne.symm hself⟩

/-- **What one step does.** -/
theorem step?_eq_some (hsize : e.group.size = a.size) (h : e.step? a m = some e') :
    m < a.size ∧ Step a e m e' := by
  unfold step? at h
  rw [hsize] at h
  split at h
  · cases h
  · rename_i c dest rest hnext hsending
    obtain ⟨hm, hc⟩ := next?_eq_some.mp hnext
    cases h
    exact ⟨hm, .send c dest rest hc hsending⟩
  · rename_i c hnext hsending
    obtain ⟨hm, hc⟩ := next?_eq_some.mp hnext
    cases h
    exact ⟨hm, .finish c hc hsending⟩
  · rename_i c hnext hidle
    obtain ⟨hm, hc⟩ := next?_eq_some.mp hnext
    refine ⟨hm, ?_⟩
    split at h
    · next hroot =>
      have hanswer : Except.error (.argument (.broadcastRoot c.root a.size)) = c.answer a.size :=
        (if_pos hroot).symm
      rw [hanswer] at h
      cases h
      exact .refuse c hc hidle hroot
    · next hroot =>
      split at h
      · next hself =>
        cases h
        rw [Agenda.others_of_size hsize]
        exact .begin c hc hidle (Agenda.sender?_eq_some.mpr ⟨c, hc, hself.symm, hm⟩)
      · next hself =>
        obtain ⟨⟨value, group⟩, hpop, h⟩ := Option.map_eq_some_iff.mp h
        cases h
        exact .take c value group hc hidle (takes_of_next? hnext hroot hself) hpop

theorem Step.members_of_ne (h : Step a e m e') (hne : other ≠ m) :
    e'.members other = e.members other := by
  cases h <;> exact Function.update_of_ne hne ..

/-- A member that can do nothing has made all broadcasts, or waits for a value. -/
theorem step?_eq_none (hsize : e.group.size = a.size) (hm : m < a.size)
    (h : e.step? a m = none) : a.calls.length ≤ e.position m ∨
      a.takes m (e.position m) = true ∧ e.group.inbox m = [] := by
  unfold step? at h
  rw [hsize] at h
  split at h
  · next hnext =>
    rw [next?, if_pos hm] at hnext
    exact .inl (List.getElem?_eq_none_iff.mp hnext)
  · cases h
  · cases h
  · rename_i c hnext hidle
    split at h
    · cases h
    · next hroot =>
      split at h
      · cases h
      · next hself =>
        exact .inr ⟨takes_of_next? hnext hroot hself,
          Group.pop?_eq_none.mp (Option.map_eq_none_iff.mp h)⟩

end Step

end Ensemble

/-! ## What the members keep -/

/-- The members to whom a root still has to send its value in a broadcast. -/
def Member.unsent (member : Member) (others : List Nat) (k : Nat) : List Nat :=
  if k < member.returned.length then []
  else if k = member.returned.length then member.sending.getD others
  else others

section Unsent

variable {member : Member} {others : List Nat} {k : Nat}

theorem Member.unsent_new : ({} : Member).unsent others k = others :=
  (if_neg (Nat.not_lt_zero k)).trans (ite_self others)

theorem Member.unsent_of_lt (h : k < member.returned.length) : member.unsent others k = [] :=
  if_pos h

theorem Member.unsent_now :
    member.unsent others member.returned.length = member.sending.getD others := by
  rw [unsent, if_neg (Nat.lt_irrefl _), if_pos rfl]

/-- Sending goes on in the broadcast that the root makes now, and in no other one. -/
theorem Member.unsent_of_ne (h : k ≠ member.returned.length) (sending : Option (List Nat)) :
    ({ member with sending } : Member).unsent others k = member.unsent others k := by
  rw [unsent, unsent, if_neg h, if_neg h]

theorem Member.le_of_unsent_ne (h : member.unsent others k ≠ others) :
    k ≤ member.returned.length := by
  unfold unsent at h
  by_contra hlt
  rw [if_neg (by omega), if_neg (by omega)] at h
  exact h rfl

theorem Member.unsent_give {reply : Except Fault UInt32}
    (h : k = member.returned.length → member.sending = some []) :
    ({ returned := member.returned ++ [reply] } : Member).unsent others k =
      member.unsent others k := by
  unfold unsent
  rw [List.length_append, List.length_singleton]
  rcases Nat.lt_trichotomy k member.returned.length with hlt | heq | hgt
  · rw [if_pos (by omega), if_pos hlt]
  · rw [if_pos (by omega), if_neg (by omega), if_pos heq, h heq]
    rfl
  · rw [if_neg (by omega), if_neg (Nat.lt_asymm hgt), if_neg (Nat.ne_of_gt hgt),
      Option.getD_none, ite_self]

end Unsent

namespace Ensemble

/-- The broadcasts whose values were sent to a member, in the order in which they came. -/
def sentTo (e : Ensemble) (m : Nat) : List Nat :=
  e.sends.filterMap fun s => if s.2 = m then some s.1 else none

/-- The members to whom the value of a broadcast was sent. -/
def sentIn (e : Ensemble) (k : Nat) : List Nat :=
  e.sends.filterMap fun s => if s.1 = k then some s.2 else none

/-- The reply of a broadcast to a member is the right one, or the value that came at its turn. -/
def Returns (a : Agenda) (e : Ensemble) (m k : Nat) (reply : Except Fault UInt32) : Prop :=
  ∃ c, a.calls[k]? = some c ∧ (reply = c.answer a.size ∨
    a.takes m k = true ∧ ∃ i, (e.sentTo m)[(a.inbound m k).length]? = some i ∧
      reply = .ok (a.value i))

/-- What a member has done with the values that came to it, and with its own. -/
structure KeepsFor (a : Agenda) (e : Ensemble) (m : Nat) : Prop where
  sending : ∀ rest, (e.members m).sending = some rest → a.sender? (e.position m) = some m
  sent : ∀ k, a.sender? k = some m →
    e.sentIn k ++ (e.members m).unsent (a.others m) k = a.others m
  taken : (a.inbound m (e.position m)).length ≤ (e.sentTo m).length
  inbox : m < a.size → e.group.inbox m =
    ((e.sentTo m).drop (a.inbound m (e.position m)).length).map a.value
  returned : ∀ k reply, (e.members m).returned[k]? = some reply → e.Returns a m k reply

/-- All members account for what was sent. -/
structure Keeps (a : Agenda) (e : Ensemble) : Prop where
  size_eq : e.group.size = a.size
  known : ∀ s ∈ e.sends, (a.sender? s.1).isSome
  member : ∀ m, KeepsFor a e m

section Keeps

variable {a : Agenda} {e e' : Ensemble} {m k other : Nat} {c : Collective}

theorem mem_sentTo : k ∈ e.sentTo m ↔ (k, m) ∈ e.sends := by
  simp [sentTo]

theorem mem_sentIn : m ∈ e.sentIn k ↔ (k, m) ∈ e.sends := by
  simp [sentIn]

/-- What a root has sent, and what it still has to send, in the broadcast that it makes now. -/
theorem KeepsFor.sent_now (h : KeepsFor a e m) (hroot : a.sender? (e.position m) = some m) :
    e.sentIn (e.position m) ++ (e.members m).sending.getD (a.others m) = a.others m := by
  have hsent := h.sent _ hroot
  rwa [position, Member.unsent_now, ← position] at hsent

theorem Keeps.mem_others (h : Keeps a e) {root : Nat} (hroot : a.sender? k = some root)
    (hsent : m ∈ e.sentIn k) : m ∈ a.others root := by
  rw [← (h.member root).sent k hroot]
  exact List.mem_append_left _ hsent

theorem keeps_start (a : Agenda) : Keeps a (start a) where
  size_eq := Group.size_ofSize a.size
  known := nofun
  member m := {
    sending := nofun
    sent := fun _ _ => Member.unsent_new
    taken := by simp [start, position, Agenda.inbound]
    inbox := by simp [start, sentTo]
    returned := nofun }

/-- A member that has not returned from all broadcasts has returned from those before. -/
theorem Keeps.position_le (h : Keeps a e) (m : Nat) : e.position m ≤ a.calls.length := by
  by_contra hlt
  have hsome := List.getElem?_eq_getElem (Nat.lt_of_not_le hlt)
  obtain ⟨c, hc, -⟩ := (h.member m).returned _ _ hsome
  rw [List.getElem?_eq_none (Nat.le_refl _)] at hc
  cases hc

theorem Returns.append {reply : Except Fault UInt32} (h : e.Returns a m k reply)
    {more : List Nat} (hmore : e'.sentTo m = e.sentTo m ++ more) : e'.Returns a m k reply := by
  obtain ⟨c, hc, hreply⟩ := h
  refine ⟨c, hc, hreply.imp_right ?_⟩
  rintro ⟨htakes, i, hi, hvalue⟩
  refine ⟨htakes, i, ?_, hvalue⟩
  rw [hmore, List.getElem?_append_left (List.getElem?_eq_some_iff.mp hi).1, hi]

theorem KeepsFor.frame (h : KeepsFor a e m)
    (hreturned : (e'.members m).returned = (e.members m).returned) {more : List Nat}
    (hsentTo : e'.sentTo m = e.sentTo m ++ more)
    (hinbox : m < a.size → e'.group.inbox m = e.group.inbox m ++ more.map a.value)
    (hsending : ∀ rest, (e'.members m).sending = some rest → a.sender? (e.position m) = some m)
    (hsent : ∀ k, a.sender? k = some m →
      e'.sentIn k ++ (e'.members m).unsent (a.others m) k = a.others m) : KeepsFor a e' m := by
  have hposition : e'.position m = e.position m := congrArg List.length hreturned
  refine ⟨fun rest hrest => ?_, hsent, ?_, fun hm => ?_, fun k reply hreply => ?_⟩
  · rw [hposition]
    exact hsending rest hrest
  · rw [hposition, hsentTo, List.length_append]
    exact Nat.le_add_right_of_le h.taken
  · rw [hposition, hsentTo, List.drop_append_of_le_length h.taken, List.map_append, ← h.inbox hm]
    exact hinbox hm
  · rw [hreturned] at hreply
    exact (h.returned k reply hreply).append hsentTo

theorem KeepsFor.frame_other (h : KeepsFor a e m) (hmember : e'.members m = e.members m)
    {more : List Nat} (hsentTo : e'.sentTo m = e.sentTo m ++ more)
    (hinbox : m < a.size → e'.group.inbox m = e.group.inbox m ++ more.map a.value)
    (hsentIn : ∀ k, a.sender? k = some m → e'.sentIn k = e.sentIn k) : KeepsFor a e' m := by
  refine h.frame (congrArg Member.returned hmember) hsentTo hinbox (fun rest hrest => ?_)
    fun k hk => ?_
  · exact h.sending rest (hmember ▸ hrest)
  · rw [hsentIn k hk, hmember]
    exact h.sent k hk

theorem Keeps.give (h : Keeps a e) {reply : Except Fault UInt32} {group : Group}
    (hreply : e.Returns a m (e.position m) reply)
    (hdone : a.sender? (e.position m) = some m → (e.members m).sending = some [])
    (hsize : group.size = a.size)
    (htaken : (a.inbound m (e.position m + 1)).length ≤ (e.sentTo m).length)
    (hinbox : m < a.size → group.inbox m =
      ((e.sentTo m).drop (a.inbound m (e.position m + 1)).length).map a.value)
    (hothers : ∀ other, other ≠ m → group.inbox other = e.group.inbox other) :
    Keeps a { e.give m reply with group } := by
  let e' : Ensemble := { e.give m reply with group }
  refine ⟨hsize, h.known, fun other => ?_⟩
  by_cases hne : other = m
  · subst hne
    have hself : e'.members other = { returned := (e.members other).returned ++ [reply] } :=
      Function.update_self ..
    have hposition : e'.position other = e.position other + 1 := by
      rw [position, hself, List.length_append]
      rfl
    refine ⟨fun rest hsending => ?_, fun k hk => ?_, hposition ▸ htaken, hposition ▸ hinbox,
      fun k reply' hreturned => ?_⟩
    · rw [hself] at hsending
      cases hsending
    · have hbegun (heq : k = e.position other) : (e.members other).sending = some [] := by
        rw [heq] at hk
        exact hdone hk
      rw [hself, Member.unsent_give hbegun]
      exact (h.member other).sent k hk
    · rw [hself, List.getElem?_append] at hreturned
      split at hreturned
      · exact (h.member other).returned k reply' hreturned
      · next hk =>
        obtain ⟨hone, rfl⟩ := List.getElem?_eq_some_iff.mp hreturned
        obtain rfl : k = e.position other := by
          rw [List.length_singleton] at hone
          rw [position]
          omega
        rw [List.getElem_singleton]
        exact hreply
  · refine (h.member other).frame_other (Function.update_of_ne hne ..)
      (List.append_nil _).symm (fun _ => ?_) fun _ _ => rfl
    rw [List.map_nil, List.append_nil]
    exact hothers other hne

theorem Keeps.go (h : Keeps a e) (dests : List Nat) (group : Group) (sends : List (Nat × Nat))
    (hroot : a.sender? (e.position m) = some m) (hsize : group.size = a.size)
    (hnew : ∀ s ∈ sends, s.1 = e.position m)
    (hsent : sends.map Prod.snd ++ dests = (e.members m).sending.getD (a.others m))
    (hinbox : ∀ other < a.size, group.inbox other = e.group.inbox other ++
      (sends.filterMap fun s => if s.2 = other then some s.1 else none).map a.value) :
    Keeps a { e.put m { e.members m with sending := some dests } with
      group, sends := e.sends ++ sends } := by
  let e' : Ensemble := { e.put m { e.members m with sending := some dests } with
    group, sends := e.sends ++ sends }
  have hsentTo (other : Nat) : e'.sentTo other = e.sentTo other ++
      sends.filterMap fun s => if s.2 = other then some s.1 else none := List.filterMap_append ..
  have hsentIn (k : Nat) : e'.sentIn k =
      e.sentIn k ++ if k = e.position m then sends.map Prod.snd else [] := by
    rw [sentIn, List.filterMap_append, ← sentIn]
    congr 1
    split
    · next hk =>
      rw [← List.filterMap_eq_map]
      refine List.filterMap_congr fun s hs => ?_
      rw [hnew s hs, if_pos hk.symm]
      rfl
    · next hk =>
      refine List.filterMap_eq_nil_iff.mpr fun s hs => ?_
      rw [hnew s hs, if_neg (Ne.symm hk)]
  refine ⟨hsize, fun s hs => ?_, fun other => ?_⟩
  · rcases List.mem_append.mp hs with hs | hs
    · exact h.known s hs
    · rw [hnew s hs, hroot]
      rfl
  · by_cases hne : other = m
    · subst hne
      have hself : e'.members other = { e.members other with sending := some dests } :=
        Function.update_self ..
      have hreturned : (e'.members other).returned = (e.members other).returned := by rw [hself]
      refine (h.member other).frame hreturned (hsentTo other) (hinbox other) (fun _ _ => hroot)
        fun k hk => ?_
      rw [hsentIn, hself]
      by_cases hnow : k = e.position other
      · have hrest : ({ e.members other with sending := some dests } : Member).unsent
            (a.others other) k = dests := by
          rw [hnow]
          exact Member.unsent_now
        rw [hrest, if_pos hnow, hnow, List.append_assoc, hsent, (h.member other).sent_now hroot]
      · rw [if_neg hnow, List.append_nil, Member.unsent_of_ne hnow]
        exact (h.member other).sent k hk
    · refine (h.member other).frame_other (Function.update_of_ne hne ..) (hsentTo other)
        (hinbox other) fun k hk => ?_
      have hlater : ¬ k = e.position m := by
        rintro rfl
        exact hne (Option.some.inj (hk.symm.trans hroot))
      rw [hsentIn, if_neg hlater, List.append_nil]

/-- **One step** keeps what the members keep. -/
theorem Keeps.step (h : Keeps a e) (hm : m < a.size) (hstep : Step a e m e') : Keeps a e' := by
  have hstays (htakes : a.takes m (e.position m) = false) :
      a.inbound m (e.position m + 1) = a.inbound m (e.position m) := by
    rw [Agenda.inbound_succ, htakes]
    exact List.append_nil _
  cases hstep with
  | refuse c hc hidle hroot =>
    have hnone : a.sender? (e.position m) = none := by
      rw [Agenda.sender?, hc]
      simpa using hroot
    have htakes : a.takes m (e.position m) = false := by rw [Agenda.takes, hnone]; rfl
    refine h.give ⟨c, hc, .inl rfl⟩ (fun hself => ?_) h.size_eq ?_ ?_ fun _ _ => rfl
    · cases hnone.symm.trans hself
    · exact hstays htakes ▸ (h.member m).taken
    · exact hstays htakes ▸ (h.member m).inbox
  | begin c hc hidle hroot =>
    have hkeeps := h.go (a.others m) e.group [] hroot h.size_eq nofun (by rw [hidle]; rfl)
      fun _ _ => (List.append_nil _).symm
    rwa [List.append_nil] at hkeeps
  | send c dest rest hc hsending =>
    have hroot := (h.member m).sending _ hsending
    refine h.go rest _ [(e.position m, dest)] hroot ?_ (by simp) (by rw [hsending]; rfl) ?_
    · rw [Group.size_push, h.size_eq]
    · intro other hlt
      rw [Group.inbox_push (h.size_eq.symm ▸ hlt), Agenda.value_of_sender hc hroot]
      by_cases hdest : dest = other <;> simp [hdest]
  | finish c hc hsending =>
    have hroot := (h.member m).sending [] hsending
    have htakes : a.takes m (e.position m) = false := by
      rw [Agenda.takes, hroot]
      simp
    have hanswer : Except.ok (c.value m) = c.answer a.size := by
      rw [Agenda.answer_of_sender hc hroot, Agenda.value_of_sender hc hroot]
    refine h.give ⟨c, hc, .inl hanswer⟩ (fun _ => hsending) h.size_eq ?_ ?_ fun _ _ => rfl
    · exact hstays htakes ▸ (h.member m).taken
    · exact hstays htakes ▸ (h.member m).inbox
  | take c value group hc hidle htakes hpop =>
    obtain ⟨hsize, hinbox, hothers⟩ := Group.pop?_eq_some hpop
    have hlength : (a.inbound m (e.position m + 1)).length =
        (a.inbound m (e.position m)).length + 1 := by
      rw [Agenda.inbound_succ, if_pos htakes, List.length_append]
      rfl
    -- The value that was taken is the next one that was sent to the member.
    have hwaiting := ((h.member m).inbox hm).symm.trans hinbox
    obtain ⟨i, later, hdrop, hvalue, hlater⟩ := List.map_eq_cons_iff.mp hwaiting
    have hnext : (e.sentTo m)[(a.inbound m (e.position m)).length]? = some i := by
      rw [← List.head?_drop, hdrop]
      rfl
    have hrest : (e.sentTo m).drop ((a.inbound m (e.position m)).length + 1) = later := by
      rw [← List.tail_drop, hdrop]
      rfl
    refine h.give ⟨c, hc, .inr ⟨htakes, i, hnext, by rw [hvalue]⟩⟩ (fun hself => ?_)
      (hsize.trans h.size_eq) ?_ (fun _ => ?_) hothers
    · obtain ⟨root, hroot, hne⟩ := Agenda.takes_iff.mp htakes
      exact absurd (Option.some.inj (hroot.symm.trans hself)) hne
    · rw [hlength]
      exact (List.getElem?_eq_some_iff.mp hnext).1
    · rw [hlength, hrest, hlater]

/-- **A run keeps** what the members keep, and what else each of its steps keeps. -/
theorem run_keeps {motive : List Nat → Ensemble → Prop} (hstart : motive [] (start a))
    (hsteps : ∀ {acted e m e'}, (start a).run? a acted = some e → Keeps a e → motive acted e →
      Keeps a e' → Step a e m e' → motive (acted ++ [m]) e')
    {schedule : List Nat} (hrun : (start a).run? a schedule = some e) :
    Keeps a e ∧ motive schedule e := by
  induction schedule using List.reverseRecOn generalizing e with
  | nil =>
    cases hrun
    exact ⟨keeps_start a, hstart⟩
  | append_singleton acted m ih =>
    rw [run?, List.foldlM_append] at hrun
    obtain ⟨e₁, hacted, hlast⟩ := Option.bind_eq_some_iff.mp hrun
    obtain ⟨hkeeps, hmotive⟩ := ih hacted
    have hact : e₁.step? a m = some e := by simpa using hlast
    obtain ⟨hm, hstep⟩ := step?_eq_some hkeeps.size_eq hact
    have hkeeps' := hkeeps.step hm hstep
    exact ⟨hkeeps', hsteps hacted hkeeps hmotive hkeeps' hstep⟩

/-! ## Without interruption -/

/-- A root that is not interrupted sends to all that are left. -/
theorem run?_sending (hm : m < a.size) (hc : a.calls[e.position m]? = some c) (dests : List Nat)
    (hsending : (e.members m).sending = some dests) :
    ∃ sends, e.run? a (List.replicate (dests.length + 1) m) = some
      { e.give m (.ok (c.value m)) with
        group := dests.foldl (fun g dest => g.push dest (c.value m)) e.group, sends } := by
  have hnext : e.next? a m = some c := next?_eq_some.mpr ⟨hm, hc⟩
  induction dests generalizing e with
  | nil =>
    refine ⟨e.sends, ?_⟩
    simp only [List.length_nil, List.replicate_succ, List.replicate_zero, run?_cons, step?, hnext,
      hsending]
    rfl
  | cons dest rest ih =>
    let e₁ : Ensemble := { e.put m { e.members m with sending := some rest } with
      group := e.group.push dest (c.value m), sends := e.sends ++ [(e.position m, dest)] }
    have hself : e₁.members m = { e.members m with sending := some rest } :=
      Function.update_self ..
    have hposition : e₁.position m = e.position m := by
      rw [position, hself, position]
    have hstep : e.step? a m = some e₁ := by
      simp only [step?, hnext, hsending]
      rfl
    have hsending₁ : (e₁.members m).sending = some rest := by rw [hself]
    have hc₁ : a.calls[e₁.position m]? = some c := by rw [hposition, hc]
    obtain ⟨sends, hrun⟩ := ih hc₁ hsending₁ (next?_eq_some.mpr ⟨hm, hc₁⟩)
    refine ⟨sends, ?_⟩
    rw [List.length_cons, List.replicate_succ, run?_cons, hstep, Option.bind_some, hrun]
    simp [e₁, give, put]

/-- **Without interruption a member does what `Group.broadcast` does**, which gives nothing when the
member has to wait. -/
theorem run?_alone (hm : m < a.size) (hidle : (e.members m).sending = none)
    (hc : a.calls[e.position m]? = some c) :
    match e.group.broadcast m (c.value m) c.root with
    | some (reply, group) => ∃ n sends,
      e.run? a (List.replicate n m) = some { e.give m reply with group, sends }
    | none => e.step? a m = none := by
  have hnext : e.next? a m = some c := next?_eq_some.mpr ⟨hm, hc⟩
  unfold Group.broadcast
  by_cases hroot : e.group.size ≤ c.root.toNat
  · rw [if_pos hroot]
    refine ⟨1, e.sends, ?_⟩
    simp only [List.replicate_succ, List.replicate_zero, run?_cons, step?, hnext, hidle,
      if_pos hroot]
    rfl
  · rw [if_neg hroot]
    by_cases hself : m = c.root.toNat
    · rw [if_pos hself]
      let e₁ : Ensemble := e.put m { e.members m with sending := some (e.group.others m) }
      have hone : e₁.members m = { e.members m with sending := some (e.group.others m) } :=
        Function.update_self ..
      have hstep : e.step? a m = some e₁ := by
        simp only [step?, hnext, hidle, if_neg hroot, if_pos hself]
        rfl
      have hposition : e₁.position m = e.position m := by
        rw [position, hone, position]
      have hsending : (e₁.members m).sending = some (e.group.others m) := by rw [hone]
      have hc₁ : a.calls[e₁.position m]? = some c := by rw [hposition, hc]
      obtain ⟨sends, hrun⟩ := run?_sending hm hc₁ _ hsending
      refine ⟨(e.group.others m).length + 1 + 1, sends, ?_⟩
      rw [List.replicate_succ, run?_cons, hstep, Option.bind_some, hrun]
      simp [e₁, give, put]
    · rw [if_neg hself]
      rcases hpop : e.group.pop? m with - | ⟨value, group⟩
      · simp only [Option.map_none, step?, hnext, hidle, if_neg hroot, if_neg hself, hpop]
      · refine ⟨1, e.sends, ?_⟩
        simp only [List.replicate_succ, List.replicate_zero, run?_cons, step?, hnext, hidle,
          if_neg hroot, if_neg hself, hpop]
        rfl

end Keeps

end Ensemble

end Stepcast
