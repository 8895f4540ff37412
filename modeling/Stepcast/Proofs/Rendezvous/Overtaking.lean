import Stepcast.Proofs.Rendezvous.Collectives

/-!
# Broadcasts that overtake each other

When collective broadcasts overlap, the value of a later one may come to a member before that of an
earlier one, and then the earlier one returns it there. This needs a root that begins while another
one still has members to send to: in a run without that (`Ensemble.Separate`) the values come to
every member in the order of the broadcasts, and every reply is right. All runs are of this kind,
however the members interleave, when the root only ever passes to the member to which the old one
sends last (`Agenda.Passes`), as it does in a group of two, or when there is one root.

Overtaken or not, nobody waits forever: the members that are furthest behind can go on.

Main statements: `Keeps.progress`, `ordered_run`, `answers_run`.
-/

namespace Stepcast

/-! ## Roots that pass on -/

namespace Agenda

/-- The last broadcast before `k` whose root is a member. -/
def previous? (a : Agenda) (k : Nat) : Option Nat :=
  ((List.range k).filter fun i => (a.sender? i).isSome).getLast?

/-- Each root is the one before, or the member to which that one sends last. -/
def Passes (a : Agenda) : Prop :=
  ∀ k < a.calls.length, ∀ root ∈ a.sender? k, ∀ j ∈ a.previous? k, ∀ last ∈ a.sender? j,
    root = last ∨ (a.others last).getLast? = some root

instance (a : Agenda) : Decidable a.Passes := by
  unfold Passes
  infer_instance

section Passing

variable {a : Agenda} {m k : Nat}

theorem previous?_eq_none (h : a.previous? k = none) {i : Nat} (hi : i < k) :
    a.sender? i = none := by
  have hnil := List.filter_eq_nil_iff.mp (List.getLast?_eq_none_iff.mp h) i (List.mem_range.mpr hi)
  simpa using hnil

theorem previous?_eq_some {j : Nat} (h : a.previous? k = some j) :
    (j < k ∧ (a.sender? j).isSome) ∧ ∀ i < k, (a.sender? i).isSome → i ≤ j := by
  have hmem := List.mem_of_getLast? h
  rw [List.mem_filter, List.mem_range] at hmem
  refine ⟨hmem, fun i hi hsender => ?_⟩
  obtain ⟨before, hbefore⟩ := List.getLast?_eq_some_iff.mp h
  have hsorted : (List.range k).Pairwise (· < ·) := List.pairwise_lt_range
  replace hsorted := hsorted.filter fun i => (a.sender? i).isSome
  rw [hbefore, List.pairwise_append] at hsorted
  have hi : i ∈ before ++ [j] := hbefore ▸ List.mem_filter.mpr ⟨List.mem_range.mpr hi, hsender⟩
  rcases List.mem_append.mp hi with hi | hi
  · exact Nat.le_of_lt (hsorted.2.2 i hi j List.mem_cons_self)
  · exact Nat.le_of_eq (List.mem_singleton.mp hi)

theorem inbound_concat {n : Nat} (hk : k < n) (htakes : a.takes m k = true) :
    a.inbound m k ++ [k] <+: a.inbound m n := by
  have hnext : a.inbound m (k + 1) <+: a.inbound m n := inbound_mono hk
  rwa [inbound_succ, if_pos htakes] at hnext

/-- The next broadcast in which a member takes a value prolongs what was sent in order. -/
theorem prefix_concat {sent : List Nat} {n : Nat} (h : sent <+: a.inbound m n) (hk : k < n)
    (htakes : a.takes m k = true) (hbefore : ∀ i ∈ a.inbound m k, i ∈ sent) (hnew : k ∉ sent) :
    sent ++ [k] <+: a.inbound m n := by
  have hnext := inbound_concat hk htakes
  have hle : (a.inbound m k).length ≤ sent.length :=
    ((a.nodup_inbound m k).subperm hbefore).length_le
  have hge : sent.length ≤ (a.inbound m k).length := by
    by_contra hlt
    have hlength : (a.inbound m k ++ [k]).length ≤ sent.length := by
      rw [List.length_append]
      exact Nat.lt_of_not_le hlt
    exact hnew ((List.prefix_of_prefix_length_le hnext h hlength).subset (by simp))
  have heq : sent = a.inbound m k :=
    (List.prefix_of_prefix_length_le h (inbound_mono (Nat.le_of_lt hk)) hge).eq_of_length
      (Nat.le_antisymm hge hle)
  rwa [heq]

end Passing

end Agenda

namespace Ensemble

section Runs

variable {a : Agenda} {e e' : Ensemble} {m k other : Nat}

/-! ## Nobody waits forever -/

/-- The value of the broadcast was sent to all who take it. -/
def Complete (a : Agenda) (e : Ensemble) (k : Nat) : Prop :=
  ∀ root, a.sender? k = some root → e.sentIn k = a.others root

theorem Keeps.complete_of_unsent (h : Keeps a e) {root : Nat} (hroot : a.sender? k = some root)
    (hdone : (e.members root).unsent (a.others root) k = []) : e.Complete a k := by
  intro root' hroot'
  obtain rfl : root = root' := Option.some.inj (hroot.symm.trans hroot')
  have hsent := (h.member root).sent k hroot
  rwa [hdone, List.append_nil] at hsent

theorem Keeps.complete_of_lt (h : Keeps a e) {root : Nat} (hroot : a.sender? k = some root)
    (hlt : k < e.position root) : e.Complete a k :=
  h.complete_of_unsent hroot (Member.unsent_of_lt hlt)

theorem Complete.mem_sentTo (h : e.Complete a k) (hm : m < a.size) (htakes : a.takes m k = true) :
    k ∈ e.sentTo m := by
  obtain ⟨root, hroot, hne⟩ := Agenda.takes_iff.mp htakes
  rw [Ensemble.mem_sentTo, ← mem_sentIn, h root hroot]
  exact Agenda.mem_others.mpr ⟨hm, hne.symm⟩

/-- A root that can do nothing has passed its broadcast: it waits for nobody in it. -/
theorem Keeps.lt_of_stuck (h : Keeps a e) {root : Nat} (hroot : a.sender? k = some root)
    (hstuck : e.step? a root = none) (hcame : k ≤ e.position root) : k < e.position root := by
  refine Nat.lt_of_le_of_ne hcame fun heq => ?_
  obtain ⟨c, hc, -, hmember⟩ := Agenda.sender?_eq_some.mp hroot
  rcases step?_eq_none h.size_eq hmember hstuck with hall | ⟨htakes, -⟩
  · exact Nat.not_le.mpr (List.getElem?_eq_some_iff.mp hc).1 (heq ▸ hall)
  · obtain ⟨other, hother, hne⟩ := Agenda.takes_iff.mp htakes
    rw [← heq, hroot] at hother
    exact hne (Option.some.inj hother).symm

/-- When the broadcasts up to that of a member are complete, it need not wait for its value. -/
theorem Keeps.inbox_ne_nil (h : Keeps a e) (hm : m < a.size)
    (htakes : a.takes m (e.position m) = true)
    (hcomplete : ∀ i ≤ e.position m, e.Complete a i) : e.group.inbox m ≠ [] := by
  intro hempty
  have hinbox := (h.member m).inbox hm
  rw [hempty, eq_comm, List.map_eq_nil_iff, List.drop_eq_nil_iff] at hinbox
  have hsent : ∀ i ∈ a.inbound m (e.position m + 1), i ∈ e.sentTo m := by
    intro i hi
    obtain ⟨hlt, hitakes⟩ := Agenda.mem_inbound.mp hi
    exact (hcomplete i (Nat.le_of_lt_succ hlt)).mem_sentTo hm hitakes
  have hlength := ((a.nodup_inbound m _).subperm hsent).length_le
  rw [Agenda.inbound_succ, if_pos htakes, List.length_append, List.length_singleton] at hlength
  omega

/-- **Nobody waits forever**: when no member can do anything, all of them have made all broadcasts.
Those that are furthest behind would wait for the value of a broadcast which its root has passed. -/
theorem Keeps.progress (h : Keeps a e) (hstuck : ∀ m < a.size, e.step? a m = none) :
    ∀ m < a.size, e.position m = a.calls.length := by
  have hall (k : Nat) (hk : k ≤ a.calls.length) : ∀ m < a.size, k ≤ e.position m := by
    induction k with
    | zero => exact fun _ _ => Nat.zero_le _
    | succ k ih =>
      intro m hm
      have hbefore := ih (Nat.le_of_succ_le hk)
      by_contra hlt
      obtain rfl : e.position m = k :=
        Nat.le_antisymm (Nat.le_of_lt_succ (Nat.lt_of_not_le hlt)) (hbefore m hm)
      rcases step?_eq_none h.size_eq hm (hstuck m hm) with hover | ⟨htakes, hempty⟩
      · exact Nat.not_le.mpr hk hover
      · refine h.inbox_ne_nil hm htakes (fun i hi root hroot => ?_) hempty
        have hmember := Agenda.sender?_lt hroot
        have hcame : i ≤ e.position root := hi.trans (hbefore root hmember)
        exact h.complete_of_lt hroot (h.lt_of_stuck hroot (hstuck root hmember) hcame) root hroot
  exact fun m hm => Nat.le_antisymm (h.position_le m) (hall _ (Nat.le_refl _) m hm)

/-- The steps that a member has made, counted at the most that its broadcasts can take. -/
def effort (a : Agenda) (e : Ensemble) (m : Nat) : Nat :=
  e.position m * (a.size + 1) + (e.members m).sending.elim 0 fun rest => a.size - rest.length

theorem effort_give {reply : Except Fault UInt32} {group : Group} :
    ({ e.give m reply with group } : Ensemble).effort a m = (e.position m + 1) * (a.size + 1) := by
  simp [effort, position, give, put]

theorem effort_sending {rest : List Nat} {group : Group} {sends : List (Nat × Nat)} :
    ({ e.put m { e.members m with sending := some rest } with
        group, sends } : Ensemble).effort a m =
      e.position m * (a.size + 1) + (a.size - rest.length) := by
  simp [effort, position, put]

theorem Keeps.effort_step (h : Keeps a e) (hstep : Step a e m e') :
    e.effort a m + 1 ≤ e'.effort a m := by
  have hnext : (e.position m + 1) * (a.size + 1) = e.position m * (a.size + 1) + (a.size + 1) :=
    Nat.succ_mul ..
  cases hstep with
  | refuse c hc hidle hroot =>
    rw [effort_give, effort, hidle, Option.elim_none, hnext]
    omega
  | begin c hc hidle hroot =>
    have hlt := Agenda.length_others_lt (Agenda.sender?_lt hroot)
    rw [effort_sending, effort, hidle, Option.elim_none]
    omega
  | send c dest rest hc hsending =>
    have hroot := (h.member m).sending _ hsending
    have hlt := Agenda.length_others_lt (Agenda.sender?_lt hroot)
    have hsplit := congrArg List.length ((h.member m).sent_now hroot)
    rw [hsending, Option.getD_some, List.length_append, List.length_cons] at hsplit
    rw [effort_sending, effort, hsending, Option.elim_some, List.length_cons]
    omega
  | finish c hc hsending =>
    rw [effort_give, effort, hsending, Option.elim_some, hnext]
    omega
  | take c value group hc hidle htakes hpop =>
    rw [effort_give, effort, hidle, Option.elim_none, hnext]
    omega

theorem Keeps.count_step (h : Keeps a e) (hstep : Step a e m e') {acted : List Nat}
    (hcount : ∀ other, acted.count other ≤ e.effort a other) :
    ∀ other, (acted ++ [m]).count other ≤ e'.effort a other := by
  intro other
  have hbefore := hcount other
  rw [List.count_append, List.count_singleton]
  by_cases hne : other = m
  · subst hne
    have hself := h.effort_step hstep
    rw [beq_self_eq_true, if_pos rfl]
    omega
  · rw [effort, position, hstep.members_of_ne hne, ← position, ← effort,
      if_neg (by simpa using Ne.symm hne)]
    exact hbefore

theorem Keeps.effort_le (h : Keeps a e) (m : Nat) :
    e.effort a m ≤ a.calls.length * (a.size + 1) := by
  rcases hsending : (e.members m).sending with - | rest
  · rw [effort, hsending]
    exact Nat.mul_le_mul_right _ (h.position_le m)
  · obtain ⟨c, hc, -⟩ := Agenda.sender?_eq_some.mp ((h.member m).sending rest hsending)
    have hlt := (List.getElem?_eq_some_iff.mp hc).1
    calc e.effort a m ≤ (e.position m + 1) * (a.size + 1) := by
          rw [effort, hsending, Option.elim_some, Nat.succ_mul]
          omega
      _ ≤ a.calls.length * (a.size + 1) := Nat.mul_le_mul_right _ hlt

/-! ## Replies -/

theorem Keeps.refused (h : Keeps a e) {c : Collective} (hk : k < e.position m)
    (hc : a.calls[k]? = some c) (hroot : a.size ≤ c.root.toNat) :
    (e.members m).returned[k]? = some (.error (.argument (.broadcastRoot c.root a.size))) := by
  have hsome := List.getElem?_eq_getElem hk
  obtain ⟨c', hc', hreply⟩ := (h.member m).returned k _ hsome
  obtain rfl : c' = c := Option.some.inj (hc'.symm.trans hc)
  rw [hsome]
  rcases hreply with hreply | ⟨htakes, -⟩
  · rw [hreply, Collective.answer, if_pos hroot]
  · obtain ⟨root, hsender, -⟩ := Agenda.takes_iff.mp htakes
    obtain ⟨c'', hc'', rfl, hlt⟩ := Agenda.sender?_eq_some.mp hsender
    obtain rfl : c'' = c' := Option.some.inj (hc''.symm.trans hc)
    exact absurd hlt (Nat.not_lt.mpr hroot)

/-- The values came to the member in the order of the broadcasts. -/
def InOrder (a : Agenda) (e : Ensemble) (m : Nat) : Prop :=
  e.sentTo m <+: a.inbound m a.calls.length

/-- **In order, all replies are right.** -/
theorem Keeps.answers (h : Keeps a e) (hordered : e.InOrder a m) :
    (e.members m).returned = (a.calls.take (e.position m)).map (·.answer a.size) := by
  refine List.ext_getElem? fun k => ?_
  rw [List.getElem?_map, List.getElem?_take]
  rcases hreturned : (e.members m).returned[k]? with - | reply
  · have hk : e.position m ≤ k := List.getElem?_eq_none_iff.mp hreturned
    rw [if_neg (Nat.not_lt.mpr hk), Option.map_none]
  · have hk : k < e.position m := (List.getElem?_eq_some_iff.mp hreturned).1
    obtain ⟨c, hc, hreply⟩ := (h.member m).returned k reply hreturned
    rw [if_pos hk, hc, Option.map_some]
    rcases hreply with rfl | ⟨htakes, i, hi, rfl⟩
    · rfl
    · -- What comes at the turn of a broadcast is the value of that broadcast.
      have hturn : (a.inbound m a.calls.length)[(a.inbound m k).length]? = some k := by
        obtain ⟨later, hlater⟩ :=
          Agenda.inbound_concat (List.getElem?_eq_some_iff.mp hc).1 htakes
        rw [← hlater, List.append_assoc, List.getElem?_append_right (Nat.le_refl _), Nat.sub_self]
        rfl
      obtain ⟨later, hlater⟩ := hordered
      have hlt := (List.getElem?_eq_some_iff.mp hi).1
      rw [← hlater, List.getElem?_append_left hlt, hi] at hturn
      obtain rfl : i = k := Option.some.inj hturn
      obtain ⟨root, hroot, -⟩ := Agenda.takes_iff.mp htakes
      rw [Agenda.answer_of_sender hc hroot]

/-! ## Order -/

/-- The root still has members to send to. -/
def IsSending (e : Ensemble) (root : Nat) : Prop :=
  ∃ dest rest, (e.members root).sending = some (dest :: rest)

/-- The member is the root of its next broadcast, and has not begun it. -/
def IsBeginning (a : Agenda) (e : Ensemble) (m : Nat) : Prop :=
  (e.members m).sending = none ∧ a.sender? (e.position m) = some m

/-- In a run from here, no root begins while another one still has members to send to. -/
def Separate (a : Agenda) (e : Ensemble) : List Nat → Prop
  | [] => True
  | m :: rest => (e.IsBeginning a m → ∀ root, ¬ e.IsSending root) ∧
    ∀ e', e.step? a m = some e' → Separate a e' rest

theorem separate_concat {acted : List Nat} : Separate a e (acted ++ [m]) ↔
    Separate a e acted ∧ ∀ e', e.run? a acted = some e' → e'.IsBeginning a m →
      ∀ root, ¬ e'.IsSending root := by
  induction acted generalizing e with
  | nil => simp [Separate, run?]
  | cons first rest ih =>
    simp only [List.cons_append, Separate, ih, run?_cons, Option.bind_eq_some_iff]
    constructor
    · rintro ⟨hfirst, hrest⟩
      refine ⟨⟨hfirst, fun e₁ hact => (hrest e₁ hact).1⟩, ?_⟩
      rintro e' ⟨e₁, hact, hrun⟩
      exact (hrest e₁ hact).2 e' hrun
    · rintro ⟨⟨hfirst, hrest⟩, hlast⟩
      exact ⟨hfirst, fun e₁ hact => ⟨hrest e₁ hact, fun e' hrun => hlast e' ⟨e₁, hact, hrun⟩⟩⟩

/-- Before a root began, all values were sent that had to be sent before. -/
def Settled (a : Agenda) (e : Ensemble) : Prop :=
  ∀ m rest, (e.members m).sending = some rest → ∀ i < e.position m, e.Complete a i

theorem Keeps.unsent_ne (h : Keeps a e) {root : Nat} (hroot : a.sender? k = some root)
    (hsent : m ∈ e.sentIn k) : (e.members root).unsent (a.others root) k ≠ a.others root := by
  intro hall
  have hsplit := (h.member root).sent k hroot
  rw [hall, List.append_left_eq_self] at hsplit
  rw [hsplit] at hsent
  cases hsent

/-- A root that comes to a broadcast finds that the values of those before were all sent, if this is
so for the last of them whenever the root has got its value. -/
theorem Keeps.complete_before (h : Keeps a e) (hordered : ∀ m < a.size, e.InOrder a m)
    (hover : ∀ k root j last, a.sender? k = some root → a.previous? k = some j →
      a.sender? j = some last → root ∈ e.sentIn j → e.Complete a j)
    {root : Nat} (hroot : a.sender? k = some root) (hcame : k ≤ e.position root) :
    ∀ i < k, e.Complete a i := by
  induction k using Nat.strong_induction_on generalizing root with
  | _ k ih =>
    intro i hi sender hsender
    rcases hprevious : a.previous? k with - | j
    · rw [Agenda.previous?_eq_none hprevious hi] at hsender
      cases hsender
    obtain ⟨⟨hj, hjsender⟩, hlatest⟩ := Agenda.previous?_eq_some hprevious
    obtain ⟨last, hlast⟩ := Option.isSome_iff_exists.mp hjsender
    have hmember := Agenda.sender?_lt hroot
    have hdone : j ≤ e.position last ∧ e.Complete a j := by
      by_cases hsame : last = root
      · subst hsame
        exact ⟨by omega, h.complete_of_lt hlast (Nat.lt_of_lt_of_le hj hcame)⟩
      · -- The new root has its value, so the old one has begun.
        have htakes : a.takes root j = true := Agenda.takes_iff.mpr ⟨last, hlast, hsame⟩
        have hcome : a.inbound root (e.position root) <+: e.sentTo root :=
          List.prefix_of_prefix_length_le (Agenda.inbound_mono (h.position_le root))
            (hordered root hmember) (h.member root).taken
        have hsent : root ∈ e.sentIn j :=
          mem_sentIn.mpr (mem_sentTo.mp (hcome.subset
            (Agenda.mem_inbound.mpr ⟨Nat.lt_of_lt_of_le hj hcame, htakes⟩)))
        exact ⟨Member.le_of_unsent_ne (h.unsent_ne hlast hsent),
          hover k root j last hroot hprevious hlast hsent⟩
    rcases Nat.lt_or_eq_of_le (hlatest i hi (by rw [hsender]; rfl)) with hlt | rfl
    · exact ih j hj hlast hdone.1 i hlt sender hsender
    · exact hdone.2 sender hsender

/-- Where nobody is sending, a broadcast of which something was sent is complete. -/
theorem Keeps.complete_of_quiet (h : Keeps a e) (hquiet : ∀ root, ¬ e.IsSending root) {root : Nat}
    (hroot : a.sender? k = some root) (hsent : m ∈ e.sentIn k) : e.Complete a k := by
  have hne := h.unsent_ne hroot hsent
  rcases Nat.lt_or_eq_of_le (Member.le_of_unsent_ne hne) with hlt | heq
  · exact h.complete_of_lt hroot hlt
  · refine h.complete_of_unsent hroot ?_
    rw [heq, Member.unsent_now] at hne ⊢
    rcases hsending : (e.members root).sending with - | ⟨- | ⟨dest, rest⟩⟩
    · exact absurd (by rw [hsending]; rfl) hne
    · rfl
    · exact absurd ⟨dest, rest, hsending⟩ (hquiet root)

/-- When the member to which a root sends last has its value, everybody has it. -/
theorem Keeps.complete_of_last (h : Keeps a e) {root : Nat} (hroot : a.sender? k = some root)
    (hlast : (a.others root).getLast? = some m) (hsent : m ∈ e.sentIn k) : e.Complete a k := by
  refine h.complete_of_unsent hroot ?_
  have hnodup := a.nodup_others root
  rw [← (h.member root).sent k hroot] at hnodup hlast
  by_contra hne
  rw [List.getLast?_append_of_ne_nil _ hne] at hlast
  exact (List.nodup_append.mp hnodup).2.2 m hsent m (List.mem_of_getLast? hlast) rfl

theorem Complete.mono (h : e.Complete a k) (hkeeps : Keeps a e') (hsends : e.sends <+: e'.sends) :
    e'.Complete a k := by
  intro root hroot
  obtain ⟨more, hmore⟩ := hsends
  have hsplit := (hkeeps.member root).sent k hroot
  rw [sentIn, ← hmore, List.filterMap_append, ← sentIn, h root hroot, List.append_assoc,
    List.append_right_eq_self, List.append_eq_nil_iff] at hsplit
  rw [sentIn, ← hmore, List.filterMap_append, ← sentIn, h root hroot, hsplit.1, List.append_nil]

theorem Step.sends_mono (h : Step a e m e') : e.sends <+: e'.sends := by
  cases h with
  | send c dest rest hc hsending => exact List.prefix_append ..
  | _ => exact List.prefix_refl _

/-- One step keeps the group settled, if it is so with a root that begins. -/
theorem Settled.step (h : e.Settled a) (hkeeps : Keeps a e')
    (hbegins : e.IsBeginning a m → ∀ i < e.position m, e.Complete a i) (hstep : Step a e m e') :
    e'.Settled a := by
  intro root rest hsending i hi
  refine Complete.mono ?_ hkeeps hstep.sends_mono
  by_cases hne : root = m
  · subst hne
    cases hstep with
    | begin c hc hidle hroot =>
      have hposition : (e.put root { e.members root with sending := some (a.others root) }).position
          root = e.position root := by simp [position, put]
      exact hbegins ⟨hidle, hroot⟩ i (hposition ▸ hi)
    | send c dest rest hc hbegun =>
      have hposition : (e.put root { e.members root with sending := some rest }).position root =
          e.position root := by simp [position, put]
      exact h root _ hbegun i (hposition ▸ hi)
    | _ => simp [give, put] at hsending
  · rw [position, hstep.members_of_ne hne] at hi
    rw [hstep.members_of_ne hne] at hsending
    exact h root rest hsending i hi

theorem Keeps.next_dest (h : Keeps a e) {dest : Nat} {rest : List Nat}
    (hsending : (e.members m).sending = some (dest :: rest)) :
    a.takes dest (e.position m) = true ∧ e.position m ∉ e.sentTo dest := by
  have hroot := (h.member m).sending _ hsending
  have hsplit := (h.member m).sent_now hroot
  rw [hsending, Option.getD_some] at hsplit
  have hdest : dest ∈ a.others m := by
    rw [← hsplit]
    simp
  refine ⟨Agenda.takes_iff.mpr ⟨m, hroot, (Agenda.mem_others.mp hdest).2.symm⟩, fun hmem => ?_⟩
  have hnodup := a.nodup_others m
  rw [← hsplit] at hnodup
  exact (List.nodup_append.mp hnodup).2.2 dest (mem_sentIn.mpr (mem_sentTo.mp hmem)) dest
    List.mem_cons_self rfl

/-- One step of a settled group keeps the order. -/
theorem Keeps.inOrder_step (h : Keeps a e) (hsettled : e.Settled a)
    (hordered : ∀ m < a.size, e.InOrder a m) (hstep : Step a e m e') :
    ∀ other < a.size, e'.InOrder a other := by
  cases hstep with
  | refuse c hc hidle hroot => exact hordered
  | begin c hc hidle hroot => exact hordered
  | finish c hc hsending => exact hordered
  | take c value group hc hidle htakes hpop => exact hordered
  | send c dest rest hc hsending =>
    intro other hother
    rw [InOrder, sentTo, List.filterMap_append, ← sentTo]
    by_cases hdest : dest = other
    · subst hdest
      obtain ⟨htakes, hnew⟩ := h.next_dest hsending
      simp only [List.filterMap_cons, if_true, List.filterMap_nil]
      refine Agenda.prefix_concat (hordered dest hother) (List.getElem?_eq_some_iff.mp hc).1 htakes
        (fun i hi => ?_) hnew
      obtain ⟨hlt, hitakes⟩ := Agenda.mem_inbound.mp hi
      exact (hsettled m _ hsending i hlt).mem_sentTo hother hitakes
    · simp only [List.filterMap_cons, if_neg hdest, List.filterMap_nil, List.append_nil]
      exact hordered other hother

/-- Where each root passes on as it should, a broadcast is complete when the next root has got its
value. -/
theorem Keeps.complete_of_passes (h : Keeps a e) (hpasses : a.Passes) {root j last : Nat}
    (hroot : a.sender? k = some root) (hprevious : a.previous? k = some j)
    (hlast : a.sender? j = some last) (hsent : root ∈ e.sentIn j) : e.Complete a j := by
  obtain ⟨c, hc, -⟩ := Agenda.sender?_eq_some.mp hroot
  have hne : root ≠ last := (Agenda.mem_others.mp (h.mem_others hlast hsent)).2
  have hpassed := hpasses k (List.getElem?_eq_some_iff.mp hc).1 root hroot j hprevious last hlast
  exact h.complete_of_last hlast (hpassed.resolve_left hne) hsent

/-- Where each root passes on as it should, nobody is sending when a root begins. -/
theorem Keeps.quiet_of_passes (h : Keeps a e) (hpasses : a.Passes) (hsettled : e.Settled a)
    (hordered : ∀ m < a.size, e.InOrder a m) (hbegins : e.IsBeginning a m) (root : Nat) :
    ¬ e.IsSending root := by
  rintro ⟨dest, rest, hsending⟩
  obtain ⟨hidle, hsender⟩ := hbegins
  have hroot := (h.member root).sending _ hsending
  have hsplit := (h.member root).sent_now hroot
  rw [hsending, Option.getD_some] at hsplit
  rcases Nat.lt_trichotomy (e.position root) (e.position m) with hlt | heq | hgt
  · -- The member has come past this broadcast, so it is complete.
    have hcomplete := h.complete_before hordered
      (fun _ _ _ _ hroot hprevious hlast => h.complete_of_passes hpasses hroot hprevious hlast)
      hsender (Nat.le_refl _) _ hlt
    rw [hcomplete root hroot, List.append_right_eq_self] at hsplit
    cases hsplit
  · rw [heq, hsender] at hroot
    obtain rfl : m = root := Option.some.inj hroot
    rw [hidle] at hsending
    cases hsending
  · -- The other root has begun after all values before were sent, so also that of the member.
    have hbefore := (h.member m).sent_now hsender
    rw [hidle, Option.getD_none, hsettled root _ hsending _ hgt m hsender,
      List.append_right_eq_self] at hbefore
    have hothers : root ∈ a.others m := by
      refine Agenda.mem_others.mpr ⟨Agenda.sender?_lt hroot, fun heq => ?_⟩
      rw [heq] at hgt
      exact Nat.lt_irrefl _ hgt
    rw [hbefore] at hothers
    cases hothers

/-- **A run in which no root begins while another one sends keeps the order.** Where each root
passes on as it should, all runs are of this kind. -/
theorem ordered_run {schedule : List Nat} (hrun : (start a).run? a schedule = some e) :
    (a.Passes → (start a).Separate a schedule) ∧
      ((start a).Separate a schedule → (∀ m < a.size, e.InOrder a m) ∧ e.Settled a) := by
  refine (run_keeps (motive := fun acted e => (a.Passes → (start a).Separate a acted) ∧
    ((start a).Separate a acted → (∀ m < a.size, e.InOrder a m) ∧ e.Settled a))
    ⟨fun _ => trivial, fun _ => ⟨fun _ _ => ⟨_, rfl⟩, nofun⟩⟩ ?_ hrun).2
  intro acted e m e' hacted hkeeps hmotive hkeeps' hstep
  obtain ⟨hpassing, hordering⟩ := hmotive
  refine ⟨fun hpasses => separate_concat.mpr ⟨hpassing hpasses, fun e₁ hrun₁ hbegins => ?_⟩,
    fun hseparate => ?_⟩
  · obtain rfl : e = e₁ := Option.some.inj (hacted.symm.trans hrun₁)
    obtain ⟨hordered, hsettled⟩ := hordering (hpassing hpasses)
    exact hkeeps.quiet_of_passes hpasses hsettled hordered hbegins
  · obtain ⟨hbefore, hquiet⟩ := separate_concat.mp hseparate
    obtain ⟨hordered, hsettled⟩ := hordering hbefore
    refine ⟨hkeeps.inOrder_step hsettled hordered hstep, hsettled.step hkeeps' ?_ hstep⟩
    intro hbegins
    exact hkeeps.complete_before hordered
      (fun _ _ _ _ _ _ => hkeeps.complete_of_quiet (hquiet e hacted hbegins)) hbegins.2
      (Nat.le_refl _)

end Runs

/-- **What collective broadcasts return.** The members of a group make the same broadcasts, each at
its own pace, and a root sends to the others one by one. A broadcast whose root is no member is
refused for all of them, and nothing is sent in it. A member to which the values come in the order
of the broadcasts gets from each broadcast what its root has passed to it. They come so to every
member as long as no root begins while another one still has members to send to, and it never comes
to that, however the members interleave, if each root passes on to itself or to the member to which
it sends last. In no case does anybody wait forever: the members take some steps for each broadcast,
and can go on until they have made all of them. -/
theorem answers_run {a : Agenda} {schedule : List Nat} {e : Ensemble}
    (hrun : (start a).run? a schedule = some e) :
    (∀ m k c, k < e.position m → a.calls[k]? = some c → a.size ≤ c.root.toNat →
      (e.members m).returned[k]? = some (.error (.argument (.broadcastRoot c.root a.size)))) ∧
    (∀ s ∈ e.sends, ∃ root, a.sender? s.1 = some root ∧ s.2 < a.size ∧ s.2 ≠ root) ∧
    (∀ m, e.InOrder a m →
      (e.members m).returned = (a.calls.take (e.position m)).map (·.answer a.size)) ∧
    ((start a).Separate a schedule → ∀ m < a.size, e.InOrder a m) ∧
    (a.Passes → (start a).Separate a schedule) ∧
    (∀ m, schedule.count m ≤ a.calls.length * (a.size + 1)) ∧
    ((∀ m < a.size, e.step? a m = none) → ∀ m < a.size, e.position m = a.calls.length) := by
  obtain ⟨hpassing, hordering⟩ := ordered_run hrun
  obtain ⟨hkeeps, heffort⟩ := run_keeps
    (motive := fun acted e => ∀ m, acted.count m ≤ e.effort a m) (by simp)
    (fun _ hkeeps heffort _ hstep => hkeeps.count_step hstep heffort) hrun
  refine ⟨fun m k c => hkeeps.refused, fun s hs => ?_, fun m => hkeeps.answers,
    fun hseparate => (hordering hseparate).1, hpassing,
    fun m => (heffort m).trans (hkeeps.effort_le m), hkeeps.progress⟩
  obtain ⟨root, hroot⟩ := Option.isSome_iff_exists.mp (hkeeps.known s hs)
  exact ⟨root, hroot, Agenda.mem_others.mp (hkeeps.mem_others hroot (mem_sentIn.mpr hs))⟩

/-- Three broadcasts of three members, of which the second has no root. The root passes from member
0 to the last one. -/
def sampleAgenda : Agenda :=
  ⟨3, [⟨0, fun m => .ofNat m⟩, ⟨9, fun m => .ofNat (10 + m)⟩, ⟨2, fun m => .ofNat (20 + m)⟩]⟩

/-- The last member overtakes the others. -/
def sampleSchedule : List Nat := [0, 0, 0, 2, 2, 2, 2, 2, 2, 0, 1, 0, 1, 1, 0]

theorem answers_run_sample : ∃ e, (start sampleAgenda).run? sampleAgenda sampleSchedule = some e ∧
    sampleAgenda.Passes ∧ ∀ m < 3, (e.members m).returned =
      [.ok 0, .error (.argument (.broadcastRoot 9 3)), .ok 22] := by
  have hrun : ∃ e, (start sampleAgenda).run? sampleAgenda sampleSchedule = some e ∧
      ∀ m < 3, e.position m = 3 := ⟨_, rfl, by decide⟩
  obtain ⟨e, hrun, hpositions⟩ := hrun
  have hpasses : sampleAgenda.Passes := by decide
  obtain ⟨-, -, hanswers, hordered, hseparate, -⟩ := answers_run hrun
  refine ⟨e, hrun, hpasses, fun m hm => ?_⟩
  rw [hanswers m (hordered (hseparate hpasses) m hm), hpositions m hm]
  rfl

/-- Two broadcasts of three members, with another root each. -/
def overlappingAgenda : Agenda := ⟨3, [⟨0, fun m => .ofNat m⟩, ⟨1, fun m => .ofNat (10 + m)⟩]⟩

/-- A broadcast of two members whose root is none of them. -/
def strayAgenda : Agenda := ⟨2, [⟨2, fun _ => 7⟩]⟩

/-- **A root that begins early overtakes the one before.** Member 1 has its value of the first
broadcast, in which member 0 passes 0, and is the root of the second one. Its value comes to member
2 before that of member 0 does, and the first broadcast returns it there. A broadcast whose root is
no member returns no value at all. -/
theorem overtaken_run :
    (∃ e, (start overlappingAgenda).run? overlappingAgenda [0, 0, 1, 1, 1, 1, 2] = some e ∧
      overlappingAgenda.value 0 = 0 ∧ (e.members 1).returned = [.ok 0] ∧
      (e.members 2).returned = [.ok 11]) ∧
    ∃ e, (start strayAgenda).run? strayAgenda [0, 1] = some e ∧
      (e.members 0).returned = [.error (.argument (.broadcastRoot 2 2))] ∧
      (e.members 1).returned = [.error (.argument (.broadcastRoot 2 2))] :=
  ⟨⟨_, rfl, rfl, rfl, rfl⟩, _, rfl, rfl, rfl⟩

end Ensemble

end Stepcast
