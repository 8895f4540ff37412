import Stepcast.Proofs.Delivery.Scripts
import Stepcast.Proofs.Delivery.Showing
import Stepcast.Proofs.Delivery.Telecast

/-!
# A listener

A reader with one link has every step complete as soon as anything of it has come, so it goes
through the steps in fast delivery just as it would in reliable delivery. What it has taken in is a
part of what its inbox has accepted; the rest is in hand or waits in the inbox.

Main statements: `Reader.choose_patient`, `Tuned.absorb`, `Tuned.choose`.
-/

namespace Stepcast

open Feed

/-- The reader as it would be in reliable delivery. -/
def Reader.patient (r : Reader) : Reader := { r with delivery := .reliable }

def Exposure.patient (e : Exposure) : Exposure := { e with reader := e.reader.patient }

/-- A listener stands for the feed of a reader in reliable delivery. -/
def Listener.feed (l : Listener) : Feed :=
  { network := {}
    reader := l.reader.patient
    phase := .idle
    exposed := l.exposed.map Exposure.patient }

/-- What the messages bring, from whichever rank. -/
def heard (batchOf : Outgoing → Batch) (ms : List Outgoing) : UInt32 → List Batch :=
  fun _ => ms.map batchOf

section Heard

variable {crew : Crew} {batchOf : Outgoing → Batch} {received received' : UInt32 → List Batch}
  {taken ms : List Outgoing} {m : Outgoing} {r r' r'' : Reader} {link : Link}

theorem arrived_heard (taken ms : List Outgoing) (rank : UInt32) :
    arrived (heard batchOf (taken ++ ms)) rank =
      arrived (heard batchOf taken) rank ++ arrived (heard batchOf ms) rank := by
  rw [arrived, heard, List.map_append, List.flatten_append, Draft.written_append]
  rfl

theorem arrived_heard_singleton (m : Outgoing) (rank : UInt32) :
    arrived (heard batchOf [m]) rank = Draft.written (batchOf m) := by
  rw [arrived, heard, List.map_singleton, List.flatten_singleton]

/-! ## Taking in messages -/

theorem Feed.Follows.congr (h : Follows crew received r)
    (heq : ∀ rank ∈ crew.ranks, arrived received' rank = arrived received rank) :
    Follows crew received' r :=
  { h with
    holds := fun step hlate => (h.holds step hlate).congr fun rank hrank => by rw [heq rank hrank]
    past := fun c hc i rank hi => heq rank (List.mem_of_getElem? hi) ▸ h.past c hc i rank hi }

theorem Feed.Newer.trans {received'' : UInt32 → List Batch} (h : Newer received received' r r')
    (h' : Newer received' received'' r' r'') : Newer received received'' r r'' where
  currentStep := h'.currentStep.trans h.currentStep
  stage := h'.stage.trans h.stage
  settled := fun c hc step hle rank =>
    (h'.settled c (h.currentStep ▸ hc) step hle rank).trans (h.settled c hc step hle rank)
  finished := by
    intro hdone
    obtain ⟨heq, hdone'⟩ := h.finished hdone
    obtain ⟨heq', hdone''⟩ := h'.finished hdone'
    exact ⟨heq'.trans heq, hdone''⟩

/-- **The next message is taken in.** -/
theorem Feed.Follows.takeNext (h : Follows crew (heard batchOf taken) r) (hcrew : crew.ranks = [0])
    (hscript : Script (crew.operators 0) 0 batchOf (taken ++ [m])) (hlinks : r.links = [link])
    (hgoing : link.isDone = false) : ∃ archive,
      (∀ rest, Reader.takeIn r.archive link (m.bytes :: rest) =
        Reader.takeIn archive { link with ended := link.ended || m.isEnd } rest) ∧
      Follows crew (heard batchOf (taken ++ [m]))
        { r with archive, links := [{ link with ended := link.ended || m.isEnd }] } ∧
      Newer (heard batchOf taken) (heard batchOf (taken ++ [m])) r
        { r with archive, links := [{ link with ended := link.ended || m.isEnd }] } := by
  have hrank : crew.ranks[0]? = some 0 := by rw [hcrew]; rfl
  have hlink : r.links[0]? = some link := by rw [hlinks]; rfl
  have hended : link.ended = false := (Bool.or_eq_false_iff.mp hgoing).1
  have hkeeps : ∀ i, Ended r.links i → Ended [{ link with ended := link.ended || m.isEnd }] i := by
    intro i hi
    rw [hlinks] at hi
    exact hi.set (j := 0) rfl fun hended => by rw [hended]; rfl
  have hdone : ¬ r.isDone = true := not_isDone_of_link hlink hgoing
  rcases hscript.seals m (by simp) with ⟨final, rfl, hnone⟩ | hseals
  · -- The end record brings no blocks.
    have harrived : ∀ rank, arrived (heard batchOf (taken ++ [.finish (Frame.endRecord final)
        final])) rank = arrived (heard batchOf taken) rank := by
      intro rank
      rw [arrived_heard, arrived_heard_singleton, hnone]
      exact List.append_nil _
    have hend := h.endRecord final
    obtain ⟨archive, hput, -, -⟩ := r.archive.put_endRecord final
    rw [hput] at hend
    refine ⟨archive, fun rest => ?_, ?_, rfl, rfl, ?_, fun hd => absurd hd hdone⟩
    · rw [Reader.takeIn, Outgoing.bytes, hput]
      simp [Outgoing.isEnd]
    · exact (hend.congr fun rank _ => harrived rank).relink hkeeps
    · exact fun c _ step _ rank => by rw [harrived]
  · have hisEnd : m.isEnd = false := by
      obtain ⟨_, _, _, _⟩ := hseals
      rfl
    have harrived : ∀ rank ∈ crew.ranks, arrived (heard batchOf (taken ++ [m])) rank =
        arrived (Function.update (heard batchOf taken) 0 (taken.map batchOf ++ [batchOf m]))
          rank := by
      intro rank hmem
      rw [hcrew, List.mem_singleton] at hmem
      rw [hmem, arrived, arrived, Function.update_self, heard, List.map_append, List.map_singleton]
    have hordered : (heard batchOf taken 0 ++ [batchOf m]).Pairwise Batch.Before := by
      have hmap := List.pairwise_map.mpr (hscript.ordered.imp And.right)
      rwa [List.map_append, List.map_singleton] at hmap
    have hbatch := h.batch (List.mem_of_getElem? hrank) hseals
    obtain ⟨archive, blocks, steps, hput, -⟩ := Archive.put_seals hseals r.archive
    rw [hput] at hbatch
    refine ⟨archive, fun rest => ?_, ?_, rfl, rfl, ?_, fun hd => absurd hd hdone⟩
    · rw [Reader.takeIn, hput, hisEnd, Bool.or_false]
    · exact (hbatch.congr harrived).relink hkeeps
    · -- What is in the message comes after the current step.
      intro c hc step hle rank
      rw [arrived_heard, arrived_heard_singleton, Written.at_append]
      apply List.append_right_eq_self.mpr
      apply Written.at_eq_nil_iff.mpr
      intro y hy heq
      have hlt := h.lt_of_batch hrank hlink hended hordered hc hy
      exact absurd (heq ▸ hle) (UInt64.not_le.mpr hlt)

/-- **The messages in hand are taken in.** -/
theorem Feed.Follows.takeAll (h : Follows crew (heard batchOf taken) r) (hcrew : crew.ranks = [0])
    (hscript : Script (crew.operators 0) 0 batchOf (taken ++ ms)) (hlinks : r.links = [link])
    (hgoing : ms ≠ [] → link.isDone = false) : ∃ archive,
      Reader.takeIn r.archive link (ms.map Outgoing.bytes) =
        (archive, { link with ended := link.ended || ms.any Outgoing.isEnd }, .ok ()) ∧
      Follows crew (heard batchOf (taken ++ ms))
        { r with archive, links := [{ link with ended := link.ended || ms.any Outgoing.isEnd }] } ∧
      Newer (heard batchOf taken) (heard batchOf (taken ++ ms)) r
        { r with
          archive, links := [{ link with ended := link.ended || ms.any Outgoing.isEnd }] } := by
  induction ms generalizing r link taken with
  | nil =>
    have hsame : ({ r with
        archive := r.archive
        links := [{ link with ended := link.ended || [].any Outgoing.isEnd }] } : Reader) = r := by
      simp [← hlinks]
    refine ⟨r.archive, by simp [Reader.takeIn], ?_, ?_⟩
    · rw [hsame, List.append_nil]
      exact h
    · rw [hsame]
      exact .refl (by rw [List.append_nil]) id rfl rfl
  | cons m rest ih =>
    have hsplit : taken ++ m :: rest = taken ++ [m] ++ rest := by simp
    have hfirst : (taken ++ [m]).Sublist (taken ++ m :: rest) := by
      rw [hsplit]
      exact List.sublist_append_left ..
    obtain ⟨archive, htake, hfollows, hnewer⟩ := h.takeNext hcrew (hscript.sublist hfirst) hlinks
      (hgoing (List.cons_ne_nil m rest))
    have hgoing' : rest ≠ [] → ({ link with ended := link.ended || m.isEnd } : Link).isDone =
        false := by
      intro hne
      obtain ⟨m', hm'⟩ := List.exists_mem_of_ne_nil _ hne
      have hlater := (List.pairwise_append.mp hscript.ordered).2.1
      have hisEnd := ((List.pairwise_cons.mp hlater).1 m' hm').1
      rw [hisEnd, Bool.or_false]
      exact hgoing (List.cons_ne_nil m rest)
    rw [hsplit] at hscript ⊢
    obtain ⟨archive', htake', hfollows', hnewer'⟩ := ih hfollows hscript rfl hgoing'
    refine ⟨archive', ?_, ?_, ?_⟩
    · rw [List.map_cons, htake, htake', List.any_cons, ← Bool.or_assoc]
    · rw [List.any_cons, ← Bool.or_assoc]
      exact hfollows'
    · rw [List.any_cons, ← Bool.or_assoc]
      exact hnewer.trans hnewer'

/-! ## Choosing a step -/

/-- **With nothing incomplete the two ways of delivery do not differ.** -/
theorem Reader.choose_patient (hfast : r.delivery = .fast)
    (hcomplete : ∀ step ∈ r.candidates, r.isComplete step = true) :
    r.choose .next = r.patient.choose .next := by
  have hchoose : r.choose .next = r.candidates.find? r.isComplete := by
    simp only [Reader.choose, hfast]
  have hpatient : r.patient.choose .next = r.candidates.head?.filter r.isComplete := rfl
  rw [hchoose, hpatient]
  cases hcandidates : r.candidates with
  | nil => rfl
  | cons step rest =>
    have hfirst := hcomplete step (hcandidates ▸ List.mem_cons_self)
    rw [List.find?_cons_of_pos hfirst, List.head?_cons, Option.filter_some, if_pos hfirst]

/-- Over one link a step is complete when anything of it has come. -/
theorem Feed.Follows.isComplete (h : Follows crew received r) (hlinks : r.links = [link])
    {step : UInt64} (hstep : step ∈ r.candidates) : r.isComplete step = true := by
  obtain ⟨hlive, hafter⟩ := mem_candidates.mp hstep
  obtain ⟨blocks, hblocks⟩ := Option.isSome_iff_exists.mp (Table.isSome_at?_iff.mpr hlive)
  have hne : blocks ≠ [] := h.sound.nonempty _ (Table.mem_of_at? hblocks)
  obtain ⟨b, hb⟩ := List.exists_mem_of_ne_nil _ hne
  have hmem : b.rank ∈ (((r.archive.blocks? step).getD []).map (·.rank)).eraseDups := by
    rw [Archive.blocks?, hblocks, Option.getD_some]
    exact List.mem_eraseDups.mpr (List.mem_map_of_mem hb)
  have hcount : 1 ≤ r.archive.rankCount step := List.length_pos_of_mem hmem
  rw [Reader.isComplete, hlinks]
  exact (Bool.or_eq_true _ _).mpr (.inr (decide_eq_true hcount))

theorem Feed.Follows.enterAlone (h : Follows crew received r) (hcrew : crew.ranks = [0])
    {step : UInt64} (hchoose : r.choose .next = some step) (now : Moment) :
    Follows crew received (r.enter step now) := by
  obtain ⟨⟨rest, hrest⟩, -, -⟩ := h.choose_eq_some hchoose
  have hcandidate : step ∈ r.candidates := hrest ▸ List.mem_cons_self
  have hstep := (mem_candidates.mp hcandidate).2
  exact {
    reliable := h.reliable
    sound := h.sound
    holds := h.holds
    late := by
      intro step' hlate
      obtain ⟨c, hc, hle⟩ := h.late step' hlate
      exact ⟨step, rfl, Std.le_trans hle (Std.le_of_lt (hstep c hc))⟩
    past := by
      intro c hc i rank hrank
      cases hc
      obtain ⟨rank', hrank', hwritten⟩ := (h.mem_candidates_iff hstep).mp hcandidate
      have heq : rank = rank' := by
        have hmem := List.mem_of_getElem? hrank
        rw [hcrew, List.mem_singleton] at hmem hrank'
        rw [hmem, hrank']
      obtain ⟨y, hy⟩ := List.exists_mem_of_ne_nil _ hwritten
      obtain ⟨hmem, hystep⟩ := mem_at.mp hy
      exact .inr ⟨y, heq ▸ hmem, UInt64.le_of_eq hystep.symm⟩ }

/-- When there is no step to go to, all that has arrived is at steps up to the current one. -/
theorem Feed.Follows.le_of_candidates_eq_nil (h : Follows crew received r)
    (hnone : r.candidates = []) {rank : UInt32} (hrank : rank ∈ crew.ranks) {y : Written}
    (hy : y ∈ arrived received rank) : ∃ c ∈ r.currentStep, y.step ≤ c := by
  by_contra hafter
  have hstep : ∀ c ∈ r.currentStep, c < y.step := by
    intro c hc
    by_contra hlt
    exact hafter ⟨c, hc, UInt64.not_lt.mp hlt⟩
  have hcandidate : y.step ∈ r.candidates :=
    (h.mem_candidates_iff hstep).mpr ⟨rank, hrank, List.ne_nil_of_mem (mem_at.mpr ⟨hy, rfl⟩)⟩
  rw [hnone] at hcandidate
  cases hcandidate

end Heard

/-! ## The listener -/

/-- The writer is gone and has not ended the stream, as far as the reader knows. -/
def Listener.isLost (l : Listener) : Bool := l.reader.links.any (·.lost)

/-- The reader has taken in the messages `taken`. It has `hand` in hand, and `waiting` is in the
inbox. -/
structure Tuned (crew : Crew) (batchOf : Outgoing → Batch) (l : Listener)
    (taken hand waiting : List Outgoing) : Prop where
  accepted : l.accepted = taken ++ (hand ++ waiting)
  inHand : l.phase.hand = hand.map Outgoing.bytes
  fast : l.reader.delivery = .fast
  link : ∃ link, l.reader.links = [link] ∧ link.ended = taken.any Outgoing.isEnd
  follows : Follows crew (heard batchOf taken) l.reader.patient
  shown : Shown crew (heard batchOf taken) l.feed
  busy : l.phase ≠ .idle → l.reader.stage ≠ .active
  spare : l.reader.isDone = true → hand = []
  undisturbed : ∀ o ∈ l.outcomes, ∃ status, o = .ok status
  ended : .ok .endOfStream ∈ l.outcomes → taken.any Outgoing.isEnd = true
  lost : .ok .broken ∈ l.outcomes → l.isLost = true
  current : l.reader.stage = .active →
    l.exposed.getLast?.map Exposure.reader = some l.reader
  settled : l.phase = .idle → ∀ status ≠ StepStatus.ready,
    l.outcomes.getLast? = some (.ok status) →
    ∀ y ∈ arrived (heard batchOf taken) 0, ∃ c ∈ l.reader.currentStep, y.step ≤ c

section Tuned

variable {crew : Crew} {batchOf batchOf' : Outgoing → Batch} {l l' : Listener}
  {taken hand waiting : List Outgoing} {now : Moment}

theorem tuned_open {reader : Reader} {channel : Channel} (inbox : Nat)
    (hfast : reader.delivery = .fast) (hlinks : reader.links = [{ channel }])
    (harchive : reader.archive = {}) (hstage : reader.stage = .idle)
    (hcurrent : reader.currentStep = none) : Tuned crew batchOf { reader, inbox } [] [] [] where
  accepted := rfl
  inHand := rfl
  fast := hfast
  link := ⟨_, hlinks, rfl⟩
  follows := {
    reliable := rfl
    sound := harchive ▸ Archive.sound_of_nil rfl rfl
    holds := by
      intro step _
      show reader.archive.Holds _ _ _ _
      rw [harchive]
      exact ⟨(fun b hb => nomatch hb), fun rank _ => .nil⟩
    late := by
      intro step hlate
      replace hlate : reader.archive.Late step := hlate
      rw [harchive] at hlate
      obtain ⟨w, hw, -⟩ := hlate
      cases hw
    past := by
      intro c hc
      replace hc : c ∈ reader.currentStep := hc
      rw [hcurrent] at hc
      cases hc }
  shown := {
    increasing := .nil
    last := hcurrent.symm
    shows := fun e he => nomatch he
    covered := fun rank _ y hy => nomatch hy
    undisturbed := fun o ho => nomatch ho
    finished := fun hover => nomatch hover
    resting := fun hactive => by
      replace hactive : reader.stage = .active := hactive
      rw [hstage] at hactive
      cases hactive }
  busy := fun hphase => absurd rfl hphase
  spare := fun _ => rfl
  undisturbed := fun o ho => nomatch ho
  ended := fun hover => nomatch hover
  lost := fun hover => nomatch hover
  current := fun hactive => by
    rw [hstage] at hactive
    cases hactive
  settled := fun _ status _ hlast => nomatch hlast

theorem Tuned.congr (h : Tuned crew batchOf l taken hand waiting)
    (heq : ∀ m ∈ l.accepted, batchOf' m = batchOf m) :
    Tuned crew batchOf' l taken hand waiting := by
  have hheard : heard batchOf' taken = heard batchOf taken := by
    funext rank
    refine List.map_congr_left fun m hm => heq m ?_
    rw [h.accepted]
    exact List.mem_append_left _ hm
  exact { h with
    follows := hheard ▸ h.follows
    shown := hheard ▸ h.shown
    settled := hheard ▸ h.settled }

theorem Tuned.hear (h : Tuned crew batchOf l taken hand waiting) (ms : List Outgoing) :
    Tuned crew batchOf { l with accepted := l.accepted ++ ms } taken hand (waiting ++ ms) :=
  { h with accepted := by simp [h.accepted] }

/-- The reader takes a message out of its inbox. -/
theorem Tuned.hold {m : Outgoing} {patient : Bool}
    (h : Tuned crew batchOf l taken hand (m :: waiting))
    (hphase : l.phase = .taking patient (hand.map Outgoing.bytes))
    (hgoing : l.reader.isDone = false) :
    Tuned crew batchOf
      { l with phase := .taking patient (hand.map Outgoing.bytes ++ [m.bytes]) }
      taken (hand ++ [m]) waiting :=
  { h with
    accepted := by simp [h.accepted]
    inHand := by simp [Telecast.Phase.hand]
    busy := fun _ => h.busy (by simp [hphase])
    spare := fun hdone => absurd (hgoing.symm.trans hdone) (by decide)
    settled := fun hidle => nomatch hidle }

/-- A link whose writer may be gone is done for if the stream has not ended. -/
theorem Link.exists_marked (link : Link) (gone : Bool) : ∃ last : Link,
    last = (if gone && !link.ended then { link with lost := true } else link) ∧
    last.ended = link.ended ∧ (link.isDone = true → last.isDone = true) ∧
    (link.lost = true → last.lost = true) ∧
    (last.lost = true → link.lost = true ∨ gone = true ∧ link.ended = false) := by
  refine ⟨_, rfl, ?_⟩
  split
  · rename_i hgone
    simp only [Bool.and_eq_true, Bool.not_eq_true'] at hgone
    exact ⟨rfl, fun _ => Bool.or_true _, fun _ => rfl, fun _ => .inr hgone⟩
  · exact ⟨rfl, id, id, .inl⟩

/-- **The reader takes in what it has in hand.** -/
theorem Tuned.absorb (h : Tuned crew batchOf l taken hand waiting) (hcrew : crew.ranks = [0])
    (hscript : Script (crew.operators 0) 0 batchOf l.accepted) (hphase : l.phase ≠ .idle)
    (gone : Bool) : ∃ reader,
      l.reader.absorb (hand.map Outgoing.bytes) gone = (reader, .ok ()) ∧
      (∀ phase : Telecast.Phase, phase.hand = [] → phase ≠ .idle →
        Tuned crew batchOf { l with reader, phase } (taken ++ hand) [] waiting) ∧
      (reader.links.any (·.lost) = true →
        l.isLost = true ∨ gone = true ∧ (taken ++ hand).any Outgoing.isEnd = false) := by
  obtain ⟨link, hlinks, hended⟩ := h.link
  have hstage := h.busy hphase
  have htaken : (taken ++ hand).Sublist l.accepted := by
    rw [h.accepted, ← List.append_assoc]
    exact List.sublist_append_left ..
  have hgoing : hand ≠ [] → link.isDone = false := by
    intro hne
    by_contra hdone
    exact hne (h.spare (by rw [Reader.isDone, hlinks]; simpa using hdone))
  obtain ⟨archive, htake, hfollows, hnewer⟩ := h.follows.takeAll hcrew (hscript.sublist htaken)
    hlinks hgoing
  rw [hended, ← List.any_append] at htake hfollows hnewer
  -- Besides the messages the reader may learn that the writer is gone.
  generalize hlink : ({ link with ended := (taken ++ hand).any Outgoing.isEnd } : Link) = link'
    at htake hfollows hnewer
  have hlinkEnded : link'.ended = (taken ++ hand).any Outgoing.isEnd := by rw [← hlink]
  have hlinkLost : link'.lost = link.lost := by rw [← hlink]
  obtain ⟨last, hlast, hlastEnded, hlastDone, hlastLost, hlost⟩ := link'.exists_marked gone
  have hkeeps : ∀ i, Ended [link'] i → Ended ([link'].set 0 last) i :=
    fun i hi => hi.set rfl fun hend => hlastEnded.trans hend
  refine ⟨{ l.reader with archive, links := [last] }, ?_, ?_, ?_⟩
  · rw [Reader.absorb, hlinks]
    have htake' : Reader.takeIn l.reader.archive link (hand.map Outgoing.bytes) =
      (archive, link', .ok ()) := htake
    simp only [htake', hlast]
  · intro phase hhand hbusy
    have hmarked : Newer (heard batchOf (taken ++ hand)) (heard batchOf (taken ++ hand))
        { l.reader.patient with archive, links := [link'] }
        { l.reader.patient with archive, links := [last] } :=
      .refl rfl (by simpa [Reader.isDone] using hlastDone) rfl rfl
    exact { h with
      accepted := by simp [h.accepted]
      inHand := hhand
      link := ⟨last, rfl, hlastEnded.trans hlinkEnded⟩
      follows := hfollows.relink hkeeps
      shown := h.shown.newer (hnewer.trans hmarked) hstage {} .idle
      busy := fun _ => hstage
      spare := fun _ => rfl
      ended := fun hover => by rw [List.any_append, h.ended hover, Bool.true_or]
      lost := by
        intro hover
        have hlost := h.lost hover
        rw [Listener.isLost, hlinks, List.any_cons, List.any_nil, Bool.or_false] at hlost
        simpa [Listener.isLost] using hlastLost (hlinkLost.trans hlost)
      current := fun hactive => absurd hactive hstage
      settled := fun hidle => absurd hidle hbusy }
  · intro hany
    rw [Listener.isLost, hlinks, List.any_cons, List.any_nil, Bool.or_false, ← hlinkLost,
      ← hlinkEnded]
    exact hlost (by simpa using hany)

theorem Tuned.finishBegin (h : Tuned crew batchOf l taken [] waiting)
    {status : StepStatus}
    (hended : status = .endOfStream → taken.any Outgoing.isEnd = true)
    (hlost : status = .broken → l.isLost = true)
    (hsettled : ∀ y ∈ arrived (heard batchOf taken) 0, ∃ c ∈ l.reader.currentStep, y.step ≤ c) :
    Tuned crew batchOf (l.finishBegin (.ok status)) taken [] waiting :=
  { h with
    inHand := rfl
    busy := fun hbusy => absurd rfl hbusy
    undisturbed := List.forall_mem_append.mpr
      ⟨h.undisturbed, List.forall_mem_singleton.mpr ⟨status, rfl⟩⟩
    ended := by
      intro hover
      rcases List.mem_append.mp hover with hover | hover
      · exact h.ended hover
      · exact hended (by simpa [eq_comm] using hover)
    lost := by
      intro hover
      rcases List.mem_append.mp hover with hover | hover
      · exact h.lost hover
      · exact hlost (by simpa [eq_comm] using hover)
    settled := fun _ _ _ _ => hsettled }

/-- The status of a reader that is done says whether the stream has ended. -/
theorem Tuned.lastStatus (h : Tuned crew batchOf l taken hand waiting)
    (hdone : l.reader.isDone = true) :
    (l.reader.lastStatus = .endOfStream → taken.any Outgoing.isEnd = true) ∧
      (l.reader.lastStatus = .broken → l.isLost = true) := by
  obtain ⟨link, hlinks, hended⟩ := h.link
  rw [Reader.lastStatus, Listener.isLost]
  by_cases hlost : l.reader.links.any (·.lost) = true
  · rw [if_pos hlost]
    exact ⟨by simp, fun _ => hlost⟩
  · rw [if_neg hlost]
    refine ⟨fun _ => ?_, by simp⟩
    rw [Reader.isDone, hlinks] at hdone
    rw [hlinks] at hlost
    rw [← hended]
    simp_all [Link.isDone]

/-- The reader goes to a step. -/
theorem Tuned.enter (h : Tuned crew batchOf l taken [] waiting) (hcrew : crew.ranks = [0])
    {step : UInt64} (hchoose : l.reader.patient.choose .next = some step) (now : Moment) :
    Tuned crew batchOf
      { l with
        reader := l.reader.enter step now
        phase := .idle
        exposed := l.exposed ++ [⟨step, l.reader.enter step now⟩]
        outcomes := l.outcomes ++ [.ok .ready] } taken [] waiting := by
  obtain ⟨link, hlinks, hended⟩ := h.link
  have hshown := h.shown.entered h.follows hchoose now
  exact {
    accepted := h.accepted
    inHand := rfl
    fast := h.fast
    link := ⟨link, hlinks, hended⟩
    follows := h.follows.enterAlone hcrew hchoose now
    shown := by
      rw [Listener.feed, List.map_append]
      exact ⟨hshown.increasing, hshown.last, hshown.shows, hshown.covered,
        (fun o ho => nomatch ho), (fun hover => nomatch hover), hshown.resting⟩
    busy := fun hbusy => absurd rfl hbusy
    spare := fun _ => rfl
    undisturbed := List.forall_mem_append.mpr
      ⟨h.undisturbed, List.forall_mem_singleton.mpr ⟨.ready, rfl⟩⟩
    ended := fun hover => h.ended (by simpa using hover)
    lost := fun hover => h.lost (by simpa using hover)
    current := by
      intro _
      rw [List.getLast?_concat]
      rfl
    settled := by
      intro _ status hready hlast
      rw [List.getLast?_concat] at hlast
      cases hlast
      exact absurd rfl hready }

/-- **The reader goes to a step**, or says why it does not. -/
theorem Tuned.choose (h : Tuned crew batchOf l taken [] waiting) (hcrew : crew.ranks = [0])
    (hphase : l.phase = .choosing) (expired : Bool) (now : Moment) :
    Tuned crew batchOf (l.choose expired now) taken [] waiting := by
  obtain ⟨link, hlinks, -⟩ := h.link
  have hcomplete : ∀ step ∈ l.reader.candidates, l.reader.isComplete step = true :=
    fun step hstep => h.follows.isComplete (r := l.reader.patient) hlinks hstep
  have hpatient := Reader.choose_patient h.fast hcomplete
  unfold Listener.choose
  cases hchoose : l.reader.choose .next with
  | some step =>
    have hchoose' := hpatient.symm.trans hchoose
    have hskip : l.reader.skipTo step = l.reader := by
      have harchive := congrArg Reader.archive (h.follows.skipTo_eq hchoose')
      replace harchive : (l.reader.skipTo step).archive = l.reader.archive := harchive
      show { l.reader with archive := (l.reader.skipTo step).archive } = l.reader
      rw [harchive]
    simp only [hskip]
    exact h.enter hcrew hchoose' now
  | none =>
    have hcandidates : l.reader.candidates = [] := by
      simp only [Reader.choose, h.fast, List.find?_eq_none] at hchoose
      exact List.eq_nil_iff_forall_not_mem.mpr fun step hstep =>
        hchoose step hstep (hcomplete step hstep)
    have hsettled : ∀ y ∈ arrived (heard batchOf taken) 0,
        ∃ c ∈ l.reader.currentStep, y.step ≤ c :=
      fun y hy => h.follows.le_of_candidates_eq_nil hcandidates (by simp [hcrew]) hy
    simp only
    by_cases hdone : l.reader.isDone = true
    · rw [if_pos hdone]
      obtain ⟨hended, hlost⟩ := h.lastStatus hdone
      exact h.finishBegin hended hlost hsettled
    · rw [if_neg hdone]
      by_cases hexpired : expired = true
      · rw [if_pos hexpired]
        exact h.finishBegin (by simp) (by simp) hsettled
      · rw [if_neg hexpired]
        exact { h with
          inHand := rfl
          busy := fun _ => h.busy (by simp [hphase])
          settled := by simp }

theorem Tuned.beginStep (h : Tuned crew batchOf l taken hand waiting)
    (hbegin : l.beginStep? = some l') : Tuned crew batchOf l' taken hand waiting := by
  unfold Listener.beginStep? at hbegin
  split at hbegin
  · rename_i hphase hcheck
    cases hbegin
    have hhand := h.inHand
    rw [hphase] at hhand
    exact { h with
      inHand := hhand
      busy := by
        intro _ hactive
        replace hactive : l.reader.stage = .active := hactive
        simp [Reader.checkBegin, Reader.ensureOpen, hactive] at hcheck
      settled := fun hidle => nomatch hidle }
  · cases hbegin

theorem Tuned.endStep (h : Tuned crew batchOf l taken hand waiting)
    (hend : l.endStep? now = some l') : Tuned crew batchOf l' taken hand waiting := by
  unfold Listener.endStep? at hend
  split at hend
  · rename_i step hphase _ hcurrent
    cases hend
    exact { h with
      follows := h.follows.leave (r := l.reader.patient) hcurrent now
      shown := h.shown.left step now .idle
      busy := fun hbusy => absurd hphase hbusy
      current := fun hactive => nomatch hactive }
  · cases hend

end Tuned

end Stepcast
