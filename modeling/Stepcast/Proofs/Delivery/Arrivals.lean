import Stepcast.Proofs.Delivery.Connections

/-!
# What has arrived

The batches that have come over the lines lie in the reader's archive, but for the steps that the
reader has left. Nothing more comes at the current step or before it: over each link the stream has
ended, or a block has come from the current step or from a later one.

Main statements: `Follows.receiveLink`, `Follows.discards_eq_nil`, `Follows.requestLink`,
`Follows.enter`, `Follows.leave`.
-/

namespace Stepcast

namespace Link

theorem receive_of_isDone {l : Link} (h : l.isDone = true) (n : Network) :
    l.receive n = ([], false, l, n) := by
  simp [receive, h]

theorem request_of_isDone {l : Link} (h : l.isDone = true) (n : Network) :
    l.request n = (l, n) := by
  simp [request, h]

theorem ended_request (l : Link) (n : Network) : (l.request n).1.ended = l.ended := by
  unfold request
  split
  · simp only
    split <;> rfl
  · rfl

end Link

namespace Feed

/-- The blocks that have arrived from a rank, in order. -/
def arrived (received : UInt32 → List Batch) (rank : UInt32) : List Written :=
  Draft.written (received rank).flatten

/-- The stream has ended on a link. -/
def Ended (links : List Link) (i : Nat) : Prop := ∃ l, links[i]? = some l ∧ l.ended = true

/-- Over a link with these arrivals nothing more comes at the steps up to `c`. -/
def Past (links : List Link) (i : Nat) (xs : List Written) (c : UInt64) : Prop :=
  Ended links i ∨ ∃ x ∈ xs, c ≤ x.step

/-- The reader has what has arrived at the steps that it has not left. -/
structure Follows (crew : Crew) (received : UInt32 → List Batch) (r : Reader) : Prop where
  reliable : r.delivery = .reliable
  sound : r.archive.Sound
  holds : ∀ step, ¬ r.archive.Late step →
    r.archive.Holds crew.operators crew.ranks (arrived received) step
  late : ∀ step, r.archive.Late step → ∃ c ∈ r.currentStep, step ≤ c
  past : ∀ c ∈ r.currentStep, ∀ i rank, crew.ranks[i]? = some rank →
    Past r.links i (arrived received rank) c

/-- The reader may have got more, but nothing at its current step or before. -/
structure Newer (received received' : UInt32 → List Batch) (r r' : Reader) : Prop where
  currentStep : r'.currentStep = r.currentStep
  stage : r'.stage = r.stage
  settled : ∀ c ∈ r.currentStep, ∀ step ≤ c, ∀ rank,
    Written.at step (arrived received' rank) = Written.at step (arrived received rank)
  finished : r.isDone = true → received' = received ∧ r'.isDone = true

section Follows

variable {crew : Crew} {x : Exchange} {senders : Table UInt32 Sender}
  {received received' : UInt32 → List Batch} {r r' : Reader} {links : List Link} {l : Link}
  {rank : UInt32} {i : Nat} {b : Batch} {n : Network}

theorem mem_written_flatten {y : Written} {bs : List Batch} :
    y ∈ Draft.written bs.flatten ↔ ∃ b ∈ bs, y ∈ Draft.written b := by
  simp only [Draft.written, List.mem_filterMap, List.mem_flatten]
  grind

theorem mem_at {step : UInt64} {y : Written} {xs : List Written} :
    y ∈ Written.at step xs ↔ y ∈ xs ∧ y.step = step := by
  simp [Written.at]

theorem arrived_update (received : UInt32 → List Batch) (rank : UInt32) (b : Batch) :
    arrived (Function.update received rank (received rank ++ [b])) =
      Function.update (arrived received) rank (arrived received rank ++ Draft.written b) := by
  funext rank'
  by_cases hrank : rank' = rank
  · subst hrank
    rw [arrived, Function.update_self, Function.update_self, List.flatten_append,
      List.flatten_singleton, Draft.written_append]
    rfl
  · rw [arrived, Function.update_of_ne hrank, Function.update_of_ne hrank]
    rfl

theorem Ended.set (h : Ended links i) {j : Nat} {l' : Link} (hl : links[j]? = some l)
    (hkeeps : l.ended = true → l'.ended = true) : Ended (links.set j l') i := by
  obtain ⟨l₁, hl₁, hended⟩ := h
  by_cases hij : i = j
  · subst hij
    cases hl.symm.trans hl₁
    obtain ⟨hlt, -⟩ := List.getElem?_eq_some_iff.mp hl
    exact ⟨l', List.getElem?_set_self hlt, hkeeps hended⟩
  · exact ⟨l₁, (List.getElem?_set_ne (Ne.symm hij)).trans hl₁, hended⟩

/-! ## The links -/

theorem Dialogue.lost_eq {address : String} {server client : Nat} {shutdown : Bool}
    {phase : Responder.Phase} {flight : Option Outgoing}
    (h : Dialogue x address server client shutdown phase l flight) : l.lost = false := by
  cases h <;> rfl

theorem Lined.lost_eq {sender : Option Sender} {batches : List Batch}
    (h : Lined crew x i rank l sender batches) : l.lost = false := by
  cases h with
  | absent _ _ => rfl
  | present _ hline => exact hline.dialogue.lost_eq

theorem Lined.ordered {sender : Option Sender} {batches : List Batch}
    (h : Lined crew x i rank l sender batches) : batches.Pairwise Batch.Before := by
  cases h with
  | absent _ _ => exact .nil
  | present _ hline => exact (List.pairwise_append.mp hline.account.ordered).1

theorem Connected.lost_eq (h : Connected crew x senders links received) (hl : l ∈ links) :
    l.lost = false := by
  obtain ⟨i, hi⟩ := List.mem_iff_getElem?.mp hl
  obtain ⟨rank, -, hlined⟩ := h.rank_of_link hi
  exact hlined.lost_eq

theorem Connected.ordered (h : Connected crew x senders links received)
    (hi : crew.ranks[i]? = some rank) : (received rank).Pairwise Batch.Before := by
  obtain ⟨l, -, hlined⟩ := h.lined i rank hi
  exact hlined.ordered

theorem Connected.ended_of_isDone (h : Connected crew x senders r.links received)
    (hdone : r.isDone = true) (hi : crew.ranks[i]? = some rank) : Ended r.links i := by
  obtain ⟨l, hl, hlined⟩ := h.lined i rank hi
  have hlink := List.all_eq_true.mp hdone l (List.mem_of_getElem? hl)
  rw [Link.isDone, hlined.lost_eq, Bool.or_false] at hlink
  exact ⟨l, hl, hlink⟩

theorem Connected.lastStatus_eq (h : Connected crew x senders r.links received) :
    r.lastStatus = .endOfStream := by
  have hlost : ¬ r.links.any (·.lost) = true := by
    intro hany
    obtain ⟨l, hl, hlost⟩ := List.any_eq_true.mp hany
    rw [h.lost_eq hl] at hlost
    cases hlost
  rw [Reader.lastStatus, if_neg hlost]

/-! ## Receiving -/

/-- A batch that comes over a link that has not ended comes after the current step. -/
theorem Follows.lt_of_batch (h : Follows crew received r) (hrank : crew.ranks[i]? = some rank)
    (hl : r.links[i]? = some l) (hgoing : l.ended = false)
    (hordered : (received rank ++ [b]).Pairwise Batch.Before) {c : UInt64}
    (hc : c ∈ r.currentStep) {y : Written} (hy : y ∈ Draft.written b) : c < y.step := by
  rcases h.past c hc i rank hrank with ⟨l', hl', hended⟩ | ⟨x, hx, hle⟩
  · cases hl.symm.trans hl'
    exact absurd hended (by simp [hgoing])
  · obtain ⟨b', hb', hx'⟩ := mem_written_flatten.mp hx
    have hbefore := (List.pairwise_append.mp hordered).2.2 b' hb' b (List.mem_singleton_self b)
    exact UInt64.lt_of_le_of_lt hle (hbefore x hx' y hy)

theorem Past.mono {xs ys : List Written} {links' : List Link} {c : UInt64}
    (h : Past links i xs c) (hended : Ended links i → Ended links' i)
    (harrived : ∀ y ∈ xs, y ∈ ys) : Past links' i ys c := by
  rcases h with h | ⟨y, hy, hle⟩
  · exact .inl (hended h)
  · exact .inr ⟨y, harrived y hy, hle⟩

theorem Follows.relink (h : Follows crew received r)
    (hended : ∀ i, Ended r.links i → Ended links i) :
    Follows crew received { r with links } :=
  { h with
    past := fun c hc i rank hrank => (h.past c hc i rank hrank).mono (hended i) fun _ hy => hy }

/-- **A sealed batch is taken in.** -/
theorem Follows.batch (h : Follows crew received r) (hrank : rank ∈ crew.ranks) {m : Outgoing}
    (hm : m.Seals (crew.operators rank) rank b) :
    Follows crew (Function.update received rank (received rank ++ [b]))
      { r with archive := (r.archive.put m.bytes).1 } where
  reliable := h.reliable
  sound := h.sound.put m.bytes
  holds := by
    intro step hlate
    rw [arrived_update]
    rw [Archive.Late, (Archive.received_put r.archive m.bytes).watermark] at hlate
    exact (h.holds step hlate).put h.sound hrank hm hlate
  late := by
    intro step hlate
    rw [Archive.Late, (Archive.received_put r.archive m.bytes).watermark] at hlate
    exact h.late step hlate
  past := by
    intro c hc j rank' hj
    refine (h.past c hc j rank' hj).mono id fun y hy => ?_
    rw [arrived_update]
    by_cases hrank' : rank' = rank
    · subst hrank'
      rw [Function.update_self]
      exact List.mem_append_left _ hy
    · rwa [Function.update_of_ne hrank']

/-- **The end of a stream is taken in.** -/
theorem Follows.endRecord (h : Follows crew received r) (final : Option UInt64) :
    Follows crew received { r with archive := (r.archive.put (Frame.endRecord final)).1 } := by
  obtain ⟨a', hput, hsame, hkey⟩ := r.archive.put_endRecord final
  rw [hput]
  have hlate : ∀ step, a'.Late step ↔ r.archive.Late step := by
    intro step
    rw [Archive.Late, hsame.watermark, Archive.Late]
  exact {
    reliable := h.reliable
    sound := h.sound.of_sameBlocks hsame (Nat.le_of_eq hkey.symm)
    holds := by
      intro step hstep
      refine (h.holds step (mt (hlate step).mpr hstep)).of_blocksAt ?_ fun b _ => ?_
      · rw [Archive.blocksAt, hsame.steps, Archive.blocksAt]
      · rw [Archive.stored?, Archive.buffer?, hsame.buffers, Archive.stored?, Archive.buffer?]
    late := fun step hstep => h.late step ((hlate step).mp hstep)
    past := h.past }

theorem receiveFrom_data {a a' : Archive} {l l' : Link} {n n' : Network} {message : Bytes}
    {blocks : Nat} {steps : List UInt64} (hl : l.receive n = ([message], false, l', n'))
    (hput : a.put message = (a', .ok (.data blocks steps))) :
    Reader.receiveFrom a l n = (a', l', n', .ok ()) := by
  simp [Reader.receiveFrom, hl, Reader.takeIn, hput]

theorem receiveFrom_endRecord {a a' : Archive} {l l' : Link} {n n' : Network} {message : Bytes}
    {final : Option UInt64} (hl : l.receive n = ([message], false, l', n'))
    (hput : a.put message = (a', .ok (.endOfStream final))) :
    Reader.receiveFrom a l n = (a', { l' with ended := true }, n', .ok ()) := by
  simp [Reader.receiveFrom, hl, Reader.takeIn, hput]

theorem isDone_of_receive {messages : List Bytes} {gone : Bool} {l' : Link} {n' : Network}
    (h : l.receive n = (messages, gone, l', n')) (hne : messages ≠ []) : l.isDone = false := by
  by_contra hdone
  rw [Link.receive_of_isDone (by simpa using hdone)] at h
  cases h
  exact hne rfl

theorem Newer.refl (h : received' = received) (hlinks : r.isDone = true → r'.isDone = true)
    (hstep : r'.currentStep = r.currentStep) (hstage : r'.stage = r.stage) :
    Newer received received' r r' where
  currentStep := hstep
  stage := hstage
  settled := fun _ _ _ _ _ => by rw [h]
  finished := fun hdone => ⟨h, hlinks hdone⟩

theorem not_isDone_of_link (hl : r.links[i]? = some l) (hgoing : l.isDone = false) :
    ¬ r.isDone = true := by
  intro hdone
  have hlink := List.all_eq_true.mp hdone l (List.mem_of_getElem? hl)
  rw [hgoing] at hlink
  cases hlink

/-- **Looking at a link** succeeds, and what it brings comes after the current step. -/
theorem Follows.receiveLink (h : Follows crew received r)
    (hconnected : Connected crew n.exchange senders r.links received) (hcrew : crew.Valid)
    (i : Nat) :
    ∃ r' n' received', r.receiveLink i n = (r', n', .ok ()) ∧
      Connected crew n'.exchange senders r'.links received' ∧ Follows crew received' r' ∧
      Newer received received' r r' := by
  cases hl : r.links[i]? with
  | none =>
    refine ⟨r, n, received, ?_, hconnected, h, .refl rfl id rfl rfl⟩
    rw [Reader.receiveLink, hl]
  | some l =>
    obtain ⟨rank, messages, l', n', hrank, hreceive, hcases⟩ := hconnected.receive hcrew hl rfl
    rcases hcases with ⟨rfl, rfl, hconnected'⟩ | ⟨b, m, rfl, hm, hconnected'⟩ |
      ⟨final, rfl, hconnected'⟩
    · refine ⟨r, n', received, ?_, hconnected', h, .refl rfl id rfl rfl⟩
      simp [Reader.receiveLink, hl, Reader.receiveFrom, hreceive, Reader.takeIn,
        set_eq_self_of_getElem? hl]
    · obtain ⟨a', blocks, steps, hput, -⟩ := Archive.put_seals hm r.archive
      have hgoing := isDone_of_receive hreceive (List.cons_ne_nil _ _)
      have hended : l.ended = false := (Bool.or_eq_false_iff.mp hgoing).1
      have hbatch := h.batch (List.mem_of_getElem? hrank) hm
      rw [hput] at hbatch
      refine ⟨{ r with archive := a', links := r.links.set i l' }, n', _, ?_, hconnected',
        hbatch.relink fun j hj => hj.set hl (by simp [hended]), rfl, rfl, ?_, ?_⟩
      · simp only [Reader.receiveLink, hl, receiveFrom_data hreceive hput]
      · intro c hc step hstep rank'
        have hordered := hconnected'.ordered hrank
        rw [Function.update_self] at hordered
        rw [arrived_update]
        by_cases hrank' : rank' = rank
        · subst hrank'
          have hnone : Written.at step (Draft.written b) = [] := by
            apply Written.at_eq_nil_iff.mpr
            intro y hy heq
            have hlt := h.lt_of_batch hrank hl hended hordered hc hy
            exact absurd (heq ▸ hstep) (UInt64.not_le.mpr hlt)
          rw [Function.update_self, Written.at_append, hnone, List.append_nil]
        · rw [Function.update_of_ne hrank']
      · exact fun hdone => absurd hdone (not_isDone_of_link hl hgoing)
    · obtain ⟨a', hput, -, -⟩ := r.archive.put_endRecord final
      have hgoing := isDone_of_receive hreceive (List.cons_ne_nil _ _)
      have hend := h.endRecord final
      rw [hput] at hend
      refine ⟨{ r with archive := a', links := r.links.set i { l' with ended := true } }, n',
        received, ?_, hconnected', hend.relink fun j hj => hj.set hl fun _ => rfl,
        .refl rfl ?_ rfl rfl⟩
      · simp only [Reader.receiveLink, hl, receiveFrom_endRecord hreceive hput]
      · exact fun hdone => absurd hdone (not_isDone_of_link hl hgoing)

/-- **Nothing comes too late** over a link. -/
theorem Follows.discards_eq_nil (h : Follows crew received r)
    (hconnected : Connected crew n.exchange senders r.links received) (hcrew : crew.Valid)
    (hl : l ∈ r.links) {message : Bytes} (hmessage : message ∈ (l.receive n).1) :
    r.archive.discards message = [] := by
  obtain ⟨i, hi⟩ := List.mem_iff_getElem?.mp hl
  obtain ⟨rank, messages, l', n', hrank, hreceive, hcases⟩ := hconnected.receive hcrew hi rfl
  rw [hreceive] at hmessage
  rcases hcases with ⟨rfl, -, -⟩ | ⟨b, m, rfl, hm, hconnected'⟩ | ⟨final, rfl, -⟩
  · cases hmessage
  · rw [List.mem_singleton.mp hmessage]
    apply Archive.discards_seals hm
    intro y hy hlate
    obtain ⟨c, hc, hle⟩ := h.late y.step hlate
    have hgoing := isDone_of_receive hreceive (List.cons_ne_nil _ _)
    have hordered := hconnected'.ordered hrank
    rw [Function.update_self] at hordered
    have hlt := h.lt_of_batch hrank hi (Bool.or_eq_false_iff.mp hgoing).1 hordered hc hy
    exact absurd hle (UInt64.not_le.mpr hlt)
  · rw [List.mem_singleton.mp hmessage]
    exact r.archive.discards_endRecord final

/-! ## Asking -/

/-- **Asking over a link** changes nothing else. -/
theorem Follows.requestLink (h : Follows crew received r)
    (hconnected : Connected crew n.exchange senders r.links received) (hcrew : crew.Valid)
    (i : Nat) :
    ∃ r' n', r.requestLink i n = (r', n') ∧
      Connected crew n'.exchange senders r'.links received ∧ Follows crew received r' ∧
      Newer received received r r' := by
  cases hl : r.links[i]? with
  | none =>
    refine ⟨r, n, ?_, hconnected, h, .refl rfl id rfl rfl⟩
    rw [Reader.requestLink, hl]
  | some l =>
    refine ⟨{ r with links := r.links.set i (l.request n).1 }, (l.request n).2, ?_,
      hconnected.ask hcrew hl rfl, h.relink fun j hj => hj.set hl ?_, .refl rfl ?_ rfl rfl⟩
    · simp only [Reader.requestLink, hl]
    · rw [l.ended_request]
      exact id
    · intro hdone
      have hlink := List.all_eq_true.mp hdone l (List.mem_of_getElem? hl)
      rw [Link.request_of_isDone hlink, set_eq_self_of_getElem? hl]
      exact hdone

/-! ## Choosing a step -/

theorem mem_candidates {step : UInt64} : step ∈ r.candidates ↔
    step ∈ r.archive.liveSteps ∧ ∀ c ∈ r.currentStep, c < step := by
  cases hstep : r.currentStep <;> simp [Reader.candidates, hstep]

theorem Follows.not_late (h : Follows crew received r) {step : UInt64}
    (hstep : ∀ c ∈ r.currentStep, c < step) : ¬ r.archive.Late step := by
  intro hlate
  obtain ⟨c, hc, hle⟩ := h.late step hlate
  exact absurd hle (UInt64.not_le.mpr (hstep c hc))

/-- The steps that the reader may go to are those at which something has arrived. -/
theorem Follows.mem_candidates_iff (h : Follows crew received r) {step : UInt64}
    (hstep : ∀ c ∈ r.currentStep, c < step) :
    step ∈ r.candidates ↔ ∃ rank ∈ crew.ranks, Written.at step (arrived received rank) ≠ [] := by
  rw [mem_candidates, ← (h.holds step (h.not_late hstep)).mem_liveSteps_iff h.sound]
  exact and_iff_left hstep

/-- What the reader goes to is the first of them, and it is complete. -/
theorem Follows.choose_eq_some (h : Follows crew received r) {step : UInt64}
    (hchoose : r.choose .next = some step) : (∃ rest, r.candidates = step :: rest) ∧
      r.isComplete step = true ∧ ∀ step' ∈ r.candidates, step ≤ step' := by
  simp only [Reader.choose, h.reliable, Option.filter_eq_some_iff] at hchoose
  obtain ⟨hhead, hcomplete⟩ := hchoose
  obtain ⟨rest, hrest⟩ := List.head?_eq_some_iff.mp hhead
  refine ⟨⟨rest, hrest⟩, hcomplete, fun step' hstep' => ?_⟩
  have hsorted : r.candidates.Pairwise (· < ·) :=
    (List.pairwise_map.mpr h.sound.sorted).filter _
  rw [hrest] at hsorted hstep'
  rcases List.mem_cons.mp hstep' with rfl | hstep'
  · exact Std.le_refl _
  · exact Std.le_of_lt ((List.pairwise_cons.mp hsorted).1 step' hstep')

theorem Follows.skipTo_eq (h : Follows crew received r) {step : UInt64}
    (hchoose : r.choose .next = some step) : r.skipTo step = r := by
  obtain ⟨⟨rest, hrest⟩, -, -⟩ := h.choose_eq_some hchoose
  have hnone : r.candidates.takeWhile (· < step) = [] := by
    rw [hrest, List.takeWhile_cons, if_neg (by simp)]
  rw [Reader.skipTo, hnone]
  rfl

/-- When nothing more can come and there is no step to go to, all that has arrived is at steps up
to the current one. -/
theorem Follows.le_of_choose_eq_none (h : Follows crew received r) (hdone : r.isDone = true)
    (hchoose : r.choose .next = none) (hrank : rank ∈ crew.ranks) {y : Written}
    (hy : y ∈ arrived received rank) : ∃ c ∈ r.currentStep, y.step ≤ c := by
  by_contra hafter
  have hstep : ∀ c ∈ r.currentStep, c < y.step := by
    intro c hc
    by_contra hlt
    exact hafter ⟨c, hc, UInt64.not_lt.mp hlt⟩
  have hcandidate : y.step ∈ r.candidates :=
    (h.mem_candidates_iff hstep).mpr ⟨rank, hrank, List.ne_nil_of_mem (mem_at.mpr ⟨hy, rfl⟩)⟩
  simp only [Reader.choose, h.reliable, Option.filter_eq_none_iff] at hchoose
  cases hhead : r.candidates.head? with
  | none =>
    rw [List.head?_eq_none_iff.mp hhead] at hcandidate
    cases hcandidate
  | some first => exact hchoose first hhead (by simp [Reader.isComplete, hdone])

/-- **When a step is complete, nothing more comes for it or for a step before.** -/
theorem Follows.past_of_isComplete (h : Follows crew received r)
    (hconnected : Connected crew x senders r.links received) {step : UInt64}
    (hstep : ∀ c ∈ r.currentStep, c < step) (hcomplete : r.isComplete step = true)
    (hrank : crew.ranks[i]? = some rank) : Past r.links i (arrived received rank) step := by
  rcases (Bool.or_eq_true _ _).mp hcomplete with hdone | hcount
  · exact .inl (hconnected.ended_of_isDone hdone hrank)
  · rw [decide_eq_true_eq, hconnected.length] at hcount
    have hwritten := (h.holds step (h.not_late hstep)).of_rankCount hcount
      (List.mem_of_getElem? hrank)
    obtain ⟨y, hy⟩ := List.exists_mem_of_ne_nil _ hwritten
    obtain ⟨hmem, heq⟩ := mem_at.mp hy
    exact .inr ⟨y, hmem, UInt64.le_of_eq heq.symm⟩

/-- **The reader enters a step.** -/
theorem Follows.enter (h : Follows crew received r)
    (hconnected : Connected crew x senders r.links received) {step : UInt64}
    (hchoose : r.choose .next = some step) (now : Moment) :
    Follows crew received (r.enter step now) := by
  obtain ⟨⟨rest, hrest⟩, hcomplete, -⟩ := h.choose_eq_some hchoose
  have hstep := (mem_candidates.mp (hrest ▸ List.mem_cons_self)).2
  exact {
    reliable := h.reliable
    sound := h.sound
    holds := h.holds
    late := by
      intro step' hlate
      obtain ⟨c, hc, hle⟩ := h.late step' hlate
      exact ⟨step, rfl, Std.le_trans hle (Std.le_of_lt (hstep c hc))⟩
    past := by
      intro c hc i rank hrank
      cases hc
      exact h.past_of_isComplete hconnected hstep hcomplete hrank }

/-- **The reader leaves its step.** -/
theorem Follows.leave (h : Follows crew received r) {step : UInt64}
    (hcurrent : r.currentStep = some step) (now : Moment) :
    Follows crew received (r.leave step now) where
  reliable := h.reliable
  sound := h.sound.erase step
  holds := by
    intro step' hlate
    obtain ⟨hbefore, hafter⟩ := not_or.mp (mt (Archive.late_erase r.archive step step').mpr hlate)
    have hne : step' ≠ step := fun heq => hafter (UInt64.le_of_eq heq)
    exact (h.holds step' hbefore).erase h.sound hne
  late := by
    intro step' hlate
    rcases (Archive.late_erase r.archive step step').mp hlate with hlate | hle
    · exact h.late step' hlate
    · exact ⟨step, hcurrent, hle⟩
  past := h.past

end Follows

end Feed

end Stepcast
