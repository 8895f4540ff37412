import Stepcast.Proofs.Reader.Calls
import Stepcast.Proofs.Reader.Links
import Stepcast.Proofs.Wire.Overlong
import Stepcast.Reader.Access

/-!
# Operators do not show

Two readers are alike when they differ only in the messages that they took in, and these are
variants of each other (`Reader.Alike`). Whatever is called on them while variants keep coming, they
stay alike: the same messages come too late or are refused, the same steps are chosen and the same
are skipped. So the blocks of the active step are alike, and as the stored bytes of each give the
same payload, access cannot tell which operators the writers used.

Main statement: `Reading.transparent_run`.
-/

namespace Stepcast

theorem Archive.Alike.blocks? {operators : Operators} {a a' : Archive} (h : a.Alike operators a')
    (step : UInt64) : Option.Rel (List.Forall₂ (Archive.SameData operators a a'))
      (a.blocks? step) (a'.blocks? step) := by
  have hblocks := h.blocks step
  have hlive : step ∈ a'.liveSteps ↔ step ∈ a.liveSteps := by rw [h.liveSteps]
  rw [Archive.liveSteps, Archive.liveSteps, ← Table.isSome_at?_iff, ← Table.isSome_at?_iff] at hlive
  rw [Archive.blocksAt, Archive.blocksAt] at hblocks
  rw [Archive.blocks?, Archive.blocks?]
  cases hat : a.steps.at? step with
  | none =>
    rw [hat] at hlive
    rw [Option.not_isSome_iff_eq_none.mp fun hsome => Bool.false_ne_true (hlive.mp hsome)]
    exact .none
  | some blocks =>
    rw [hat] at hlive hblocks
    obtain ⟨blocks', hat'⟩ := Option.isSome_iff_exists.mp (hlive.mpr rfl)
    rw [hat'] at hblocks ⊢
    exact .some hblocks

theorem Archive.Alike.foldl_erase {operators : Operators} {a a' : Archive}
    (h : a.Alike operators a') (erased : List UInt64) :
    (erased.foldl Archive.erase a).Alike operators (erased.foldl Archive.erase a') := by
  induction erased generalizing a a' with
  | nil => exact h
  | cons step rest ih => exact ih (h.erase step)

namespace Reader

/-- The readers differ in the messages that they took in, and these are variants. -/
structure Alike (operators : Operators) (r r' : Reader) : Prop where
  name : r'.name = r.name
  delivery : r'.delivery = r.delivery
  operators_eq : r.operators = operators
  operators_eq' : r'.operators = operators
  links : r'.links = r.links
  stage : r'.stage = r.stage
  currentStep : r'.currentStep = r.currentStep
  archive : r.archive.Alike operators r'.archive
  current : Option.Rel (List.Forall₂ (Archive.SameData operators r.archive r'.archive))
    r.currentBlocks r'.currentBlocks
  passive : r.stage ≠ .active → r.currentBlocks = none

section Alike

variable {operators : Operators} {r r' : Reader} {a a' : Archive} {n n' : Network}

/-! ## Receiving -/

/-- **Taking in variants** ends in the same way. -/
theorem takeIn_alike (h : a.Alike operators a') (l : Link) {messages messages' : List Bytes}
    (hmessages : List.Forall₂ (Variants operators) messages messages') :
    (takeIn a l messages).1.Alike operators (takeIn a' l messages').1 ∧
      (takeIn a' l messages').2.1 = (takeIn a l messages).2.1 ∧
      (takeIn a' l messages').2.2.toOption = (takeIn a l messages).2.2.toOption := by
  induction hmessages generalizing a a' l with
  | nil => exact ⟨h, rfl, rfl⟩
  | @cons message message' rest rest' hmessage _ ih =>
    have hput := h.put hmessage
    have hverdict := h.verdict hmessage
    rw [takeIn, takeIn]
    generalize a.put message = taken at hput hverdict ⊢
    generalize a'.put message' = taken' at hput hverdict ⊢
    obtain ⟨a₁, result⟩ := taken
    obtain ⟨a₁', result'⟩ := taken'
    obtain ⟨f, f', rfl, rfl⟩ | ⟨outcome, rfl, rfl⟩ := cases_of_toOption_eq hverdict.symm
    · exact ⟨hput, rfl, rfl⟩
    · cases outcome <;> exact ih hput _

theorem receiveFrom_alike (h : a.Alike operators a') (l : Link) (hn : n.Alike operators n') :
    (receiveFrom a l n).1.Alike operators (receiveFrom a' l n').1 ∧
      (receiveFrom a' l n').2.1 = (receiveFrom a l n).2.1 ∧
      (receiveFrom a' l n').2.2.2.toOption = (receiveFrom a l n).2.2.2.toOption := by
  obtain ⟨hmessages, hgone, hlink⟩ := hn.receive l
  unfold receiveFrom
  generalize l.receive n = received at hmessages hgone hlink ⊢
  generalize l.receive n' = received' at hmessages hgone hlink ⊢
  obtain ⟨messages, gone, l, n⟩ := received
  obtain ⟨messages', gone', l', n'⟩ := received'
  cases hgone
  cases hlink
  have htaken := takeIn_alike h l hmessages
  dsimp only
  generalize takeIn a l messages = taken at htaken ⊢
  generalize takeIn a' l messages' = taken' at htaken ⊢
  obtain ⟨a₂, l₂, result⟩ := taken
  obtain ⟨a₂', l₂', result'⟩ := taken'
  obtain ⟨harchive, hl, hresult⟩ := htaken
  cases hl
  obtain ⟨f, f', rfl, rfl⟩ | ⟨⟨⟩, rfl, rfl⟩ := cases_of_toOption_eq hresult
  · exact ⟨harchive, rfl, rfl⟩
  · exact ⟨harchive, rfl, rfl⟩

theorem Alike.between (h : r.Alike operators r') (hidle : r.stage = .idle)
    (ha : a.Alike operators a') (links : List Link) :
    Reader.Alike operators { r with archive := a, links } { r' with archive := a', links } := by
  have hnone : r.currentBlocks = none := h.passive (by rw [hidle]; decide)
  have hcurrent := h.current
  rw [hnone] at hcurrent
  refine { h with links := rfl, archive := ha, current := ?_ }
  show Option.Rel _ r.currentBlocks r'.currentBlocks
  rw [hnone]
  cases hblocks : r'.currentBlocks with
  | none => exact .none
  | some blocks =>
    rw [hblocks] at hcurrent
    cases hcurrent

theorem Alike.requestLink (h : r.Alike operators r') (hidle : r.stage = .idle)
    (hn : n.Alike operators n') (i : Nat) :
    (r.requestLink i n).1.Alike operators (r'.requestLink i n').1 := by
  unfold Reader.requestLink
  rw [h.links]
  split
  · exact h
  · next l _ =>
    dsimp only
    rw [(hn.request l).1]
    exact h.between hidle h.archive _

theorem Alike.receiveLink (h : r.Alike operators r') (hidle : r.stage = .idle)
    (hn : n.Alike operators n') (i : Nat) :
    (r.receiveLink i n).1.Alike operators (r'.receiveLink i n').1 ∧
      (r'.receiveLink i n').2.2.toOption = (r.receiveLink i n).2.2.toOption := by
  unfold Reader.receiveLink
  rw [h.links]
  split
  · exact ⟨h, rfl⟩
  · next l _ =>
    obtain ⟨harchive, hl, hresult⟩ := receiveFrom_alike h.archive l hn
    dsimp only
    rw [hl]
    exact ⟨h.between hidle harchive _, hresult⟩

/-! ## Going to a step -/

theorem Alike.candidates (h : r.Alike operators r') : r'.candidates = r.candidates := by
  rw [Reader.candidates, h.archive.liveSteps, h.currentStep, Reader.candidates]

theorem Alike.isDone (h : r.Alike operators r') : r'.isDone = r.isDone := by
  rw [Reader.isDone, h.links, Reader.isDone]

/-- **The same step is chosen.** -/
theorem Alike.choose (h : r.Alike operators r') (mode : StepMode) :
    r'.choose mode = r.choose mode := by
  have hcomplete : r'.isComplete = r.isComplete := by
    funext step
    rw [isComplete, h.isDone, h.links, h.archive.rankCount, isComplete]
  unfold Reader.choose
  rw [h.delivery, h.candidates, hcomplete]

theorem Alike.skipTo_enter (h : r.Alike operators r') (step : UInt64) (now now' : Moment) :
    ((r.skipTo step).enter step now).Alike operators ((r'.skipTo step).enter step now') := by
  have harchive : (r.skipTo step).archive.Alike operators (r'.skipTo step).archive := by
    unfold skipTo
    rw [h.candidates]
    exact h.archive.foldl_erase _
  exact { h with
    stage := rfl
    currentStep := rfl
    archive := harchive
    current := harchive.blocks? step
    passive := fun hstage => absurd rfl hstage }

/-! ## Ending -/

theorem Alike.endStep (h : r.Alike operators r') (hn : n.Alike operators n') (now now' : Moment) :
    (r.endStep now n).1.Alike operators (r'.endStep now' n').1 := by
  unfold Reader.endStep ensureOpen
  rw [h.stage, h.name, h.currentStep]
  split
  · exact h
  · split
    · next step _ _ =>
      dsimp only
      have hlinks : (requestAll (r'.leave step now').links n').1 =
          (requestAll (r.leave step now).links n).1 := by
        show (requestAll r'.links n').1 = (requestAll r.links n).1
        rw [h.links, hn.requestAll]
      exact { h with
        links := hlinks
        stage := rfl
        archive := h.archive.erase step
        current := .none
        passive := fun _ => rfl }
    · exact h

theorem Alike.close (h : r.Alike operators r') (n n' : Network) :
    (r.close n).1.Alike operators (r'.close n').1 := by
  unfold Reader.close
  rw [h.stage]
  split
  · exact h
  · exact { h with
      links := rfl
      stage := rfl
      archive := h.archive.clear
      current := .none
      passive := fun _ => rfl }

/-! ## Access -/

/-- **Blocks with the same data have the same payload.** -/
theorem payload_eq (hoperators : r.operators = operators) (b : Block) : r.payload b =
    (Archive.restored? operators r.archive b).getD
      (.error (.protocol (.bufferReleased b.name b.step))) := by
  unfold payload Archive.restored? Operators.restore
  rw [hoperators]
  cases r.archive.stored? b <;> rfl

section Blocks

variable {b b' : Block} {blocks blocks' : List Block}

theorem Alike.payload (h : r.Alike operators r')
    (hb : Archive.SameData operators r.archive r'.archive b b') :
    r'.payload b' = r.payload b := by
  rw [payload_eq h.operators_eq, payload_eq h.operators_eq', hb.payload, hb.alike.name_eq,
    hb.alike.step_eq]

theorem Alike.copyBlock (h : r.Alike operators r')
    (hb : Archive.SameData operators r.archive r'.archive b b') (box : Box) (target : Bytes) :
    r'.copyBlock b' box target = r.copyBlock b box target := by
  rw [Reader.copyBlock, h.payload hb, hb.alike.box_eq, hb.alike.layout_eq, hb.alike.type_eq,
    Reader.copyBlock]

theorem Alike.copyBlocks (h : r.Alike operators r')
    (hblocks : List.Forall₂ (Archive.SameData operators r.archive r'.archive) blocks blocks')
    (v : Variable) (copied : Nat) (target : Bytes) :
    r'.copyBlocks v copied target blocks' = r.copyBlocks v copied target blocks := by
  induction hblocks generalizing copied target with
  | nil => rfl
  | @cons b b' rest rest' hb _ ih =>
    rw [Reader.copyBlocks, Reader.copyBlocks, hb.alike.type_eq, h.copyBlock hb]
    split
    · rfl
    · cases r.copyBlock b v.selection target with
      | error f => rfl
      | ok result => exact ih _ _

theorem Alike.currentBlocks (h : r.Alike operators r') :
    Option.Rel (List.Forall₂ Block.Alike) r.currentBlocks r'.currentBlocks := by
  have hcurrent := h.current
  generalize r.currentBlocks = current at hcurrent ⊢
  generalize r'.currentBlocks = current' at hcurrent ⊢
  cases hcurrent with
  | none => exact .none
  | some hblocks => exact .some (hblocks.imp fun b b' hb => hb.alike)

/-- The active step of both has the same blocks, or both refuse the operation. -/
theorem Alike.stepBlocks (h : r.Alike operators r') (operation : String) :
    (∃ f, r.stepBlocks operation = .error f ∧ r'.stepBlocks operation = .error f) ∨
      ∃ blocks blocks', r.stepBlocks operation = .ok blocks ∧
        r'.stepBlocks operation = .ok blocks' ∧
        List.Forall₂ (Archive.SameData operators r.archive r'.archive) blocks blocks' := by
  have hcurrent := h.current
  unfold Reader.stepBlocks ensureOpen
  rw [h.stage, h.name]
  generalize r.currentBlocks = current at hcurrent ⊢
  generalize r'.currentBlocks = current' at hcurrent ⊢
  cases hcurrent with
  | none =>
    left
    cases r.stage <;> exact ⟨_, rfl, rfl⟩
  | some hblocks =>
    cases r.stage with
    | active => exact .inr ⟨_, _, rfl, rfl, hblocks⟩
    | _ => exact .inl ⟨_, rfl, rfl⟩

theorem named_alike
    (hblocks : List.Forall₂ (Archive.SameData operators r.archive r'.archive) blocks blocks')
    (name : String) : List.Forall₂ (Archive.SameData operators r.archive r'.archive)
      (blocks.filter (fun b => b.name = name)) (blocks'.filter (fun b => b.name = name)) := by
  refine List.rel_filter (fun b b' hb => ?_) hblocks
  simp only [hb.alike.name_eq]

/-- **A selection is filled in the same way.** -/
theorem Alike.get (h : r.Alike operators r') (v : Variable) (target : Bytes) :
    r'.get v target = r.get v target := by
  unfold Reader.get
  obtain ⟨f, hf, hf'⟩ | ⟨blocks, blocks', hblocks, hblocks', hsame⟩ := h.stepBlocks "get"
  · rw [hf, hf']
  · have hnamed := named_alike hsame v.name
    rw [hblocks, hblocks', h.currentStep]
    dsimp only
    generalize blocks.filter (fun b => b.name = v.name) = found at hnamed ⊢
    generalize blocks'.filter (fun b => b.name = v.name) = found' at hnamed ⊢
    split
    · rfl
    · cases hnamed with
      | nil => rfl
      | cons hb hrest => exact h.copyBlocks (.cons hb hrest) v 0 target

theorem Alike.getValues (h : r.Alike operators r') (v : Variable) (type : ElementType) :
    r'.getValues v type = r.getValues v type := by
  rw [Reader.getValues, h.get, Reader.getValues]

theorem Alike.getBlock (h : r.Alike operators r') (name : String) (index : Nat) (target : Bytes) :
    r'.getBlock name index target = r.getBlock name index target := by
  unfold Reader.getBlock
  obtain ⟨f, hf, hf'⟩ | ⟨blocks, blocks', hblocks, hblocks', hsame⟩ := h.stepBlocks "get_block"
  · rw [hf, hf']
    rfl
  · have hnamed := named_alike hsame name
    rw [hblocks, hblocks', ok_bind, ok_bind]
    generalize blocks.filter (fun b => b.name = name) = found at hnamed ⊢
    generalize blocks'.filter (fun b => b.name = name) = found' at hnamed ⊢
    have hb := rel_getElem? hnamed index
    generalize found[index]? = b at hb ⊢
    generalize found'[index]? = b' at hb ⊢
    cases hb with
    | none => rfl
    | @some b b' hb =>
      show r'.copyBlock b' b'.box target = r.copyBlock b b.box target
      rw [h.copyBlock hb, hb.alike.box_eq]

end Blocks

end Alike

end Reader

/-! ## Runs -/

section Calls

variable (operators : Operators)

/-- The same is done over the same link, and variants are found there. -/
inductive Poll.Alike : Poll → Poll → Prop
  | ask (link : Nat) {n n' : Network} :
      n.Alike operators n' → Poll.Alike (.ask link n) (.ask link n')
  | take (link : Nat) {n n' : Network} :
      n.Alike operators n' → Poll.Alike (.take link n) (.take link n')

/-- The same is done over the links before the choice. -/
def Look.Alike (l l' : Look) : Prop := List.Forall₂ (Poll.Alike operators) l.polls l'.polls

/-- The same is called, and variants are found on the network. The time may be another. -/
inductive Reading.Call.Alike : Reading.Call → Reading.Call → Prop
  | beginStep (mode : StepMode) {first first' : Look} {later later' : List Look} :
      first.Alike operators first' → List.Forall₂ (Look.Alike operators) later later' →
      Reading.Call.Alike (.beginStep mode first later) (.beginStep mode first' later')
  | endStep (now now' : Moment) {n n' : Network} :
      n.Alike operators n' → Reading.Call.Alike (.endStep now n) (.endStep now' n')
  | close (n n' : Network) : Reading.Call.Alike (.close n) (.close n')

end Calls

namespace Reading

/-- The readers are alike and went through the same steps. -/
structure Alike (operators : Operators) (x x' : Reading) : Prop where
  reader : x.reader.Alike operators x'.reader
  exposed : x'.exposed = x.exposed
  skipped : x'.skipped = x.skipped

section Alike

variable {operators : Operators} {x x' : Reading}

theorem Alike.poll (h : x.Alike operators x') (hidle : x.reader.stage = .idle) {p p' : Poll}
    (hp : p.Alike operators p') : (x.poll p).1.Alike operators (x'.poll p').1 ∧
      (x'.poll p').2.toOption = (x.poll p).2.toOption := by
  cases hp with
  | ask link hn => exact ⟨⟨h.reader.requestLink hidle hn link, h.exposed, h.skipped⟩, rfl⟩
  | take link hn =>
    obtain ⟨hreader, hresult⟩ := h.reader.receiveLink hidle hn link
    exact ⟨⟨hreader, h.exposed, h.skipped⟩, hresult⟩

theorem Alike.polls (h : x.Alike operators x') (hidle : x.reader.stage = .idle)
    {ps ps' : List Poll} (hps : List.Forall₂ (Poll.Alike operators) ps ps') :
    (x.polls ps).1.Alike operators (x'.polls ps').1 ∧
      (x'.polls ps').2.toOption = (x.polls ps).2.toOption := by
  induction hps generalizing x x' with
  | nil => exact ⟨h, rfl⟩
  | @cons p p' rest rest' hp _ ih =>
    have hpassed := (passes_poll x p).stage
    obtain ⟨hfirst, hresult⟩ := h.poll hidle hp
    rw [Reading.polls, Reading.polls]
    generalize x.poll p = polled at hpassed hfirst hresult ⊢
    generalize x'.poll p' = polled' at hfirst hresult ⊢
    obtain ⟨x₁, result⟩ := polled
    obtain ⟨x₁', result'⟩ := polled'
    obtain ⟨f, f', rfl, rfl⟩ | ⟨⟨⟩, rfl, rfl⟩ := cases_of_toOption_eq hresult
    · exact ⟨hfirst, rfl⟩
    · exact ih hfirst (hpassed.trans hidle)

theorem Alike.enter (h : x.Alike operators x') (step : UInt64) (now now' : Moment) :
    (x.enter step now).Alike operators (x'.enter step now') where
  reader := h.reader.skipTo_enter step now now'
  exposed := congrArg (· ++ [step]) h.exposed
  skipped := by
    show x'.skipped ++ _ = x.skipped ++ _
    rw [h.skipped, h.reader.candidates]

/-- **A look comes to the same result.** The next one follows if there is none. -/
theorem Alike.look (h : x.Alike operators x') (hidle : x.reader.stage = .idle) {l l' : Look}
    (hl : l.Alike operators l') (mode : StepMode) :
    (x.look mode l).1.Alike operators (x'.look mode l').1 ∧
      (x'.look mode l').2.toOption = (x.look mode l).2.toOption ∧
      ((x.look mode l).2 = .ok none → (x.look mode l).1.reader.stage = .idle) := by
  have hpassed : (x.polls l.polls).1.reader.stage = x.reader.stage :=
    (polled_polls l.polls).passes.stage
  obtain ⟨hpolled, hresult⟩ := h.polls hidle hl
  unfold Reading.look
  generalize x.polls l.polls = polled at hpassed hpolled hresult ⊢
  generalize x'.polls l'.polls = polled' at hpolled hresult ⊢
  obtain ⟨x₁, result⟩ := polled
  obtain ⟨x₁', result'⟩ := polled'
  obtain ⟨f, f', rfl, rfl⟩ | ⟨⟨⟩, rfl, rfl⟩ := cases_of_toOption_eq hresult
  · exact ⟨hpolled, rfl, fun hnone => by cases hnone⟩
  · dsimp only
    rw [hpolled.reader.choose mode]
    cases x₁.reader.choose mode with
    | some step => exact ⟨hpolled.enter step l.now l'.now, rfl, fun hnone => by cases hnone⟩
    | none =>
      dsimp only
      rw [hpolled.reader.isDone, Reader.lastStatus, hpolled.reader.links, Reader.lastStatus]
      exact ⟨hpolled, rfl, fun _ => hpassed.trans hidle⟩

theorem Alike.seek (h : x.Alike operators x') (hidle : x.reader.stage = .idle)
    {looks looks' : List Look} (hlooks : List.Forall₂ (Look.Alike operators) looks looks')
    (mode : StepMode) : (x.seek mode looks).1.Alike operators (x'.seek mode looks').1 ∧
      (x'.seek mode looks').2.toOption = (x.seek mode looks).2.toOption := by
  induction hlooks generalizing x x' with
  | nil => exact ⟨h, rfl⟩
  | @cons l l' rest rest' hl _ ih =>
    obtain ⟨hlooked, hresult, hnext⟩ := h.look hidle hl mode
    rw [Reading.seek, Reading.seek]
    generalize x.look mode l = looked at hlooked hresult hnext ⊢
    generalize x'.look mode l' = looked' at hlooked hresult ⊢
    obtain ⟨x₁, result⟩ := looked
    obtain ⟨x₁', result'⟩ := looked'
    obtain ⟨f, f', rfl, rfl⟩ | ⟨found, rfl, rfl⟩ := cases_of_toOption_eq hresult
    · exact ⟨hlooked, rfl⟩
    · cases found with
      | none => exact ih hlooked (hnext rfl)
      | some status => exact ⟨hlooked, rfl⟩

/-- **Beginning a step comes to the same result.** -/
theorem Alike.beginStep (h : x.Alike operators x') (mode : StepMode) {first first' : Look}
    {later later' : List Look} (hfirst : first.Alike operators first')
    (hlater : List.Forall₂ (Look.Alike operators) later later') :
    (x.beginStep mode first later).1.Alike operators (x'.beginStep mode first' later').1 ∧
      (x'.beginStep mode first' later').2.toOption = (x.beginStep mode first later).2.toOption := by
  unfold Reading.beginStep
  have hcheck : x'.reader.checkBegin = x.reader.checkBegin := by
    unfold Reader.checkBegin Reader.ensureOpen
    rw [h.reader.stage, h.reader.name, h.reader.currentStep]
  rw [hcheck]
  cases hbegin : x.reader.checkBegin with
  | error f => exact ⟨h, rfl⟩
  | ok _ =>
    obtain ⟨hsought, hresult⟩ :=
      h.seek (Reader.checkBegin_eq_ok.mp hbegin) (.cons hfirst hlater) mode
    dsimp only
    generalize x.seek mode (first :: later) = sought at hsought hresult ⊢
    generalize x'.seek mode (first' :: later') = sought' at hsought hresult ⊢
    obtain ⟨x₁, result⟩ := sought
    obtain ⟨x₁', result'⟩ := sought'
    obtain ⟨f, f', rfl, rfl⟩ | ⟨found, rfl, rfl⟩ := cases_of_toOption_eq hresult
    · exact ⟨hsought, rfl⟩
    · exact ⟨hsought, rfl⟩

/-- **A call keeps the readings alike.** -/
theorem Alike.call (h : x.Alike operators x') {c c' : Call} (hc : c.Alike operators c') :
    (x.call c).Alike operators (x'.call c') := by
  cases hc with
  | beginStep mode hfirst hlater => exact (h.beginStep mode hfirst hlater).1
  | endStep now now' hn => exact ⟨h.reader.endStep hn now now', h.exposed, h.skipped⟩
  | close n n' => exact ⟨h.reader.close n n', h.exposed, h.skipped⟩

theorem Alike.run (h : x.Alike operators x') {calls calls' : List Call}
    (hcalls : List.Forall₂ (Call.Alike operators) calls calls') :
    (x.run calls).Alike operators (x'.run calls') := by
  induction hcalls generalizing x x' with
  | nil => exact h
  | cons hc _ ih => exact ih (h.call hc)

end Alike

theorem alike_open {name : String} {s : Settings} {writers : Nat} {operators : Operators}
    {now : Moment} {n n' : Network} {r : Reader}
    (h : Reader.open name s writers operators now n = (n', .ok r)) :
    Alike operators { reader := r } { reader := r } := by
  unfold Reader.open at h
  split at h
  · cases h
  · split at h
    · cases h
    · cases h
      have hsound := Archive.sound_of_nil (a := {}) rfl rfl
      exact ⟨⟨rfl, rfl, rfl, rfl, rfl, rfl, rfl, ⟨hsound, hsound, rfl, rfl, fun _ => .nil⟩, .none,
        fun _ => rfl⟩, rfl, rfl⟩

/-- **Operators are transparent.** Two runs of an opened reader in which the same is called, and the
messages that come are the same or come of the same calls with other operators, or none, go through
the same steps. At any time the live steps have blocks that are equal but for size, position,
operator and parameters, and so has the active step; beginning a step comes to the same status, or
fails in both; and all data that can be asked for is the same. -/
theorem transparent_run {name : String} {s : Settings} {writers : Nat} {operators : Operators}
    {now : Moment} {n n' : Network} {r₀ : Reader}
    (hopen : Reader.open name s writers operators now n = (n', .ok r₀)) {calls calls' : List Call}
    (hcalls : List.Forall₂ (Call.Alike operators) calls calls') :
    let x := ({ reader := r₀ } : Reading).run calls
    let x' := ({ reader := r₀ } : Reading).run calls'
    (x'.reader.stage = x.reader.stage ∧ x'.reader.currentStep = x.reader.currentStep ∧
      x'.exposed = x.exposed ∧ x'.skipped = x.skipped) ∧
    (x'.reader.archive.liveSteps = x.reader.archive.liveSteps ∧
      (∀ step, List.Forall₂ Block.Alike (x.reader.archive.blocksAt step)
        (x'.reader.archive.blocksAt step)) ∧
      Option.Rel (List.Forall₂ Block.Alike) x.reader.currentBlocks x'.reader.currentBlocks) ∧
    (∀ mode first first' later later', first.Alike operators first' →
      List.Forall₂ (Look.Alike operators) later later' →
      (x'.beginStep mode first' later').2.toOption = (x.beginStep mode first later).2.toOption) ∧
    (∀ v target, x'.reader.get v target = x.reader.get v target) ∧
    (∀ v type, x'.reader.getValues v type = x.reader.getValues v type) ∧
    ∀ name index target,
      x'.reader.getBlock name index target = x.reader.getBlock name index target := by
  intro x x'
  have h : x.Alike operators x' := (alike_open hopen).run hcalls
  refine ⟨⟨h.reader.stage, h.reader.currentStep, h.exposed, h.skipped⟩,
    ⟨h.reader.archive.liveSteps, fun step => ?_, ?_⟩,
    fun mode first first' later later' hfirst hlater => (h.beginStep mode hfirst hlater).2,
    h.reader.get, h.reader.getValues, h.reader.getBlock⟩
  · exact (h.reader.archive.blocks step).imp fun b b' hb => hb.alike
  · exact h.reader.currentBlocks

/-! ### A run with and without an operator -/

/-- An operator that puts a byte before the others, and takes it away. -/
def shifter : Operator where
  operate := fun payload _ _ _ => .ok (0 :: payload)
  invert := fun stored _ _ => .ok (stored.drop 1)

/-- A block of two elements, stored by an operator or not, and one after it. -/
def sampleWrites (operator : Option OperatorSpec) : List Draft.Call :=
  [.put { name := "v", type := .uint8, selection := ⟨[1], [2]⟩, operator } 5 [7, 8],
    .put (.scalar "w" .uint8) 5 [9]]

/-- The first block goes through `shifter`. -/
def shifted : OperatorSpec := { id := "shift", params := [("by", "1")] }

/-- A reader that knows `shifter`. -/
def shiftedOpening : Network × Except Fault Reader :=
  Reader.open "s" { address := some "a" } 1 [("shift", shifter)] ⟨0, 0⟩ {}

/-- The network in which the writes of a rank were published. -/
def sampleSent (operator : Option OperatorSpec) : Network :=
  let message := Draft.message [("shift", shifter)] 0 (sampleWrites operator)
  { shiftedOpening.1 with broadcast := (shiftedOpening.1.broadcast.publish "a" message).2 }

theorem sampleWrites_transmits {operator : Option OperatorSpec}
    (h : operator = none ∨ operator = some shifted) :
    Draft.Transmits [("shift", shifter)] 0 (sampleWrites operator) where
  restores := by
    intro c hc
    simp only [sampleWrites, List.mem_cons, List.not_mem_nil, or_false] at hc
    obtain rfl | rfl := hc
    · rintro - spec hspec
      obtain rfl | rfl := h
      · cases hspec
      · cases hspec
        exact ⟨shifter, [0, 7, 8], rfl, rfl, rfl⟩
    · rintro - spec hspec
      cases hspec
  encodable := by
    have hsent : (sampleWrites operator).filter Draft.Call.isSized = sampleWrites operator := rfl
    have hspec : ∀ spec ∈ operator, spec.Fits := by
      intro spec hspec
      obtain rfl | rfl := h
      · cases hspec
      · cases hspec
        exact ⟨by decide, ⟨List.pairwise_singleton _ _, by decide, by decide, by decide⟩⟩
    rw [hsent]
    exact {
      puts := by
        intro v step payload hput
        simp only [sampleWrites, List.mem_cons, List.not_mem_nil, or_false, Draft.Call.put.injEq]
          at hput
        obtain ⟨rfl, -, -⟩ | ⟨rfl, -, -⟩ := hput
        · have hname : (utf8 "v").length < 2 ^ 32 := by decide
          exact ⟨hname, (show 1 < 2 ^ 32 by decide), (show 1 < 2 ^ 32 by decide),
            (show 0 < 2 ^ 32 by decide), hspec⟩
        · exact ⟨by decide, by decide, by decide, by decide, fun spec hspec => by cases hspec⟩
      blocks := fun step => Nat.lt_of_le_of_lt
        (Draft.length_putsAt_le step (sampleWrites operator)) (show 2 < 2 ^ 32 by decide)
      attributes := fun attributes hattributes => by cases hattributes
      sections := show 1 < 2 ^ 32 by decide }
  length := by
    obtain rfl | rfl := h <;> decide +kernel

theorem sampleSent_alike :
    (sampleSent none).Alike [("shift", shifter)] (sampleSent (some shifted)) := by
  have hvariants : Variants [("shift", shifter)]
      (Draft.message [("shift", shifter)] 0 (sampleWrites none))
      (Draft.message [("shift", shifter)] 0 (sampleWrites (some shifted))) :=
    .calls rfl (sampleWrites_transmits (.inl rfl)) (sampleWrites_transmits (.inr rfl))
  have hopened := Network.Alike.refl [("shift", shifter)] shiftedOpening.1
  exact ⟨hopened.broadcast.publish hvariants "a", hopened.exchange⟩

/-- The step is begun when the message has come. -/
def sampleCall (operator : Option OperatorSpec) : Call :=
  .beginStep .next ⟨[.take 0 (sampleSent operator)], ⟨0, 0⟩⟩ []

theorem transparent_run_sample : ∃ n r₀, shiftedOpening = (n, .ok r₀) ∧
    let x := ({ reader := r₀ } : Reading).run [sampleCall none]
    let x' := ({ reader := r₀ } : Reading).run [sampleCall (some shifted)]
    let v : Variable := { name := "v", type := .uint8, selection := ⟨[0], [3]⟩ }
    (x.reader.archive.blocksAt 5).map (·.position) = [16, 18] ∧
      (x'.reader.archive.blocksAt 5).map (·.position) = [16, 19] ∧
      (x.reader.get v [1, 1, 1]).1 = [1, 7, 8] ∧
      x'.reader.get v [1, 1, 1] = x.reader.get v [1, 1, 1] := by
  have hruns : shiftedOpening.2.toOption.any (fun r₀ =>
      let x := ({ reader := r₀ } : Reading).run [sampleCall none]
      let x' := ({ reader := r₀ } : Reading).run [sampleCall (some shifted)]
      let v : Variable := { name := "v", type := .uint8, selection := ⟨[0], [3]⟩ }
      (x.reader.archive.blocksAt 5).map (·.position) = [16, 18] ∧
        (x'.reader.archive.blocksAt 5).map (·.position) = [16, 19] ∧
        (x.reader.get v [1, 1, 1]).1 = [1, 7, 8]) = true := by
    decide +kernel
  obtain ⟨n, r₀, hopen, hrun⟩ := Reader.exists_opened hruns
  obtain ⟨hpositions, hpositions', hget⟩ := of_decide_eq_true hrun
  have hcalls : List.Forall₂ (Call.Alike [("shift", shifter)]) [sampleCall none]
      [sampleCall (some shifted)] :=
    .cons (.beginStep .next (.cons (.take 0 sampleSent_alike) .nil) .nil) .nil
  obtain ⟨-, -, -, hsame, -⟩ := transparent_run hopen hcalls
  exact ⟨n, r₀, hopen, hpositions, hpositions', hget, hsame _ _⟩

/-! ### A parameter with a long key -/

/-- A block that goes through `shifter` with these parameters. -/
def paramVariable (params : Params) : Variable :=
  { name := "u", type := .uint8, selection := ⟨[0], [1]⟩
    operator := some { id := "shift", params } }

def paramWrites (params : Params) : List Draft.Call := [.put (paramVariable params) 0 [7]]

/-- The record of the block in its message. -/
def paramTree (params : Params) : Tree :=
  .map ([("C", .ofDims [1]), ("I", .uint 2), ("L", .uint Layout.native.bits), ("N", .text "u"),
    ("O", .ofDims [0]), ("P", .uint 16), ("Y", .text "uint8_t"), ("Z", .text "shift")] ++
    [("ZP", Record.paramsTree params)])

/-- The message of the block. -/
def paramMessage (params : Params) : Bytes :=
  Frame.compose [0, 7] (.map [("0", .map [("0", .list [paramTree params])])])

theorem message_paramWrites (params : Params) :
    Draft.message [("shift", shifter)] 0 (paramWrites params) = paramMessage params := by
  have hdraft : (paramWrites params).foldl (Draft.perform [("shift", shifter)])
      ({ rank := 0 } : Draft).open =
        { rank := 0
          payload := some [0, 7]
          records := [(0, [Draft.recordOf (paramVariable params) 2 16])] } := rfl
  have htree : (Draft.recordOf (paramVariable params) 2 16).toTree = paramTree params := by
    have hkeys : ["C", "I", "L", "N", "O", "P", "Y", "Z", "ZP"].Pairwise (· < ·) := by decide
    exact congrArg Tree.map (Table.ofEntries_eq_self (List.pairwise_map.mp hkeys))
  rw [Draft.message, hdraft, paramMessage, ← htree]
  generalize Draft.recordOf (paramVariable params) 2 16 = r
  refine congrArg (Frame.compose [0, 7]) ?_
  show Draft.index { rank := 0, payload := some [0, 7], records := [(0, [r])] } = _
  rw [Draft.index]
  simp only [Option.toList_none, List.map_nil, List.nil_append, List.map_cons, Draft.rankMap]
  rfl

/-- Reading stops in the index if it stops in the parameters. -/
theorem stopsAt_paramTree {params : Params} {f : Tree.Fault}
    (h : Tree.StopsAt 29 f (Record.paramsTree params)) :
    Tree.StopsAt 33 f (.map [("0", .map [("0", .list [paramTree params])])]) := by
  have hentry : ∀ e ∈ (Draft.recordOf (paramVariable []) 2 16).entries.dropLast,
      e.1 ∈ Record.fieldKeys ∧ e.2.Fits ∧ e.2.depth ≤ 1 := fun e he =>
    Record.entry_fits
      ⟨by decide, by decide, by decide, by decide, by decide, Params.fits_nil⟩
      (List.dropLast_subset _ he)
  have hrecord : Tree.StopsAt 30 f (paramTree params) :=
    Tree.stopsAt_map h (show 9 < 2 ^ 32 by decide)
      (fun e he => Record.length_utf8_fieldKey (hentry e he).1) (fun e he => (hentry e he).2.1)
      (fun e he => Nat.lt_of_le_of_lt (hentry e he).2.2 (by decide)) (by decide)
  have hlist : Tree.StopsAt 31 f (.list [paramTree params]) :=
    Tree.stopsAt_list hrecord (show 1 < 2 ^ 32 by decide)
  exact Tree.stopsAt_single (Tree.stopsAt_single hlist (by decide)) (by decide)

theorem length_paramMessage_le (key : String) :
    (paramMessage [(key, "")]).length ≤ 1000 + (utf8 key).length := by
  have hshort : ∀ s ∈ ["0", "C", "I", "L", "N", "O", "P", "Y", "Z", "ZP", "u", "uint8_t", "shift",
      ""], (utf8 s).length ≤ 7 := by decide
  simp only [List.forall_mem_cons] at hshort
  rw [paramMessage, Frame.length_compose]
  simp only [List.cons_append, List.nil_append, paramTree, Record.paramsTree, List.map_cons,
    List.map_nil, Tree.encodedLength, Tree.entriesLength, Tree.itemsLength, Tree.ofDims, headerSize,
    List.length_cons, List.length_nil]
  omega

/-- A key whose length takes more than two bytes. -/
def longKey : String := String.ofList (List.replicate (2 ^ 16) 'a')

/-- **An operator is not transparent** if one of its parameters has a key that is too long, although
it gives back what was put: without the operator the message is accepted, and with it refused. -/
theorem refuses_long_key :
    (∀ c ∈ paramWrites [(longKey, "")], c.Restores [("shift", shifter)]) ∧
      (({} : Archive).put (Draft.message [("shift", shifter)] 0
        ((paramWrites [(longKey, "")]).map Draft.Call.plain))).2.toOption = some (.data 1 [0]) ∧
      ({} : Archive).put (Draft.message [("shift", shifter)] 0 (paramWrites [(longKey, "")])) =
        ({}, .error (.protocol (.tree (.unknownTag 0x61)))) := by
  have hkey : utf8 longKey = List.replicate (2 ^ 16) 0x61 := utf8_replicate _
  have hlength : (utf8 longKey).length = 2 ^ 16 := by rw [hkey, List.length_replicate]
  have hparams : Tree.StopsAt 29 (.unknownTag 0x61) (Record.paramsTree [(longKey, "")]) :=
    Tree.stopsAt_key (hkey.trans List.replicate_succ) (by decide) (by rw [hlength, Nat.mod_self])
      (show 1 < 2 ^ 32 by decide)
  refine ⟨fun c hc => ?_, by decide +kernel, ?_⟩
  · obtain rfl := List.mem_singleton.mp hc
    rintro - spec hspec
    cases hspec
    exact ⟨shifter, [0, 7], rfl, rfl, rfl⟩
  · have hbound := length_paramMessage_le longKey
    rw [hlength] at hbound
    rw [message_paramWrites]
    exact Archive.put_of_stopsAt (stopsAt_paramTree hparams)
      (Nat.lt_of_le_of_lt hbound (by decide)) {}

end Reading

end Stepcast
