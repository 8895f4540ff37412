import Stepcast.Proofs.Archive.Reclamation
import Stepcast.Proofs.Box.Ranges
import Stepcast.Reader.Access
import Stepcast.Session.Reading

/-!
# The active step can be read

A reader keeps the blocks of its active step beside the archive that holds their bytes. Messages
that come add to the archive, going to a step erases the steps before it, and ending a step erases
the step itself. So every block of the active step is live in the archive: this is the invariant
`Ready`. Its message is then still there and has the whole range of the block, whatever the message
is otherwise.

The access here stops at a slice that is out of range. It never does, so no fault says that the
message of a block is gone.

Main statements: `Ready.perform`, `readable_run`, `Session.beginReading_run`.
-/

namespace Stepcast

namespace Reader

/-! ## Access that checks its slices -/

/-- `payload`, unless the range of the block leaves its message. -/
def payload? (r : Reader) (b : Block) : Option (Except Fault Bytes) := do
  guard ((r.archive.buffer? b.buffer).all (fun message => b.position + b.size ≤ message.length))
  return r.payload b

/-- `copyBlock`, unless a slice is out of range. -/
def copyBlock? (r : Reader) (b : Block) (box : Box) (target : Bytes) :
    Option (Except Fault (Nat × Bytes)) := do
  match ← r.payload? b with
  | .error f => return .error f
  | .ok bytes =>
    let source : Source := { bytes, box := b.box, layout := b.layout }
    source.copyOverlap? b.type target box

/-- `copyBlocks`, unless a slice is out of range. -/
def copyBlocks? (r : Reader) (v : Variable) (copied : Nat) (target : Bytes) :
    List Block → Option (Bytes × Except Fault Nat)
  | [] => some (target, .ok copied)
  | b :: rest =>
    if b.type ≠ v.type then
      some (target, .error (.argument (.requestedType v.name b.type.tag v.type.tag)))
    else
      match r.copyBlock? b v.selection target with
      | none => none
      | some (.ok (n, target)) => r.copyBlocks? v (copied + n) target rest
      | some (.error f) => some (target, .error f)

/-- `get`, unless a slice is out of range. -/
def get? (r : Reader) (v : Variable) (target : Bytes) : Option (Bytes × Except Fault Nat) :=
  match r.stepBlocks "get" with
  | .error f => some (target, .error f)
  | .ok blocks =>
    if target.length < v.payloadSize then
      some (target, .error (.argument (.destinationSize v.name target.length v.payloadSize)))
    else
      match blocks.filter (fun b => b.name = v.name) with
      | [] => some (target, .error (.argument (.absentVariable v.name r.currentStep)))
      | found => r.copyBlocks? v 0 target found

/-- `getBlock`, unless a slice is out of range. -/
def getBlock? (r : Reader) (name : String) (index : Nat) (target : Bytes) :
    Option (Except Fault (Nat × Bytes)) :=
  match r.stepBlocks "get_block" with
  | .error f => some (.error f)
  | .ok blocks =>
    match (blocks.filter (fun b => b.name = name))[index]? with
    | none => some (.error (.argument (.absentBlock name index)))
    | some b => r.copyBlock? b b.box target

/-- The result reports the message of a block as gone. -/
def Missing {α : Type} (result : Except Fault α) : Prop :=
  ∃ name step, result = .error (.protocol (.bufferReleased name step))

@[simp] theorem not_missing_ok {α : Type} (a : α) : ¬ Missing (.ok a) := by simp [Missing]

@[simp] theorem missing_error {α : Type} {f : Fault} : Missing (.error f : Except Fault α) ↔
    ∃ name step, f = .protocol (.bufferReleased name step) := by simp [Missing]

theorem not_missing_bind {α β : Type} {x : Except Fault α} {f : α → Except Fault β}
    (hx : ¬ Missing x) (hf : ∀ a, ¬ Missing (f a)) : ¬ Missing (x >>= f) := by
  cases x with
  | error e => simpa using hx
  | ok a => exact hf a

/-! ## Blocks that are held -/

/-- The message of the block is there and has its whole range. -/
def Holds (r : Reader) (b : Block) : Prop :=
  ∃ message, r.archive.buffer? b.buffer = some message ∧ b.position + b.size ≤ message.length

section Held

variable {r : Reader} {v : Variable} {b : Block} {blocks : List Block}

theorem payload?_eq (h : r.Holds b) : r.payload? b = some (r.payload b) := by
  obtain ⟨message, hmessage, hrange⟩ := h
  simp only [payload?, hmessage, Option.all_some, hrange, decide_true, guard_true]
  rfl

theorem payload_not_missing (h : r.Holds b) : ¬ Missing (r.payload b) := by
  obtain ⟨message, hmessage, -⟩ := h
  have hstored : r.archive.stored? b = some (slice message b.position b.size) := by
    rw [Archive.stored?, hmessage, Option.map_some]
  unfold payload
  rw [hstored]
  cases b.compression with
  | none => exact not_missing_ok _
  | some id =>
    refine not_missing_bind ?_ fun o => not_missing_bind ?_ fun bytes => ?_
    · unfold Operators.find
      split <;> simp
    · cases o.invert (slice message b.position b.size) b.decodedSize b.params with
      | error reason => simp [Except.mapError]
      | ok bytes => exact not_missing_ok bytes
    · split <;> simp

theorem copyOverlap_not_missing (s : Source) (t : ElementType) (target : Bytes) (box : Box) :
    ¬ Missing (s.copyOverlap t target box) := by
  unfold Source.copyOverlap
  dsimp only
  repeat' split
  all_goals simp

theorem copyBlock?_eq (h : r.Holds b) (box : Box) (target : Bytes) :
    r.copyBlock? b box target = some (r.copyBlock b box target) := by
  rw [copyBlock?, payload?_eq h, copyBlock]
  cases r.payload b with
  | error f => rfl
  | ok bytes => exact Source.copyOverlap?_eq ⟨bytes, b.box, b.layout⟩ b.type target box

theorem copyBlock_not_missing (h : r.Holds b) (box : Box) (target : Bytes) :
    ¬ Missing (r.copyBlock b box target) :=
  not_missing_bind (payload_not_missing h) fun _ => copyOverlap_not_missing _ _ _ _

theorem copyBlocks?_eq (h : ∀ b ∈ blocks, r.Holds b) (copied : Nat) (target : Bytes) :
    r.copyBlocks? v copied target blocks = some (r.copyBlocks v copied target blocks) := by
  induction blocks generalizing copied target with
  | nil => rfl
  | cons b rest ih =>
    obtain ⟨hb, hrest⟩ := List.forall_mem_cons.mp h
    rw [copyBlocks?, copyBlocks, copyBlock?_eq hb]
    split
    · rfl
    · cases r.copyBlock b v.selection target with
      | error f => rfl
      | ok result => exact ih hrest _ _

theorem copyBlocks_not_missing (h : ∀ b ∈ blocks, r.Holds b) (copied : Nat) (target : Bytes) :
    ¬ Missing (r.copyBlocks v copied target blocks).2 := by
  induction blocks generalizing copied target with
  | nil => exact not_missing_ok copied
  | cons b rest ih =>
    obtain ⟨hb, hrest⟩ := List.forall_mem_cons.mp h
    have hcopy := copyBlock_not_missing hb v.selection target
    rw [copyBlocks]
    split
    · simp
    · cases hresult : r.copyBlock b v.selection target with
      | error f => simpa [hresult] using hcopy
      | ok result => exact ih hrest _ _

end Held

/-! ## What is done with a reader -/

/-- What happens to a reader, and the network that it finds. Beginning a step looks for one,
requests and receives over the links and looks again; access leaves the reader as it is. -/
inductive Act where
  | look (mode : StepMode) (now : Moment) (n : Network)
  | request (link : Nat) (n : Network)
  | receive (link : Nat) (n : Network)
  | endStep (now : Moment) (n : Network)
  | close (n : Network)

/-- The reader after an act. A step is begun only where that is allowed. -/
def perform (r : Reader) : Act → Reader
  | .look mode now n =>
    match r.checkBegin with
    | .ok () => (r.tryBegin mode now n).1
    | .error _ => r
  | .request link n =>
    match r.checkBegin with
    | .ok () => (r.requestLink link n).1
    | .error _ => r
  | .receive link n =>
    match r.checkBegin with
    | .ok () => (r.receiveLink link n).1
    | .error _ => r
  | .endStep now n => (r.endStep now n).1
  | .close n => (r.close n).1

/-- The archive is sound, and it has all blocks of the active step. -/
structure Ready (r : Reader) : Prop where
  sound : r.archive.Sound
  live : r.stage = .active →
    ∃ blocks, r.currentBlocks = some blocks ∧ ∀ b ∈ blocks, r.archive.Live b

theorem checkBegin_eq_ok {r : Reader} : r.checkBegin = .ok () ↔ r.stage = .idle := by
  unfold checkBegin ensureOpen
  cases r.stage <;> simp

theorem Ready.of_ne_active {r : Reader} (hsound : r.archive.Sound) (h : r.stage ≠ .active) :
    r.Ready :=
  ⟨hsound, fun hactive => absurd hactive h⟩

/-! ## Receiving -/

theorem sound_takeIn {a : Archive} (h : a.Sound) (l : Link) (messages : List Bytes) :
    (takeIn a l messages).1.Sound := by
  induction messages generalizing a l with
  | nil => exact h
  | cons message rest ih =>
    have hput := h.put message
    rw [takeIn]
    rcases hresult : a.put message with ⟨a', f | outcome⟩
    · rw [hresult] at hput
      exact hput
    · rw [hresult] at hput
      cases outcome <;> exact ih hput _

theorem sound_receiveFrom {a : Archive} (h : a.Sound) (l : Link) (n : Network) :
    (receiveFrom a l n).1.Sound := by
  unfold receiveFrom
  obtain ⟨messages, gone, l, n⟩ := l.receive n
  have htaken := sound_takeIn h l messages
  dsimp only
  rcases htake : takeIn a l messages with ⟨a', l', f | ⟨⟩⟩
  · rw [htake] at htaken
    exact htaken
  · rw [htake] at htaken
    exact htaken

/-- What comes keeps the archive sound, and does not begin or end a step. -/
structure Receives (r r' : Reader) : Prop where
  sound : r.archive.Sound → r'.archive.Sound
  stage : r'.stage = r.stage

theorem Receives.trans {r r₁ r₂ : Reader} (h : r.Receives r₁) (h' : r₁.Receives r₂) :
    r.Receives r₂ :=
  ⟨fun hsound => h'.sound (h.sound hsound), h'.stage.trans h.stage⟩

theorem receives_receiveLink (r : Reader) (i : Nat) (n : Network) :
    r.Receives (r.receiveLink i n).1 := by
  unfold receiveLink
  split
  · exact ⟨id, rfl⟩
  · exact ⟨fun hsound => sound_receiveFrom hsound _ n, rfl⟩

theorem receives_requestLink (r : Reader) (i : Nat) (n : Network) :
    r.Receives (r.requestLink i n).1 := by
  unfold requestLink
  split
  · exact ⟨id, rfl⟩
  · exact ⟨id, rfl⟩

theorem receives_receiveLinks (r : Reader) (n : Network) (links : List Nat) :
    r.Receives (r.receiveLinks n links).1 := by
  induction links generalizing r n with
  | nil => exact ⟨id, rfl⟩
  | cons i rest ih =>
    have hfirst := receives_receiveLink r i n
    rw [receiveLinks]
    rcases hresult : r.receiveLink i n with ⟨r', n', f | ⟨⟩⟩
    · rw [hresult] at hfirst
      exact hfirst
    · rw [hresult] at hfirst
      exact hfirst.trans (ih r' n')

/-! ## Going to a step -/

theorem mem_candidates_of_choose {r : Reader} {mode : StepMode} {step : UInt64}
    (h : r.choose mode = some step) : step ∈ r.candidates := by
  unfold choose at h
  split at h
  · exact List.mem_of_find?_eq_some h
  · exact List.mem_of_head? (Option.filter_eq_some_iff.mp h).1
  · exact List.mem_reverse.mp (List.mem_of_find?_eq_some h)

theorem mem_liveSteps_of_choose {r : Reader} {mode : StepMode} {step : UInt64}
    (h : r.choose mode = some step) : step ∈ r.archive.liveSteps :=
  (List.mem_filter.mp (mem_candidates_of_choose h)).1

/-- **Going to a step makes the reader ready**: only steps before it are erased. -/
theorem ready_enter {r : Reader} (h : r.archive.Sound) {step : UInt64}
    (hstep : step ∈ r.archive.liveSteps) (now : Moment) :
    ((r.skipTo step).enter step now).Ready := by
  have hkept : step ∉ r.candidates.takeWhile (· < step) := fun hs =>
    UInt64.lt_irrefl step (of_decide_eq_true (List.all_eq_true.mp List.all_takeWhile step hs))
  obtain ⟨blocks, hat⟩ := Option.isSome_iff_exists.mp (Table.isSome_at?_iff.mpr hstep)
  have hentered : (r.skipTo step).archive.blocks? step = some blocks :=
    (Archive.blocks?_foldl_erase.trans (if_neg hkept)).trans hat
  refine ⟨h.foldl_erase _, fun _ => ⟨blocks, hentered, fun b hb => ?_⟩⟩
  exact ⟨(step, blocks), Table.mem_of_at? hentered, hb⟩

theorem ready_tryBegin {r : Reader} (h : r.archive.Sound) (hidle : r.stage = .idle)
    (mode : StepMode) (now : Moment) (n : Network) : (r.tryBegin mode now n).1.Ready := by
  have hreceives := receives_receiveLinks r n (List.range r.links.length)
  unfold tryBegin receive
  rcases hresult : r.receiveLinks n (List.range r.links.length) with ⟨r', n', f | ⟨⟩⟩ <;>
    rw [hresult] at hreceives
  · exact .of_ne_active (hreceives.sound h) (ne_of_eq_of_ne (hreceives.stage.trans hidle) nofun)
  · dsimp only
    cases hchoose : r'.choose mode with
    | some step => exact ready_enter (hreceives.sound h) (mem_liveSteps_of_choose hchoose) now
    | none =>
      exact .of_ne_active (hreceives.sound h)
        (ne_of_eq_of_ne (hreceives.stage.trans hidle) nofun)

/-! ## Runs -/

/-- **An act keeps the reader ready**, whatever comes over the network. -/
theorem Ready.perform {r : Reader} (h : r.Ready) (act : Act) : (r.perform act).Ready := by
  have hpassive {r' : Reader} (hcheck : r.checkBegin = .ok ()) (hreceives : r.Receives r') :
      r'.Ready :=
    .of_ne_active (hreceives.sound h.sound)
      (ne_of_eq_of_ne (hreceives.stage.trans (checkBegin_eq_ok.mp hcheck)) nofun)
  cases act with
  | look mode now n =>
    rw [Reader.perform]
    split
    · next hcheck =>
      exact ready_tryBegin h.sound (checkBegin_eq_ok.mp hcheck) mode now n
    · exact h
  | request link n =>
    rw [Reader.perform]
    split
    · next hcheck => exact hpassive hcheck (receives_requestLink r link n)
    · exact h
  | receive link n =>
    rw [Reader.perform]
    split
    · next hcheck => exact hpassive hcheck (receives_receiveLink r link n)
    · exact h
  | endStep now n =>
    rw [Reader.perform]
    unfold endStep
    split
    · exact h
    · split
      · next step _ _ => exact .of_ne_active (h.sound.erase step) (fun h => (by cases h))
      · exact h
  | close n =>
    rw [Reader.perform]
    unfold close
    split
    · exact h
    · exact .of_ne_active (Archive.sound_of_nil rfl rfl) (fun h => (by cases h))

section Access

variable {r : Reader} {blocks : List Block}

theorem stepBlocks_not_missing (r : Reader) (operation : String) :
    ¬ Missing (r.stepBlocks operation) := by
  refine not_missing_bind ?_ fun _ => ?_
  · unfold ensureOpen
    split <;> simp
  · split <;> simp

theorem Ready.holds (h : r.Ready) (hactive : r.stage = .active)
    (hcurrent : r.currentBlocks = some blocks) : ∀ b ∈ blocks, r.Holds b := by
  obtain ⟨blocks', hcurrent', hlive⟩ := h.live hactive
  cases hcurrent.symm.trans hcurrent'
  intro b hb
  obtain ⟨message, hmessage, -, hrange⟩ := h.sound.inside b (hlive b hb)
  exact ⟨message, hmessage, hrange⟩

theorem Ready.holds_of_stepBlocks (h : r.Ready) {operation : String}
    (hblocks : r.stepBlocks operation = .ok blocks) : ∀ b ∈ blocks, r.Holds b := by
  unfold stepBlocks at hblocks
  obtain ⟨-, -, hblocks⟩ := bind_eq_ok.mp hblocks
  split at hblocks
  · next hcurrent hactive =>
    cases hblocks
    exact h.holds hactive hcurrent
  · cases hblocks

theorem Ready.get (h : r.Ready) (v : Variable) (target : Bytes) :
    r.get? v target = some (r.get v target) ∧ ¬ Missing (r.get v target).2 := by
  unfold get? Reader.get
  cases hblocks : r.stepBlocks "get" with
  | error f =>
    have hmissing := stepBlocks_not_missing r "get"
    rw [hblocks] at hmissing
    exact ⟨rfl, by simpa using hmissing⟩
  | ok blocks =>
    have hholds : ∀ b ∈ blocks.filter (fun b => b.name = v.name), r.Holds b := fun b hb =>
      h.holds_of_stepBlocks hblocks b (List.mem_filter.mp hb).1
    dsimp only
    split
    · exact ⟨rfl, by simp⟩
    · cases hfound : blocks.filter (fun b => b.name = v.name) with
      | nil => exact ⟨rfl, by simp⟩
      | cons b rest =>
        rw [hfound] at hholds
        exact ⟨copyBlocks?_eq hholds 0 target, copyBlocks_not_missing hholds 0 target⟩

theorem Ready.getBlock (h : r.Ready) (name : String) (index : Nat) (target : Bytes) :
    r.getBlock? name index target = some (r.getBlock name index target) ∧
      ¬ Missing (r.getBlock name index target) := by
  unfold getBlock? Reader.getBlock
  cases hblocks : r.stepBlocks "get_block" with
  | error f =>
    have hmissing := stepBlocks_not_missing r "get_block"
    rw [hblocks] at hmissing
    exact ⟨rfl, by simpa using hmissing⟩
  | ok blocks =>
    rw [ok_bind]
    dsimp only
    cases hfound : (blocks.filter (fun b => b.name = name))[index]? with
    | none => exact ⟨rfl, by simp⟩
    | some b =>
      have hb : r.Holds b :=
        h.holds_of_stepBlocks hblocks b (List.mem_filter.mp (List.mem_of_getElem? hfound)).1
      exact ⟨copyBlock?_eq hb b.box target, copyBlock_not_missing hb b.box target⟩

end Access

/-- A reader of one writer, and the network in which it opened. -/
def sampleOpening : Network × Except Fault Reader :=
  Reader.open "s" { address := some "a" } 1 [] ⟨0, 0⟩ {}

/-- What a check says of an opened reader holds of it. -/
theorem exists_opened {opening : Network × Except Fault Reader} {p : Reader → Bool}
    (h : opening.2.toOption.any p = true) : ∃ n r₀, opening = (n, .ok r₀) ∧ p r₀ = true := by
  obtain ⟨r₀, hr₀, hp⟩ := (Option.any_eq_true _ _).mp h
  cases hresult : opening.2 with
  | error f =>
    rw [hresult] at hr₀
    cases hr₀
  | ok r =>
    rw [hresult] at hr₀
    cases hr₀
    exact ⟨opening.1, r₀, Prod.ext rfl hresult, hp⟩

/-- The network in which these messages were published. -/
def samplePublished (messages : List Bytes) : Network :=
  let broadcast := messages.foldl (fun b m => (b.publish "a" m).2) sampleOpening.1.broadcast
  { sampleOpening.1 with broadcast }

/-- A message with two elements of a variable at a step. -/
def messageAt (step : UInt64) : Bytes :=
  let v : Variable := { name := "v", type := .uint8, selection := ⟨[1], [2]⟩ }
  ((({ rank := 0 } : Draft).open.put [] v step [7, 8]).1).finish.1

/-- A message with two elements of a variable at step 5. -/
def sampleMessage : Bytes := messageAt 5

def sampleActs : List Act :=
  [.look .next ⟨0, 0⟩ (samplePublished [[1, 2, 3]]), .request 0 {},
    .look .latest ⟨0, 0⟩ (samplePublished [sampleMessage])]

/-- The second reader comes from the first by acts. -/
def Reaches (r r' : Reader) : Prop := ∃ acts : List Act, acts.foldl perform r = r'

theorem Reaches.refl (r : Reader) : r.Reaches r := ⟨[], rfl⟩

theorem Reaches.trans {r r₁ r₂ : Reader} (h : r.Reaches r₁) (h' : r₁.Reaches r₂) :
    r.Reaches r₂ := by
  obtain ⟨acts, rfl⟩ := h
  obtain ⟨more, rfl⟩ := h'
  exact ⟨acts ++ more, List.foldl_append⟩

theorem Reaches.act (r : Reader) (act : Act) : r.Reaches (r.perform act) := ⟨[act], rfl⟩

theorem Receives.checkBegin {r r' : Reader} (h : r.Receives r') (hcheck : r.checkBegin = .ok ()) :
    r'.checkBegin = .ok () :=
  checkBegin_eq_ok.mpr (h.stage.trans (checkBegin_eq_ok.mp hcheck))

section Looking

variable {r r' : Reader} (hcheck : r.checkBegin = .ok ())

include hcheck

theorem reaches_tryBegin (mode : StepMode) (now : Moment) (n : Network) :
    r.Reaches (r.tryBegin mode now n).1 := by
  have hact := Reaches.act r (.look mode now n)
  rwa [perform, hcheck] at hact

theorem reaches_requestLink (link : Nat) (n : Network) : r.Reaches (r.requestLink link n).1 := by
  have hact := Reaches.act r (.request link n)
  rwa [perform, hcheck] at hact

theorem reaches_receiveLink (link : Nat) (n : Network) : r.Reaches (r.receiveLink link n).1 := by
  have hact := Reaches.act r (.receive link n)
  rwa [perform, hcheck] at hact

/-- A look that finds no step leaves the reader between steps. -/
theorem checkBegin_of_tryBegin {mode : StepMode} {now : Moment} {n n' : Network}
    {result : Except Fault (Option StepStatus)} (h : r.tryBegin mode now n = (r', n', result))
    (hnone : result ≠ .ok (some .ready)) : r'.checkBegin = .ok () := by
  have hreceives := receives_receiveLinks r n (List.range r.links.length)
  unfold tryBegin receive at h
  rcases hresult : r.receiveLinks n (List.range r.links.length) with ⟨r₁, n₁, f | ⟨⟩⟩ <;>
    rw [hresult] at h hreceives
  · cases h
    exact hreceives.checkBegin hcheck
  · dsimp only at h
    split at h
    · cases h
      exact absurd rfl hnone
    · cases h
      exact hreceives.checkBegin hcheck

end Looking

end Reader

namespace Session

variable {s s' : Session} {r r' : Reader}

theorem reaches_requestLinks {links : List Nat} {result : Except Fault Unit}
    (hcheck : r.checkBegin = .ok ()) (h : s.requestLinks r links = (s', r', result)) :
    r.Reaches r' ∧ r'.checkBegin = .ok () := by
  induction links generalizing s r with
  | nil =>
    cases h
    exact ⟨.refl _, hcheck⟩
  | cons i rest ih =>
    simp only [requestLinks] at h
    have hrequested := Reader.reaches_requestLink hcheck i s.network
    replace hcheck := (Reader.receives_requestLink r i s.network).checkBegin hcheck
    generalize (r.requestLink i s.network).1 = r₁ at hcheck hrequested h
    generalize (s.onward (r.requestLink i s.network).2) = s₁ at h
    have hreceived := Reader.reaches_receiveLink hcheck i s₁.network
    replace hcheck := (Reader.receives_receiveLink r₁ i s₁.network).checkBegin hcheck
    split at h
    · next hresult =>
      rw [hresult] at hreceived hcheck
      obtain ⟨hrest, hcheck⟩ := ih hcheck h
      exact ⟨(hrequested.trans hreceived).trans hrest, hcheck⟩
    · next hresult =>
      rw [hresult] at hreceived hcheck
      cases h
      exact ⟨hrequested.trans hreceived, hcheck⟩

theorem reaches_seekStep {mode : StepMode} {now : Moment} {rounds : Nat}
    {result : Except Fault StepStatus} (hcheck : r.checkBegin = .ok ())
    (h : seekStep mode now rounds s r = (s', r', result)) :
    r.Reaches r' ∧ (result ≠ .ok .ready → r'.checkBegin = .ok ()) := by
  induction rounds generalizing s r with
  | zero =>
    have hlooked := Reader.reaches_tryBegin hcheck mode now s.network
    unfold seekStep at h
    split at h <;> next hlook =>
      rw [hlook] at hlooked
      cases h
      exact ⟨hlooked, fun hne =>
        Reader.checkBegin_of_tryBegin hcheck hlook (fun heq => by cases heq <;> exact hne rfl)⟩
  | succ rounds ih =>
    have hlooked := Reader.reaches_tryBegin hcheck mode now s.network
    unfold seekStep at h
    split at h
    · next hlook =>
      rw [hlook] at hlooked
      cases h
      exact ⟨hlooked, fun _ => Reader.checkBegin_of_tryBegin hcheck hlook nofun⟩
    · next hlook =>
      rw [hlook] at hlooked
      cases h
      refine ⟨hlooked, fun hne => Reader.checkBegin_of_tryBegin hcheck hlook fun heq => ?_⟩
      cases heq
      exact hne rfl
    · next r₁ network hlook =>
      rw [hlook] at hlooked
      have hcheck := Reader.checkBegin_of_tryBegin hcheck hlook nofun
      dsimp only at h
      split at h
      · next hasked =>
        obtain ⟨hrequested, hcheck⟩ := reaches_requestLinks hcheck hasked
        cases h
        exact ⟨hlooked.trans hrequested, fun _ => hcheck⟩
      · next hasked =>
        obtain ⟨hrequested, hcheck⟩ := reaches_requestLinks hcheck hasked
        obtain ⟨hrest, hstage⟩ := ih hcheck h
        exact ⟨(hlooked.trans hrequested).trans hrest, hstage⟩

/-- **Beginning a step in a session is a run** of the reader, whatever the others in the session do
in the meantime. -/
theorem beginReading_run (s : Session) (r : Reader) (mode : StepMode) (limit : Duration)
    (now : Moment) : r.Reaches (s.beginReading r mode limit now).2.1 := by
  unfold beginReading
  cases hcheck : r.checkBegin with
  | error f => exact .refl r
  | ok _ =>
    dsimp only
    split
    · exact (reaches_seekStep hcheck rfl).1
    · split
      · next hsought =>
        obtain ⟨hfirst, hstage⟩ := reaches_seekStep hcheck hsought
        exact hfirst.trans (reaches_seekStep (hstage nofun) rfl).1
      · exact (reaches_seekStep hcheck rfl).1

end Session

end Stepcast
