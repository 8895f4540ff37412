import Mathlib.Order.Monotone.Basic
import Stepcast.Proofs.Archive.Operations

/-!
# Messages that leave no trace

A refused message changes nothing in an archive but the next key, which it may use up. An archive
with other keys (`Archive.rename`) goes on as the archive itself does, with other keys, as long as
the keys keep their order and the next ones are counted on one by one. So what comes after a refused
message is as if there had been no such message, with the later keys moved up.

Main statements: `handle_rename`, `run_rename`, `refused_run`.
-/

namespace Stepcast

namespace Archive

/-- The archive with other keys for its messages. -/
def rename (f : Nat → Nat) (a : Archive) : Archive :=
  { a with
    buffers := a.buffers.map (Prod.map f id)
    steps := a.steps.map (Prod.map id (List.map (.rename f)))
    nextKey := f a.nextKey }

/-- The keys keep their order, and from `first` on they are still counted one by one. -/
structure CountsOn (f : Nat → Nat) (first : Nat) : Prop where
  strictMono : StrictMono f
  succ : ∀ key, first ≤ key → f (key + 1) = f key + 1

section Rename

variable {f : Nat → Nat} {a : Archive} {message : Bytes}

theorem addAttributes_rename (f : Nat → Nat) (a : Archive) (attributes : Option Attributes) :
    (a.rename f).addAttributes attributes = (a.addAttributes attributes).rename f := by
  cases attributes with
  | none => rfl
  | some attributes =>
    rw [addAttributes, addAttributes, rename]
    dsimp only
    split <;> rfl

theorem at?_steps_rename (f : Nat → Nat) (a : Archive) (step : UInt64) :
    (a.rename f).steps.at? step = (a.steps.at? step).map (List.map (.rename f)) :=
  Table.at?_prodMap id _ _ _

theorem addBlock_rename (f : Nat → Nat) (a : Archive) (b : Block) :
    (a.rename f).addBlock (b.rename f) = (a.addBlock b).rename f := by
  have hblocks : ((a.rename f).steps.at? b.step).getD [] ++ [b.rename f] =
      ((a.steps.at? b.step).getD [] ++ [b]).map (.rename f) := by
    rw [at?_steps_rename, List.map_append]
    cases a.steps.at? b.step <;> rfl
  have hsteps : (a.rename f).steps.put b.step (((a.rename f).steps.at? b.step).getD [] ++
      [b.rename f]) = ((a.addBlock b).rename f).steps := by
    rw [hblocks]
    exact (Table.map_put Iff.rfl id _ _ _ _).symm
  exact congrArg (fun steps => { (a.addBlock b).rename f with steps }) hsteps

theorem addBlocks_rename (f : Nat → Nat) (a : Archive) (blocks : List Block) :
    (a.rename f).addBlocks (blocks.map (.rename f)) = (a.addBlocks blocks).rename f := by
  induction blocks generalizing a with
  | nil => rfl
  | cons b rest ih =>
    rw [List.map_cons, addBlocks_cons, addBlocks_cons, addBlock_rename, ih]

theorem keep_rename (hf : StrictMono f) (a : Archive) (key : Nat) (message : Bytes) :
    (a.rename f).keep (f key) message = (a.keep key message).rename f := by
  have hbuffers : (a.rename f).buffers.put (f key) message =
      ((a.keep key message).rename f).buffers :=
    (Table.map_put hf.lt_iff_lt (fun h => hf.injective h) id a.buffers key message).symm
  exact congrArg (fun buffers => { a.rename f with buffers }) hbuffers

theorem addContents_rename (hf : StrictMono f) (a : Archive) (key : Nat) (message : Bytes)
    (c : Contents) : (a.rename f).addContents (f key) message (c.under (f key)) =
      Prod.map (rename f) id (a.addContents key message (c.under key)) := by
  unfold addContents
  rw [show (c.under (f key)).attributes = (c.under key).attributes from rfl, addAttributes_rename]
  generalize a.addAttributes (c.under key).attributes = a
  have hblocks : (c.under (f key)).blocks = (c.under key).blocks.map (.rename f) := by
    rw [Contents.under, Contents.under, List.map_map]
    rfl
  have honTime : ((c.under key).blocks.map (.rename f)).filter (fun b => !(a.rename f).isLate b) =
      ((c.under key).blocks.filter (fun b => !a.isLate b)).map (.rename f) := by
    rw [List.filter_map]
    rfl
  dsimp only
  rw [hblocks, honTime, List.isEmpty_map]
  split
  · rfl
  · rw [List.length_map, List.map_map]
    refine Prod.ext ?_ rfl
    exact (congrArg (fun a' : Archive => a'.addBlocks _) (keep_rename hf a key message)).trans
      (addBlocks_rename f (a.keep key message) _)

/-- **Receiving goes on alike** under other keys, if they are counted on from the next one. -/
theorem put_rename (hf : CountsOn f a.nextKey) (message : Bytes) :
    (a.rename f).put message = Prod.map (rename f) id (a.put message) := by
  rw [put_eq, put_eq]
  cases gist message with
  | nothing => rfl
  | ending final => rfl
  | refused fault indexed =>
    have hkey : f a.nextKey + indexed.toNat = f (a.nextKey + indexed.toNat) := by
      cases indexed with
      | false => rfl
      | true => exact (hf.succ _ (Nat.le_refl _)).symm
    rw [absorb, absorb, Prod.map_apply]
    exact congrArg (fun nextKey =>
      (({ a.rename f with nextKey } : Archive), Except.error fault)) hkey
  | data c =>
    have hkey : ({ a.rename f with nextKey := f a.nextKey + 1 } : Archive) =
        ({ a with nextKey := a.nextKey + 1 } : Archive).rename f := by
      rw [← hf.succ _ (Nat.le_refl _)]
      rfl
    have hadded := addContents_rename hf.strictMono { a with nextKey := a.nextKey + 1 } a.nextKey
      message c
    rw [← hkey] at hadded
    simp only [absorb]
    rw [show (a.rename f).nextKey = f a.nextKey from rfl, hadded]
    rfl

theorem any_buffer_rename (hf : StrictMono f) (blocks : List Block) (key : Nat) :
    (blocks.map (Block.rename f)).any (fun b => b.buffer == f key) =
      blocks.any (fun b => b.buffer == key) := by
  rw [List.any_map]
  refine congrArg (List.any blocks) (funext fun b => ?_)
  rw [Function.comp_apply, Bool.eq_iff_iff, beq_iff_eq, beq_iff_eq]
  exact hf.injective.eq_iff

theorem without_rename (f : Nat → Nat) (a : Archive) (step : UInt64) :
    (a.rename f).steps.without step =
      (a.steps.without step).map (Prod.map id (List.map (.rename f))) := List.filter_map

theorem releases_rename (hf : StrictMono f) (a : Archive) (step : UInt64) (key : Nat) :
    (a.rename f).releases step (f key) = a.releases step key := by
  have hblocks : (a.rename f).blocksAt step = (a.blocksAt step).map (.rename f) := by
    rw [blocksAt, at?_steps_rename, blocksAt]
    cases a.steps.at? step <;> rfl
  rw [releases, releases, hblocks, without_rename, any_buffer_rename hf, isReferenced, isReferenced,
    List.any_map]
  refine congrArg (fun p => _ && !List.any (a.steps.without step) p) (funext fun e => ?_)
  exact any_buffer_rename hf e.2 key

/-- Erasing goes on alike under other keys. -/
theorem erase_rename (hf : StrictMono f) (a : Archive) (step : UInt64) :
    (a.rename f).erase step = (a.erase step).rename f := by
  have hbuffers : ((a.rename f).erase step).buffers = ((a.erase step).rename f).buffers := by
    rw [buffers_erase, rename, List.filter_map]
    refine congrArg (List.map _) (List.filter_congr fun e _ => ?_)
    exact congrArg not (releases_rename hf a step e.1)
  have hmin : ((a.rename f).erase step).minStep = ((a.erase step).rename f).minStep := by
    rw [erase, without_rename, List.head?_map]
    cases h : (a.steps.without step).head? <;> simp [rename, erase, h]
  have hall : (a.rename f).erase step = { (a.erase step).rename f with
      buffers := ((a.rename f).erase step).buffers
      steps := (a.rename f).steps.without step
      minStep := ((a.rename f).erase step).minStep } := rfl
  rw [hall, hbuffers, hmin, without_rename]
  rfl

/-- **Every operation goes on alike** under other keys. -/
theorem handle_rename (hf : CountsOn f a.nextKey) (event : Event) :
    (a.rename f).handle event = (a.handle event).rename f := by
  cases event with
  | put message => exact congrArg Prod.fst (put_rename hf message)
  | erase step => exact erase_rename hf.strictMono a step
  | clear => rfl

theorem CountsOn.mono {first first' : Nat} (hf : CountsOn f first) (h : first ≤ first') :
    CountsOn f first' :=
  ⟨hf.strictMono, fun key hkey => hf.succ key (Nat.le_trans h hkey)⟩

theorem nextKey_le_handle (a : Archive) (event : Event) : a.nextKey ≤ (a.handle event).nextKey := by
  cases event with
  | put message =>
    rw [handle, nextKey_put]
    exact Nat.le_add_right _ _
  | erase step => exact Nat.le_refl _
  | clear => exact Nat.le_refl _

theorem CountsOn.run (hf : CountsOn f a.nextKey) (events : List Event) :
    CountsOn f (events.foldl handle a).nextKey := by
  induction events generalizing a with
  | nil => exact hf
  | cons event rest ih => exact ih (hf.mono (nextKey_le_handle a event))

/-- **A run goes on alike** under other keys. -/
theorem run_rename (hf : CountsOn f a.nextKey) (events : List Event) :
    events.foldl handle (a.rename f) = (events.foldl handle a).rename f := by
  induction events generalizing a with
  | nil => rfl
  | cons event rest ih =>
    rw [List.foldl_cons, List.foldl_cons, handle_rename hf]
    -- Keys are only used up, so the new ones are still counted on one by one.
    exact ih (hf.mono (nextKey_le_handle a event))

/-- Keys that keep their names do so in the archive. -/
theorem rename_eq_of_fixed (h : Sound a) (hfixed : ∀ key < a.nextKey, f key = key) :
    a.rename f = { a with nextKey := f a.nextKey } := by
  have hbuffers : a.buffers.map (Prod.map f id) = a.buffers := by
    refine (List.map_congr_left fun e he => ?_).trans (List.map_id _)
    exact Prod.ext (hfixed e.1 (h.fresh e.1 (List.mem_map_of_mem he))) rfl
  have hblocks : ∀ e ∈ a.steps, e.2.map (.rename f) = e.2 := by
    intro e he
    refine (List.map_congr_left fun b hb => ?_).trans (List.map_id _)
    have hkey : b.buffer < a.nextKey :=
      h.fresh _ ((h.kept_iff b.buffer).mpr ⟨b, ⟨e, he, hb⟩, rfl⟩)
    exact congrArg (Block.under · b) (hfixed _ hkey)
  have hsteps : a.steps.map (Prod.map id (List.map (.rename f))) = a.steps := by
    refine (List.map_congr_left fun e he => ?_).trans (List.map_id _)
    exact Prod.ext rfl (hblocks e he)
  rw [rename, hbuffers, hsteps]

/-- The archives answer alike, but for the names of the keys. -/
structure AnswersAs (f : Nat → Nat) (a a' : Archive) : Prop where
  liveSteps : a'.liveSteps = a.liveSteps
  latestStep : a'.latestStep = a.latestStep
  nextStepAfter : ∀ current, a'.nextStepAfter current = a.nextStepAfter current
  rankCount : ∀ step, a'.rankCount step = a.rankCount step
  blocks : ∀ step, a'.blocks? step = (a.blocks? step).map (List.map (.rename f))
  keys : Table.keys a'.buffers = (Table.keys a.buffers).map f
  buffer : ∀ key, a'.buffer? (f key) = a.buffer? key
  stored : ∀ b, a'.stored? (b.rename f) = a.stored? b
  minStep : a'.minStep = a.minStep
  maxStep : a'.maxStep = a.maxStep
  watermark : a'.watermark = a.watermark
  attributes : a'.attributes = a.attributes
  attributesReceived : a'.attributesReceived = a.attributesReceived
  finalStep : a'.finalStep = a.finalStep
  endSignals : a'.endSignals = a.endSignals

theorem answersAs_rename (hf : StrictMono f) (a : Archive) : AnswersAs f a (a.rename f) := by
  have hlive : (a.rename f).liveSteps = a.liveSteps := List.map_map
  have hbuffer : ∀ key, (a.rename f).buffer? (f key) = a.buffer? key := fun key =>
    (Table.at?_prodMap (fun h => hf.injective h) id a.buffers key).trans Option.map_id'
  exact {
    liveSteps := hlive
    latestStep := by rw [latestStep, hlive, latestStep]
    nextStepAfter := fun current => by simp only [nextStepAfter, hlive]
    rankCount := fun step => by
      rw [rankCount, rankCount, blocks?, at?_steps_rename, blocks?]
      cases a.steps.at? step with
      | none => rfl
      | some blocks =>
        rw [Option.map_some, Option.getD_some, Option.getD_some, List.map_map]
        rfl
    blocks := at?_steps_rename f a
    keys := by
      rw [Table.keys, Table.keys, rename, List.map_map, List.map_map]
      rfl
    buffer := hbuffer
    stored := fun b => congrArg (Option.map _) (hbuffer b.buffer)
    minStep := rfl
    maxStep := rfl
    watermark := rfl
    attributes := rfl
    attributesReceived := rfl
    finalStep := rfl
    endSignals := rfl }

/-- What is refused changes nothing but the next key, which it may use up. -/
theorem put_eq_of_error {fault : Fault} (h : (a.put message).2 = .error fault) :
    ∃ used ≤ 1, (a.put message).1 = { a with nextKey := a.nextKey + used } := by
  rw [put_eq] at h ⊢
  cases hgist : gist message with
  | refused f indexed => exact ⟨indexed.toNat, Bool.toNat_le indexed, rfl⟩
  | _ =>
    rw [hgist] at h
    cases h

/-- The keys from `first` on are moved up. -/
def moveUp (first distance key : Nat) : Nat := if key < first then key else key + distance

theorem countsOn_moveUp (first distance : Nat) : CountsOn (moveUp first distance) first where
  strictMono := by
    intro key key' h
    unfold moveUp
    split_ifs <;> omega
  succ := by
    intro key h
    rw [moveUp, moveUp, if_neg (by omega), if_neg (by omega), Nat.add_right_comm]

/-- An archive that used up keys is the same with the later keys moved up. -/
theorem rename_moveUp (h : Sound a) (used : Nat) :
    a.rename (moveUp a.nextKey used) = { a with nextKey := a.nextKey + used } := by
  have hfixed : ∀ key < a.nextKey, moveUp a.nextKey used key = key := fun key hkey => if_pos hkey
  rw [rename_eq_of_fixed h hfixed, moveUp, if_neg (Nat.lt_irrefl _)]

end Rename

/-- **A refused message leaves no trace.** Nothing changes but the next key, which it may use up.
Whatever comes later, the archive answers as if there had been no such message, but for the names
of the keys: those it had stay, and later ones are other keys in the same order. -/
theorem refused_run (events : List Event) (message : Bytes) {fault : Fault}
    (h : ((events.foldl handle {}).put message).2 = .error fault) :
    let a := events.foldl handle {}
    let a' := (a.put message).1
    (∃ used ≤ 1, a' = { a with nextKey := a.nextKey + used }) ∧
    ∃ f : Nat → Nat, StrictMono f ∧ (∀ key < a.nextKey, f key = key) ∧ ∀ later : List Event,
      (∀ next, ((later.foldl handle a').put next).2 = ((later.foldl handle a).put next).2) ∧
      AnswersAs f (later.foldl handle a) (later.foldl handle a') := by
  intro a a'
  have hsound : Sound a := sound_run (sound_of_nil rfl rfl) events
  obtain ⟨used, hused, heq⟩ := put_eq_of_error h
  have hf := countsOn_moveUp a.nextKey used
  have hrename : a' = a.rename (moveUp a.nextKey used) := heq.trans (rename_moveUp hsound used).symm
  refine ⟨⟨used, hused, heq⟩, _, hf.strictMono, fun key hkey => if_pos hkey, fun later => ?_⟩
  rw [hrename, run_rename hf]
  refine ⟨fun next => ?_, answersAs_rename hf.strictMono _⟩
  rw [put_rename (hf.run later)]
  rfl

/-- A message with attributes, a good block and then one with an extent but no start. -/
def brokenMessage : Bytes :=
  let v : Variable := { name := "v", type := .uint8, selection := ⟨[0], [1]⟩ }
  let u : Variable := { name := "u", type := .uint8, selection := ⟨[], [1]⟩ }
  let d := ({ rank := 0 } : Draft).open.attachAttributes [("units", .text "K")]
  ((d.put [] v 7 [1]).1.put [] u 8 [2]).1.finish.1

/-- Messages at two steps, of which the first is erased. -/
def sampleEvents : List Event :=
  [.put (elementMessage 0 5), .put (elementMessage 1 6), .erase 5]

theorem refused_run_sample :
    let a := sampleEvents.foldl handle {}
    let a' := (a.put brokenMessage).1
    (∃ fault, (a.put brokenMessage).2 = .error fault) ∧ a.liveSteps = [6] ∧
      (∃ used ≤ 1, a' = { a with nextKey := a.nextKey + used }) ∧
      ∃ f : Nat → Nat, StrictMono f ∧ f 1 = 1 ∧
        AnswersAs f (a.put (elementMessage 0 7)).1 (a'.put (elementMessage 0 7)).1 := by
  intro a a'
  have hnone : (a.put brokenMessage).2.toOption = none := by decide +kernel
  cases hrefused : (a.put brokenMessage).2 with
  | ok outcome =>
    rw [hrefused] at hnone
    cases hnone
  | error fault =>
    obtain ⟨hsame, f, hf, hfixed, hlater⟩ := refused_run sampleEvents brokenMessage hrefused
    exact ⟨⟨fault, rfl⟩, by decide +kernel, hsame, f, hf, hfixed 1 (by decide +kernel),
      (hlater [.put (elementMessage 0 7)]).2⟩

end Archive
end Stepcast
