import Mathlib.Logic.Equiv.Basic
import Stepcast.Message.Draft
import Stepcast.Proofs.Archive.Reclamation

/-!
# Messages in another order

What a message is can be told from its bytes alone (`gist`), but for the key under which it is kept:
keys count the messages that have an index. So before anything is erased an archive is what its
messages brought, each under its key (`Gathers`), and in another order they bring the same under
other keys.

Main statements: `put_eq`, `Gathers.put`, `putAll_perm`.
-/

namespace Stepcast

/-- The block in a message that is kept under another key. -/
def Block.under (key : Nat) (b : Block) : Block := { b with buffer := key }

/-- The block after a renaming of the keys. -/
def Block.rename (f : Nat → Nat) (b : Block) : Block := b.under (f b.buffer)

namespace Contents

/-! ## The key of a message -/

/-- The contents of a message that is kept under another key. -/
def under (key : Nat) (c : Contents) : Contents := { c with blocks := c.blocks.map (.under key) }

section Under

variable (key stop : Nat)

theorem readRank_under (step : UInt64) (e : String × Tree) : readRank key stop step e =
    (readRank 0 stop step e).map (List.map (.under key)) := by
  unfold readRank
  split
  · split
    · refine mapM_map (fun t => ?_) _
      cases Record.ofTree step stop t <;> rfl
    · rfl
  · rfl

theorem readStep_under (e : String × Tree) : readStep key stop e =
    (readStep 0 stop e).map (List.map (.under key)) := by
  unfold readStep
  split
  · split
    · dsimp only
      rw [mapM_map (readRank_under key stop _)]
      cases List.mapM (readRank 0 stop _) _ with
      | error f => rfl
      | ok lists => exact congrArg Except.ok List.map_flatten.symm
    · rfl
  · rfl

/-- The key of a message does not matter for what is read. -/
theorem ofIndex_under (entries : Table String Tree) :
    ofIndex key stop entries = (ofIndex 0 stop entries).map (under key) := by
  unfold ofIndex
  dsimp only
  rw [mapM_map (readStep_under key stop)]
  cases List.mapM (readStep 0 stop) _ with
  | error f => rfl
  | ok lists => exact congrArg (Except.ok ∘ Contents.mk _) List.map_flatten.symm

end Under

end Contents

namespace Archive

/-! ## What a message is -/

/-- What a message is. -/
inductive Gist where
  | nothing
  | ending (final : Option UInt64)
  /-- A refused message takes a key if it has an index. -/
  | refused (f : Fault) (indexed : Bool)
  | data (contents : Contents)

/-- What a message is can be told from its bytes; the key of its blocks is left open. -/
def gist (message : Bytes) : Gist :=
  if message.isEmpty then .nothing
  else
    match if message.length < Frame.controlThreshold then Frame.finalStep? message else none with
    | some final => .ending final
    | none =>
      match Frame.index message with
      | .error f => .refused f false
      | .ok (offset, entries) =>
        match Contents.ofIndex 0 offset entries with
        | .error f => .refused f true
        | .ok contents => .data contents

/-- The archive after a message, and what became of that, from what the message is. -/
def absorb (a : Archive) (message : Bytes) : Gist → Archive × Except Fault Outcome
  | .nothing => (a, .ok .empty)
  | .ending final =>
    ({ a with
        endSignals := a.endSignals + 1
        finalStep := maxOption a.finalStep final }, .ok (.endOfStream final))
  | .refused f indexed => ({ a with nextKey := a.nextKey + indexed.toNat }, .error f)
  | .data contents =>
    let (a, outcome) := { a with nextKey := a.nextKey + 1 }.addContents a.nextKey message
      (contents.under a.nextKey)
    (a, .ok outcome)

theorem put_eq (a : Archive) (message : Bytes) :
    a.put message = a.absorb message (gist message) := by
  by_cases hempty : message.isEmpty
  · rw [put, gist, if_pos hempty, if_pos hempty]
    rfl
  · rw [put, gist, if_neg hempty, if_neg hempty]
    cases if message.length < Frame.controlThreshold then Frame.finalStep? message else none with
    | some final => rfl
    | none =>
      unfold putData
      cases Frame.index message with
      | error f => rfl
      | ok found =>
        dsimp only
        rw [Contents.ofIndex_under]
        cases Contents.ofIndex 0 found.1 found.2 <;> rfl

namespace Gist

/-- The message takes a key. -/
def takesKey : Gist → Bool
  | .refused _ indexed => indexed
  | .data _ => true
  | _ => false

/-- The message ends a stream. -/
def isEnding : Gist → Bool
  | .ending _ => true
  | _ => false

/-- The last step that the message names. -/
def final? : Gist → Option UInt64
  | .ending final => final
  | _ => none

/-- The blocks of the message, without its key. -/
def blocks : Gist → List Block
  | .data contents => contents.blocks
  | _ => []

/-- What becomes of the message as long as nothing comes too late. -/
def verdict : Gist → Except Fault Outcome
  | .nothing => .ok .empty
  | .ending final => .ok (.endOfStream final)
  | .refused f _ => .error f
  | .data contents => .ok (.data contents.blocks.length
      (Table.keys (Table.ofEntries (contents.blocks.map (fun b => (b.step, ()))))))

/-- The blocks of the message at a step, under its key. -/
def blocksAt (g : Gist) (key : Nat) (step : UInt64) : List Block :=
  (g.blocks.filter (fun b => b.step = step)).map (.under key)

end Gist

/-! ## What one message adds -/

/-- The bounds are the first and the last live step. -/
structure Tight (a : Archive) : Prop where
  minStep : a.minStep = a.liveSteps.min?
  maxStep : a.maxStep = a.liveSteps.max?

section Tight

variable {a : Archive} {l l' : List UInt64}

theorem min?_congr (h : ∀ s, s ∈ l ↔ s ∈ l') : l.min? = l'.min? := by
  refine Option.ext fun s => ?_
  simp only [List.min?_eq_some_iff, h]

theorem max?_congr (h : ∀ s, s ∈ l ↔ s ∈ l') : l.max? = l'.max? := by
  refine Option.ext fun s => ?_
  simp only [List.max?_eq_some_iff, h]

theorem Tight.addBlocks (h : a.Tight) (blocks : List Block) : (a.addBlocks blocks).Tight := by
  induction blocks generalizing a with
  | nil => exact h
  | cons b rest ih =>
    have hlive : ∀ s, s ∈ b.step :: a.liveSteps ↔ s ∈ (a.addBlock b).liveSteps := fun s => by
      rw [List.mem_cons]
      exact Table.mem_keys_put.symm
    refine ih ⟨?_, ?_⟩
    · rw [← min?_congr hlive, List.min?_cons, ← h.minStep]
      rfl
    · rw [← max?_congr hlive, List.max?_cons, ← h.maxStep]
      rfl

theorem maxOption_max? (l : List UInt64) (s : Option UInt64) :
    maxOption l.max? s = (l ++ s.toList).max? := by
  cases s with
  | none => cases h : l.max? <;> simp [maxOption, h]
  | some s =>
    have hmem : ∀ q, q ∈ l ++ [s] ↔ q ∈ s :: l := fun q => by
      rw [List.mem_append, List.mem_singleton, List.mem_cons, or_comm]
    rw [Option.toList_some, max?_congr hmem, List.max?_cons]
    cases l.max? with
    | none => rfl
    | some m => exact congrArg some (word_max_comm m s)

end Tight

/-- The messages that take a key, with it. -/
def keyed (messages : List Bytes) : List (Bytes × Nat) :=
  (messages.filter (fun m => (gist m).takesKey)).zipIdx

/-- The archive holds what these messages brought, and nothing was erased. -/
structure Gathers (messages : List Bytes) (a : Archive) : Prop where
  sound : a.Sound
  tight : a.Tight
  watermark : a.watermark = none
  nextKey : a.nextKey = (keyed messages).length
  blocksAt : ∀ step, a.blocksAt step =
    (keyed messages).flatMap (fun e => (gist e.1).blocksAt e.2 step)
  buffers : a.buffers = ((keyed messages).filter (fun e => (gist e.1).blocks ≠ [])).map Prod.swap
  finalStep : a.finalStep = (messages.filterMap (fun m => (gist m).final?)).max?
  endSignals : a.endSignals = messages.countP (fun m => (gist m).isEnding)

section Gathers

variable {messages : List Bytes} {a : Archive}

theorem keyed_concat (messages : List Bytes) (message : Bytes) :
    keyed (messages ++ [message]) = keyed messages ++
      if (gist message).takesKey then [(message, (keyed messages).length)] else [] := by
  unfold keyed
  rw [List.filter_append, List.zipIdx_append, List.length_zipIdx, Nat.zero_add]
  cases h : (gist message).takesKey <;> simp [h]

theorem filter_late (h : a.watermark = none) (blocks : List Block) :
    blocks.filter (fun b => !a.isLate b) = blocks := by
  simp [isLate, h]

theorem ends_addBlocks (a : Archive) (blocks : List Block) :
    (a.addBlocks blocks).finalStep = a.finalStep ∧
      (a.addBlocks blocks).endSignals = a.endSignals := by
  induction blocks generalizing a with
  | nil => exact ⟨rfl, rfl⟩
  | cons b rest ih => exact ih (a.addBlock b)

/-- The attributes of a message say nothing about steps and their end. -/
theorem addAttributes_eq (a : Archive) (attributes : Option Attributes) :
    ∃ kept received, a.addAttributes attributes =
      { a with attributes := kept, attributesReceived := received } := by
  unfold addAttributes
  split
  · split <;> exact ⟨_, _, rfl⟩
  · exact ⟨_, _, rfl⟩

theorem addContents_of_watermark (h : a.watermark = none) (key : Nat) (message : Bytes)
    (c : Contents) :
    ∃ kept received, a.addContents key message (c.under key) =
      (({ a with
          attributes := kept
          attributesReceived := received
          buffers := if c.blocks = [] then a.buffers else a.buffers.put key message }).addBlocks
        (c.blocks.map (.under key)), .data c.blocks.length
          (Table.keys (Table.ofEntries (c.blocks.map (fun b => (b.step, ())))))) := by
  obtain ⟨kept, received, hattributes⟩ := addAttributes_eq a (c.under key).attributes
  refine ⟨kept, received, ?_⟩
  have honTime : ∀ blocks : List Block, blocks.filter (fun b =>
      !({ a with attributes := kept, attributesReceived := received } : Archive).isLate b) =
        blocks :=
    filter_late h
  unfold addContents
  rw [hattributes]
  simp only [honTime, Contents.under, List.isEmpty_iff, List.map_eq_nil_iff, List.length_map,
    List.map_map]
  split
  · next hblocks =>
    simp only [hblocks]
    rfl
  · rfl

/-- What a message adds to an archive. -/
structure Adds (g : Gist) (message : Bytes) (a a' : Archive) : Prop where
  tight : a.Tight → a'.Tight
  watermark : a'.watermark = a.watermark
  nextKey : a'.nextKey = a.nextKey + g.takesKey.toNat
  blocksAt : ∀ step, a'.blocksAt step = a.blocksAt step ++ g.blocksAt a.nextKey step
  buffers : a'.buffers = if g.blocks = [] then a.buffers else a.buffers.put a.nextKey message
  finalStep : a'.finalStep = maxOption a.finalStep g.final?
  endSignals : a'.endSignals = a.endSignals + g.isEnding.toNat

theorem maxOption_none (s : Option UInt64) : maxOption s none = s := by cases s <;> rfl

/-- **A message adds what it brings**, whatever came before it. -/
theorem adds_put (h : a.watermark = none) (message : Bytes) :
    Adds (gist message) message a (a.put message).1 ∧
      (a.put message).2 = (gist message).verdict := by
  rw [put_eq]
  cases gist message with
  | nothing => exact ⟨⟨id, rfl, rfl, fun _ => (List.append_nil _).symm, rfl,
      (maxOption_none _).symm, rfl⟩, rfl⟩
  | ending final => exact ⟨⟨fun h => ⟨h.minStep, h.maxStep⟩, rfl, rfl,
      fun _ => (List.append_nil _).symm, rfl, rfl, rfl⟩, rfl⟩
  | refused f indexed => exact ⟨⟨fun h => ⟨h.minStep, h.maxStep⟩, rfl, rfl,
      fun _ => (List.append_nil _).symm, rfl, (maxOption_none _).symm, rfl⟩, rfl⟩
  | data c =>
    obtain ⟨kept, received, heq⟩ := addContents_of_watermark
      (a := { a with nextKey := a.nextKey + 1 }) h a.nextKey message c
    simp only [absorb, heq]
    refine ⟨⟨fun h => ?_, ?_, ?_, fun step => ?_, ?_, ?_, ?_⟩, rfl⟩
    · refine Tight.addBlocks ?_ _
      exact ⟨h.minStep, h.maxStep⟩
    · rw [watermark_addBlocks]
    · rw [nextKey_addBlocks]
      rfl
    · rw [blocksAt_addBlocks, List.filter_map]
      rfl
    · rw [buffers_addBlocks]
      rfl
    · rw [(ends_addBlocks _ _).1]
      exact (maxOption_none _).symm
    · rw [(ends_addBlocks _ _).2]
      rfl

theorem blocks_eq_nil {g : Gist} (h : g.takesKey = false) : g.blocks = [] := by
  cases g with
  | data _ => cases h
  | _ => rfl

theorem Gathers.put (h : Gathers messages a) (message : Bytes) :
    Gathers (messages ++ [message]) (a.put message).1 := by
  obtain ⟨hadds, -⟩ := adds_put h.watermark message
  refine ⟨h.sound.put message, hadds.tight h.tight, hadds.watermark.trans h.watermark, ?_,
    fun step => ?_, ?_, ?_, ?_⟩
  · rw [hadds.nextKey, h.nextKey, keyed_concat, List.length_append]
    cases (gist message).takesKey <;> rfl
  · rw [hadds.blocksAt, h.blocksAt, h.nextKey, keyed_concat, List.flatMap_append]
    cases htakes : (gist message).takesKey with
    | true => simp
    | false => simp [Gist.blocksAt, blocks_eq_nil htakes]
  · have hfresh : ∀ e ∈ a.buffers, e.1 < a.nextKey := fun e he =>
      h.sound.fresh e.1 (List.mem_map_of_mem he)
    rw [hadds.buffers, Table.put_eq_concat hfresh, h.buffers, h.nextKey, keyed_concat,
      List.filter_append, List.map_append]
    cases htakes : (gist message).takesKey with
    | true => by_cases hblocks : (gist message).blocks = [] <;> simp [hblocks]
    | false => simp [blocks_eq_nil htakes]
  · rw [hadds.finalStep, h.finalStep, maxOption_max?, List.filterMap_append]
    cases hfinal : (gist message).final? <;> simp [hfinal]
  · rw [hadds.endSignals, h.endSignals, List.countP_append]
    cases hending : (gist message).isEnding <;> simp [hending]

/-! ## All messages -/

/-- The archive after messages, and what became of each of them. -/
def putAll (a : Archive) : List Bytes → Archive × List (Except Fault Outcome)
  | [] => (a, [])
  | message :: rest =>
    let (a, result) := a.put message
    let (a, results) := a.putAll rest
    (a, result :: results)

theorem gathers_nil : Gathers [] {} where
  sound := sound_of_nil rfl rfl
  tight := ⟨rfl, rfl⟩
  watermark := rfl
  nextKey := rfl
  blocksAt := fun _ => rfl
  buffers := rfl
  finalStep := rfl
  endSignals := rfl

theorem Gathers.putAll (h : Gathers messages a) (more : List Bytes) :
    Gathers (messages ++ more) (a.putAll more).1 ∧
      (a.putAll more).2 = more.map (fun m => (gist m).verdict) := by
  induction more generalizing messages a with
  | nil => exact ⟨by rwa [List.append_nil], rfl⟩
  | cons message rest ih =>
    obtain ⟨hgathers, hresults⟩ := ih (h.put message)
    rw [List.append_assoc] at hgathers
    refine ⟨hgathers, ?_⟩
    show (a.put message).2 :: ((a.put message).1.putAll rest).2 = _
    rw [(adds_put h.watermark message).2, hresults]
    rfl

end Gathers

/-! ## Another order -/

/-- In another order the items have other numbers. -/
theorem exists_renumbering {α : Type} {xs ys : List α} (h : xs.Perm ys) (n : Nat) :
    ∃ f : Equiv.Perm Nat, (∀ k < n, f k = k) ∧
      ((xs.zipIdx n).map (Prod.map id f)).Perm (ys.zipIdx n) := by
  induction h generalizing n with
  | nil => exact ⟨.refl Nat, fun _ _ => rfl, .nil⟩
  | @cons x xs ys _ ih =>
    obtain ⟨f, hfix, hperm⟩ := ih (n + 1)
    refine ⟨f, fun k hk => hfix k (by omega), ?_⟩
    rw [List.zipIdx_cons, List.zipIdx_cons, List.map_cons, Prod.map_apply, hfix n (by omega)]
    exact hperm.cons (x, n)
  | @swap x y xs =>
    refine ⟨Equiv.swap n (n + 1),
      fun k hk => Equiv.swap_apply_of_ne_of_ne (by omega) (by omega), ?_⟩
    have hrest : (xs.zipIdx (n + 1 + 1)).map (Prod.map id (Equiv.swap n (n + 1))) =
        xs.zipIdx (n + 1 + 1) := by
      refine (List.map_congr_left fun e he => ?_).trans (List.map_id _)
      have hle : n + 1 + 1 ≤ e.2 := List.le_snd_of_mem_zipIdx he
      exact Prod.ext rfl (Equiv.swap_apply_of_ne_of_ne (by omega) (by omega))
    simp only [List.zipIdx_cons, List.map_cons, Prod.map_apply, Equiv.swap_apply_left,
      Equiv.swap_apply_right, hrest]
    exact .swap _ _ _
  | trans _ _ ih ih' =>
    obtain ⟨f, hfix, hperm⟩ := ih n
    obtain ⟨g, hfix', hperm'⟩ := ih' n
    refine ⟨f.trans g, fun k hk => by rw [Equiv.trans_apply, hfix k hk, hfix' k hk], ?_⟩
    have hmap := (hperm.map (Prod.map id g)).trans hperm'
    rwa [List.map_map] at hmap

theorem Gist.blocksAt_rename (g : Gist) (f : Nat → Nat) (key : Nat) (step : UInt64) :
    g.blocksAt (f key) step = (g.blocksAt key step).map (.rename f) := by
  rw [Gist.blocksAt, Gist.blocksAt, List.map_map]
  rfl

section Reordering

variable {messages messages' : List Bytes} {a a' : Archive}

/-- In another order the messages bring the same under other keys. -/
theorem Gathers.exists_rename (h : Gathers messages a) (h' : Gathers messages' a')
    (hperm : messages.Perm messages') : ∃ f : Equiv.Perm Nat,
      (∀ step, ((a.blocksAt step).map (.rename f)).Perm (a'.blocksAt step)) ∧
        (a.buffers.map (Prod.map f id)).Perm a'.buffers := by
  obtain ⟨f, -, hkeyed⟩ := exists_renumbering (hperm.filter (fun m => (gist m).takesKey)) 0
  replace hkeyed : ((keyed messages).map (Prod.map id f)).Perm (keyed messages') := hkeyed
  refine ⟨f, fun step => ?_, ?_⟩
  · have hblocks := hkeyed.flatMap_right (fun e => (gist e.1).blocksAt e.2 step)
    rw [← h'.blocksAt, List.flatMap_map] at hblocks
    rw [h.blocksAt, List.map_flatMap]
    refine .trans (.of_eq ?_) hblocks
    exact List.flatMap_congr fun e _ => ((gist e.1).blocksAt_rename f e.2 step).symm
  · have hbuffers := (hkeyed.filter (fun e => (gist e.1).blocks ≠ [])).map Prod.swap
    rw [← h'.buffers, List.filter_map, List.map_map] at hbuffers
    rw [h.buffers, List.map_map]
    exact hbuffers

theorem Gathers.liveSteps_eq (h : Gathers messages a) (h' : Gathers messages' a')
    {f : Nat → Nat}
    (hblocks : ∀ step, ((a.blocksAt step).map (.rename f)).Perm (a'.blocksAt step)) :
    a.liveSteps = a'.liveSteps := by
  refine Table.keys_eq_of_mem_iff h.sound.sorted h'.sound.sorted fun step => ?_
  refine h.sound.mem_liveSteps_iff.trans (Iff.trans ?_ h'.sound.mem_liveSteps_iff.symm)
  rw [Ne, Ne, ← List.length_eq_zero_iff, ← List.length_eq_zero_iff, ← (hblocks step).length_eq,
    List.length_map]

theorem rankCount_eq {f : Nat → Nat} {step : UInt64}
    (hblocks : ((a.blocksAt step).map (.rename f)).Perm (a'.blocksAt step)) :
    a.rankCount step = a'.rankCount step := by
  refine length_eraseDups_eq fun rank => ?_
  have hranks := hblocks.map (fun b : Block => b.rank)
  rw [List.map_map] at hranks
  exact hranks.mem_iff

end Reordering

/-- **The order of messages does not matter** as long as nothing is erased. In another order the
same messages are accepted and refused, with the same outcomes. The steps, their bounds and their
ranks, the number of messages that are kept and what is known of the end are the same, and each step
has the same blocks in another order, in messages that are kept under other keys. -/
theorem putAll_perm {messages messages' : List Bytes} (hperm : messages.Perm messages') :
    let a := (putAll {} messages).1
    let a' := (putAll {} messages').1
    (messages.zip (putAll {} messages).2).Perm (messages'.zip (putAll {} messages').2) ∧
    a.liveSteps = a'.liveSteps ∧ a.minStep = a'.minStep ∧ a.maxStep = a'.maxStep ∧
    (∀ current, a.nextStepAfter current = a'.nextStepAfter current) ∧
    a.latestStep = a'.latestStep ∧ (∀ step, a.rankCount step = a'.rankCount step) ∧
    a.buffers.length = a'.buffers.length ∧ a.finalStep = a'.finalStep ∧
    a.endSignals = a'.endSignals ∧
    ∃ f : Equiv.Perm Nat,
      (∀ step, ((a.blocksAt step).map (.rename f)).Perm (a'.blocksAt step)) ∧
        (a.buffers.map (Prod.map f id)).Perm a'.buffers := by
  intro a a'
  obtain ⟨h, hresults⟩ := gathers_nil.putAll messages
  obtain ⟨h', hresults'⟩ := gathers_nil.putAll messages'
  obtain ⟨f, hblocks, hbuffers⟩ := h.exists_rename h' hperm
  have hlive : a.liveSteps = a'.liveSteps := h.liveSteps_eq h' hblocks
  refine ⟨?_, hlive, ?_, ?_, fun current => ?_, ?_, fun step => rankCount_eq (hblocks step), ?_, ?_,
    ?_, f, hblocks, hbuffers⟩
  · rw [hresults, hresults', ← List.map_prod_left_eq_zip, ← List.map_prod_left_eq_zip]
    exact hperm.map _
  · rw [h.tight.minStep, h'.tight.minStep, hlive]
  · rw [h.tight.maxStep, h'.tight.maxStep, hlive]
  · cases current <;> simp only [nextStepAfter, hlive]
  · rw [latestStep, latestStep, hlive]
  · simpa using hbuffers.length_eq
  · rw [h.finalStep, h'.finalStep]
    exact max?_congr fun s => (hperm.filterMap _).mem_iff
  · rw [h.endSignals, h'.endSignals]
    exact hperm.countP_eq _

/-- A message of a rank with one element at a step. -/
def elementMessage (rank : UInt32) (step : UInt64) : Bytes :=
  let v : Variable := { name := "v", type := .uint8, selection := ⟨[0], [1]⟩ }
  ((({ rank } : Draft).open.put [] v step [7]).1).finish.1

/-- Messages of two ranks, the end of one stream and what is no message. -/
def sampleArrivals : List Bytes :=
  [elementMessage 1 5, [1, 2, 3], Frame.endRecord (some 5), elementMessage 0 5, elementMessage 0 3]

theorem putAll_perm_sample :
    let a := (putAll {} sampleArrivals.reverse).1
    sampleArrivals.Perm sampleArrivals.reverse ∧ a.liveSteps = [3, 5] ∧ a.minStep = some 3 ∧
      a.rankCount 5 = 2 ∧ a.buffers.length = 3 ∧ a.finalStep = some 5 ∧ a.endSignals = 1 := by
  have hperm : sampleArrivals.Perm sampleArrivals.reverse := (List.reverse_perm _).symm
  obtain ⟨-, hlive, hmin, -, -, -, hranks, hbuffers, hfinal, hends, -⟩ := putAll_perm hperm
  have hforward : let a := (putAll {} sampleArrivals).1
      a.liveSteps = [3, 5] ∧ a.minStep = some 3 ∧ a.rankCount 5 = 2 ∧ a.buffers.length = 3 ∧
        a.finalStep = some 5 ∧ a.endSignals = 1 := by
    decide +kernel
  simp only [hlive, hmin, hranks, hbuffers, hfinal, hends] at hforward
  exact ⟨hperm, hforward⟩

end Archive

end Stepcast
