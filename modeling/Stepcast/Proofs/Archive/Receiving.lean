import Stepcast.Archive
import Stepcast.Proofs.Outcomes
import Stepcast.Proofs.Tables
import Stepcast.Proofs.Wire.Records

/-!
# What receiving a message does

A message either leaves the blocks of the archive as they are, or it is kept under a new key and
its blocks that are not late are added, each at the end of its step. Blocks that are read from a
message lie in it.

Main statements: `at?_steps_addBlocks`, `received_put`.
-/

namespace Stepcast

namespace Archive

/-! ## Adding blocks -/

/-- The archive with more blocks. -/
def addBlocks (a : Archive) (blocks : List Block) : Archive := blocks.foldl addBlock a

theorem addBlocks_cons (a : Archive) (b : Block) (rest : List Block) :
    a.addBlocks (b :: rest) = (a.addBlock b).addBlocks rest := rfl

section Frame

variable (a : Archive) (blocks : List Block)

@[simp] theorem buffers_addBlocks : (a.addBlocks blocks).buffers = a.buffers := by
  induction blocks generalizing a with
  | nil => rfl
  | cons b rest ih => exact ih (a.addBlock b)

@[simp] theorem watermark_addBlocks : (a.addBlocks blocks).watermark = a.watermark := by
  induction blocks generalizing a with
  | nil => rfl
  | cons b rest ih => exact ih (a.addBlock b)

@[simp] theorem nextKey_addBlocks : (a.addBlocks blocks).nextKey = a.nextKey := by
  induction blocks generalizing a with
  | nil => rfl
  | cons b rest ih => exact ih (a.addBlock b)

end Frame

/-- The blocks of a step, in the order of their arrival; none when the step is not live. -/
def blocksAt (a : Archive) (step : UInt64) : List Block := (a.steps.at? step).getD []

/-- Each block goes to the end of its step. -/
theorem at?_steps_addBlocks (a : Archive) (blocks : List Block) (step : UInt64) :
    (a.addBlocks blocks).steps.at? step = if blocks.any (fun b => b.step = step) then
      some (a.blocksAt step ++ blocks.filter (fun b => b.step = step))
    else a.steps.at? step := by
  induction blocks generalizing a with
  | nil => rfl
  | cons b rest ih =>
    rw [addBlocks_cons, ih, blocksAt, addBlock, Table.at?_put]
    by_cases hb : b.step = step
    · rw [if_pos hb.symm, ← hb]
      by_cases hrest : rest.any (fun b' => b'.step = b.step)
      · simp [hrest, blocksAt]
      · have hnone : rest.filter (fun b' => b'.step = b.step) = [] := by
          simpa [List.filter_eq_nil_iff] using hrest
        simp [hrest, hnone, blocksAt]
    · simp [hb, Ne.symm hb, blocksAt]

theorem blocksAt_addBlocks (a : Archive) (blocks : List Block) (step : UInt64) :
    (a.addBlocks blocks).blocksAt step =
      a.blocksAt step ++ blocks.filter (fun b => b.step = step) := by
  rw [blocksAt, at?_steps_addBlocks]
  split
  · rfl
  · rename_i hany
    have hnone : blocks.filter (fun b => b.step = step) = [] := by
      simpa [List.filter_eq_nil_iff] using hany
    rw [hnone, List.append_nil]
    rfl

theorem sorted_addBlocks {a : Archive} (h : Table.Sorted a.steps) (blocks : List Block) :
    Table.Sorted (a.addBlocks blocks).steps := by
  induction blocks generalizing a with
  | nil => exact h
  | cons b rest ih => exact ih (Table.Sorted.put h b.step _)

/-! ## Counting ranks -/

theorem nodup_eraseDups {α : Type} [DecidableEq α] : ∀ xs : List α, xs.eraseDups.Nodup
  | [] => List.nodup_nil
  | x :: xs => by
    rw [List.eraseDups_cons]
    refine List.nodup_cons.mpr ⟨?_, nodup_eraseDups _⟩
    simp [List.mem_eraseDups]
termination_by xs => xs.length
decreasing_by exact Nat.lt_succ_of_le (List.length_filter_le _ xs)

/-- How many ranks there are is a question of which. -/
theorem length_eraseDups_eq {α : Type} [DecidableEq α] {xs ys : List α}
    (h : ∀ x, x ∈ xs ↔ x ∈ ys) : xs.eraseDups.length = ys.eraseDups.length := by
  refine ((List.perm_ext_iff_of_nodup (nodup_eraseDups xs) (nodup_eraseDups ys)).mpr ?_).length_eq
  intro x
  rw [List.mem_eraseDups, List.mem_eraseDups, h]

/-! ## Reading a message -/

/-- The block was read from a message that is kept under `key`, and lies in it. -/
structure ReadFrom (message : Bytes) (key : Nat) (b : Block) : Prop where
  buffer_eq : b.buffer = key
  header_le : headerSize ≤ b.position
  le_length : b.position + b.size ≤ message.length
  size_eq : b.compression = none → b.size = b.decodedSize

theorem check_of_ofTree {step : UInt64} {stop : Nat} {t : Tree} {r : Record}
    (h : Record.ofTree step stop t = .ok r) : r.check step stop = .ok () := by
  rw [Record.ofTree] at h
  obtain ⟨name, -, h⟩ := bind_eq_ok.mp h
  obtain ⟨type, -, h⟩ := bind_eq_ok.mp h
  obtain ⟨box, -, h⟩ := bind_eq_ok.mp h
  obtain ⟨shape, -, h⟩ := bind_eq_ok.mp h
  obtain ⟨size, -, h⟩ := bind_eq_ok.mp h
  obtain ⟨position, -, h⟩ := bind_eq_ok.mp h
  obtain ⟨_, hcheck, h⟩ := bind_eq_ok.mp h
  cases h
  exact hcheck

theorem readFrom_of_ofTree {message : Bytes} {key : Nat} {step : UInt64} {rank : UInt32}
    {stop : Nat} (hstop : stop ≤ message.length) {t : Tree} {r : Record}
    (h : Record.ofTree step stop t = .ok r) :
    ReadFrom message key { r with step, rank, buffer := key } := by
  obtain ⟨hheader, hend, hsize⟩ := Record.check_eq_ok_iff.mp (check_of_ofTree h)
  exact ⟨rfl, hheader, Nat.le_trans hend hstop, hsize⟩

theorem readFrom_of_readRank {message : Bytes} {key : Nat} {step : UInt64} {stop : Nat}
    (hstop : stop ≤ message.length) {e : String × Tree} {blocks : List Block}
    (h : Contents.readRank key stop step e = .ok blocks) {b : Block} (hb : b ∈ blocks) :
    ReadFrom message key b := by
  rw [Contents.readRank] at h
  split at h
  · split at h
    · obtain ⟨t, -, ht⟩ := exists_mem_of_forall₂ (mapM_eq_ok.mp h) hb
      obtain ⟨r, hr, hblock⟩ := bind_eq_ok.mp ht
      cases hblock
      exact readFrom_of_ofTree hstop hr
    · cases h
  · cases h

theorem readFrom_of_readStep {message : Bytes} {key stop : Nat} (hstop : stop ≤ message.length)
    {e : String × Tree} {blocks : List Block} (h : Contents.readStep key stop e = .ok blocks)
    {b : Block} (hb : b ∈ blocks) : ReadFrom message key b := by
  rw [Contents.readStep] at h
  split at h
  · split at h
    · obtain ⟨lists, hlists, hflat⟩ := bind_eq_ok.mp h
      cases hflat
      obtain ⟨list, hlist, hmem⟩ := List.mem_flatten.mp hb
      obtain ⟨entry, -, hentry⟩ := exists_mem_of_forall₂ (mapM_eq_ok.mp hlists) hlist
      exact readFrom_of_readRank hstop hentry hmem
    · cases h
  · cases h

theorem readFrom_of_ofIndex {message : Bytes} {key stop : Nat} (hstop : stop ≤ message.length)
    {entries : Table String Tree} {contents : Contents}
    (h : Contents.ofIndex key stop entries = .ok contents) {b : Block}
    (hb : b ∈ contents.blocks) : ReadFrom message key b := by
  rw [Contents.ofIndex] at h
  obtain ⟨lists, hlists, hcontents⟩ := bind_eq_ok.mp h
  cases hcontents
  obtain ⟨list, hlist, hmem⟩ := List.mem_flatten.mp hb
  obtain ⟨entry, -, hentry⟩ := exists_mem_of_forall₂ (mapM_eq_ok.mp hlists) hlist
  exact readFrom_of_readStep hstop hentry hmem

theorem offset_le_length {message : Bytes} {offset : Nat} {entries : Table String Tree}
    (h : Frame.index message = .ok (offset, entries)) : offset ≤ message.length := by
  rw [Frame.index] at h
  obtain ⟨⟨offset', size⟩, hheader, h⟩ := bind_eq_ok.mp h
  obtain ⟨t, -, h⟩ := bind_eq_ok.mp h
  have heq : offset' = offset := by
    split at h
    · cases h
      rfl
    · cases h
  rw [Frame.header] at hheader
  split at hheader
  · cases hheader
  · simp only at hheader
    split at hheader
    · cases hheader
    · rename_i hbounds
      cases hheader
      simp only [Bool.or_eq_true, decide_eq_true_eq, not_or, Nat.not_lt] at hbounds
      omega

/-! ## Receiving a message -/

/-- The archives hold the same blocks and messages. -/
structure SameBlocks (a a' : Archive) : Prop where
  buffers : a'.buffers = a.buffers
  steps : a'.steps = a.steps
  minStep : a'.minStep = a.minStep
  maxStep : a'.maxStep = a.maxStep
  watermark : a'.watermark = a.watermark

theorem SameBlocks.refl (a : Archive) : SameBlocks a a := ⟨rfl, rfl, rfl, rfl, rfl⟩

theorem SameBlocks.addAttributes {a a' : Archive} (h : SameBlocks a a')
    (attributes : Option Attributes) : SameBlocks a (a'.addAttributes attributes) := by
  unfold Archive.addAttributes
  split
  · split
    · exact h
    · exact ⟨h.buffers, h.steps, h.minStep, h.maxStep, h.watermark⟩
  · exact h

theorem nextKey_addAttributes (a : Archive) (attributes : Option Attributes) :
    (a.addAttributes attributes).nextKey = a.nextKey := by
  unfold addAttributes
  split
  · split <;> rfl
  · rfl

/-- The archive that keeps a message under a key. -/
def keep (a : Archive) (key : Nat) (message : Bytes) : Archive :=
  { a with buffers := a.buffers.put key message }

theorem isLate_addAttributes (a : Archive) (attributes : Option Attributes) (b : Block) :
    (a.addAttributes attributes).isLate b = a.isLate b := by
  rw [isLate, ((SameBlocks.refl a).addAttributes attributes).watermark]
  rfl

/-- The message is kept if not all of its blocks come too late. -/
theorem addContents_eq (a : Archive) (key : Nat) (message : Bytes) (contents : Contents) :
    (a.addContents key message contents).1 =
      if contents.blocks.filter (fun b => !a.isLate b) = [] then
        a.addAttributes contents.attributes
      else ((a.addAttributes contents.attributes).keep key message).addBlocks
        (contents.blocks.filter (fun b => !a.isLate b)) := by
  unfold addContents
  simp only [isLate_addAttributes, List.isEmpty_iff]
  split <;> rfl

/-- What receiving a message can do: it keeps the blocks as they are, or it adds blocks of the
message under a new key. -/
inductive Received (a : Archive) (message : Bytes) : Archive → Prop
  | same {a' : Archive} : SameBlocks a a' → a.nextKey ≤ a'.nextKey → Received a message a'
  | added {a' : Archive} {blocks : List Block} : SameBlocks a a' → a'.nextKey = a.nextKey + 1 →
      blocks ≠ [] → (∀ b ∈ blocks, ReadFrom message a.nextKey b ∧ a.isLate b = false) →
      Received a message ((a'.keep a.nextKey message).addBlocks blocks)

theorem received_putData (a : Archive) (message : Bytes) :
    Received a message (a.putData message).1 := by
  have hused : SameBlocks a { a with nextKey := a.nextKey + 1 } := ⟨rfl, rfl, rfl, rfl, rfl⟩
  unfold putData
  split
  · exact .same (.refl a) (Nat.le_refl _)
  · rename_i offset entries hindex
    simp only
    split
    · exact .same hused (Nat.le_succ _)
    · rename_i contents hcontents
      have hsame := hused.addAttributes contents.attributes
      have hkey := nextKey_addAttributes { a with nextKey := a.nextKey + 1 } contents.attributes
      simp only [addContents_eq]
      split
      · exact .same hsame (hkey ▸ Nat.le_succ _)
      · rename_i hblocks
        refine .added hsame hkey hblocks fun b hb => ?_
        obtain ⟨hmem, hlate⟩ := List.mem_filter.mp hb
        exact ⟨readFrom_of_ofIndex (offset_le_length hindex) hcontents hmem,
          (Bool.not_eq_true' _).mp hlate⟩

/-- **Receiving a message** does nothing else. -/
theorem received_put (a : Archive) (message : Bytes) : Received a message (a.put message).1 := by
  by_cases hempty : message.isEmpty
  · rw [put, if_pos hempty]
    exact .same (.refl a) (Nat.le_refl _)
  rw [put, if_neg hempty]
  cases (if message.length < Frame.controlThreshold then Frame.finalStep? message else none) with
  | some final => exact .same ⟨rfl, rfl, rfl, rfl, rfl⟩ (Nat.le_refl _)
  | none => exact received_putData a message

end Archive

end Stepcast
