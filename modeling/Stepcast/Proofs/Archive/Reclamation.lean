import Stepcast.Proofs.Archive.Receiving
import Stepcast.Proofs.Steps

/-!
# Reclaiming messages

An archive keeps a message exactly as long as a live step has a block in it. The invariant
`Archive.Valid` says so, together with what makes the blocks usable: every live step has blocks,
they record their step and lie in their message, and the bounds span the live steps. Receiving,
erasing and clearing keep it, whatever is received and in whatever order steps are erased.

Main statements: `Sound.put`, `Sound.erase`, `valid_run`.
-/

namespace Stepcast

namespace Archive

/-! ## The invariant -/

/-- The block belongs to a live step. -/
def Live (a : Archive) (b : Block) : Prop := ∃ e ∈ a.steps, b ∈ e.2

/-- Messages are kept just as they are needed, and blocks are where they should be. -/
structure Valid (a : Archive) : Prop where
  kept_iff : ∀ key, key ∈ Table.keys a.buffers ↔ ∃ b, a.Live b ∧ b.buffer = key
  nonempty : ∀ e ∈ a.steps, e.2 ≠ []
  step_eq : ∀ e ∈ a.steps, ∀ b ∈ e.2, b.step = e.1
  inside : ∀ b, a.Live b → ∃ message, a.buffer? b.buffer = some message ∧
    headerSize ≤ b.position ∧ b.position + b.size ≤ message.length
  size_eq : ∀ b, a.Live b → b.compression = none → b.size = b.decodedSize
  min_le : ∀ step ∈ a.liveSteps, ∃ low ∈ a.minStep, low ≤ step
  le_max : ∀ step ∈ a.liveSteps, ∃ high ∈ a.maxStep, step ≤ high

/-- The invariant, with what its proof needs: steps are in order, and the next key is new. -/
structure Sound (a : Archive) : Prop extends Valid a where
  sorted : Table.Sorted a.steps
  fresh : ∀ key ∈ Table.keys a.buffers, key < a.nextKey

/-- The next operation on an archive. -/
inductive Event where
  | put (message : Bytes)
  | erase (step : UInt64)
  | clear

/-- The archive after an operation. -/
def handle (a : Archive) : Event → Archive
  | .put message => (a.put message).1
  | .erase step => a.erase step
  | .clear => a.clear

/-! ## Live blocks -/

theorem live_iff {a : Archive} (h : Table.Sorted a.steps) {b : Block} :
    a.Live b ↔ ∃ step, b ∈ a.blocksAt step := by
  constructor
  · intro hx
    obtain ⟨e, he, hb⟩ := hx
    refine ⟨e.1, ?_⟩
    rw [blocksAt, (Table.mem_iff_at? h).mp he]
    exact hb
  · intro hx
    obtain ⟨step, hb⟩ := hx
    rw [blocksAt] at hb
    cases hat : a.steps.at? step with
    | none => simp [hat] at hb
    | some blocks =>
      rw [hat] at hb
      exact ⟨_, Table.mem_of_at? hat, hb⟩

theorem live_addBlocks {a : Archive} (h : Table.Sorted a.steps) (blocks : List Block) {b : Block} :
    (a.addBlocks blocks).Live b ↔ a.Live b ∨ b ∈ blocks := by
  rw [live_iff (sorted_addBlocks h blocks), live_iff h]
  simp only [blocksAt_addBlocks, List.mem_append, List.mem_filter, decide_eq_true_eq]
  constructor
  · intro hx
    rcases hx with ⟨step, hb | ⟨hb, -⟩⟩
    · exact .inl ⟨step, hb⟩
    · exact .inr hb
  · intro hx
    rcases hx with ⟨step, hb⟩ | hb
    · exact ⟨step, .inl hb⟩
    · exact ⟨b.step, .inr ⟨hb, rfl⟩⟩

theorem Sound.mem_liveSteps_iff {a : Archive} (h : Sound a) {step : UInt64} :
    step ∈ a.liveSteps ↔ a.blocksAt step ≠ [] := by
  rw [liveSteps, ← Table.isSome_at?_iff, blocksAt]
  cases hat : a.steps.at? step with
  | none => simp
  | some blocks => simpa using h.nonempty _ (Table.mem_of_at? hat)

/-! ## Receiving -/

theorem nonempty_addBlocks {a : Archive} (h : ∀ e ∈ a.steps, e.2 ≠ []) (blocks : List Block) :
    ∀ e ∈ (a.addBlocks blocks).steps, e.2 ≠ [] := by
  induction blocks generalizing a with
  | nil => exact h
  | cons b rest ih =>
    refine ih fun e he => ?_
    rcases Table.mem_put he with rfl | he
    · simp
    · exact h e he

theorem step_eq_addBlocks {a : Archive} (h : ∀ e ∈ a.steps, ∀ b ∈ e.2, b.step = e.1)
    (blocks : List Block) : ∀ e ∈ (a.addBlocks blocks).steps, ∀ b ∈ e.2, b.step = e.1 := by
  induction blocks generalizing a with
  | nil => exact h
  | cons b rest ih =>
    refine ih fun e he => ?_
    rcases Table.mem_put he with rfl | he
    · intro b' hb'
      rcases List.mem_append.mp hb' with hb' | hb'
      · cases hat : a.steps.at? b.step with
        | none => simp [hat] at hb'
        | some old =>
          rw [hat] at hb'
          exact h _ (Table.mem_of_at? hat) b' hb'
      · rw [List.mem_singleton.mp hb']
    · exact h e he

/-- The bounds span the live steps. -/
structure Bounded (a : Archive) : Prop where
  min_le : ∀ step ∈ a.liveSteps, ∃ low ∈ a.minStep, low ≤ step
  le_max : ∀ step ∈ a.liveSteps, ∃ high ∈ a.maxStep, step ≤ high

theorem Bounded.addBlock {a : Archive} (h : Bounded a) (b : Block) : Bounded (a.addBlock b) where
  min_le := by
    intro step hstep
    refine ⟨_, rfl, ?_⟩
    rcases Table.mem_keys_put.mp hstep with rfl | hstep
    · cases a.minStep with
      | none => exact Std.le_refl _
      | some low => exact Std.min_le_left
    · obtain ⟨low, hlow, hle⟩ := h.min_le step hstep
      rw [Option.mem_def.mp hlow]
      exact Std.le_trans Std.min_le_right hle
  le_max := by
    intro step hstep
    refine ⟨_, rfl, ?_⟩
    rcases Table.mem_keys_put.mp hstep with rfl | hstep
    · cases a.maxStep with
      | none => exact Std.le_refl _
      | some high => exact Std.left_le_max
    · obtain ⟨high, hhigh, hle⟩ := h.le_max step hstep
      rw [Option.mem_def.mp hhigh]
      exact Std.le_trans hle Std.right_le_max

theorem Bounded.addBlocks {a : Archive} (h : Bounded a) (blocks : List Block) :
    Bounded (a.addBlocks blocks) := by
  induction blocks generalizing a with
  | nil => exact h
  | cons b rest ih => exact ih (h.addBlock b)

theorem Sound.of_sameBlocks {a a' : Archive} (h : Sound a) (hsame : SameBlocks a a')
    (hkey : a.nextKey ≤ a'.nextKey) : Sound a' where
  kept_iff := by
    simpa only [Live, hsame.buffers, hsame.steps] using h.kept_iff
  nonempty := hsame.steps ▸ h.nonempty
  step_eq := hsame.steps ▸ h.step_eq
  inside := by
    simpa only [Live, buffer?, hsame.buffers, hsame.steps] using h.inside
  size_eq := by
    simpa only [Live, hsame.steps] using h.size_eq
  min_le := by
    simpa only [liveSteps, hsame.minStep, hsame.steps] using h.min_le
  le_max := by
    simpa only [liveSteps, hsame.maxStep, hsame.steps] using h.le_max
  sorted := hsame.steps ▸ h.sorted
  fresh := by
    intro key hmem
    rw [hsame.buffers] at hmem
    exact Nat.lt_of_lt_of_le (h.fresh key hmem) hkey

/-- Keeping a message under a new key and adding blocks of it keeps the archive sound. -/
theorem Sound.keep_addBlocks {a a' : Archive} (h : Sound a) (hsame : SameBlocks a a')
    (hkey : a'.nextKey = a.nextKey + 1) {message : Bytes} {blocks : List Block}
    (hblocks : blocks ≠ []) (hread : ∀ b ∈ blocks, ReadFrom message a.nextKey b) :
    Sound ((a'.keep a.nextKey message).addBlocks blocks) := by
  have h' := h.of_sameBlocks hsame (by omega)
  have hlive : ∀ {b}, ((a'.keep a.nextKey message).addBlocks blocks).Live b ↔
      a'.Live b ∨ b ∈ blocks := live_addBlocks (a := a'.keep a.nextKey message) h'.sorted blocks
  have hold : ∀ {b}, a'.Live b → b.buffer ≠ a.nextKey := by
    intro b hb heq
    have hmem : b.buffer ∈ Table.keys a'.buffers := (h'.kept_iff _).mpr ⟨b, hb, rfl⟩
    rw [hsame.buffers] at hmem
    exact absurd (h.fresh _ hmem) (by omega)
  have hbounds := Bounded.addBlocks (a := a'.keep a.nextKey message) ⟨h'.min_le, h'.le_max⟩ blocks
  exact {
    kept_iff := by
      intro key
      rw [buffers_addBlocks, keep, Table.mem_keys_put, h'.kept_iff]
      constructor
      · intro hx
        rcases hx with rfl | ⟨b, hb, hbuffer⟩
        · obtain ⟨b, hb⟩ := List.exists_mem_of_ne_nil blocks hblocks
          exact ⟨b, hlive.mpr (.inr hb), (hread b hb).buffer_eq⟩
        · exact ⟨b, hlive.mpr (.inl hb), hbuffer⟩
      · intro hx
        obtain ⟨b, hb, hbuffer⟩ := hx
        rcases hlive.mp hb with hb | hb
        · exact .inr ⟨b, hb, hbuffer⟩
        · exact .inl (hbuffer ▸ (hread b hb).buffer_eq)
    nonempty := nonempty_addBlocks (a := a'.keep a.nextKey message) h'.nonempty blocks
    step_eq := step_eq_addBlocks (a := a'.keep a.nextKey message) h'.step_eq blocks
    inside := by
      intro b hb
      rw [buffer?, buffers_addBlocks, keep, Table.at?_put]
      rcases hlive.mp hb with hb | hb
      · rw [if_neg (hold hb)]
        exact h'.inside b hb
      · have hb := hread b hb
        rw [if_pos hb.buffer_eq]
        exact ⟨message, rfl, hb.header_le, hb.le_length⟩
    size_eq := by
      intro b hb
      rcases hlive.mp hb with hb | hb
      · exact h'.size_eq b hb
      · exact (hread b hb).size_eq
    min_le := hbounds.min_le
    le_max := hbounds.le_max
    sorted := sorted_addBlocks (a := a'.keep a.nextKey message) h'.sorted blocks
    fresh := by
      intro key hmem
      rw [buffers_addBlocks, keep, Table.mem_keys_put] at hmem
      rw [nextKey_addBlocks]
      rcases hmem with rfl | hmem
      · exact hkey ▸ Nat.lt_succ_self _
      · exact h'.fresh key hmem }

theorem Sound.received {a a' : Archive} (h : Sound a) {message : Bytes}
    (hreceived : Received a message a') : Sound a' := by
  cases hreceived with
  | same hsame hkey => exact h.of_sameBlocks hsame hkey
  | added hsame hkey hblocks hread =>
    exact h.keep_addBlocks hsame hkey hblocks fun b hb => (hread b hb).1

/-- **Receiving keeps the invariant**, whatever is received. -/
theorem Sound.put {a : Archive} (h : Sound a) (message : Bytes) : Sound (a.put message).1 :=
  h.received (received_put a message)

/-! ## Erasing -/

theorem isReferenced_iff {steps : Table UInt64 (List Block)} {key : Nat} :
    isReferenced steps key = true ↔ ∃ e ∈ steps, ∃ b ∈ e.2, b.buffer = key := by
  simp [isReferenced]

/-- Erasing a step leaves the blocks of the other steps. -/
theorem live_erase {a : Archive} (h : Sound a) (step : UInt64) {b : Block} :
    (a.erase step).Live b ↔ a.Live b ∧ b.step ≠ step := by
  constructor
  · intro hx
    obtain ⟨e, he, hb⟩ := hx
    obtain ⟨hmem, hne⟩ := List.mem_filter.mp he
    refine ⟨⟨e, hmem, hb⟩, ?_⟩
    rw [h.step_eq e hmem b hb]
    exact of_decide_eq_true hne
  · intro hx
    obtain ⟨⟨e, he, hb⟩, hne⟩ := hx
    refine ⟨e, List.mem_filter.mpr ⟨he, decide_eq_true ?_⟩, hb⟩
    rw [← h.step_eq e he b hb]
    exact hne

/-- Erasing a step releases a message that the step needed and no other step needs. -/
def releases (a : Archive) (step : UInt64) (key : Nat) : Bool :=
  (a.blocksAt step).any (fun b => b.buffer == key) && !isReferenced (a.steps.without step) key

theorem buffers_erase (a : Archive) (step : UInt64) :
    (a.erase step).buffers = a.buffers.filter (fun e => !a.releases step e.1) := rfl

theorem mem_keys_buffers_erase {a : Archive} (h : Sound a) (step : UInt64) {key : Nat} :
    key ∈ Table.keys (a.erase step).buffers ↔ ∃ b, (a.erase step).Live b ∧ b.buffer = key := by
  have hreferenced : isReferenced (a.steps.without step) key = true ↔
      ∃ b, (a.erase step).Live b ∧ b.buffer = key := by
    rw [isReferenced_iff]
    constructor
    · intro hx
      obtain ⟨e, he, b, hb, hbuffer⟩ := hx
      exact ⟨b, ⟨e, he, hb⟩, hbuffer⟩
    · intro hx
      obtain ⟨b, ⟨e, he, hb⟩, hbuffer⟩ := hx
      exact ⟨e, he, b, hb, hbuffer⟩
  rw [buffers_erase, Table.mem_keys_filter (p := fun key => !a.releases step key), h.kept_iff,
    ← hreferenced]
  constructor
  · intro hx
    obtain ⟨⟨b, hb, hbuffer⟩, hkept⟩ := hx
    by_cases hstep : b.step = step
    · obtain ⟨e, he, hmem⟩ := hb
      have hat : a.blocksAt step = e.2 := by
        rw [blocksAt, ← hstep, h.step_eq e he b hmem, (Table.mem_iff_at? h.sorted).mp he]
        rfl
      have hany : (a.blocksAt step).any (fun b => b.buffer == key) = true :=
        List.any_eq_true.mpr ⟨b, hat ▸ hmem, beq_iff_eq.mpr hbuffer⟩
      simpa [releases, hany] using hkept
    · exact hreferenced.mpr ⟨b, (live_erase h step).mpr ⟨hb, hstep⟩, hbuffer⟩
  · intro href
    obtain ⟨b, hb, hbuffer⟩ := hreferenced.mp href
    exact ⟨⟨b, ((live_erase h step).mp hb).1, hbuffer⟩, by simp [releases, href]⟩

/-- What is still live can be read on. -/
theorem buffer?_erase {a : Archive} (h : Sound a) {step : UInt64} {b : Block}
    (hb : (a.erase step).Live b) : (a.erase step).buffer? b.buffer = a.buffer? b.buffer := by
  have hkey := (mem_keys_buffers_erase h step).mpr ⟨b, hb, rfl⟩
  rw [buffers_erase, Table.mem_keys_filter (p := fun key => !a.releases step key)] at hkey
  rw [buffer?, buffers_erase, Table.at?_filter (fun key => !a.releases step key), if_pos hkey.2]
  rfl

theorem blocksAt_erase_self (a : Archive) (step : UInt64) : (a.erase step).blocksAt step = [] := by
  rw [blocksAt, show (a.erase step).steps = a.steps.without step from rfl, Table.at?_without,
    if_pos rfl]
  rfl

theorem blocksAt_erase_of_ne (a : Archive) {step erased : UInt64} (h : step ≠ erased) :
    (a.erase erased).blocksAt step = a.blocksAt step := by
  rw [blocksAt, show (a.erase erased).steps = a.steps.without erased from rfl, Table.at?_without,
    if_neg h]
  rfl

theorem blocks?_erase (a : Archive) (erased step : UInt64) :
    (a.erase erased).blocks? step = if step = erased then none else a.blocks? step :=
  Table.at?_without a.steps erased step

theorem blocks?_foldl_erase {a : Archive} {erased : List UInt64} {step : UInt64} :
    (erased.foldl Archive.erase a).blocks? step =
      if step ∈ erased then none else a.blocks? step := by
  induction erased generalizing a with
  | nil => simp
  | cons e rest ih =>
    rw [List.foldl_cons, ih, blocks?_erase]
    by_cases he : step = e <;> by_cases hrest : step ∈ rest <;> simp [he, hrest]

/-- **Erasing keeps the invariant**, whichever step is erased. -/
theorem Sound.erase {a : Archive} (h : Sound a) (step : UInt64) : Sound (a.erase step) where
  kept_iff := fun key => mem_keys_buffers_erase h step
  nonempty := fun e he => h.nonempty e (List.mem_filter.mp he).1
  step_eq := fun e he => h.step_eq e (List.mem_filter.mp he).1
  inside := by
    intro b hb
    rw [buffer?_erase h hb]
    exact h.inside b ((live_erase h step).mp hb).1
  size_eq := fun b hb => h.size_eq b ((live_erase h step).mp hb).1
  min_le := by
    intro s hs
    refine ⟨_, rfl, ?_⟩
    have hsorted := Table.sorted_without h.sorted step
    rw [liveSteps, show (a.erase step).steps = a.steps.without step from rfl] at hs
    cases hrest : a.steps.without step with
    | nil => simp [hrest, Table.keys] at hs
    | cons e rest =>
      have hhead : e.1 ≤ s := by
        rw [hrest] at hs hsorted
        rcases List.mem_cons.mp hs with rfl | hs
        · exact Std.le_refl _
        · obtain ⟨e', he', rfl⟩ := List.mem_map.mp hs
          exact Std.le_of_lt ((List.pairwise_cons.mp hsorted).1 e' he')
      exact Std.le_trans Std.min_le_left hhead
  le_max := by
    intro s hs
    obtain ⟨e, he, rfl⟩ := List.mem_map.mp hs
    exact h.le_max e.1 (List.mem_map_of_mem (List.mem_filter.mp he).1)
  sorted := Table.sorted_without h.sorted step
  fresh := by
    intro key hkey
    rw [buffers_erase, Table.mem_keys_filter (p := fun key => !a.releases step key)] at hkey
    exact h.fresh key hkey.1

theorem Sound.foldl_erase {a : Archive} (h : Sound a) (erased : List UInt64) :
    Sound (erased.foldl Archive.erase a) := by
  induction erased generalizing a with
  | nil => exact h
  | cons step rest ih => exact ih (h.erase step)

/-! ## Runs -/

theorem sound_of_nil {a : Archive} (hbuffers : a.buffers = []) (hsteps : a.steps = []) :
    Sound a where
  kept_iff := by simp [hbuffers, hsteps, Live, Table.keys]
  nonempty := by simp [hsteps]
  step_eq := by simp [hsteps]
  inside := by simp [Live, hsteps]
  size_eq := by simp [Live, hsteps]
  min_le := by simp [liveSteps, Table.keys, hsteps]
  le_max := by simp [liveSteps, Table.keys, hsteps]
  sorted := hsteps ▸ List.Pairwise.nil
  fresh := by simp [hbuffers, Table.keys]

theorem Sound.handle {a : Archive} (h : Sound a) (event : Event) : Sound (a.handle event) := by
  cases event with
  | put message => exact h.put message
  | erase step => exact h.erase step
  | clear => exact sound_of_nil rfl rfl

theorem sound_run {a : Archive} (h : Sound a) (events : List Event) :
    Sound (events.foldl handle a) := by
  induction events generalizing a with
  | nil => exact h
  | cons event rest ih => exact ih (h.handle event)

/-- **Every reachable archive is valid**: messages are kept just as long as they are needed. -/
theorem valid_run (events : List Event) : Valid (events.foldl handle {}) :=
  (sound_run (sound_of_nil rfl rfl) events).toValid

end Archive

end Stepcast
