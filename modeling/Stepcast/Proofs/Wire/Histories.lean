import Stepcast.Proofs.Wire.Batches
import Stepcast.Proofs.Wire.Sealing

/-!
# The history of a draft

A draft is opened, filled and finished again and again, and some of the puts fail. A history is a
draft with an account of what happened to it: which calls succeeded since a message was last opened
or finished, and which messages were finished. Opening on request starts a new account; opening for
a put does not, so the calls made before it are kept apart.

The blocks of an open message lie in the order of their puts, one directly behind the other. They
are told by a log, the records in this order, and the records of a step are those of the log in the
same order (`Laid`). Every act keeps this, and what a draft records of its calls (`Sound`).

Main statements: `sound_act`, `sound_run`, `packs_finish`.
-/

namespace Stepcast

namespace Draft

/-! ## Acts -/

/-- What can be done with a draft. -/
inductive Act where
  | «open»
  | put (v : Variable) (step : UInt64) (payload : Bytes)
  | putValues (v : Variable) (step : UInt64) (type : ElementType) (values : List Scalar)
  | attach (attributes : Attributes)
  | stamp (step : UInt64) (now : Int64)
  | finish

/-- The act puts a block, and the put fails. -/
inductive Fails (operators : Operators) (d : Draft) : Act → Prop
  | put {v : Variable} {step : UInt64} {payload : Bytes} {f : Fault} :
      (d.put operators v step payload).2 = .error f → Fails operators d (.put v step payload)
  | putValues {v : Variable} {step : UInt64} {type : ElementType} {values : List Scalar}
      {f : Fault} : (d.putValues operators v step type values).2 = .error f →
      Fails operators d (.putValues v step type values)

/-- A draft with an account of what happened to it. -/
structure History where
  draft : Draft
  /-- The calls that succeeded since the last message was opened or finished on request, up to the
  put for which the message was opened. -/
  early : List Call := []
  /-- The calls that succeeded since then while the message was open. -/
  calls : List Call := []
  /-- The finished messages. -/
  messages : List Bytes := []

namespace History

/-- A call that succeeded and left the draft `d`. -/
def take (h : History) (d : Draft) (c : Call) : History :=
  if d.payload.isSome then { h with draft := d, calls := h.calls ++ [c] }
  else { h with draft := d, early := h.early ++ [c] }

/-- A put that may have failed: then it is no call, whatever it did to the draft. -/
def settle (h : History) (c : Call) : Draft × Except Fault Unit → History
  | (d, .ok ()) => h.take d c
  | (d, .error _) => { h with draft := d }

/-- The history after one more act. -/
def act (operators : Operators) (h : History) : Act → History
  | .open => { h with draft := h.draft.open, early := [], calls := [] }
  | .put v step payload =>
    h.settle (.put v step payload) (h.draft.put operators v step payload)
  | .putValues v step type values =>
    h.settle (.put v step (Scalar.store type values))
      (h.draft.putValues operators v step type values)
  | .attach attributes => h.take (h.draft.attachAttributes attributes) (.attach attributes)
  | .stamp step now => h.take (h.draft.attachTimestamp step now) (.stamp step now)
  | .finish => { draft := h.draft.finish.2, messages := h.messages ++ [h.draft.finish.1] }

/-- The history of a new draft after some acts. -/
def run (operators : Operators) (rank : UInt32) (acts : List Act) : History :=
  acts.foldl (act operators) { draft := { rank } }

end History

/-! ## One block behind the other -/

/-- Ranges, each a position and a size, stand one directly behind the other from `start` on, and the
last ends at `stop`. -/
def Tiles : (start : Nat) → List (Nat × Nat) → (stop : Nat) → Prop
  | start, [], stop => start = stop
  | start, (position, size) :: rest, stop => position = start ∧ Tiles (start + size) rest stop

theorem Tiles.stop_eq {start stop : Nat} {ranges : List (Nat × Nat)} (h : Tiles start ranges stop) :
    stop = start + (ranges.map (·.2)).sum := by
  induction ranges generalizing start with
  | nil => exact (Eq.symm h : stop = start)
  | cons r rest ih => rw [ih h.2, List.map_cons, List.sum_cons, Nat.add_assoc]

theorem Tiles.concat {start stop : Nat} {ranges : List (Nat × Nat)} (h : Tiles start ranges stop)
    (size : Nat) : Tiles start (ranges ++ [(stop, size)]) (stop + size) := by
  induction ranges generalizing start with
  | nil =>
    obtain rfl : start = stop := h
    exact ⟨rfl, rfl⟩
  | cons r rest ih => exact ⟨h.1, ih h.2⟩

/-! ## The log of an open message -/

/-- The entry of a log tells of a block that was written, and the bytes at its place in the payload
are the block in its stored form. -/
structure Lays (operators : Operators) (payload : Bytes) (x : Written) (e : UInt64 × Record) :
    Prop where
  step_eq : e.1 = x.step
  record_eq : e.2 = { recordOf x.v e.2.size e.2.position with timestamp := e.2.timestamp }
  header_le : headerSize ≤ e.2.position
  le_end : e.2.position + e.2.size ≤ headerSize + payload.length
  stored : operators.store x.v x.payload =
    .ok (slice payload (e.2.position - headerSize) e.2.size)

/-- The records of a step in a log, in order. -/
def logAt (step : UInt64) (log : List (UInt64 × Record)) : List Record :=
  (log.filter (fun e => e.1 = step)).map (·.2)

/-- The place of each block in a log: its position in the message and its stored size. -/
def ranges (log : List (UInt64 × Record)) : List (Nat × Nat) :=
  log.map (fun e => (e.2.position, e.2.size))

/-- The log tells of the blocks that the calls put, in the order of the puts, and the draft records
them at their steps. Their bytes fill the payload without a gap. -/
structure Laid (operators : Operators) (cs : List Call) (d : Draft)
    (log : List (UInt64 × Record)) : Prop where
  lays : List.Forall₂ (Lays operators (d.payload.getD [])) (written cs) log
  records : ∀ step, d.recordsAt step = logAt step log
  tiles : Tiles headerSize (ranges log) (headerSize + (d.payload.getD []).length)

section Laid

variable {operators : Operators} {payload : Bytes} {x : Written} {e : UInt64 × Record}
  {cs : List Call} {d d' : Draft} {log : List (UInt64 × Record)}

theorem Lays.append (h : Lays operators payload x e) (more : Bytes) :
    Lays operators (payload ++ more) x e where
  step_eq := h.step_eq
  record_eq := h.record_eq
  header_le := h.header_le
  le_end := by
    have := h.le_end
    rw [List.length_append]
    omega
  stored := by
    have hheader := h.header_le
    have hend := h.le_end
    rw [slice_append_left more (by omega)]
    exact h.stored

/-- A stamp on a step, as the entries of a log see it. -/
def stampEntry (step : UInt64) (now : Int64) (e : UInt64 × Record) : UInt64 × Record :=
  if e.1 = step then (e.1, { e.2 with timestamp := some now }) else e

theorem Lays.stampEntry (h : Lays operators payload x e) (step : UInt64) (now : Int64) :
    Lays operators payload x (stampEntry step now e) := by
  unfold Draft.stampEntry
  split
  · exact {
      step_eq := h.step_eq
      record_eq := by
        have heq := congrArg (fun r : Record => { r with timestamp := some now }) h.record_eq
        exact heq
      header_le := h.header_le
      le_end := h.le_end
      stored := h.stored }
  · exact h

theorem logAt_concat (step : UInt64) (log : List (UInt64 × Record)) (e : UInt64 × Record) :
    logAt step (log ++ [e]) = if e.1 = step then logAt step log ++ [e.2] else logAt step log := by
  by_cases he : e.1 = step <;> simp [logAt, he]

theorem logAt_stampEntry (s step : UInt64) (now : Int64) (log : List (UInt64 × Record)) :
    logAt s (log.map (stampEntry step now)) =
      if s = step then (logAt s log).map ({ · with timestamp := some now }) else logAt s log := by
  induction log using List.reverseRecOn with
  | nil => simp [logAt]
  | append_singleton rest e ih =>
    have hstep : (stampEntry step now e).1 = e.1 := by
      unfold stampEntry
      split <;> rfl
    rw [List.map_append, List.map_singleton, logAt_concat, logAt_concat, ih, hstep]
    by_cases he : e.1 = s
    · by_cases hs : s = step
      · simp [he, hs, stampEntry]
      · simp [he, hs, stampEntry]
    · simp [he]

theorem ranges_stampEntry (step : UInt64) (now : Int64) (log : List (UInt64 × Record)) :
    ranges (log.map (stampEntry step now)) = ranges log := by
  rw [ranges, List.map_map]
  refine List.map_congr_left fun e _ => ?_
  rw [Function.comp_apply]
  unfold stampEntry
  split <;> rfl

theorem laid_open (operators : Operators) (d : Draft) : Laid operators [] d.open [] where
  lays := .nil
  records := fun _ => rfl
  tiles := rfl

theorem Laid.append (h : Laid operators cs d log) {v : Variable} {step : UInt64}
    {payload stored : Bytes} (hstored : operators.store v payload = .ok stored) :
    Laid operators (cs ++ [.put v step payload]) (d.append v step stored)
      (log ++ [(step, recordOf v stored.length (headerSize + (d.payload.getD []).length))]) where
  lays := by
    rw [written_append]
    refine List.rel_append (h.lays.imp fun _ _ hx => hx.append stored) (.cons ?_ .nil)
    exact {
      step_eq := rfl
      record_eq := rfl
      header_le := Nat.le_add_right _ _
      le_end := by
        show headerSize + (d.payload.getD []).length + stored.length ≤
          headerSize + (d.payload.getD [] ++ stored).length
        rw [List.length_append, Nat.add_assoc]
      stored := by
        rw [hstored]
        simp [recordOf, slice, Draft.append] }
  records := by
    intro s
    rw [recordsAt_append, logAt_concat, h.records]
    by_cases hs : s = step
    · rw [if_pos hs, if_pos hs.symm]
    · rw [if_neg hs, if_neg (Ne.symm hs)]
  tiles := by
    show Tiles headerSize _ (headerSize + (d.payload.getD [] ++ stored).length)
    rw [ranges, List.map_append, List.length_append, ← Nat.add_assoc]
    exact h.tiles.concat stored.length

theorem Laid.attachTimestamp (h : Laid operators cs d log) (step : UInt64) (now : Int64) :
    Laid operators (cs ++ [.stamp step now]) (d.attachTimestamp step now)
      (log.map (Draft.stampEntry step now)) := by
  refine ⟨?_, fun s => ?_, ?_⟩
  · rw [written_append, payload_attachTimestamp, show written [.stamp step now] = [] from rfl,
      List.append_nil, List.forall₂_map_right_iff]
    exact h.lays.imp fun _ _ hx => hx.stampEntry step now
  · rw [recordsAt_attachTimestamp, logAt_stampEntry, h.records]
  · rw [payload_attachTimestamp, ranges_stampEntry]
    exact h.tiles

theorem Laid.attachAttributes (h : Laid operators cs d log) (attributes : Attributes) :
    Laid operators (cs ++ [.attach attributes]) (d.attachAttributes attributes) log where
  lays := by
    rw [written_append, show written [.attach attributes] = [] from rfl, List.append_nil]
    exact h.lays
  records := h.records
  tiles := h.tiles

/-- **A call on an open draft keeps the log.** -/
theorem Laid.call (h : Laid operators cs d log) (hopen : d.payload.isSome) {c : Call}
    (hc : d.call operators c = .ok d') : ∃ log', Laid operators (cs ++ [c]) d' log' := by
  cases c with
  | put v step payload =>
    rw [Draft.call] at hc
    split at hc
    · next hput =>
      cases hc
      obtain ⟨-, stored, hstored, rfl⟩ := put_eq_ok_iff.mp hput
      rw [ensureOpen_of_isSome hopen]
      exact ⟨_, h.append hstored⟩
    · cases hc
  | stamp step now =>
    cases hc
    exact ⟨_, h.attachTimestamp step now⟩
  | attach attributes =>
    cases hc
    exact ⟨_, h.attachAttributes attributes⟩

end Laid

/-! ## Finished messages -/

/-- The message holds the blocks that were written, one directly behind the other in the order of
the log, and its index tells of them and of the attributes, and of nothing else. -/
structure Packs (operators : Operators) (rank : UInt32) (xs : List Written)
    (attributes : Option Attributes) (message payload : Bytes) (entries : Table String Tree)
    (log : List (UInt64 × Record)) : Prop where
  message_eq : message = Frame.compose payload (.map entries)
  lays : List.Forall₂ (Lays operators payload) xs log
  tiles : Tiles headerSize (ranges log) (headerSize + payload.length)
  at?_step : ∀ step : UInt64, entries.at? (toString step) =
    if logAt step log = [] then none else some (rankMap rank (logAt step log))
  at?_attributes : entries.at? attributesKey = attributes.map Attributes.toTree
  keys : ∀ key ∈ Table.keys entries, key = attributesKey ∨ ∃ step : UInt64, key = toString step

theorem Laid.packs_finish {operators : Operators} {cs : List Call} {d : Draft}
    {log : List (UInt64 × Record)} (hlaid : Laid operators cs d.ensureOpen log)
    (htracks : Tracks operators cs d.ensureOpen) :
    Packs operators d.rank (written cs) (lastAttributes cs) d.finish.1 (d.payload.getD [])
      (Table.ofEntries d.ensureOpen.sections) log where
  message_eq := by rw [finish, index_eq, payload_ensureOpen]
  lays := payload_ensureOpen d ▸ hlaid.lays
  tiles := payload_ensureOpen d ▸ hlaid.tiles
  at?_step := fun step => by rw [htracks.at?_step, hlaid.records, rank_ensureOpen]
  at?_attributes := htracks.at?_attributes
  keys := fun key hkey => (htracks.mem_keys hkey).imp id fun ⟨step, _, hstep⟩ => ⟨step, hstep⟩

/-! ## What every act keeps -/

namespace History

/-- The account is right: before a message is opened there are no blocks, and an open message is
laid out as the calls say. -/
structure Sound (operators : Operators) (rank : UInt32) (h : History) : Prop where
  rank_eq : h.draft.rank = rank
  early : written h.early = []
  closed : h.draft.payload = none →
    h.calls = [] ∧ h.draft.records = [] ∧ h.draft.attributes = lastAttributes h.early
  opened : h.draft.payload.isSome →
    Tracks operators h.calls h.draft ∧ ∃ log, Laid operators h.calls h.draft log
  packed : ∀ message ∈ h.messages, ∃ xs attributes payload entries log,
    Packs operators rank xs attributes message payload entries log

section Sound

variable {operators : Operators} {rank : UInt32} {h : History}

theorem sound_new {messages : List Bytes} (hpacked : ∀ message ∈ messages,
    ∃ xs attributes payload entries log,
      Packs operators rank xs attributes message payload entries log) :
    Sound operators rank { draft := { rank }, messages } where
  rank_eq := rfl
  early := rfl
  closed := fun _ => ⟨rfl, rfl, rfl⟩
  opened := fun hopen => nomatch hopen
  packed := hpacked

/-- A history in which the draft was opened, unless it was open. -/
theorem Sound.ensureOpen (hs : Sound operators rank h) :
    Sound operators rank { h with draft := h.draft.ensureOpen } where
  rank_eq := (rank_ensureOpen h.draft).trans hs.rank_eq
  early := hs.early
  closed := fun hnone => absurd (isSome_ensureOpen h.draft) (by
    show ¬ h.draft.ensureOpen.payload.isSome
    rw [hnone]
    decide)
  opened := by
    intro _
    cases hd : h.draft.payload with
    | none =>
      obtain ⟨hcalls, -, -⟩ := hs.closed hd
      show Tracks operators h.calls h.draft.ensureOpen ∧
        ∃ log, Laid operators h.calls h.draft.ensureOpen log
      rw [hcalls, ensureOpen_of_none hd]
      exact ⟨tracks_open operators h.draft, [], laid_open operators h.draft⟩
    | some payload =>
      have hopen : h.draft.payload.isSome := by simp [hd]
      show Tracks operators h.calls h.draft.ensureOpen ∧
        ∃ log, Laid operators h.calls h.draft.ensureOpen log
      rw [ensureOpen_of_isSome hopen]
      exact hs.opened hopen
  packed := hs.packed

theorem Sound.take_open (hs : Sound operators rank h) (hopen : h.draft.payload.isSome) {c : Call}
    {d : Draft} (hc : h.draft.call operators c = .ok d) : Sound operators rank (h.take d c) := by
  obtain ⟨htracks, log, hlaid⟩ := hs.opened hopen
  have htracks' := htracks.call hc
  rw [take, if_pos htracks'.isOpen]
  exact {
    rank_eq := (rank_call hc).trans hs.rank_eq
    early := hs.early
    closed := fun hnone => absurd htracks'.isOpen (by
      show ¬ d.payload.isSome
      rw [show d.payload = none from hnone]
      decide)
    opened := fun _ => ⟨htracks', hlaid.call hopen hc⟩
    packed := hs.packed }

theorem Sound.take_closed (hs : Sound operators rank h) (hclosed : h.draft.payload = none)
    {c : Call} {d : Draft} (hd : d.payload = none) (hrank : d.rank = h.draft.rank)
    (hrecords : d.records = []) (hattributes : d.attributes = lastAttributes (h.early ++ [c]))
    (hc : written [c] = []) : Sound operators rank (h.take d c) := by
  rw [take, if_neg (by simp [hd])]
  exact {
    rank_eq := hrank.trans hs.rank_eq
    early := by rw [written_append, hs.early, hc, List.append_nil]
    closed := fun _ => ⟨(hs.closed hclosed).1, hrecords, hattributes⟩
    opened := fun hopen => absurd hopen (by simp [hd])
    packed := hs.packed }

theorem Sound.put (hs : Sound operators rank h) (v : Variable) (step : UInt64) (payload : Bytes) :
    Sound operators rank
      (h.settle (.put v step payload) (h.draft.put operators v step payload)) := by
  cases hput : h.draft.put operators v step payload with
  | mk d result =>
    cases result with
    | error f =>
      rcases put_eq_error_iff.mp hput with ⟨-, rfl, -⟩ | ⟨-, rfl, -⟩
      · exact hs
      · exact hs.ensureOpen
    | ok _ =>
      obtain ⟨hsize, stored, hstored, rfl⟩ := put_eq_ok_iff.mp hput
      refine hs.ensureOpen.take_open (isSome_ensureOpen h.draft) ?_
      have hopened : h.draft.ensureOpen.put operators v step payload =
          (h.draft.ensureOpen.append v step stored, .ok ()) :=
        put_eq_ok_iff.mpr ⟨hsize, stored, hstored,
          by rw [ensureOpen_of_isSome (isSome_ensureOpen h.draft)]⟩
      show h.draft.ensureOpen.call operators (.put v step payload) = _
      rw [Draft.call, hopened]

/-- What the next finished message holds: the blocks put and the attributes attached while it was
open. -/
theorem Sound.packs_finish (hs : Sound operators rank h) :
    ∃ log, Packs operators rank (written h.calls) (lastAttributes h.calls) h.draft.finish.1
      (h.draft.payload.getD []) (Table.ofEntries h.draft.ensureOpen.sections) log := by
  obtain ⟨htracks, log, hlaid⟩ := hs.ensureOpen.opened (isSome_ensureOpen h.draft)
  exact ⟨log, hs.rank_eq ▸ hlaid.packs_finish htracks⟩

/-- **One act keeps the account.** -/
theorem sound_act (hs : Sound operators rank h) (a : Act) :
    Sound operators rank (h.act operators a) := by
  cases a with
  | «open» =>
    exact {
      rank_eq := hs.rank_eq
      early := rfl
      closed := fun hnone => nomatch hnone
      opened := fun _ => ⟨tracks_open operators h.draft, [], laid_open operators h.draft⟩
      packed := hs.packed }
  | put v step payload => exact hs.put v step payload
  | putValues v step type values =>
    rw [act, Draft.putValues]
    split
    · exact hs.put v step _
    · exact hs
  | attach attributes =>
    cases hd : h.draft.payload with
    | some payload => exact hs.take_open (by simp [hd]) rfl
    | none =>
      refine hs.take_closed hd hd rfl (hs.closed hd).2.1 ?_ rfl
      rw [lastAttributes_append_singleton]
      rfl
  | stamp step now =>
    cases hd : h.draft.payload with
    | some payload => exact hs.take_open (by simp [hd]) rfl
    | none =>
      obtain ⟨-, hrecords, hattributes⟩ := hs.closed hd
      -- There are no blocks to be stamped.
      have hsame : h.draft.attachTimestamp step now = h.draft := by
        simp [attachTimestamp, hrecords]
      rw [act, hsame]
      refine hs.take_closed hd hd rfl hrecords ?_ rfl
      rw [lastAttributes_append_singleton]
      exact hattributes
  | finish =>
    have hrank : h.draft.finish.2 = { rank } := by
      rw [Draft.finish, rank_ensureOpen, hs.rank_eq]
    rw [act, hrank]
    refine sound_new fun message hmessage => ?_
    rcases List.mem_append.mp hmessage with hmessage | hmessage
    · exact hs.packed message hmessage
    · obtain ⟨log, hlog⟩ := hs.packs_finish
      exact List.mem_singleton.mp hmessage ▸ ⟨_, _, _, _, log, hlog⟩

/-- **Every history is sound.** -/
theorem sound_run (operators : Operators) (rank : UInt32) (acts : List Act) :
    Sound operators rank (run operators rank acts) := by
  induction acts using List.reverseRecOn with
  | nil => exact sound_new fun _ hmessage => absurd hmessage List.not_mem_nil
  | append_singleton acts a ih =>
    rw [run, List.foldl_append]
    exact sound_act ih a

end Sound

end History

end Draft

end Stepcast
