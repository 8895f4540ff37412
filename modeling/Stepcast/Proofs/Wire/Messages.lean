import Mathlib.Data.List.Dedup
import Stepcast.Proofs.Wire.Drafts
import Stepcast.Proofs.Wire.Numerals

/-!
# Reading a finished message

A finished message is told apart from an end record by its first byte, its header gives the place
of the index, and the index gives the records of every step back.

Main statements: `index_compose`, `finalStep?_compose`, `ofIndex_sections`.
-/

namespace Stepcast

/-! ## Frames -/

/-- No tree begins with a byte from 0x10 on. -/
theorem Tree.decodeBody_of_le {tag : UInt8} (h : 0x10 ≤ tag)
    (one : Bytes → Except Fault (Tree × Bytes)) (input : Bytes) :
    decodeBody one tag input = .error (.unknownTag tag) := by
  unfold decodeBody
  split
  case h_10 => rfl
  all_goals exact absurd h (by decide)

theorem Tree.decode_cons_of_le {tag : UInt8} (h : 0x10 ≤ tag) (rest : Bytes) :
    decode (tag :: rest) = .error (.unknownTag tag) := by
  rw [decode, decodeNext_cons, decodeBody_of_le h]
  rfl

namespace Frame

theorem length_compose (payload : Bytes) (index : Tree) :
    (compose payload index).length = headerSize + payload.length + index.encodedLength := by
  simp only [compose, headerSize, List.length_append, length_leBytes, Tree.length_encode]

theorem compose_ne_nil (payload : Bytes) (index : Tree) : compose payload index ≠ [] := by
  intro hnil
  have hlength := length_compose payload index
  rw [hnil, headerSize, List.length_nil] at hlength
  omega

theorem exists_compose_eq (payload : Bytes) (index : Tree) :
    ∃ head, head.length = headerSize ∧ compose payload index = head ++ (payload ++ index.encode) :=
  ⟨leBytes 8 (headerSize + payload.length) ++ leBytes 8 index.encodedLength, by simp [headerSize],
    by rw [compose, List.append_assoc _ payload]⟩

theorem slice_payload (payload : Bytes) (index : Tree) {position size : Nat}
    (hposition : headerSize ≤ position) (hend : position + size ≤ headerSize + payload.length) :
    slice (compose payload index) position size = slice payload (position - headerSize) size := by
  obtain ⟨offset, rfl⟩ := Nat.exists_eq_add_of_le hposition
  obtain ⟨head, hhead, heq⟩ := exists_compose_eq payload index
  rw [heq, Nat.add_sub_cancel_left, ← hhead, slice_append_right,
    slice_append_left index.encode (by omega)]

theorem slice_index (payload : Bytes) (index : Tree) :
    slice (compose payload index) (headerSize + payload.length) index.encodedLength =
      index.encode := by
  obtain ⟨head, hhead, heq⟩ := exists_compose_eq payload index
  have hslice := slice_append_right payload index.encode 0 index.encodedLength
  rw [Nat.add_zero, ← Tree.length_encode, slice_zero_length] at hslice
  rw [heq, ← hhead, slice_append_right, ← Tree.length_encode, hslice]

theorem header_compose {payload : Bytes} {index : Tree}
    (h : (compose payload index).length < 2 ^ 64) :
    header (compose payload index) = .ok (headerSize + payload.length, index.encodedLength) := by
  have hlength := length_compose payload index
  have hoffset : leValue ((compose payload index).take 8) = headerSize + payload.length := by
    have htake : (compose payload index).take 8 = leBytes 8 (headerSize + payload.length) := by
      rw [compose, List.append_assoc, List.append_assoc]
      exact List.take_left' (length_leBytes _ _)
    rw [htake, leValue_leBytes, Nat.mod_eq_of_lt (by omega)]
  have hsize : leValue (slice (compose payload index) 8 8) = index.encodedLength := by
    have hslice : slice (compose payload index) 8 8 = leBytes 8 index.encodedLength := by
      rw [compose, List.append_assoc, List.append_assoc, slice,
        List.drop_left' (length_leBytes _ _)]
      exact List.take_left' (length_leBytes _ _)
    rw [hslice, leValue_leBytes, Nat.mod_eq_of_lt (by omega)]
  have hshort : ¬ (compose payload index).length < headerSize := by omega
  rw [header, if_neg hshort, hoffset, hsize]
  have hinside : ¬ (headerSize + payload.length < headerSize ∨
      (compose payload index).length < headerSize + payload.length + index.encodedLength) := by
    omega
  simp only [Bool.or_eq_true, decide_eq_true_eq, hinside, if_false]

theorem index_compose {payload : Bytes} {entries : Table String Tree}
    (hfits : (Tree.map entries).Fits) (hdepth : (Tree.map entries).depth ≤ Tree.maxDepth)
    (hlength : (compose payload (.map entries)).length < 2 ^ 64) :
    index (compose payload (.map entries)) = .ok (headerSize + payload.length, entries) := by
  have hdecode : Tree.decode (Tree.map entries).encode = .ok (.map entries) := by
    rw [Tree.decode_encode hfits, if_pos hdepth]
  rw [index, header_compose hlength, ok_bind]
  simp only [slice_index, hdecode]
  rfl

/-- A data message is no end record: it begins with the offset of its index. -/
theorem finalStep?_compose {payload : Bytes} {index : Tree}
    (h : (compose payload index).length < controlThreshold) :
    finalStep? (compose payload index) = none := by
  rw [length_compose, controlThreshold] at h
  obtain ⟨rest, hrest⟩ : ∃ rest, compose payload index =
      UInt8.ofNat (headerSize + payload.length) :: rest := ⟨_, rfl⟩
  have htag : (0x10 : UInt8) ≤ UInt8.ofNat (headerSize + payload.length) := by
    rw [UInt8.le_iff_toNat_le, UInt8.toNat_ofNat_of_lt' (by simp [UInt8.size]; omega)]
    exact Nat.le_add_right _ _
  rw [finalStep?, hrest, Tree.decode_cons_of_le htag]

end Frame

/-! ## The index -/

/-- The record as a block of a received message. -/
def Record.toBlock (r : Record) (step : UInt64) (rank : UInt32) (buffer : Nat) : Block :=
  { r with step, rank, buffer }

namespace Draft

/-- The entries of the index, before they are put in order. -/
def sections (d : Draft) : List (String × Tree) :=
  d.attributes.toList.map (fun a => (attributesKey, a.toTree)) ++
    d.records.map (fun e => (toString e.1, rankMap d.rank e.2))

theorem index_eq (d : Draft) : d.index = .map (Table.ofEntries d.sections) := rfl

theorem stepKey_injective {s s' : UInt64} (h : toString s = toString s') : s = s' :=
  UInt64.toNat_inj.mp (toString_injective (m := s.toNat) (n := s'.toNat) h)

theorem stepKey_ne_attributesKey (s : UInt64) : toString s ≠ attributesKey :=
  toString_ne_attributesKey s.toNat

theorem nodup_keys_sections {d : Draft} (h : Table.Sorted d.records) :
    (Table.keys d.sections).Nodup := by
  have hsteps : (d.records.map (fun e => toString e.1)).Nodup :=
    List.pairwise_map.mpr ((List.pairwise_map.mp h.nodup_keys).imp
      (fun hne heq => hne (stepKey_injective heq)))
  have hnot : attributesKey ∉ d.records.map (fun e => toString e.1) := by
    intro hmem
    obtain ⟨e, -, he⟩ := List.mem_map.mp hmem
    exact stepKey_ne_attributesKey e.1 he
  rw [Table.keys, sections, List.map_append, List.map_map, List.map_map]
  cases d.attributes with
  | none => exact hsteps
  | some a => exact List.nodup_cons.mpr ⟨hnot, hsteps⟩

/-- The sections of the index that belong to steps. -/
def stepSections (d : Draft) : Table String Tree :=
  (Table.ofEntries d.sections).filter (fun e => e.1 ≠ attributesKey)

theorem sorted_stepSections (d : Draft) : Table.Sorted d.stepSections :=
  (Table.sorted_ofEntries d.sections).sublist List.filter_sublist

theorem mem_stepSections {d : Draft} {e : String × Tree} (he : e ∈ d.stepSections) :
    ∃ s records, (s, records) ∈ d.records ∧ e = (toString s, rankMap d.rank records) := by
  obtain ⟨hmem, hkey⟩ := List.mem_filter.mp he
  rcases List.mem_append.mp (Table.mem_of_mem_ofEntries hmem) with hmem | hmem
  · obtain ⟨a, -, rfl⟩ := List.mem_map.mp hmem
    exact absurd rfl (of_decide_eq_true hkey)
  · obtain ⟨⟨s, records⟩, hrecords, rfl⟩ := List.mem_map.mp hmem
    exact ⟨s, records, hrecords, rfl⟩

theorem at?_stepSections {d : Draft} (h : Table.Sorted d.records) (s : UInt64) :
    d.stepSections.at? (toString s) = (d.records.at? s).map (rankMap d.rank) := by
  have hattributes : Table.at? (d.attributes.toList.map (fun a => (attributesKey, a.toTree)))
      (toString s) = none := by
    cases d.attributes with
    | none => rfl
    | some a => exact if_neg (stepKey_ne_attributesKey s)
  rw [stepSections, Table.at?_filter (fun key => key ≠ attributesKey),
    if_pos (decide_eq_true (stepKey_ne_attributesKey s)),
    Table.at?_ofEntries (nodup_keys_sections h), sections, Table.at?_append, hattributes,
    Option.none_or]
  exact Table.at?_map stepKey_injective (fun _ records => rankMap d.rank records) d.records s

theorem readStep_section (rank : UInt32) (step : UInt64) {records : List Record} {stop : Nat}
    (h : ∀ r ∈ records, r.Valid stop) (buffer : Nat) :
    Contents.readStep buffer stop (toString step, rankMap rank records) =
      .ok (records.map (·.toBlock step rank buffer)) := by
  have hstep : readUnsigned (UInt64.size - 1) (toString step) = some step.toNat :=
    readUnsigned_toString (Nat.le_pred_of_lt step.toNat_lt)
  have hrank : readUnsigned (UInt32.size - 1) (toString rank) = some rank.toNat :=
    readUnsigned_toString (Nat.le_pred_of_lt rank.toNat_lt)
  have hrecords : (records.map Record.toTree).mapM (fun t => do
      let record ← Record.ofTree step stop t
      return ({ record with step, rank, buffer } : Block)) =
      Except.ok (records.map (·.toBlock step rank buffer)) := by
    rw [mapM_eq_ok, List.forall₂_map_left_iff, List.forall₂_map_right_iff, List.forall₂_same]
    intro r hr
    rw [Record.ofTree_toTree (h r hr) step]
    rfl
  have hread :
      Contents.readRank buffer stop step (toString rank, .list (records.map Record.toTree)) =
      .ok (records.map (·.toBlock step rank buffer)) := by
    rw [Contents.readRank]
    simp only [hrank, UInt32.ofNat_toNat, Tree.toList?]
    exact hrecords
  rw [Contents.readStep]
  simp only [hstep, UInt64.ofNat_toNat, rankMap, Tree.toMap?, List.mapM_cons, List.mapM_nil, hread]
  simp

/-- **The index gives the records of every step back**, in their order. -/
theorem ofIndex_sections {d : Draft} (hsorted : Table.Sorted d.records) {stop : Nat}
    (hvalid : ∀ e ∈ d.records, ∀ r ∈ e.2, r.Valid stop) (buffer : Nat) :
    ∃ contents, Contents.ofIndex buffer stop (Table.ofEntries d.sections) = .ok contents ∧
      ∀ s, contents.blocks.filter (fun b => b.step = s) =
        (d.recordsAt s).map (·.toBlock s d.rank buffer) := by
  -- What is read from a section; all of them can be read.
  let blocksOf : String × Tree → List Block := fun e =>
    (Contents.readStep buffer stop e).toOption.getD []
  have hblocks : ∀ s records, (s, records) ∈ d.records →
      blocksOf (toString s, rankMap d.rank records) =
        records.map (·.toBlock s d.rank buffer) := by
    intro s records hmem
    simp only [blocksOf, readStep_section d.rank s (hvalid _ hmem) buffer]
    rfl
  have hread : d.stepSections.mapM (Contents.readStep buffer stop) =
      .ok (d.stepSections.map blocksOf) := by
    refine mapM_eq_ok_map fun e he => ?_
    obtain ⟨s, records, hmem, rfl⟩ := mem_stepSections he
    rw [hblocks s records hmem]
    exact readStep_section d.rank s (hvalid _ hmem) buffer
  refine ⟨⟨((Table.ofEntries d.sections).at? attributesKey).map Attributes.ofTree,
    (d.stepSections.map blocksOf).flatten⟩, ?_, fun s => ?_⟩
  · rw [Contents.ofIndex]
    rw [stepSections] at hread ⊢
    rw [hread]
    rfl
  · have hother : ∀ e ∈ d.stepSections, e.1 ≠ toString s →
        (blocksOf e).filter (fun b => b.step = s) = [] := by
      intro e he hne
      obtain ⟨s', records, hmem, rfl⟩ := mem_stepSections he
      have hs : s' ≠ s := fun h => hne (h ▸ rfl)
      rw [hblocks s' records hmem, List.filter_eq_nil_iff]
      intro b hb
      obtain ⟨r, -, rfl⟩ := List.mem_map.mp hb
      simp [Record.toBlock, hs]
    rw [List.filter_flatten, List.map_map,
      Table.flatten_map_eq (f := List.filter (fun b => b.step = s) ∘ blocksOf)
        d.sorted_stepSections.nodup_keys hother,
      at?_stepSections hsorted, recordsAt]
    cases hat : d.records.at? s with
    | none => rfl
    | some records =>
      simp only [Option.map_some, Option.elim_some, Function.comp_apply, Option.getD_some]
      rw [hblocks s records (Table.mem_of_at? hat), List.filter_eq_self]
      intro b hb
      obtain ⟨r, -, rfl⟩ := List.mem_map.mp hb
      simp [Record.toBlock]

/-! ## Calls that fit -/

end Draft

/-- The texts and lists of an operator fit into their widths. -/
structure OperatorSpec.Fits (spec : OperatorSpec) : Prop where
  id : (utf8 spec.id).length < 2 ^ 32
  params : spec.params.Fits

/-- The variable has one start for each extent, and its texts and lists fit into their widths. -/
structure Variable.Fits (v : Variable) : Prop where
  rank : v.selection.start.length = v.selection.count.length
  name : (utf8 v.name).length < 2 ^ 32
  count : v.selection.count.length < 2 ^ 32
  shape : v.shape.length < 2 ^ 32
  operator : ∀ spec ∈ v.operator, spec.Fits

/-- The texts and lists of the variable fit into their widths, whatever its box is. -/
structure Variable.Encodable (v : Variable) : Prop where
  name : (utf8 v.name).length < 2 ^ 32
  start : v.selection.start.length < 2 ^ 32
  count : v.selection.count.length < 2 ^ 32
  shape : v.shape.length < 2 ^ 32
  operator : ∀ spec ∈ v.operator, spec.Fits

theorem Variable.Fits.encodable {v : Variable} (h : v.Fits) : v.Encodable where
  name := h.name
  start := h.rank ▸ h.count
  count := h.count
  shape := h.shape
  operator := h.operator

namespace Draft

/-- What the calls put and attach fits into the widths of a message. -/
structure CallsFit (cs : List Call) : Prop where
  puts : ∀ v step payload, Call.put v step payload ∈ cs → v.Fits
  blocks : ∀ step, (putsAt step cs).length < 2 ^ 32
  attributes : ∀ attributes ∈ lastAttributes cs, attributes.Fits
  sections : (putSteps cs).dedup.length + (lastAttributes cs).toList.length < 2 ^ 32

/-- What the calls put and attach can be written, whatever the boxes are. -/
structure CallsEncodable (cs : List Call) : Prop where
  puts : ∀ v step payload, Call.put v step payload ∈ cs → v.Encodable
  blocks : ∀ step, (putsAt step cs).length < 2 ^ 32
  attributes : ∀ attributes ∈ lastAttributes cs, attributes.Fits
  sections : (putSteps cs).dedup.length + (lastAttributes cs).toList.length < 2 ^ 32

theorem CallsFit.encodable {cs : List Call} (h : CallsFit cs) : CallsEncodable cs where
  puts := fun v step payload hput => (h.puts v step payload hput).encodable
  blocks := h.blocks
  attributes := h.attributes
  sections := h.sections

theorem mem_of_mem_putsAt {step : UInt64} {cs : List Call} {p : Put} (h : p ∈ putsAt step cs) :
    Call.put p.v step p.payload ∈ cs := by
  induction cs with
  | nil => cases h
  | cons c rest ih =>
    cases c with
    | put v s payload =>
      rw [putsAt] at h
      split at h
      · rename_i hs
        rcases List.mem_cons.mp h with rfl | h
        · exact hs ▸ List.mem_cons_self
        · exact List.mem_cons_of_mem _ (ih h)
      · exact List.mem_cons_of_mem _ (ih h)
    | stamp s now => exact List.mem_cons_of_mem _ (ih h)
    | attach attributes => exact List.mem_cons_of_mem _ (ih h)

section Records

variable {operators : Operators} {payload : Bytes} {step : UInt64} {p : Put} {r : Record}

theorem Records.fits (h : Records operators payload step p r) (hv : p.v.Encodable) :
    r.Fits := by
  rw [h.eq]
  refine ⟨hv.name, hv.start, hv.count, fun dims hdims => ?_, fun id hid => ?_, ?_⟩
  · simp only [recordOf] at hdims
    split at hdims
    · cases hdims
    · cases hdims
      exact hv.shape
  · obtain ⟨spec, hspec, rfl⟩ := Option.map_eq_some_iff.mp hid
    exact (hv.operator spec hspec).id
  · show Params.Fits (p.v.operator.elim [] (·.params))
    cases hoperator : p.v.operator with
    | none => exact Params.fits_nil
    | some spec => exact (hv.operator spec hoperator).params

theorem Records.size_eq (h : Records operators payload step p r) (hnone : p.v.operator = none) :
    r.size = p.v.payloadSize := by
  have hstored := h.stored
  rw [Operators.store, hnone] at hstored
  have hheader := h.header_le
  have hend := h.le_end
  rw [← h.payload_length, Except.ok.inj hstored, length_slice]
  omega

theorem Records.valid (h : Records operators payload step p r) (hv : p.v.Fits)
    (hlength : headerSize + payload.length < 2 ^ 64) : r.Valid (headerSize + payload.length) := by
  have hend := h.le_end
  have hcompression : r.compression = p.v.operator.map (·.id) := congrArg Record.compression h.eq
  have hparams : r.params = p.v.operator.elim [] (·.params) := congrArg Record.params h.eq
  have hbox : r.box = p.v.selection := congrArg Record.box h.eq
  have htype : r.type = p.v.type := congrArg Record.type h.eq
  refine ⟨hbox ▸ hv.rank, by omega, by omega, h.header_le, hend, fun hnone => ?_, fun hnone => ?_⟩
  · rw [hcompression, Option.map_eq_none_iff] at hnone
    rw [h.size_eq hnone, Record.decodedSize, hbox, htype]
    rfl
  · rw [hcompression, Option.map_eq_none_iff] at hnone
    rw [hparams, hnone]
    rfl

end Records

theorem mem_keys_records_iff {operators : Operators} {cs : List Call} {d : Draft}
    (h : Tracks operators cs d) {step : UInt64} :
    step ∈ Table.keys d.records ↔ step ∈ putSteps cs := by
  have hlength := (h.records step).length_eq
  rw [← not_iff_not, ← putsAt_eq_nil_iff, ← List.length_eq_zero_iff, hlength,
    List.length_eq_zero_iff, recordsAt, ← Table.at?_eq_none_iff]
  cases hat : d.records.at? step with
  | none => simp
  | some records => simpa using h.nonempty _ (Table.mem_of_at? hat)

theorem Tracks.exists_put {operators : Operators} {cs : List Call} {d : Draft}
    (h : Tracks operators cs d) {e : UInt64 × List Record} (he : e ∈ d.records) {r : Record}
    (hr : r ∈ e.2) :
    ∃ p ∈ putsAt e.1 cs, Records operators (d.payload.getD []) e.1 p r := by
  have hat : d.recordsAt e.1 = e.2 := by
    rw [recordsAt, (Table.mem_iff_at? h.sorted).mp he, Option.getD_some]
  exact exists_mem_of_forall₂ (h.records e.1) (hat ▸ hr)

theorem length_sections {operators : Operators} {cs : List Call} {d : Draft}
    (h : Tracks operators cs d) :
    d.sections.length = (putSteps cs).dedup.length + (lastAttributes cs).toList.length := by
  have hperm : (Table.keys d.records).Perm (putSteps cs).dedup :=
    (List.perm_ext_iff_of_nodup h.sorted.nodup_keys (List.nodup_dedup _)).mpr fun step => by
      rw [mem_keys_records_iff h, List.mem_dedup]
  rw [← hperm.length_eq, ← h.attributes, sections, Table.keys]
  simp [Nat.add_comm]

theorem rankMap_fits {records : List Record} (rank : UInt32) (hlength : records.length < 2 ^ 32)
    (h : ∀ r ∈ records, r.Fits) :
    (rankMap rank records).Fits ∧ (rankMap rank records).depth ≤ 4 := by
  have hkey : (utf8 (toString rank)).length < 2 ^ 16 :=
    length_utf8_toString_lt (n := rank.toNat) (Nat.lt_trans rank.toNat_lt (by decide))
  have hlist : (Tree.list (records.map Record.toTree)).Fits := by
    refine .list (by simpa using hlength) fun t ht => ?_
    obtain ⟨r, hr, rfl⟩ := List.mem_map.mp ht
    exact Record.fits_toTree (h r hr)
  have hdepth : (Tree.list (records.map Record.toTree)).depth ≤ 3 := by
    refine Tree.depth_list_le fun t ht => ?_
    obtain ⟨r, hr, rfl⟩ := List.mem_map.mp ht
    exact Nat.lt_succ_of_le (Record.depth_toTree_le (h r hr))
  constructor
  · refine .map (by simp) (List.pairwise_singleton _ _) ?_ ?_
    · exact fun e he => List.mem_singleton.mp he ▸ hkey
    · exact fun e he => List.mem_singleton.mp he ▸ hlist
  · refine Tree.depth_map_le fun e he => ?_
    rw [List.mem_singleton.mp he]
    exact Nat.lt_succ_of_le hdepth

theorem section_fits {operators : Operators} {cs : List Call} {d : Draft}
    (h : Tracks operators cs d) (hfit : CallsEncodable cs) {e : String × Tree}
    (he : e ∈ d.sections) :
    (utf8 e.1).length < 2 ^ 16 ∧ e.2.Fits ∧ e.2.depth ≤ 4 := by
  rcases List.mem_append.mp he with he | he
  · obtain ⟨a, ha, rfl⟩ := List.mem_map.mp he
    have ha : a ∈ lastAttributes cs := h.attributes ▸ Option.mem_toList.mp ha
    refine ⟨by simp only [attributesKey]; decide, Attributes.fits_toTree (hfit.attributes a ha), ?_⟩
    exact Nat.le_succ_of_le (Attributes.depth_toTree_le a)
  · obtain ⟨⟨s, records⟩, hmem, rfl⟩ := List.mem_map.mp he
    have hlength : records.length < 2 ^ 32 := by
      have hat : d.recordsAt s = records := by
        rw [recordsAt, (Table.mem_iff_at? h.sorted).mp hmem, Option.getD_some]
      rw [← hat, ← (h.records s).length_eq]
      exact hfit.blocks s
    have hrecords : ∀ r ∈ records, r.Fits := by
      intro r hr
      obtain ⟨p, hp, hrecord⟩ := h.exists_put hmem hr
      exact hrecord.fits (hfit.puts _ _ _ (mem_of_mem_putsAt hp))
    exact ⟨length_utf8_toString_lt s.toNat_lt, rankMap_fits d.rank hlength hrecords⟩

/-- **The index of a draft can be written**, and read again. -/
theorem index_fits {operators : Operators} {cs : List Call} {d : Draft}
    (h : Tracks operators cs d) (hfit : CallsEncodable cs) :
    d.index.Fits ∧ d.index.depth ≤ Tree.maxDepth := by
  constructor
  · have hlength := hfit.sections
    rw [← length_sections h] at hlength
    exact Tree.fits_map_ofEntries hlength (fun e he => (section_fits h hfit he).1)
      (fun e he => (section_fits h hfit he).2.1)
  · have hdepth : d.index.depth ≤ 5 := Tree.depth_map_le fun e he =>
      Nat.lt_succ_of_le (section_fits h hfit (Table.mem_of_mem_ofEntries he)).2.2
    exact Nat.le_trans hdepth (by decide)

end Draft

end Stepcast
