import Stepcast.Attribute
import Stepcast.Message.Record
import Stepcast.Proofs.Outcomes
import Stepcast.Proofs.Wire.Trees

/-!
# Block records and attributes on the wire

A record becomes a map with short keys, some of them optional, and is checked as it is read back:
its box has one start for each extent, its bytes lie in the payload, and without an operator they
are as many as the box needs. A record that meets these checks reads back as it was.

Main statements: `ofTree_toTree`, `fits_toTree`.
-/

namespace Stepcast

namespace Tree

theorem toDims?_ofDims (dims : Dims) : (ofDims dims).toDims? = some dims :=
  Attribute.mapM_map_some uint toUInt? (fun _ => rfl) dims

theorem fits_ofDims {dims : Dims} (h : dims.length < 2 ^ 32) : (ofDims dims).Fits := by
  refine .list (by simpa using h) fun t ht => ?_
  obtain ⟨n, -, rfl⟩ := List.mem_map.mp ht
  exact .uint n

theorem depth_ofDims_le (dims : Dims) : (ofDims dims).depth ≤ 1 := by
  refine depth_list_le fun t ht => ?_
  obtain ⟨n, -, rfl⟩ := List.mem_map.mp ht
  exact Nat.zero_lt_one

end Tree

/-- The parameters are a table of texts that fit into their widths. -/
structure Params.Fits (params : Params) : Prop where
  sorted : Table.Sorted params
  length : params.length < 2 ^ 32
  keys : ∀ e ∈ params, (utf8 e.1).length < 2 ^ 16
  values : ∀ e ∈ params, (utf8 e.2).length < 2 ^ 32

theorem Params.fits_nil : Params.Fits [] where
  sorted := List.Pairwise.nil
  length := by decide
  keys := fun _ he => absurd he List.not_mem_nil
  values := fun _ he => absurd he List.not_mem_nil

namespace Record

/-! ## The entries of a record -/

/-- The parameters of an operator as a map. -/
def paramsTree (params : Params) : Tree := .map (params.map (fun (k, v) => (k, Tree.text v)))

/-- The entries of the map that stands for a record, before they are put in order. -/
def entries (r : Record) : List (String × Tree) :=
  [("C", .ofDims r.box.count), ("I", .uint (UInt64.ofNat r.size)), ("L", .uint r.layout.bits),
    ("N", .text r.name), ("O", .ofDims r.box.start), ("P", .uint (UInt64.ofNat r.position)),
    ("Y", .text r.type.tag)] ++
  r.shape.toList.map (fun dims => ("S", Tree.ofDims dims)) ++
  r.timestamp.toList.map (fun t => ("W", Tree.int t)) ++
  r.compression.toList.flatMap (fun id =>
    [("Z", Tree.text id), ("ZP", paramsTree r.params)])

theorem nodup_keys_entries (r : Record) : (Table.keys r.entries).Nodup := by
  obtain ⟨_, _, _, shape, _, _, _, compression, _, timestamp⟩ := r
  cases shape <;> cases timestamp <;> cases compression <;> simp [entries, Table.keys]

theorem at?_toTree (r : Record) (key : String) : r.toTree.at? key = Table.at? r.entries key :=
  Table.at?_ofEntries r.nodup_keys_entries key

/-! ## Writing a record -/

/-- The texts and lists of the record fit into their widths. -/
structure Fits (r : Record) : Prop where
  name : (utf8 r.name).length < 2 ^ 32
  start : r.box.start.length < 2 ^ 32
  count : r.box.count.length < 2 ^ 32
  shape : ∀ dims ∈ r.shape, dims.length < 2 ^ 32
  compression : ∀ id ∈ r.compression, (utf8 id).length < 2 ^ 32
  params : r.params.Fits

theorem fits_paramsTree {params : Params} (h : params.Fits) : (paramsTree params).Fits := by
  refine .map (by simpa using h.length) (List.pairwise_map.mpr h.sorted) ?_ ?_
  · intro e he
    obtain ⟨p, hp, rfl⟩ := List.mem_map.mp he
    exact h.keys p hp
  · intro e he
    obtain ⟨p, hp, rfl⟩ := List.mem_map.mp he
    exact .text (h.values p hp)

theorem depth_paramsTree_le (params : Params) : (paramsTree params).depth ≤ 1 := by
  refine Tree.depth_map_le fun e he => ?_
  obtain ⟨p, -, rfl⟩ := List.mem_map.mp he
  exact Nat.zero_lt_one

/-- The keys that a record may use. -/
def fieldKeys : List String := ["C", "I", "L", "N", "O", "P", "S", "W", "Y", "Z", "ZP"]

theorem length_utf8_fieldKey {key : String} (h : key ∈ fieldKeys) :
    (utf8 key).length < 2 ^ 16 := by
  have hall : ∀ key ∈ fieldKeys, (utf8 key).length < 2 ^ 16 := by decide
  exact hall key h

theorem entry_fits {r : Record} (h : r.Fits) {e : String × Tree} (he : e ∈ r.entries) :
    e.1 ∈ fieldKeys ∧ e.2.Fits ∧ e.2.depth ≤ 1 := by
  have htag : ∀ type : ElementType, (utf8 type.tag).length < 2 ^ 32 := by
    intro type
    cases type <;> decide
  simp only [entries, List.mem_append, List.mem_cons, List.not_mem_nil, or_false, List.mem_map,
    List.mem_flatMap, Option.mem_toList] at he
  rcases he with (((rfl | rfl | rfl | rfl | rfl | rfl | rfl) | ⟨dims, hdims, rfl⟩) | ⟨t, -, rfl⟩) |
    ⟨id, hid, rfl | rfl⟩
  · exact ⟨by simp [fieldKeys], Tree.fits_ofDims h.count, Tree.depth_ofDims_le _⟩
  · exact ⟨by simp [fieldKeys], .uint _, Nat.zero_le 1⟩
  · exact ⟨by simp [fieldKeys], .uint _, Nat.zero_le 1⟩
  · exact ⟨by simp [fieldKeys], .text h.name, Nat.zero_le 1⟩
  · exact ⟨by simp [fieldKeys], Tree.fits_ofDims h.start, Tree.depth_ofDims_le _⟩
  · exact ⟨by simp [fieldKeys], .uint _, Nat.zero_le 1⟩
  · exact ⟨by simp [fieldKeys], .text (htag r.type), Nat.zero_le 1⟩
  · exact ⟨by simp [fieldKeys], Tree.fits_ofDims (h.shape dims hdims), Tree.depth_ofDims_le _⟩
  · exact ⟨by simp [fieldKeys], .int _, Nat.zero_le 1⟩
  · exact ⟨by simp [fieldKeys], .text (h.compression id hid), Nat.zero_le 1⟩
  · exact ⟨by simp [fieldKeys], fits_paramsTree h.params, depth_paramsTree_le _⟩

theorem length_entries_le (r : Record) : r.entries.length ≤ 11 := by
  obtain ⟨_, _, _, shape, _, _, _, compression, _, timestamp⟩ := r
  cases shape <;> cases timestamp <;> cases compression <;> simp [entries]

/-- **The map of a record can be written.** -/
theorem fits_toTree {r : Record} (h : r.Fits) : r.toTree.Fits :=
  Tree.fits_map_ofEntries (Nat.lt_of_le_of_lt r.length_entries_le (by decide))
    (fun _ he => length_utf8_fieldKey (entry_fits h he).1) (fun _ he => (entry_fits h he).2.1)

theorem depth_toTree_le {r : Record} (h : r.Fits) : r.toTree.depth ≤ 2 :=
  Tree.depth_map_le fun _ he =>
    Nat.lt_succ_of_le (entry_fits h (Table.mem_of_mem_ofEntries he)).2.2

/-! ## Reading a record -/

section Fields

variable (r : Record)

theorem at?_name : r.toTree.at? "N" = some (.text r.name) := by
  simp [at?_toTree, entries, Table.at?_cons]

theorem at?_type : r.toTree.at? "Y" = some (.text r.type.tag) := by
  simp [at?_toTree, entries, Table.at?_cons]

theorem at?_start : r.toTree.at? "O" = some (.ofDims r.box.start) := by
  simp [at?_toTree, entries, Table.at?_cons]

theorem at?_count : r.toTree.at? "C" = some (.ofDims r.box.count) := by
  simp [at?_toTree, entries, Table.at?_cons]

theorem at?_size : r.toTree.at? "I" = some (.uint (UInt64.ofNat r.size)) := by
  simp [at?_toTree, entries, Table.at?_cons]

theorem at?_position : r.toTree.at? "P" = some (.uint (UInt64.ofNat r.position)) := by
  simp [at?_toTree, entries, Table.at?_cons]

theorem at?_layout : r.toTree.at? "L" = some (.uint r.layout.bits) := by
  simp [at?_toTree, entries, Table.at?_cons]

theorem at?_shape : r.toTree.at? "S" = r.shape.map Tree.ofDims := by
  obtain ⟨_, _, _, shape, _, _, _, compression, _, timestamp⟩ := r
  cases shape <;> cases timestamp <;> cases compression <;>
    simp [at?_toTree, entries, Table.at?_cons]

theorem at?_timestamp : r.toTree.at? "W" = r.timestamp.map Tree.int := by
  obtain ⟨_, _, _, shape, _, _, _, compression, _, timestamp⟩ := r
  cases shape <;> cases timestamp <;> cases compression <;>
    simp [at?_toTree, entries, Table.at?_cons]

theorem at?_compression : r.toTree.at? "Z" = r.compression.map Tree.text := by
  obtain ⟨_, _, _, shape, _, _, _, compression, _, timestamp⟩ := r
  cases shape <;> cases timestamp <;> cases compression <;>
    simp [at?_toTree, entries, Table.at?_cons]

theorem at?_params : r.toTree.at? "ZP" =
    r.compression.map (fun _ => paramsTree r.params) := by
  obtain ⟨_, _, _, shape, _, _, _, compression, _, timestamp⟩ := r
  cases shape <;> cases timestamp <;> cases compression <;>
    simp [at?_toTree, entries, Table.at?_cons]

end Fields

theorem readParams_paramsTree (params : Params) : readParams (paramsTree params) = params := by
  simp only [paramsTree, readParams, Tree.toMap?, Option.getD_some]
  induction params with
  | nil => rfl
  | cons e rest ih =>
    rw [List.map_cons, List.filterMap_cons, ih]
    rfl

/-- What the reader of a record checks, in a message whose payload ends at `stop`, and that its
numbers are 64-bit numbers. -/
structure Valid (r : Record) (stop : Nat) : Prop where
  rank : r.box.start.length = r.box.count.length
  size_lt : r.size < 2 ^ 64
  position_lt : r.position < 2 ^ 64
  header_le : headerSize ≤ r.position
  le_stop : r.position + r.size ≤ stop
  size_eq : r.compression = none → r.size = r.decodedSize
  params_eq : r.compression = none → r.params = []

theorem nameField_toTree (r : Record) (step : UInt64) : nameField r.toTree step = .ok r.name := by
  rw [nameField, field, at?_name]
  rfl

theorem typeField_toTree (r : Record) (step : UInt64) : typeField r.toTree step = .ok r.type := by
  rw [typeField, field, at?_type]
  simp only [ok_bind, Tree.toText?, ElementType.ofTag?_tag, pure_eq_ok]

theorem dimsField_ofDims {t : Tree} {key : String} {dims : Dims}
    (h : t.at? key = some (.ofDims dims)) (step : UInt64) : dimsField t key step = .ok dims := by
  rw [dimsField, field, h]
  simp only [ok_bind, Tree.toDims?_ofDims, pure_eq_ok]

theorem boxField_toTree {r : Record} (h : r.box.start.length = r.box.count.length)
    (name : String) (step : UInt64) : boxField r.toTree name step = .ok r.box := by
  rw [boxField, dimsField_ofDims r.at?_start, dimsField_ofDims r.at?_count]
  simp only [ok_bind, h, ne_eq, not_true_eq_false, if_false, pure_eq_ok]

theorem shapeField_toTree (r : Record) : shapeField r.toTree = .ok r.shape := by
  rw [shapeField, at?_shape]
  cases r.shape with
  | none => rfl
  | some dims => simp only [Option.map_some, Tree.toDims?_ofDims]

theorem uintField_uint {t : Tree} {key : String} {n : UInt64} (h : t.at? key = some (.uint n))
    (step : UInt64) : uintField t key step = .ok n := by
  rw [uintField, field, h]
  rfl

theorem timestampField_toTree (r : Record) : timestampField r.toTree = r.timestamp := by
  rw [timestampField, at?_timestamp]
  cases r.timestamp <;> rfl

theorem compression_toTree (r : Record) :
    (r.toTree.at? "Z").bind Tree.toText? = r.compression := by
  rw [at?_compression]
  cases r.compression <;> rfl

theorem params_toTree {r : Record} (h : r.compression = none → r.params = []) :
    (r.toTree.at? "ZP").elim [] readParams = r.params := by
  rw [at?_params]
  cases hc : r.compression with
  | none => exact (h hc).symm
  | some id => exact readParams_paramsTree r.params

theorem check_eq_ok_iff {r : Record} {step : UInt64} {stop : Nat} :
    r.check step stop = .ok () ↔ headerSize ≤ r.position ∧ r.position + r.size ≤ stop ∧
      (r.compression = none → r.size = r.decodedSize) := by
  unfold check
  split
  · rename_i h
    simp only [Bool.or_eq_true, decide_eq_true_eq] at h
    simp only [reduceCtorEq, false_iff]
    omega
  · rename_i h
    simp only [Bool.or_eq_true, decide_eq_true_eq, not_or, Nat.not_lt] at h
    split
    · rename_i hsize
      simp only [Bool.and_eq_true, Option.isNone_iff_eq_none, decide_eq_true_eq] at hsize
      simp only [reduceCtorEq, false_iff]
      exact fun ⟨_, _, heq⟩ => hsize.2 (heq hsize.1)
    · rename_i hsize
      simp only [Bool.and_eq_true, Option.isNone_iff_eq_none, decide_eq_true_eq, not_and,
        Decidable.not_not] at hsize
      exact iff_of_true rfl ⟨h.1, h.2, hsize⟩

/-- **A valid record reads back as it was.** -/
theorem ofTree_toTree {r : Record} {stop : Nat} (h : r.Valid stop) (step : UInt64) :
    ofTree step stop r.toTree = .ok r := by
  have hsize : (UInt64.ofNat r.size).toNat = r.size := UInt64.toNat_ofNat_of_lt' h.size_lt
  have hposition : (UInt64.ofNat r.position).toNat = r.position :=
    UInt64.toNat_ofNat_of_lt' h.position_lt
  have hcheck : r.check step stop = .ok () :=
    check_eq_ok_iff.mpr ⟨h.header_le, h.le_stop, h.size_eq⟩
  rw [ofTree, nameField_toTree, ok_bind, typeField_toTree, ok_bind, boxField_toTree h.rank,
    ok_bind, shapeField_toTree, ok_bind, uintField_uint r.at?_size, ok_bind,
    uintField_uint r.at?_position, ok_bind, hsize, hposition, timestampField_toTree,
    compression_toTree, params_toTree h.params_eq, at?_layout]
  simp only [Option.bind_some, Tree.toUInt?, Option.elim_some, Layout.ofBits_bits, hcheck, ok_bind,
    pure_eq_ok]

end Record

/-! ## Attributes -/

/-- The texts and lists of an attribute fit into their widths. -/
def Attribute.Fits : Attribute → Prop
  | text s => (utf8 s).length < 2 ^ 32
  | texts items => items.length < 2 ^ 32 ∧ ∀ s ∈ items, (utf8 s).length < 2 ^ 32
  | ints items => items.length < 2 ^ 32
  | floats items => items.length < 2 ^ 32
  | _ => True

theorem Attribute.fits_toTree {a : Attribute} (h : a.Fits) : a.toTree.Fits := by
  cases a with
  | text s => exact .text h
  | texts items =>
    refine .list (by simpa using h.1) fun t ht => ?_
    obtain ⟨s, hs, rfl⟩ := List.mem_map.mp ht
    exact .text (h.2 s hs)
  | int n => exact .int n
  | ints items =>
    refine .list (by simpa [Attribute.Fits] using h) fun t ht => ?_
    obtain ⟨n, -, rfl⟩ := List.mem_map.mp ht
    exact .int n
  | uint n => exact .uint n
  | float bits => exact .float bits
  | floats items =>
    refine .list (by simpa [Attribute.Fits] using h) fun t ht => ?_
    obtain ⟨bits, -, rfl⟩ := List.mem_map.mp ht
    exact .float bits

theorem Attribute.depth_toTree_le (a : Attribute) : a.toTree.depth ≤ 1 := by
  cases a with
  | texts items | ints items | floats items =>
    refine Tree.depth_list_le fun t ht => ?_
    obtain ⟨x, -, rfl⟩ := List.mem_map.mp ht
    exact Nat.zero_lt_one
  | _ => exact Nat.zero_le 1

namespace Attributes

/-- The attributes and their names fit into their widths. -/
structure Fits (attributes : Attributes) : Prop where
  length : attributes.length < 2 ^ 32
  names : ∀ e ∈ attributes, (utf8 e.1).length < 2 ^ 32
  values : ∀ e ∈ attributes, e.2.Fits

/-- The entries of the map that stands for one attribute. -/
def entries (name : String) (a : Attribute) : List (String × Tree) :=
  [(nameKey, .text name), (valueKey, a.toTree), (tagKey, .text a.tag)]

theorem fits_entries {name : String} {a : Attribute} (hname : (utf8 name).length < 2 ^ 32)
    (ha : a.Fits) : (Tree.map (entries name a)).Fits := by
  have htag : (utf8 a.tag).length < 2 ^ 32 := by
    cases a <;> simp only [Attribute.tag] <;> decide
  have hsorted : [nameKey, valueKey, tagKey].Pairwise (· < ·) := by decide
  have hkeys : ∀ key ∈ [nameKey, valueKey, tagKey], (utf8 key).length < 2 ^ 16 := by decide
  have hlength : (entries name a).length < 2 ^ 32 := by simp [entries]
  refine .map hlength (List.pairwise_map.mp hsorted)
    (fun e he => hkeys e.1 (List.mem_map_of_mem he)) fun e he => ?_
  simp only [entries, List.mem_cons, List.not_mem_nil, or_false] at he
  rcases he with rfl | rfl | rfl
  · exact .text hname
  · exact Attribute.fits_toTree ha
  · exact .text htag

theorem depth_entries_le (name : String) (a : Attribute) :
    (Tree.map (entries name a)).depth ≤ 2 := by
  have ha := a.depth_toTree_le
  refine Tree.depth_map_le fun e he => ?_
  simp only [entries, List.mem_cons, List.not_mem_nil, or_false] at he
  rcases he with rfl | rfl | rfl
  · exact Nat.zero_lt_two
  · exact Nat.lt_succ_of_le ha
  · exact Nat.zero_lt_two

theorem fits_toTree {attributes : Attributes} (h : attributes.Fits) : attributes.toTree.Fits := by
  refine .list (by simpa using h.length) fun t ht => ?_
  obtain ⟨e, he, rfl⟩ := List.mem_map.mp ht
  exact fits_entries (h.names e he) (h.values e he)

theorem depth_toTree_le (attributes : Attributes) : attributes.toTree.depth ≤ 3 := by
  refine Tree.depth_list_le fun t ht => ?_
  obtain ⟨e, -, rfl⟩ := List.mem_map.mp ht
  exact Nat.lt_succ_of_le (depth_entries_le e.1 e.2)

end Attributes

end Stepcast
