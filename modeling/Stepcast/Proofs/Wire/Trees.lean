import Stepcast.Bytes.Lemmas
import Stepcast.Proofs.Tables
import Stepcast.Tree.Codec

/-!
# Reading written trees

A tree fits if its lengths fit into the widths in which they are written and its maps are in key
order. Reading the bytes of such a tree, whatever stands behind them, gives the tree back and
leaves the rest. With too few levels left it stops at the first tree that lies too deep.

Main statements: `length_encode`, `decodeNext_encode`, `decode_encode`.
-/

namespace Stepcast

namespace Tree

/-! ## Trees that fit -/

/-- The lengths in the tree fit into their widths, and its maps are in key order. -/
inductive Fits : Tree → Prop
  | null : Fits null
  | bool (b : Bool) : Fits (bool b)
  | uint (n : UInt64) : Fits (uint n)
  | int (n : Int64) : Fits (int n)
  | float (bits : UInt64) : Fits (float bits)
  | text {s : String} : (utf8 s).length < 2 ^ 32 → Fits (text s)
  | bytes {b : Bytes} : b.length < 2 ^ 32 → Fits (bytes b)
  | list {items : List Tree} : items.length < 2 ^ 32 → (∀ t ∈ items, Fits t) → Fits (list items)
  | map {entries : List (String × Tree)} : entries.length < 2 ^ 32 → Table.Sorted entries →
      (∀ e ∈ entries, (utf8 e.1).length < 2 ^ 16) → (∀ e ∈ entries, Fits e.2) →
      Fits (map entries)

mutual

/-- The number of levels below the root. -/
def depth : Tree → Nat
  | list items => itemsDepth items
  | map entries => entriesDepth entries
  | _ => 0

/-- The number of levels that the trees of a list need. -/
def itemsDepth : List Tree → Nat
  | [] => 0
  | t :: rest => max (depth t + 1) (itemsDepth rest)

/-- The number of levels that the values of a map need. -/
def entriesDepth : List (String × Tree) → Nat
  | [] => 0
  | (_, t) :: rest => max (depth t + 1) (entriesDepth rest)

end

theorem depth_list_le {items : List Tree} {n : Nat} (h : ∀ t ∈ items, depth t < n) :
    depth (list items) ≤ n := by
  rw [depth]
  induction items with
  | nil => exact Nat.zero_le n
  | cons t rest ih =>
    have ht := h t List.mem_cons_self
    have hrest := ih (fun u hu => h u (List.mem_cons_of_mem _ hu))
    rw [itemsDepth]
    omega

theorem depth_map_le {entries : List (String × Tree)} {n : Nat}
    (h : ∀ e ∈ entries, depth e.2 < n) : depth (map entries) ≤ n := by
  rw [depth]
  induction entries with
  | nil => exact Nat.zero_le n
  | cons e rest ih =>
    have he := h e List.mem_cons_self
    have hrest := ih (fun u hu => h u (List.mem_cons_of_mem _ hu))
    rw [entriesDepth]
    omega

theorem fits_map_ofEntries {entries : List (String × Tree)} (hlength : entries.length < 2 ^ 32)
    (hkeys : ∀ e ∈ entries, (utf8 e.1).length < 2 ^ 16) (hvalues : ∀ e ∈ entries, Fits e.2) :
    Fits (map (Table.ofEntries entries)) :=
  .map (Nat.lt_of_le_of_lt (Table.length_ofEntries_le entries) hlength)
    (Table.sorted_ofEntries entries)
    (fun e he => hkeys e (Table.mem_of_mem_ofEntries he))
    (fun e he => hvalues e (Table.mem_of_mem_ofEntries he))

/-! ## Lengths -/

mutual

theorem length_encode (t : Tree) : (encode t).length = encodedLength t := by
  cases t with
  | list items =>
    simp only [encode, encodedLength, List.cons_append, List.length_cons, List.length_append,
      length_leBytes, length_encodeItems items]
    omega
  | map entries =>
    simp only [encode, encodedLength, List.cons_append, List.length_cons, List.length_append,
      length_leBytes, length_encodeEntries entries]
    omega
  | text s => simp [encode, encodedLength]; omega
  | bytes b => simp [encode, encodedLength]; omega
  | _ => simp [encode, encodedLength]

theorem length_encodeItems (items : List Tree) :
    (encodeItems items).length = itemsLength items := by
  cases items with
  | nil => rfl
  | cons t rest =>
    rw [encodeItems, itemsLength, List.length_append, length_encode t, length_encodeItems rest]

theorem length_encodeEntries (entries : List (String × Tree)) :
    (encodeEntries entries).length = entriesLength entries := by
  cases entries with
  | nil => rfl
  | cons e rest =>
    obtain ⟨key, t⟩ := e
    simp only [encodeEntries, entriesLength, List.length_append, length_leBytes, length_encode t,
      length_encodeEntries rest]

end

theorem encodedLength_pos (t : Tree) : 0 < encodedLength t := by
  cases t <;> simp only [encodedLength] <;> omega

theorem length_le_itemsLength (items : List Tree) : items.length ≤ itemsLength items := by
  induction items with
  | nil => exact Nat.le_refl 0
  | cons t rest ih =>
    have hpos := encodedLength_pos t
    simp only [List.length_cons, itemsLength]
    omega

/-! ## Reading the parts -/

theorem take_append (part : Part) (b rest : Bytes) :
    take part b.length (b ++ rest) = .ok (b, rest) := by
  simp [take]

/-- Of a number that is too wide only the low bytes are there. -/
theorem takeNumber_leBytes_mod (part : Part) (width n : Nat) (rest : Bytes) :
    takeNumber part width (leBytes width n ++ rest) = .ok (n % 256 ^ width, rest) := by
  have htake := take_append part (leBytes width n) rest
  rw [length_leBytes] at htake
  rw [takeNumber, htake]
  simp [bind, Except.bind, pure, Except.pure, leValue_leBytes]

theorem takeNumber_leBytes (part : Part) {width n : Nat} (h : n < 256 ^ width) (rest : Bytes) :
    takeNumber part width (leBytes width n ++ rest) = .ok (n, rest) := by
  rw [takeNumber_leBytes_mod, Nat.mod_eq_of_lt h]

theorem takeText_utf8 (s : String) (rest : Bytes) :
    takeText (utf8 s).length (utf8 s ++ rest) = .ok (s, rest) := by
  rw [takeText, take_append]
  simp [bind, Except.bind, pure, Except.pure, Utf8.read_utf8, Except.mapError]

/-! ## Reading trees

Reading goes level by level, so the proof is an induction on the levels left. The lists inside a
tree are read by the reader of the next level, about which the hypothesis speaks. -/

/-- `one` reads the tree from what was written, unless it has too many levels. -/
def ReadsBack (one : Bytes → Except Fault (Tree × Bytes)) (levels : Nat) (t : Tree) : Prop :=
  ∀ rest, one (encode t ++ rest) = if depth t < levels then .ok (t, rest) else .error .tooDeep

theorem decodeItems_encodeItems {one : Bytes → Except Fault (Tree × Bytes)} {levels : Nat}
    {items : List Tree} (h : ∀ t ∈ items, ReadsBack one levels t) (rest : Bytes) :
    decodeItems one items.length (encodeItems items ++ rest) =
      if itemsDepth items ≤ levels then .ok (items, rest) else .error .tooDeep := by
  induction items with
  | nil => simp [decodeItems, encodeItems, itemsDepth]
  | cons t items ih =>
    have hitems := ih (fun u hu => h u (List.mem_cons_of_mem _ hu))
    rw [encodeItems, List.append_assoc, List.length_cons, decodeItems,
      h t List.mem_cons_self (encodeItems items ++ rest)]
    by_cases ht : depth t < levels
    · by_cases hrest : itemsDepth items ≤ levels
      · have hall : itemsDepth (t :: items) ≤ levels := by rw [itemsDepth]; omega
        simp [ht, hrest, hall, hitems, bind, Except.bind, pure, Except.pure]
      · have hall : ¬ itemsDepth (t :: items) ≤ levels := by rw [itemsDepth]; omega
        simp [ht, hrest, hall, hitems, bind, Except.bind]
    · have hall : ¬ itemsDepth (t :: items) ≤ levels := by rw [itemsDepth]; omega
      simp [ht, hall, bind, Except.bind]

theorem decodeEntries_encodeEntries {one : Bytes → Except Fault (Tree × Bytes)} {levels : Nat}
    {entries : List (String × Tree)} (hkeys : ∀ e ∈ entries, (utf8 e.1).length < 2 ^ 16)
    (h : ∀ e ∈ entries, ReadsBack one levels e.2) (seen : Table String Tree) (rest : Bytes) :
    decodeEntries one entries.length seen (encodeEntries entries ++ rest) =
      if entriesDepth entries ≤ levels then
        .ok (entries.foldl (fun t e => t.put e.1 e.2) seen, rest)
      else .error .tooDeep := by
  induction entries generalizing seen with
  | nil => simp [decodeEntries, encodeEntries, entriesDepth]
  | cons e entries ih =>
    obtain ⟨key, t⟩ := e
    have hkey : (utf8 key).length < 256 ^ 2 := hkeys (key, t) List.mem_cons_self
    have hentries := ih (fun e he => hkeys e (List.mem_cons_of_mem _ he))
      (fun e he => h e (List.mem_cons_of_mem _ he)) (seen.put key t)
    rw [encodeEntries, List.append_assoc, List.append_assoc, List.append_assoc, List.length_cons,
      decodeEntries, takeNumber_leBytes .keyLength hkey]
    simp only [bind, Except.bind, takeText_utf8]
    rw [h (key, t) List.mem_cons_self (encodeEntries entries ++ rest)]
    by_cases ht : depth t < levels
    · by_cases hrest : entriesDepth entries ≤ levels
      · have hall : entriesDepth ((key, t) :: entries) ≤ levels := by rw [entriesDepth]; omega
        simp [ht, hrest, hall, hentries]
      · have hall : ¬ entriesDepth ((key, t) :: entries) ≤ levels := by rw [entriesDepth]; omega
        simp [ht, hrest, hall, hentries]
    · have hall : ¬ entriesDepth ((key, t) :: entries) ≤ levels := by rw [entriesDepth]; omega
      simp [ht, hall]

theorem decodeNext_cons (levels : Nat) (tag : UInt8) (input : Bytes) :
    decodeNext (levels + 1) (tag :: input) = decodeBody (decodeNext levels) tag input := by
  simp [decodeNext, take, bind, Except.bind]

/-- **Reading undoes writing**, as far as the levels go. -/
theorem decodeNext_encode {t : Tree} (h : t.Fits) (levels : Nat) :
    ReadsBack (decodeNext levels) levels t := by
  induction levels generalizing t with
  | zero => intro rest; simp [decodeNext]
  | succ levels ih =>
    intro rest
    cases h with
    | null => simp [encode, decodeNext_cons, decodeBody, depth]
    | bool b =>
      cases b <;>
        simp [encode, decodeNext_cons, decodeBody, depth, takeNumber, take, bind, Except.bind,
          pure, Except.pure, leValue]
    | uint n =>
      have hn : n.toNat < 256 ^ 8 := n.toNat_lt
      rw [encode, List.cons_append, decodeNext_cons, decodeBody, takeNumber_leBytes .uint hn]
      simp [bind, Except.bind, pure, Except.pure, depth]
    | int n =>
      have hn : n.toUInt64.toNat < 256 ^ 8 := n.toUInt64.toNat_lt
      rw [encode, List.cons_append, decodeNext_cons, decodeBody, takeNumber_leBytes .int hn]
      simp [bind, Except.bind, pure, Except.pure, depth]
    | float bits =>
      have hn : bits.toNat < 256 ^ 8 := bits.toNat_lt
      rw [encode, List.cons_append, decodeNext_cons, decodeBody, takeNumber_leBytes .float hn]
      simp [bind, Except.bind, pure, Except.pure, depth]
    | @text s hs =>
      rw [encode, List.cons_append, List.cons_append, List.append_assoc, decodeNext_cons,
        decodeBody, takeNumber_leBytes .textLength hs]
      simp [bind, Except.bind, pure, Except.pure, takeText_utf8, depth]
    | @bytes b hb =>
      rw [encode, List.cons_append, List.cons_append, List.append_assoc, decodeNext_cons,
        decodeBody, takeNumber_leBytes .bytesLength hb]
      simp [bind, Except.bind, pure, Except.pure, take_append, depth]
    | @list items hlength hitems =>
      have hread := decodeItems_encodeItems (fun t ht => ih (hitems t ht)) rest
      have hroom : ¬ (encodeItems items ++ rest).length < items.length := by
        have := length_le_itemsLength items
        rw [List.length_append, length_encodeItems]
        omega
      rw [encode, List.cons_append, List.cons_append, List.append_assoc, decodeNext_cons,
        decodeBody, takeNumber_leBytes .listLength hlength]
      simp only [bind, Except.bind, pure, Except.pure, hroom, if_false, hread, depth,
        Nat.lt_succ_iff]
      by_cases hdepth : itemsDepth items ≤ levels <;> simp [hdepth]
    | @map entries hlength hsorted hkeys hvalues =>
      have hread := decodeEntries_encodeEntries hkeys (fun e he => ih (hvalues e he)) [] rest
      have hentries : entries.foldl (fun t e => Table.put t e.1 e.2) [] = entries :=
        Table.ofEntries_eq_self hsorted
      rw [encode, List.cons_append, List.cons_append, List.append_assoc, decodeNext_cons,
        decodeBody, takeNumber_leBytes .mapLength hlength]
      simp only [bind, Except.bind, pure, Except.pure, hread, hentries, depth, Nat.lt_succ_iff]
      by_cases hdepth : entriesDepth entries ≤ levels <;> simp [hdepth]

/-- What was written is read back if it is not too deep, and refused otherwise. -/
theorem decode_encode {t : Tree} (h : t.Fits) :
    decode (encode t) = if depth t ≤ maxDepth then .ok t else .error .tooDeep := by
  have hread := decodeNext_encode h (maxDepth + 1) []
  rw [List.append_nil] at hread
  rw [decode, hread]
  simp only [bind, Except.bind, pure, Except.pure, Nat.lt_succ_iff]
  by_cases hdepth : depth t ≤ maxDepth <;> simp [hdepth]

end Tree

end Stepcast
