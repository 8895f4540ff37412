import Stepcast.Proofs.Wire.Nesting
import Stepcast.Proofs.Wire.Prefixes
import Stepcast.Proofs.Wire.TextOrder

/-!
# What accepted bytes spell

Reading a tree forgets some of what stands in the bytes: which byte stood for a truth value, in what
order the entries of a map came, and all entries of a repeated key but the last. A form is a tree
with all this. Accepted bytes spell exactly one form, and the tree that is read from them is the
tree of that form.

Written trees are spelled by the forms that forget nothing, so writing what was read gives the bytes
back just if their form is one of these: its truth values stand as 0 or 1, and the keys of its maps
increase. Otherwise what is written is another spelling of the same tree, and never a longer one.

Main statements: `exists_of_decodeNext`, `write_append_inj`, `encode_tree_eq_write_iff`,
`encode_of_decode`.
-/

namespace Stepcast

/-- A tree as it stands in bytes: a truth value with its byte, and a map with its entries as they
come. -/
inductive Form where
  | null
  | bool (byte : UInt8)
  | uint (value : UInt64)
  | int (value : Int64)
  | float (bits : UInt64)
  | text (value : String)
  | bytes (value : Bytes)
  | list (items : List Form)
  | map (entries : List (String × Form))

namespace Form

/-! ## Bytes and trees of a form -/

mutual

/-- The bytes in which a form stands. -/
def write : Form → Bytes
  | null => [0x01]
  | bool byte => [0x02, byte]
  | uint n => 0x03 :: leBytes 8 n.toNat
  | int n => 0x04 :: leBytes 8 n.toUInt64.toNat
  | float bits => 0x05 :: leBytes 8 bits.toNat
  | text s => 0x06 :: leBytes 4 (utf8 s).length ++ utf8 s
  | bytes b => 0x07 :: leBytes 4 b.length ++ b
  | list items => 0x08 :: leBytes 4 items.length ++ writeItems items
  | map entries => 0x09 :: leBytes 4 entries.length ++ writeEntries entries

/-- The bytes of forms, one after the other. -/
def writeItems : List Form → Bytes
  | [] => []
  | f :: rest => write f ++ writeItems rest

/-- The bytes of entries: each key with its length, then the form. -/
def writeEntries : List (String × Form) → Bytes
  | [] => []
  | (key, f) :: rest => leBytes 2 (utf8 key).length ++ utf8 key ++ write f ++ writeEntries rest

end

mutual

/-- The tree that a form stands for. -/
def tree : Form → Tree
  | null => .null
  | bool byte => .bool (byte != 0)
  | uint n => .uint n
  | int n => .int n
  | float bits => .float bits
  | text s => .text s
  | bytes b => .bytes b
  | list items => .list (treeItems items)
  | map entries => .map (Table.ofEntries (treeEntries entries))

def treeItems : List Form → List Tree
  | [] => []
  | f :: rest => tree f :: treeItems rest

def treeEntries : List (String × Form) → List (String × Tree)
  | [] => []
  | (key, f) :: rest => (key, tree f) :: treeEntries rest

end

mutual

/-- The form in which a tree is written. -/
def ofTree : Tree → Form
  | .null => null
  | .bool b => bool (if b then 1 else 0)
  | .uint n => uint n
  | .int n => int n
  | .float bits => float bits
  | .text s => text s
  | .bytes b => bytes b
  | .list items => list (ofItems items)
  | .map entries => map (ofEntries entries)

def ofItems : List Tree → List Form
  | [] => []
  | t :: rest => ofTree t :: ofItems rest

def ofEntries : List (String × Tree) → List (String × Form)
  | [] => []
  | (key, t) :: rest => (key, ofTree t) :: ofEntries rest

end

theorem treeItems_eq_map (items : List Form) : treeItems items = items.map tree := by
  induction items with
  | nil => rfl
  | cons f rest ih => rw [treeItems, ih, List.map_cons]

theorem treeEntries_eq_map (entries : List (String × Form)) :
    treeEntries entries = entries.map (fun e => (e.1, e.2.tree)) := by
  induction entries with
  | nil => rfl
  | cons e rest ih => rw [treeEntries, ih, List.map_cons]

theorem ofItems_eq_map (items : List Tree) : ofItems items = items.map ofTree := by
  induction items with
  | nil => rfl
  | cons t rest ih => rw [ofItems, ih, List.map_cons]

theorem ofEntries_eq_map (entries : List (String × Tree)) :
    ofEntries entries = entries.map (fun e => (e.1, ofTree e.2)) := by
  induction entries with
  | nil => rfl
  | cons e rest ih => rw [ofEntries, ih, List.map_cons]

theorem length_ofItems (items : List Tree) : (ofItems items).length = items.length := by
  rw [ofItems_eq_map, List.length_map]

theorem length_ofEntries (entries : List (String × Tree)) :
    (ofEntries entries).length = entries.length := by
  rw [ofEntries_eq_map, List.length_map]

/-! ## Forms that can be read -/

/-- The lengths in the form fit into their widths, and it has no more than the given number of
levels. -/
inductive Fits : (levels : Nat) → Form → Prop
  | null {n : Nat} : Fits (n + 1) null
  | bool {n : Nat} (byte : UInt8) : Fits (n + 1) (bool byte)
  | uint {n : Nat} (value : UInt64) : Fits (n + 1) (uint value)
  | int {n : Nat} (value : Int64) : Fits (n + 1) (int value)
  | float {n : Nat} (bits : UInt64) : Fits (n + 1) (float bits)
  | text {n : Nat} {s : String} : (utf8 s).length < 2 ^ 32 → Fits (n + 1) (text s)
  | bytes {n : Nat} {b : Bytes} : b.length < 2 ^ 32 → Fits (n + 1) (bytes b)
  | list {n : Nat} {items : List Form} : items.length < 2 ^ 32 → (∀ f ∈ items, Fits n f) →
      Fits (n + 1) (list items)
  | map {n : Nat} {entries : List (String × Form)} : entries.length < 2 ^ 32 →
      (∀ e ∈ entries, (utf8 e.1).length < 2 ^ 16) → (∀ e ∈ entries, Fits n e.2) →
      Fits (n + 1) (map entries)

/-- The bytes spell the form, within the levels that reading allows. -/
structure Spells (f : Form) (input : Bytes) : Prop where
  fits : f.Fits (Tree.maxDepth + 1)
  write_eq : f.write = input

/-- `Within g f` says that the form `g` is the form `f` or stands somewhere in it. -/
inductive Within : Form → Form → Prop
  | refl (f : Form) : Within f f
  | item {g f : Form} {items : List Form} : f ∈ items → Within g f → Within g (list items)
  | value {g f : Form} {key : String} {entries : List (String × Form)} :
      (key, f) ∈ entries → Within g f → Within g (map entries)

/-- Each truth value in the form stands as 0 or 1, and the keys of each map increase strictly in
the order of their bytes. -/
structure Canonical (f : Form) : Prop where
  bools : ∀ byte, Within (bool byte) f → byte = 0 ∨ byte = 1
  keys : ∀ entries, Within (map entries) f → entries.Pairwise (fun a b => utf8 a.1 < utf8 b.1)

end Form

namespace Tree

/-! ## What the parts were read from -/

section Parts

variable {part : Part} {count width n : Nat} {input head rest : Bytes} {s : String}

theorem take_eq_ok (h : take part count input = .ok (head, rest)) :
    input = head ++ rest ∧ head.length = count := by
  simp only [take, List.length_take] at h
  split at h
  · cases h
  · cases h
    refine ⟨(List.take_append_drop _ _).symm, ?_⟩
    rw [List.length_take]
    omega

theorem takeNumber_eq_ok (h : takeNumber part width input = .ok (n, rest)) :
    input = leBytes width n ++ rest ∧ n < 256 ^ width := by
  obtain ⟨⟨raw, left⟩, htake, hnumber⟩ := bind_eq_ok.mp h
  cases hnumber
  obtain ⟨rfl, rfl⟩ := take_eq_ok htake
  exact ⟨by rw [leBytes_leValue], leValue_lt raw⟩

theorem word_of_takeNumber {f : UInt64 → Tree} {t : Tree}
    (h : (do
      let (n, rest) ← takeNumber part 8 input
      return (f (UInt64.ofNat n), rest)) = Except.ok (t, rest)) :
    ∃ word, f word = t ∧ input = leBytes 8 word.toNat ++ rest := by
  obtain ⟨⟨n, left⟩, hnumber, hend⟩ := bind_eq_ok.mp h
  cases hend
  obtain ⟨rfl, hn⟩ := takeNumber_eq_ok hnumber
  exact ⟨UInt64.ofNat n, rfl, by rw [UInt64.toNat_ofNat_of_lt' hn]⟩

theorem takeText_eq_ok (h : takeText count input = .ok (s, rest)) :
    input = utf8 s ++ rest ∧ (utf8 s).length = count := by
  obtain ⟨⟨raw, left⟩, htake, htext⟩ := bind_eq_ok.mp h
  obtain ⟨s', hread, hend⟩ := bind_eq_ok.mp htext
  cases hend
  obtain ⟨rfl, rfl⟩ := take_eq_ok htake
  rw [Utf8.utf8_of_read (mapError_eq_ok.mp hread)]
  exact ⟨rfl, rfl⟩

end Parts

end Tree

namespace Form

/-! ## Accepted bytes spell a form -/

section Reading

/-- What `one` reads is spelled by the bytes that it takes. -/
def Reads (levels : Nat) (one : Bytes → Except Tree.Fault (Tree × Bytes)) : Prop :=
  ∀ {input t rest}, one input = .ok (t, rest) →
    ∃ f, Fits levels f ∧ f.tree = t ∧ input = f.write ++ rest

variable {levels : Nat} {one : Bytes → Except Tree.Fault (Tree × Bytes)}

theorem exists_of_decodeItems (hone : Reads levels one) {count : Nat} {input rest : Bytes}
    {items : List Tree} (h : Tree.decodeItems one count input = .ok (items, rest)) :
    ∃ fs : List Form, fs.length = count ∧ (∀ f ∈ fs, Fits levels f) ∧ treeItems fs = items ∧
      input = writeItems fs ++ rest := by
  induction count generalizing input items with
  | zero =>
    cases h
    exact ⟨[], rfl, fun _ hf => absurd hf List.not_mem_nil, rfl, rfl⟩
  | succ count ih =>
    obtain ⟨⟨t, left⟩, hfirst, hnext⟩ := bind_eq_ok.mp h
    obtain ⟨⟨ts, left'⟩, hrest, hend⟩ := bind_eq_ok.mp hnext
    cases hend
    obtain ⟨f, hfits, rfl, rfl⟩ := hone hfirst
    obtain ⟨fs, rfl, hall, rfl, rfl⟩ := ih hrest
    exact ⟨f :: fs, rfl, List.forall_mem_cons.mpr ⟨hfits, hall⟩, rfl,
      by rw [writeItems, List.append_assoc]⟩

theorem exists_of_decodeEntries (hone : Reads levels one) {count : Nat} {input rest : Bytes}
    {seen found : Table String Tree}
    (h : Tree.decodeEntries one count seen input = .ok (found, rest)) :
    ∃ es : List (String × Form), es.length = count ∧
      (∀ e ∈ es, (utf8 e.1).length < 2 ^ 16) ∧ (∀ e ∈ es, Fits levels e.2) ∧
      (treeEntries es).foldl (fun t e => t.put e.1 e.2) seen = found ∧
      input = writeEntries es ++ rest := by
  induction count generalizing input seen with
  | zero =>
    cases h
    exact ⟨[], rfl, fun _ he => absurd he List.not_mem_nil,
      fun _ he => absurd he List.not_mem_nil, rfl, rfl⟩
  | succ count ih =>
    obtain ⟨⟨length, left⟩, hlength, hnext⟩ := bind_eq_ok.mp h
    obtain ⟨⟨key, left'⟩, hkey, hnext⟩ := bind_eq_ok.mp hnext
    obtain ⟨⟨t, left''⟩, hvalue, hrest⟩ := bind_eq_ok.mp hnext
    obtain ⟨rfl, hshort⟩ := Tree.takeNumber_eq_ok hlength
    obtain ⟨rfl, rfl⟩ := Tree.takeText_eq_ok hkey
    obtain ⟨f, hfits, rfl, rfl⟩ := hone hvalue
    obtain ⟨es, rfl, hkeys, hall, rfl, rfl⟩ := ih hrest
    exact ⟨(key, f) :: es, rfl, List.forall_mem_cons.mpr ⟨hshort, hkeys⟩,
      List.forall_mem_cons.mpr ⟨hfits, hall⟩, rfl, by simp only [writeEntries, List.append_assoc]⟩

theorem exists_of_decodeBody (hone : Reads levels one) {tag : UInt8} {input rest : Bytes}
    {t : Tree} (h : Tree.decodeBody one tag input = .ok (t, rest)) :
    ∃ f, Fits (levels + 1) f ∧ f.tree = t ∧ tag :: input = f.write ++ rest := by
  unfold Tree.decodeBody at h
  split at h
  · cases h
    exact ⟨null, .null, rfl, rfl⟩
  · obtain ⟨⟨b, left⟩, hnumber, hend⟩ := bind_eq_ok.mp h
    cases hend
    obtain ⟨rfl, hb⟩ := Tree.takeNumber_eq_ok hnumber
    have hzero : (UInt8.ofNat b != 0) = (b != 0) := by
      rw [Bool.eq_iff_iff, bne_iff_ne, bne_iff_ne, ne_eq, ne_eq, ← UInt8.toNat_inj,
        UInt8.toNat_ofNat_of_lt' hb]
      rfl
    exact ⟨bool (UInt8.ofNat b), .bool _, congrArg Tree.bool hzero, rfl⟩
  · obtain ⟨n, rfl, rfl⟩ := Tree.word_of_takeNumber (f := .uint) h
    exact ⟨uint n, .uint n, rfl, rfl⟩
  · obtain ⟨n, rfl, rfl⟩ := Tree.word_of_takeNumber (f := fun n => .int n.toInt64) h
    exact ⟨int n.toInt64, .int _, rfl, by
      rw [write, UInt64.toUInt64_toInt64, List.cons_append]⟩
  · obtain ⟨bits, rfl, rfl⟩ := Tree.word_of_takeNumber (f := .float) h
    exact ⟨float bits, .float bits, rfl, rfl⟩
  · obtain ⟨⟨length, left⟩, hlength, hnext⟩ := bind_eq_ok.mp h
    obtain ⟨⟨s, left'⟩, htext, hend⟩ := bind_eq_ok.mp hnext
    cases hend
    obtain ⟨rfl, hshort⟩ := Tree.takeNumber_eq_ok hlength
    obtain ⟨rfl, rfl⟩ := Tree.takeText_eq_ok htext
    exact ⟨text s, .text hshort, rfl, by
      rw [write, List.cons_append, List.cons_append, List.append_assoc]⟩
  · obtain ⟨⟨length, left⟩, hlength, hnext⟩ := bind_eq_ok.mp h
    obtain ⟨⟨b, left'⟩, hbytes, hend⟩ := bind_eq_ok.mp hnext
    cases hend
    obtain ⟨rfl, hshort⟩ := Tree.takeNumber_eq_ok hlength
    obtain ⟨rfl, rfl⟩ := Tree.take_eq_ok hbytes
    exact ⟨bytes b, .bytes hshort, rfl, by
      rw [write, List.cons_append, List.cons_append, List.append_assoc]⟩
  · obtain ⟨⟨count, left⟩, hcount, hnext⟩ := bind_eq_ok.mp h
    obtain ⟨rfl, hshort⟩ := Tree.takeNumber_eq_ok hcount
    dsimp only at hnext
    split at hnext
    · cases hnext
    · obtain ⟨⟨items, left'⟩, hitems, hend⟩ := bind_eq_ok.mp hnext
      cases hend
      obtain ⟨fs, rfl, hall, rfl, rfl⟩ := exists_of_decodeItems hone hitems
      exact ⟨list fs, .list hshort hall, rfl, by
        rw [write, List.cons_append, List.cons_append, List.append_assoc]⟩
  · obtain ⟨⟨count, left⟩, hcount, hnext⟩ := bind_eq_ok.mp h
    obtain ⟨rfl, hshort⟩ := Tree.takeNumber_eq_ok hcount
    obtain ⟨⟨found, left'⟩, hentries, hend⟩ := bind_eq_ok.mp hnext
    cases hend
    obtain ⟨es, rfl, hkeys, hall, rfl, rfl⟩ := exists_of_decodeEntries hone hentries
    exact ⟨map es, .map hshort hkeys hall, rfl, by
      rw [write, List.cons_append, List.cons_append, List.append_assoc]⟩
  · cases h

/-- **What is read is spelled by the bytes that were taken.** -/
theorem exists_of_decodeNext (levels : Nat) : Reads levels (Tree.decodeNext levels) := by
  induction levels with
  | zero => exact fun h => by cases h
  | succ levels ih =>
    intro input t rest h
    obtain ⟨⟨raw, left⟩, htag, hbody⟩ := bind_eq_ok.mp h
    obtain ⟨rfl, hone⟩ := Tree.take_eq_ok htag
    obtain ⟨tag, rfl⟩ := List.length_eq_one_iff.mp hone
    exact exists_of_decodeBody ih hbody

end Reading

/-! ## No bytes spell two forms -/

section Unambiguous

/-- Numbers that fit into a width are told apart by what is written. -/
theorem leBytes_append_inj {width m n : Nat} (hm : m < 256 ^ width) (hn : n < 256 ^ width)
    {r s : Bytes} (h : leBytes width m ++ r = leBytes width n ++ s) : m = n ∧ r = s := by
  obtain ⟨hbytes, hrest⟩ := List.append_inj h (by rw [length_leBytes, length_leBytes])
  have hvalue := congrArg leValue hbytes
  rw [leValue_leBytes, leValue_leBytes, Nat.mod_eq_of_lt hm, Nat.mod_eq_of_lt hn] at hvalue
  exact ⟨hvalue, hrest⟩

/-- So are bytes that stand behind their number. -/
theorem counted_append_inj {width : Nat} {a b r s : Bytes} (ha : a.length < 256 ^ width)
    (hb : b.length < 256 ^ width)
    (h : leBytes width a.length ++ a ++ r = leBytes width b.length ++ b ++ s) :
    a = b ∧ r = s := by
  rw [List.append_assoc, List.append_assoc] at h
  obtain ⟨hlength, hrest⟩ := leBytes_append_inj ha hb h
  exact List.append_inj hrest hlength

/-- Nothing but the form itself begins with its bytes. -/
def Unambiguous (f : Form) : Prop :=
  ∀ {levels g r s}, Fits levels g → f.write ++ r = g.write ++ s → f = g ∧ r = s

variable {levels : Nat} {r s : Bytes}

theorem writeItems_append_inj {items items' : List Form} (hitems : ∀ f ∈ items, Unambiguous f)
    (hitems' : ∀ f ∈ items', Fits levels f) (hlength : items.length = items'.length)
    (h : writeItems items ++ r = writeItems items' ++ s) : items = items' ∧ r = s := by
  induction items generalizing items' with
  | nil =>
    cases items' with
    | nil => exact ⟨rfl, h⟩
    | cons f' rest' => cases hlength
  | cons f rest ih =>
    cases items' with
    | nil => cases hlength
    | cons f' rest' =>
      obtain ⟨hf, hrest⟩ := List.forall_mem_cons.mp hitems
      obtain ⟨hf', hrest'⟩ := List.forall_mem_cons.mp hitems'
      rw [writeItems, writeItems, List.append_assoc, List.append_assoc] at h
      obtain ⟨rfl, hnext⟩ := hf hf' h
      obtain ⟨rfl, hend⟩ := ih hrest hrest' (Nat.succ.inj hlength) hnext
      exact ⟨rfl, hend⟩

theorem writeEntries_append_inj {entries entries' : List (String × Form)}
    (hkeys : ∀ e ∈ entries, (utf8 e.1).length < 2 ^ 16)
    (hvalues : ∀ e ∈ entries, Unambiguous e.2)
    (hkeys' : ∀ e ∈ entries', (utf8 e.1).length < 2 ^ 16)
    (hvalues' : ∀ e ∈ entries', Fits levels e.2) (hlength : entries.length = entries'.length)
    (h : writeEntries entries ++ r = writeEntries entries' ++ s) :
    entries = entries' ∧ r = s := by
  induction entries generalizing entries' with
  | nil =>
    cases entries' with
    | nil => exact ⟨rfl, h⟩
    | cons e' rest' => cases hlength
  | cons e rest ih =>
    cases entries' with
    | nil => cases hlength
    | cons e' rest' =>
      obtain ⟨key, f⟩ := e
      obtain ⟨key', f'⟩ := e'
      obtain ⟨hkey, hrestKeys⟩ := List.forall_mem_cons.mp hkeys
      obtain ⟨hkey', hrestKeys'⟩ := List.forall_mem_cons.mp hkeys'
      obtain ⟨hf, hrest⟩ := List.forall_mem_cons.mp hvalues
      obtain ⟨hf', hrest'⟩ := List.forall_mem_cons.mp hvalues'
      have hentry :
          leBytes 2 (utf8 key).length ++ utf8 key ++ (f.write ++ (writeEntries rest ++ r)) =
            leBytes 2 (utf8 key').length ++ utf8 key' ++
              (f'.write ++ (writeEntries rest' ++ s)) := by
        simpa [writeEntries] using h
      obtain ⟨hbytes, hform⟩ := counted_append_inj hkey hkey' hentry
      obtain rfl : key = key' := utf8_injective hbytes
      obtain ⟨rfl, hnext⟩ : f = f' ∧ _ := hf hf' hform
      obtain ⟨rfl, hend⟩ := ih hrestKeys hrest hrestKeys' hrest' (Nat.succ.inj hlength) hnext
      exact ⟨rfl, hend⟩

/-- **The bytes of a form can be told apart from what stands behind them**, and spell no other
form. -/
theorem write_append_inj {f : Form} (hf : Fits levels f) : Unambiguous f := by
  -- Forms of two kinds differ in the first byte, so in each case one kind remains for `g`.
  induction hf with
  | null =>
    intro m g r s hg h
    cases hg with
    | null => exact ⟨rfl, (List.cons.inj h).2⟩
    | _ => exact absurd (List.cons.inj h).1 (by decide)
  | bool byte =>
    intro m g r s hg h
    cases hg with
    | bool byte' =>
      obtain ⟨hbyte, hrest⟩ := List.cons.inj (List.cons.inj h).2
      exact ⟨congrArg bool hbyte, hrest⟩
    | _ => exact absurd (List.cons.inj h).1 (by decide)
  | uint n =>
    intro m g r s hg h
    cases hg with
    | uint n' =>
      obtain ⟨hn, hrest⟩ := leBytes_append_inj n.toNat_lt n'.toNat_lt (List.cons.inj h).2
      exact ⟨congrArg uint (UInt64.toNat_inj.mp hn), hrest⟩
    | _ => exact absurd (List.cons.inj h).1 (by decide)
  | int n =>
    intro m g r s hg h
    cases hg with
    | int n' =>
      obtain ⟨hn, hrest⟩ := leBytes_append_inj n.toUInt64.toNat_lt n'.toUInt64.toNat_lt
        (List.cons.inj h).2
      exact ⟨congrArg (fun k : UInt64 => int k.toInt64) (UInt64.toNat_inj.mp hn), hrest⟩
    | _ => exact absurd (List.cons.inj h).1 (by decide)
  | float bits =>
    intro m g r s hg h
    cases hg with
    | float bits' =>
      obtain ⟨hn, hrest⟩ := leBytes_append_inj bits.toNat_lt bits'.toNat_lt (List.cons.inj h).2
      exact ⟨congrArg float (UInt64.toNat_inj.mp hn), hrest⟩
    | _ => exact absurd (List.cons.inj h).1 (by decide)
  | @text _ v hv =>
    intro m g r s hg h
    cases hg with
    | @text _ v' hv' =>
      obtain ⟨hbytes, hrest⟩ := counted_append_inj hv hv' (List.cons.inj h).2
      exact ⟨congrArg text (utf8_injective hbytes), hrest⟩
    | _ => exact absurd (List.cons.inj h).1 (by decide)
  | @bytes _ b hb =>
    intro m g r s hg h
    cases hg with
    | @bytes _ b' hb' =>
      obtain ⟨hbytes, hrest⟩ := counted_append_inj hb hb' (List.cons.inj h).2
      exact ⟨congrArg bytes hbytes, hrest⟩
    | _ => exact absurd (List.cons.inj h).1 (by decide)
  | @list _ items hlength _ ih =>
    intro m g r s hg h
    cases hg with
    | @list _ items' hlength' hitems' =>
      have hbody : leBytes 4 items.length ++ (writeItems items ++ r) =
          leBytes 4 items'.length ++ (writeItems items' ++ s) := by simpa [write] using h
      obtain ⟨hsize, hrest⟩ := leBytes_append_inj hlength hlength' hbody
      obtain ⟨heq, hrest⟩ := writeItems_append_inj (fun f hf => ih f hf) hitems' hsize hrest
      exact ⟨congrArg list heq, hrest⟩
    | _ => exact absurd (List.cons.inj h).1 (by decide)
  | @map _ entries hlength hkeys _ ih =>
    intro m g r s hg h
    cases hg with
    | @map _ entries' hlength' hkeys' hvalues' =>
      have hbody : leBytes 4 entries.length ++ (writeEntries entries ++ r) =
          leBytes 4 entries'.length ++ (writeEntries entries' ++ s) := by simpa [write] using h
      obtain ⟨hsize, hrest⟩ := leBytes_append_inj hlength hlength' hbody
      obtain ⟨heq, hrest⟩ :=
        writeEntries_append_inj hkeys (fun e he => ih e he) hkeys' hvalues' hsize hrest
      exact ⟨congrArg map heq, hrest⟩
    | _ => exact absurd (List.cons.inj h).1 (by decide)

end Unambiguous

/-! ## The tree that is read -/

theorem tree_fits {levels : Nat} {f : Form} (h : Fits levels f) :
    f.tree.Fits ∧ f.tree.depth < levels := by
  induction h with
  | null => exact ⟨.null, Nat.succ_pos _⟩
  | bool byte => exact ⟨.bool _, Nat.succ_pos _⟩
  | uint n => exact ⟨.uint n, Nat.succ_pos _⟩
  | int n => exact ⟨.int n, Nat.succ_pos _⟩
  | float bits => exact ⟨.float bits, Nat.succ_pos _⟩
  | text hs => exact ⟨.text hs, Nat.succ_pos _⟩
  | bytes hb => exact ⟨.bytes hb, Nat.succ_pos _⟩
  | list hlength _ ih =>
    rw [tree, treeItems_eq_map]
    have hitems : ∀ t ∈ List.map tree _, t.Fits ∧ t.depth < _ := List.forall_mem_map.mpr ih
    exact ⟨.list (by rwa [List.length_map]) fun t ht => (hitems t ht).1,
      Nat.lt_succ_of_le (Tree.depth_list_le fun t ht => (hitems t ht).2)⟩
  | @map n entries hlength hkeys _ ih =>
    rw [tree, treeEntries_eq_map]
    constructor
    · refine Tree.fits_map_ofEntries (by rwa [List.length_map]) ?_ ?_
      · exact List.forall_mem_map.mpr fun e he => hkeys e he
      · exact List.forall_mem_map.mpr fun e he => (ih e he).1
    · refine Nat.lt_succ_of_le (Tree.depth_map_le fun e he => ?_)
      obtain ⟨e', he', rfl⟩ := List.mem_map.mp (Table.mem_of_mem_ofEntries he)
      exact (ih e' he').2

end Form

namespace Tree

theorem entriesLength_put_le (entries : Table String Tree) (key : String) (t : Tree) :
    entriesLength (entries.put key t) ≤
      entriesLength entries + (2 + (utf8 key).length + encodedLength t) := by
  induction entries with
  | nil => simp [Table.put, entriesLength]
  | cons e rest ih =>
    obtain ⟨key', t'⟩ := e
    unfold Table.put
    split
    · simp only [entriesLength]
      omega
    · split
      · simp only [entriesLength]
        omega
      · simp only [entriesLength]
        omega

theorem entriesLength_ofEntries_le (entries : List (String × Tree)) :
    entriesLength (Table.ofEntries entries) ≤ entriesLength entries := by
  have hfold : ∀ seen : Table String Tree,
      entriesLength (entries.foldl (fun (t : Table String Tree) e => t.put e.1 e.2) seen) ≤
        entriesLength seen + entriesLength entries := by
    induction entries with
    | nil => exact fun seen => Nat.le_refl _
    | cons e rest ih =>
      intro seen
      obtain ⟨key, t⟩ := e
      have hput := entriesLength_put_le seen key t
      have hrest := ih (seen.put key t)
      simp only [List.foldl_cons, entriesLength]
      omega
  have hempty := hfold []
  rwa [entriesLength, Nat.zero_add] at hempty

end Tree

namespace Form

mutual

theorem encodedLength_tree_le (f : Form) : f.tree.encodedLength ≤ f.write.length := by
  cases f with
  | list items =>
    have hitems := itemsLength_treeItems_le items
    simp only [tree, write, Tree.encodedLength, List.length_append, List.length_cons,
      length_leBytes]
    omega
  | map entries =>
    have hentries := entriesLength_treeEntries_le entries
    have hput := Tree.entriesLength_ofEntries_le (treeEntries entries)
    simp only [tree, write, Tree.encodedLength, List.length_append, List.length_cons,
      length_leBytes]
    omega
  | text s =>
    simp only [tree, write, Tree.encodedLength, List.length_append, List.length_cons,
      length_leBytes]
    omega
  | bytes b =>
    simp only [tree, write, Tree.encodedLength, List.length_append, List.length_cons,
      length_leBytes]
    omega
  | _ => simp [tree, write, Tree.encodedLength]

theorem itemsLength_treeItems_le (items : List Form) :
    Tree.itemsLength (treeItems items) ≤ (writeItems items).length := by
  cases items with
  | nil => exact Nat.le_refl 0
  | cons f rest =>
    have hfirst := encodedLength_tree_le f
    have hrest := itemsLength_treeItems_le rest
    simp only [treeItems, writeItems, Tree.itemsLength, List.length_append]
    omega

theorem entriesLength_treeEntries_le (entries : List (String × Form)) :
    Tree.entriesLength (treeEntries entries) ≤ (writeEntries entries).length := by
  cases entries with
  | nil => exact Nat.le_refl 0
  | cons e rest =>
    obtain ⟨key, f⟩ := e
    have hfirst := encodedLength_tree_le f
    have hrest := entriesLength_treeEntries_le rest
    simp only [treeEntries, writeEntries, Tree.entriesLength, List.length_append, length_leBytes]
    omega

end

/-! ## Canonical forms -/

mutual

theorem write_ofTree (t : Tree) : (ofTree t).write = t.encode := by
  cases t with
  | bool b => cases b <;> rfl
  | list items => rw [ofTree, write, Tree.encode, writeItems_ofItems items, length_ofItems]
  | map entries => rw [ofTree, write, Tree.encode, writeEntries_ofEntries entries, length_ofEntries]
  | _ => rfl

theorem writeItems_ofItems (items : List Tree) :
    writeItems (ofItems items) = Tree.encodeItems items := by
  cases items with
  | nil => rfl
  | cons t rest =>
    rw [ofItems, writeItems, Tree.encodeItems, write_ofTree t, writeItems_ofItems rest]

theorem writeEntries_ofEntries (entries : List (String × Tree)) :
    writeEntries (ofEntries entries) = Tree.encodeEntries entries := by
  cases entries with
  | nil => rfl
  | cons e rest =>
    obtain ⟨key, t⟩ := e
    rw [ofEntries, writeEntries, Tree.encodeEntries, write_ofTree t, writeEntries_ofEntries rest]

end

theorem fits_ofTree {t : Tree} (h : t.Fits) {levels : Nat} (hdepth : t.depth ≤ levels) :
    Fits (levels + 1) (ofTree t) := by
  induction h generalizing levels with
  | null => exact .null
  | bool b => exact .bool _
  | uint value => exact .uint value
  | int value => exact .int value
  | float bits => exact .float bits
  | text hs => exact .text hs
  | bytes hb => exact .bytes hb
  | @list items hlength _ ih =>
    rw [Tree.depth] at hdepth
    rw [ofTree, ofItems_eq_map]
    refine .list (by rwa [List.length_map]) (List.forall_mem_map.mpr fun t ht => ?_)
    have hbelow := Nat.lt_of_lt_of_le (Tree.depth_lt_itemsDepth ht) hdepth
    obtain ⟨n, rfl⟩ := Nat.exists_eq_succ_of_ne_zero (Nat.ne_zero_of_lt hbelow)
    exact ih t ht (Nat.le_of_lt_succ hbelow)
  | @map entries hlength _ hkeys _ ih =>
    rw [Tree.depth] at hdepth
    rw [ofTree, ofEntries_eq_map]
    refine .map (by rwa [List.length_map]) (List.forall_mem_map.mpr fun e he => hkeys e he)
      (List.forall_mem_map.mpr fun e he => ?_)
    have hbelow := Nat.lt_of_lt_of_le (Tree.depth_lt_entriesDepth he) hdepth
    obtain ⟨n, rfl⟩ := Nat.exists_eq_succ_of_ne_zero (Nat.ne_zero_of_lt hbelow)
    exact ih e he (Nat.le_of_lt_succ hbelow)

theorem canonical_list {items : List Form} (h : ∀ f ∈ items, Canonical f) :
    Canonical (list items) where
  bools := by
    intro byte hbyte
    cases hbyte with
    | item hf hbyte => exact (h _ hf).bools byte hbyte
  keys := by
    intro entries hentries
    cases hentries with
    | item hf hentries => exact (h _ hf).keys entries hentries

theorem canonical_map {entries : List (String × Form)}
    (hkeys : entries.Pairwise (fun a b => utf8 a.1 < utf8 b.1))
    (h : ∀ e ∈ entries, Canonical e.2) : Canonical (map entries) where
  bools := by
    intro byte hbyte
    cases hbyte with
    | value hf hbyte => exact (h _ hf).bools byte hbyte
  keys := by
    intro entries' hentries
    cases hentries with
    | refl => exact hkeys
    | value hf hentries => exact (h _ hf).keys entries' hentries

theorem Canonical.item {items : List Form} (h : Canonical (list items)) {f : Form}
    (hf : f ∈ items) : Canonical f where
  bools := fun byte hbyte => h.bools byte (.item hf hbyte)
  keys := fun entries hentries => h.keys entries (.item hf hentries)

theorem Canonical.value {entries : List (String × Form)} (h : Canonical (map entries))
    {e : String × Form} (he : e ∈ entries) : Canonical e.2 where
  bools := fun byte hbyte => h.bools byte (.value he hbyte)
  keys := fun entries hentries => h.keys entries (.value he hentries)

/-- Trees are written in canonical forms. -/
theorem canonical_ofTree {t : Tree} (h : t.Fits) : Canonical (ofTree t) := by
  induction h with
  | bool b =>
    refine ⟨fun byte hbyte => ?_, fun entries hentries => by cases hentries⟩
    cases b <;> cases hbyte
    · exact .inl rfl
    · exact .inr rfl
  | list _ _ ih =>
    rw [ofTree, ofItems_eq_map]
    exact canonical_list (List.forall_mem_map.mpr ih)
  | map _ hsorted _ _ ih =>
    rw [ofTree, ofEntries_eq_map]
    refine canonical_map ?_ (List.forall_mem_map.mpr ih)
    exact List.pairwise_map.mpr (hsorted.imp fun hlt => utf8_lt hlt)
  | _ =>
    exact ⟨fun byte hbyte => (by cases hbyte), fun entries hentries => (by cases hentries)⟩

theorem encodeItems_treeItems {items : List Form} (h : ∀ f ∈ items, f.tree.encode = f.write) :
    Tree.encodeItems (treeItems items) = writeItems items := by
  induction items with
  | nil => rfl
  | cons f rest ih =>
    obtain ⟨hf, hrest⟩ := List.forall_mem_cons.mp h
    rw [treeItems, Tree.encodeItems, writeItems, hf, ih hrest]

theorem encodeEntries_treeEntries {entries : List (String × Form)}
    (h : ∀ e ∈ entries, e.2.tree.encode = e.2.write) :
    Tree.encodeEntries (treeEntries entries) = writeEntries entries := by
  induction entries with
  | nil => rfl
  | cons e rest ih =>
    obtain ⟨key, f⟩ := e
    obtain ⟨hf, hrest⟩ := List.forall_mem_cons.mp h
    rw [treeEntries, Tree.encodeEntries, writeEntries, hf, ih hrest]

theorem encode_tree_of_canonical {levels : Nat} {f : Form} (h : Fits levels f)
    (hcanonical : f.Canonical) : f.tree.encode = f.write := by
  induction h with
  | bool byte =>
    rcases hcanonical.bools byte (.refl _) with rfl | rfl
    · rfl
    · rfl
  | @list _ items hlength _ ih =>
    have hitems := encodeItems_treeItems fun f hf => ih f hf (hcanonical.item hf)
    rw [tree, Tree.encode, write, hitems, treeItems_eq_map, List.length_map]
  | @map _ entries hlength _ _ ih =>
    have hentries := encodeEntries_treeEntries fun e he => ih e he (hcanonical.value he)
    have hsorted : Table.Sorted (treeEntries entries) := by
      rw [treeEntries_eq_map]
      exact List.pairwise_map.mpr
        ((hcanonical.keys entries (.refl _)).imp fun hlt => utf8_lt_iff.mp hlt)
    rw [tree, Table.ofEntries_eq_self hsorted, Tree.encode, write, hentries, treeEntries_eq_map,
      List.length_map]
  | _ => rfl

/-- **Writing gives the bytes of a form back** just if the form is canonical. -/
theorem encode_tree_eq_write_iff {levels : Nat} {f : Form} (h : Fits levels f) :
    f.tree.encode = f.write ↔ f.Canonical := by
  refine ⟨fun heq => ?_, encode_tree_of_canonical h⟩
  have hfits := (tree_fits h).1
  have hsame : f.write ++ [] = (ofTree f.tree).write ++ [] := by rw [write_ofTree, heq]
  rw [(write_append_inj h (fits_ofTree hfits (Nat.le_refl _)) hsame).1]
  exact canonical_ofTree hfits

end Form

namespace Tree

/-! ## Writing what was read -/

/-- **Reading normalises, and forgets nothing of canonical bytes.** What was read is written in no
more bytes, and these are read as the same tree. Accepted bytes spell one form and no other, and
writing gives them back just if in this form each truth value stands as 0 or 1 and the keys of each
map increase strictly in byte order. -/
theorem encode_of_decode {input : Bytes} {t : Tree} (h : decode input = .ok t) :
    (encode t).length ≤ input.length ∧ decode (encode t) = .ok t ∧
      ∃ f : Form, f.Spells input ∧ (∀ g : Form, g.Spells input → g = f) ∧ f.tree = t ∧
        (encode t = input ↔ f.Canonical) := by
  obtain ⟨f, hfits, rfl, hwrite⟩ := Form.exists_of_decodeNext _ (decodeNext_of_decode h)
  rw [List.append_nil] at hwrite
  subst hwrite
  obtain ⟨htree, hdepth⟩ := Form.tree_fits hfits
  refine ⟨?_, ?_, f, ⟨hfits, rfl⟩, fun g hg => ?_, rfl, Form.encode_tree_eq_write_iff hfits⟩
  · rw [length_encode]
    exact f.encodedLength_tree_le
  · rw [decode_encode htree, if_pos (Nat.le_of_lt_succ hdepth)]
  · have hsame : g.write ++ [] = f.write ++ [] := by rw [hg.write_eq]
    exact (Form.write_append_inj hg.fits hfits hsame).1

/-- A map with a repeated key, a key out of order, and a truth value that stands as 2. -/
def looseForm : Form :=
  .map [("b", .bool 2), ("a", .list [.bool 1, .null]), ("b", .bool 0)]

theorem encode_of_decode_sample :
    let t := map [("a", .list [.bool true, .null]), ("b", .bool false)]
    decode looseForm.write = .ok t ∧ (encode t).length ≤ looseForm.write.length ∧
      decode (encode t) = .ok t ∧ encode t ≠ looseForm.write ∧
      (∃ f : Form, f.Spells looseForm.write ∧ ¬ f.Canonical) ∧
      ∃ f : Form, f.Spells (encode t) ∧ f.Canonical := by
  intro t
  have hread : decode looseForm.write = .ok t := by rfl
  have hne : encode t ≠ looseForm.write := by decide
  obtain ⟨hlength, hback, f, hspells, -, -, hexact⟩ := encode_of_decode hread
  obtain ⟨-, -, g, hspells', -, -, hexact'⟩ := encode_of_decode hback
  exact ⟨hread, hlength, hback, hne, ⟨f, hspells, fun hcanonical => hne (hexact.mpr hcanonical)⟩,
    g, hspells', hexact'.mp rfl⟩

end Tree

end Stepcast
