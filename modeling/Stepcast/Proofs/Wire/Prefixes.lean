import Stepcast.Fault
import Stepcast.Proofs.Outcomes
import Stepcast.Tree.Codec

/-!
# Trees that end elsewhere

Reading a tree takes bytes from the front and never looks at those behind it, but for one check:
before the items of a list are read, as many bytes must be left as there are items. More bytes
behind the tree can only make room, and fewer can only stop the reading for want of bytes. So a
reader is steady in two ways: what it reads it also reads with more bytes behind, and when the input
is cut, it either reads the same or finds it truncated.

Main statements: `steady_decodeNext`, `decode_prefixFree`.
-/

namespace Stepcast

namespace Tree

variable {α β : Type} {read : Bytes → Except Fault (α × Bytes)}
  {one : Bytes → Except Fault (Tree × Bytes)}

/-- The input has fewer bytes than were needed. -/
inductive Fault.Short : Fault → Prop
  | mk {part : Part} {needed available : Nat} : available < needed →
      Short (.truncated part needed available)

/-- More bytes at the end are left over, and when bytes at the end are missing, the reader reads the
same or runs short. -/
structure Steady (read : Bytes → Except Fault (α × Bytes)) : Prop where
  append : ∀ {input a rest}, read input = .ok (a, rest) →
    ∀ more, read (input ++ more) = .ok (a, rest ++ more)
  cut : ∀ {input more a rest}, read (input ++ more) = .ok (a, rest) →
    (∃ rest', read input = .ok (a, rest') ∧ rest = rest' ++ more) ∨
      ∃ f, read input = .error f ∧ f.Short

/-! ## Steady readers -/

theorem steady_pure (a : α) : Steady (fun input => .ok (a, input)) where
  append := fun h more => by
    cases h
    rfl
  cut := fun h => by
    cases h
    exact .inl ⟨_, rfl, rfl⟩

theorem steady_error (f : Fault) : Steady (fun _ => (.error f : Except Fault (α × Bytes))) where
  append := fun h => by cases h
  cut := fun h => by cases h

/-- One after the other, steady readers are steady. -/
theorem Steady.bind {next : α → Bytes → Except Fault (β × Bytes)} (hread : Steady read)
    (hnext : ∀ a, Steady (next a)) :
    Steady (fun input => read input >>= fun r => next r.1 r.2) where
  append := by
    intro input b rest h more
    obtain ⟨⟨a, left⟩, hfirst, hsecond⟩ := bind_eq_ok.mp h
    show (read (input ++ more) >>= _) = _
    rw [hread.append hfirst more]
    exact (hnext a).append hsecond more
  cut := by
    intro input more b rest h
    obtain ⟨⟨a, left⟩, hfirst, hsecond⟩ := bind_eq_ok.mp h
    rcases hread.cut hfirst with ⟨left', hfirst', rfl⟩ | ⟨f, hfirst', hshort⟩
    · simp only [hfirst']
      exact (hnext a).cut hsecond
    · simp only [hfirst']
      exact .inr ⟨f, rfl, hshort⟩

/-- Asking for room is steady, although it looks at bytes that are read later or not at all. -/
theorem Steady.room (hread : Steady read) (part : Part) (count : Nat) :
    Steady (fun input => if input.length < count
      then .error (.truncated part count input.length) else read input) where
  append := by
    intro input a rest h more
    split at h
    · cases h
    · rw [if_neg (by rw [List.length_append]; omega)]
      exact hread.append h more
  cut := by
    intro input more a rest h
    split at h
    · cases h
    · split
      · next hroom => exact .inr ⟨_, rfl, .mk hroom⟩
      · exact hread.cut h

/-! ## The parts of a tree -/

theorem steady_take (part : Part) (count : Nat) : Steady (take part count) where
  append := by
    intro input head rest h more
    simp only [take, List.length_take] at h ⊢
    split at h
    · cases h
    · next hroom =>
      cases h
      have hle : count ≤ input.length := by omega
      rw [if_neg (by rw [List.length_append]; omega), List.take_append_of_le_length hle,
        List.drop_append_of_le_length hle]
  cut := by
    intro input more head rest h
    simp only [take, List.length_take] at h ⊢
    split at h
    · cases h
    · cases h
      split
      · exact .inr ⟨_, rfl, .mk (by omega)⟩
      · have hle : count ≤ input.length := by omega
        rw [List.take_append_of_le_length hle, List.drop_append_of_le_length hle]
        exact .inl ⟨_, rfl, rfl⟩

theorem steady_takeNumber (part : Part) (width : Nat) : Steady (takeNumber part width) :=
  (steady_take part width).bind fun raw => steady_pure (leValue raw)

theorem steady_takeText (count : Nat) : Steady (takeText count) := by
  have hspell : ∀ raw, Steady (fun rest => do
      let s ← (Utf8.read raw).mapError Fault.notText
      return (s, rest)) := by
    intro raw
    cases (Utf8.read raw).mapError Fault.notText with
    | ok s => exact steady_pure s
    | error f => exact steady_error f
  exact (steady_take .text count).bind hspell

theorem steady_decodeItems (hone : Steady one) (count : Nat) :
    Steady (decodeItems one count) := by
  induction count with
  | zero => exact steady_pure []
  | succ count ih => exact hone.bind fun t => ih.bind fun items => steady_pure (t :: items)

theorem steady_decodeEntries (hone : Steady one) (count : Nat)
    (entries : Table String Tree) : Steady (decodeEntries one count entries) := by
  induction count generalizing entries with
  | zero => exact steady_pure entries
  | succ count ih =>
    exact (steady_takeNumber .keyLength 2).bind fun length => (steady_takeText length).bind
      fun key => hone.bind fun t => ih (entries.put key t)

theorem steady_decodeBody (hone : Steady one) (tag : UInt8) :
    Steady (decodeBody one tag) := by
  unfold decodeBody
  split
  · exact steady_pure null
  · exact (steady_takeNumber .bool 1).bind fun b => steady_pure (bool (b != 0))
  · exact (steady_takeNumber .uint 8).bind fun n => steady_pure (uint (UInt64.ofNat n))
  · exact (steady_takeNumber .int 8).bind fun n => steady_pure (int (UInt64.ofNat n).toInt64)
  · exact (steady_takeNumber .float 8).bind fun n => steady_pure (float (UInt64.ofNat n))
  · exact (steady_takeNumber .textLength 4).bind fun length =>
      (steady_takeText length).bind fun s => steady_pure (text s)
  · exact (steady_takeNumber .bytesLength 4).bind fun length =>
      (steady_take .bytes length).bind fun b => steady_pure (bytes b)
  · exact (steady_takeNumber .listLength 4).bind fun count =>
      ((steady_decodeItems hone count).bind fun items => steady_pure (list items)).room
        .listItems count
  · exact (steady_takeNumber .mapLength 4).bind fun count =>
      (steady_decodeEntries hone count []).bind fun entries => steady_pure (map entries)
  · exact steady_error _

/-- **Reading a tree is steady**, however many levels are left. -/
theorem steady_decodeNext (levels : Nat) : Steady (decodeNext levels) := by
  induction levels with
  | zero => exact steady_error .tooDeep
  | succ levels ih =>
    exact (steady_take .tag 1).bind fun tag => steady_decodeBody ih (tag.headD 0)

/-! ## Cutting and adding -/

theorem decodeNext_of_decode {input : Bytes} {t : Tree} (h : decode input = .ok t) :
    decodeNext (maxDepth + 1) input = .ok (t, []) := by
  obtain ⟨⟨t', rest⟩, hnext, hend⟩ := bind_eq_ok.mp h
  dsimp only at hend
  split at hend
  · next hrest =>
    cases hend
    rw [hnext, List.isEmpty_iff.mp hrest]
  · cases hend

/-- **Where an accepted byte string ends cannot be changed.** When bytes are missing at its end,
reading runs short, and when there are more, they are left over: both are protocol faults, so no
byte string that was cut or padded is read as another tree. -/
theorem decode_prefixFree {input : Bytes} {t : Tree} (h : decode input = .ok t) :
    (∀ cut, cut <+: input → cut ≠ input → ∃ part needed available, available < needed ∧
      (decode cut).mapError (fun f => Stepcast.Fault.protocol (.tree f)) =
        .error (.protocol (.tree (.truncated part needed available)))) ∧
    (∀ padded, input <+: padded → padded ≠ input →
      (decode padded).mapError (fun f => Stepcast.Fault.protocol (.tree f)) =
        .error (.protocol (.tree (.trailing (padded.length - input.length))))) := by
  have hsteady := steady_decodeNext (maxDepth + 1)
  have hnext := decodeNext_of_decode h
  constructor
  · rintro cut ⟨more, rfl⟩ hne
    rcases hsteady.cut hnext with ⟨rest, -, hrest⟩ | ⟨f, hcut, hshort⟩
    · have hmore : more = [] := (List.append_eq_nil_iff.mp hrest.symm).2
      exact absurd (by rw [hmore, List.append_nil]) hne
    · obtain @⟨part, needed, available, hlt⟩ := hshort
      refine ⟨part, needed, available, hlt, ?_⟩
      rw [decode, hcut]
      rfl
  · rintro padded ⟨more, rfl⟩ hne
    have hmore : more ≠ [] := fun hnil => hne (by rw [hnil, List.append_nil])
    rw [decode, hsteady.append hnext more, ok_bind, List.nil_append, List.length_append,
      Nat.add_sub_cancel_left]
    dsimp only
    rw [if_neg (by simpa using hmore)]
    rfl

/-- A map that no writer writes: its keys are out of order, and it holds a truth value of 7. -/
def looseBytes : Bytes :=
  [0x09, 2, 0, 0, 0, 1, 0, 0x62, 0x08, 2, 0, 0, 0, 0x02, 7, 0x01, 1, 0, 0x61, 0x03,
    9, 0, 0, 0, 0, 0, 0, 0]

/-- The bytes are cut in the list, which asks for as many bytes as it has items. -/
theorem decode_prefixFree_sample :
    let loose := Tree.map [("a", .uint 9), ("b", .list [.bool true, .null])]
    decode looseBytes = .ok loose ∧
      (∃ part needed available, available < needed ∧
        (decode (looseBytes.take 14)).mapError (fun f => Stepcast.Fault.protocol (.tree f)) =
          .error (.protocol (.tree (.truncated part needed available)))) ∧
      (decode (looseBytes ++ [0x01])).mapError (fun f => Stepcast.Fault.protocol (.tree f)) =
        .error (.protocol (.tree (.trailing 1))) := by
  have hread : decode looseBytes =
      .ok (.map [("a", .uint 9), ("b", .list [.bool true, .null])]) := by rfl
  have hends := decode_prefixFree hread
  exact ⟨hread, hends.1 _ (List.take_prefix 14 looseBytes) (by decide),
    hends.2 _ (List.prefix_append looseBytes [0x01]) (by decide)⟩

end Tree

end Stepcast
