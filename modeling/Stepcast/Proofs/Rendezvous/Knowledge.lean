import Stepcast.Proofs.Rendezvous.Receives
import Stepcast.Proofs.Tables

/-!
# What a process knows

A process keeps what was announced to it in three tables. `Coordinator.Knows` reads them as a set of
announcements with their senders: the order in which they came, and how often, does not matter.

Main statements: `Knows.note`, `Knows.noteLetters`, `Knows.poll`.
-/

namespace Stepcast

namespace Coordinator

/-! ## Views of the tables -/

/-- The groups that take a side of a stream. -/
def mapOf (c : Coordinator) : Role → String → RankMap
  | .writer => c.writerMap
  | .reader => c.readerMap

/-- The sizes of the groups of a stream, by master. -/
def sizesOf (c : Coordinator) (stream : String) : Table UInt32 UInt32 :=
  (c.groupSizes.at? stream).getD []

end Coordinator

/-- The ranks in the group of a master. -/
def RankMap.ranks (m : RankMap) (master : UInt32) : RankSet := (m.at? master).getD []

namespace Coordinator

theorem mapOf_note (c : Coordinator) (peer : UInt32) (a : Announcement) (role : Role)
    (stream : String) : (c.note peer a).mapOf role stream =
      if role = a.role ∧ stream = a.stream then (c.mapOf role stream).add a.master peer
      else c.mapOf role stream := by
  obtain ⟨arole, master, size, astream⟩ := a
  by_cases hstream : stream = astream
  · subst hstream
    cases arole <;> cases role <;>
      simp [note, mapOf, writerMap, readerMap, Table.at?_put]
  · cases arole <;> cases role <;>
      simp [note, mapOf, writerMap, readerMap, Table.at?_put, hstream]

theorem groupSizes_note (c : Coordinator) (peer : UInt32) (a : Announcement) :
    (c.note peer a).groupSizes =
      c.groupSizes.put a.stream ((c.sizesOf a.stream).put a.master a.groupSize) := by
  unfold note
  cases a.role <;> rfl

theorem ranks_add (m : RankMap) (master rank master' : UInt32) :
    (m.add master rank).ranks master' =
      if master' = master then (m.ranks master).put rank () else m.ranks master' := by
  rw [RankMap.ranks, RankMap.add, Table.at?_put]
  split <;> rfl

/-! ## Knowledge -/

/-- What the process knows about the streams is what the announcements in `N` say. -/
structure Knows (c : Coordinator) (N : UInt32 × Announcement → Prop) : Prop where
  sorted : ∀ role stream, Table.Sorted (c.mapOf role stream)
  sorted_ranks : ∀ role stream master, Table.Sorted ((c.mapOf role stream).ranks master)
  mem_masters : ∀ role stream master, master ∈ Table.keys (c.mapOf role stream) ↔
    ∃ peer size, N (peer, ⟨role, master, size, stream⟩)
  mem_ranks : ∀ role stream master peer, peer ∈ Table.keys ((c.mapOf role stream).ranks master) ↔
    ∃ size, N (peer, ⟨role, master, size, stream⟩)
  sizes : ∀ stream master size, (c.sizesOf stream).at? master = some size →
    ∃ peer role, N (peer, ⟨role, master, size, stream⟩)
  sized : ∀ peer a, N (peer, a) →
    (c.groupSizes.at? a.stream).isSome ∧ ((c.sizesOf a.stream).at? a.master).isSome

theorem knows_nothing {c : Coordinator} (hwriters : c.writers = []) (hreaders : c.readers = [])
    (hsizes : c.groupSizes = []) : c.Knows (fun _ => False) := by
  have hmap : ∀ role stream, c.mapOf role stream = [] := by
    intro role stream
    cases role
    · simp [mapOf, writerMap, hwriters]
    · simp [mapOf, readerMap, hreaders]
  exact {
    sorted := fun role stream => hmap role stream ▸ List.Pairwise.nil
    sorted_ranks := fun role stream master => by simp [hmap, RankMap.ranks, Table.Sorted]
    mem_masters := fun role stream master => by simp [hmap, Table.keys]
    mem_ranks := fun role stream master peer => by simp [hmap, RankMap.ranks, Table.keys]
    sizes := fun stream master size h => by simp [sizesOf, hsizes] at h
    sized := fun _ _ h => h.elim }

theorem Knows.congr {c : Coordinator} {N N' : UInt32 × Announcement → Prop} (h : c.Knows N)
    (hN : ∀ x, N x ↔ N' x) : c.Knows N' := by
  have heq : N = N' := funext fun x => propext (hN x)
  exact heq ▸ h

theorem Knows.of_tables {c c' : Coordinator} {N : UInt32 × Announcement → Prop} (h : c.Knows N)
    (hwriters : c'.writers = c.writers) (hreaders : c'.readers = c.readers)
    (hsizes : c'.groupSizes = c.groupSizes) : c'.Knows N := by
  have hmap : ∀ role stream, c'.mapOf role stream = c.mapOf role stream := by
    intro role stream
    cases role
    · simp [mapOf, writerMap, hwriters]
    · simp [mapOf, readerMap, hreaders]
  have hsizesOf : ∀ stream, c'.sizesOf stream = c.sizesOf stream := by simp [sizesOf, hsizes]
  exact {
    sorted := by simpa only [hmap] using h.sorted
    sorted_ranks := by simpa only [hmap] using h.sorted_ranks
    mem_masters := by simpa only [hmap] using h.mem_masters
    mem_ranks := by simpa only [hmap] using h.mem_ranks
    sizes := by simpa only [hsizesOf] using h.sizes
    sized := by simpa only [hsizesOf, hsizes] using h.sized }

theorem letter_eq_iff {peer q master size : UInt32} {role : Role} {stream : String}
    {a : Announcement} : ((q, ⟨role, master, size, stream⟩) : UInt32 × Announcement) = (peer, a) ↔
      q = peer ∧ (role = a.role ∧ stream = a.stream) ∧ master = a.master ∧ size = a.groupSize := by
  obtain ⟨arole, amaster, asize, astream⟩ := a
  simp only [Prod.mk.injEq, Announcement.mk.injEq]
  tauto

/-- **Noting an announcement adds it to what is known.** -/
theorem Knows.note {c : Coordinator} {N : UInt32 × Announcement → Prop} (h : c.Knows N)
    (peer : UInt32) (a : Announcement) :
    (c.note peer a).Knows (fun x => N x ∨ x = (peer, a)) where
  sorted := by
    intro role stream
    rw [mapOf_note]
    split
    · exact (h.sorted role stream).put _ _
    · exact h.sorted role stream
  sorted_ranks := by
    intro role stream master
    rw [mapOf_note]
    split
    · rw [ranks_add]
      split
      · exact (h.sorted_ranks role stream _).put _ _
      · exact h.sorted_ranks role stream master
    · exact h.sorted_ranks role stream master
  mem_masters := by
    intro role stream master
    rw [mapOf_note]
    simp only [letter_eq_iff]
    split
    · rename_i hs
      rw [RankMap.add, Table.mem_keys_put, h.mem_masters]
      constructor
      · intro hx
        rcases hx with rfl | ⟨q, size, hN⟩
        · exact ⟨peer, a.groupSize, .inr ⟨rfl, hs, rfl, rfl⟩⟩
        · exact ⟨q, size, .inl hN⟩
      · intro hx
        rcases hx with ⟨q, size, hN | ⟨-, -, rfl, -⟩⟩
        · exact .inr ⟨q, size, hN⟩
        · exact .inl rfl
    · rename_i hs
      rw [h.mem_masters]
      simp only [hs, false_and, and_false, or_false]
  mem_ranks := by
    intro role stream master q
    rw [mapOf_note]
    simp only [letter_eq_iff]
    split
    · rename_i hs
      rw [ranks_add]
      split
      · rename_i hmaster
        rw [Table.mem_keys_put, ← hmaster, h.mem_ranks]
        constructor
        · intro hx
          rcases hx with rfl | ⟨size, hN⟩
          · exact ⟨a.groupSize, .inr ⟨rfl, hs, rfl, rfl⟩⟩
          · exact ⟨size, .inl hN⟩
        · intro hx
          rcases hx with ⟨size, hN | ⟨rfl, -, -, -⟩⟩
          · exact .inr ⟨size, hN⟩
          · exact .inl rfl
      · rename_i hmaster
        rw [h.mem_ranks]
        simp only [hmaster, false_and, and_false, or_false]
    · rename_i hs
      rw [h.mem_ranks]
      simp only [hs, false_and, and_false, or_false]
  sizes := by
    intro stream master size hsize
    rw [sizesOf, groupSizes_note, Table.at?_put] at hsize
    split at hsize
    · rename_i hstream
      rw [Option.getD_some, Table.at?_put] at hsize
      split at hsize
      · rename_i hmaster
        cases hsize
        exact ⟨peer, a.role, .inr (letter_eq_iff.mpr ⟨rfl, ⟨rfl, hstream⟩, hmaster, rfl⟩)⟩
      · obtain ⟨q, role, hN⟩ := h.sizes a.stream master size hsize
        exact ⟨q, role, .inl (hstream ▸ hN)⟩
    · obtain ⟨q, role, hN⟩ := h.sizes stream master size hsize
      exact ⟨q, role, .inl hN⟩
  sized := by
    intro q b hb
    rw [sizesOf, groupSizes_note, Table.at?_put]
    split
    · rename_i hstream
      refine ⟨rfl, ?_⟩
      rw [Option.getD_some, Table.at?_put]
      split
      · rfl
      · rename_i hmaster
        rcases hb with hN | heq
        · rw [← hstream]
          exact (h.sized q b hN).2
        · cases heq
          exact absurd rfl hmaster
    · rename_i hstream
      rcases hb with hN | heq
      · exact h.sized q b hN
      · cases heq
        exact absurd rfl hstream

/-- What letters tell: the announcements among them, with their senders. -/
def Told (letters : List (UInt32 × Bytes)) (x : UInt32 × Announcement) : Prop :=
  ∃ body, (x.1, body) ∈ letters ∧ Announcement.decode body = .ok x.2

theorem Knows.noteLetter {c : Coordinator} {N : UInt32 × Announcement → Prop} (h : c.Knows N)
    (letter : UInt32 × Bytes) :
    (c.noteLetter letter).Knows (fun x => N x ∨ Told [letter] x) := by
  have htold : ∀ x, Told [letter] x ↔ x.1 = letter.1 ∧
      Announcement.decode letter.2 = .ok x.2 := by
    intro x
    constructor
    · intro hx
      obtain ⟨body, hmem, hdecode⟩ := hx
      obtain rfl := List.mem_singleton.mp hmem
      exact ⟨rfl, hdecode⟩
    · intro hx
      obtain ⟨hpeer, hdecode⟩ := hx
      exact ⟨letter.2, hpeer ▸ List.mem_singleton_self letter, hdecode⟩
  unfold Coordinator.noteLetter
  cases hdecode : Announcement.decode letter.2 with
  | error f => exact h.congr fun x => by simp [htold, hdecode]
  | ok a =>
    refine (h.note letter.1 a).congr fun x => or_congr_right ?_
    rw [htold, hdecode, Except.ok.injEq, Prod.ext_iff, eq_comm (a := a)]

/-- **Noting letters adds what they tell**, in whatever order they come. -/
theorem Knows.noteLetters {c : Coordinator} {N : UInt32 × Announcement → Prop} (h : c.Knows N)
    (letters : List (UInt32 × Bytes)) :
    (letters.foldl Coordinator.noteLetter c).Knows (fun x => N x ∨ Told letters x) := by
  induction letters generalizing c N with
  | nil => exact h.congr fun x => by simp [Told]
  | cons letter rest ih =>
    refine (ih (h.noteLetter letter)).congr fun x => ?_
    simp only [Told, List.mem_cons, List.not_mem_nil, or_false, or_and_right,
      exists_or, or_assoc]

/-! ## Polling -/

/-- Only what is known differs. -/
structure SameSetup (c c' : Coordinator) : Prop where
  rank : c'.rank = c.rank
  poolSize : c'.poolSize = c.poolSize
  settings : c'.settings = c.settings
  nextSlot : c'.nextSlot = c.nextSlot
  receives : c'.receives = c.receives

theorem sameSetup_noteLetter (c : Coordinator) (letter : UInt32 × Bytes) :
    SameSetup c (c.noteLetter letter) := by
  unfold noteLetter
  split
  · unfold note
    split <;> exact ⟨rfl, rfl, rfl, rfl, rfl⟩
  · exact ⟨rfl, rfl, rfl, rfl, rfl⟩

theorem sameSetup_noteLetters (c : Coordinator) (letters : List (UInt32 × Bytes)) :
    SameSetup c (letters.foldl noteLetter c) := by
  induction letters generalizing c with
  | nil => exact ⟨rfl, rfl, rfl, rfl, rfl⟩
  | cons letter rest ih =>
    have hfirst := sameSetup_noteLetter c letter
    have hrest := ih (c.noteLetter letter)
    exact ⟨hrest.rank.trans hfirst.rank, hrest.poolSize.trans hfirst.poolSize,
      hrest.settings.trans hfirst.settings, hrest.nextSlot.trans hfirst.nextSlot,
      hrest.receives.trans hfirst.receives⟩

theorem sameSetup_poll (c : Coordinator) (m : Mail) :
    SameSetup { c with receives := (testAll c.receives m).2.1 } (c.poll m).1 :=
  sameSetup_noteLetters _ _

/-- Polling adds what the letters tell that come. -/
theorem Knows.poll_told {c : Coordinator} {N : UInt32 × Announcement → Prop} (h : c.Knows N)
    (m : Mail) : (c.poll m).1.Knows (fun x => N x ∨ Told (testAll c.receives m).1 x) :=
  have hset : { c with receives := (testAll c.receives m).2.1 }.Knows N := h.of_tables rfl rfl rfl
  hset.noteLetters (testAll c.receives m).1

/-- **Polling adds what the letters tell that have an open receive.** -/
theorem Knows.poll {c : Coordinator} {N : UInt32 × Announcement → Prop} (h : c.Knows N) {m : Mail}
    (hm : m.Distinct) : (c.poll m).1.Knows (fun x => N x ∨ ∃ l ∈ m,
      Receive.Open c.receives l.key ∧ l.key.source = x.1 ∧
        Announcement.decode l.body = .ok x.2) := by
  refine (h.poll_told m).congr fun x => or_congr_right ?_
  simp only [Told, (tested_testAll c.receives hm).mem_letters]
  constructor
  · intro hx
    obtain ⟨body, ⟨l, hl, hopen, heq⟩, hdecode⟩ := hx
    obtain ⟨hsource, rfl⟩ := Prod.mk.inj heq
    exact ⟨l, hl, hopen, hsource.symm, hdecode⟩
  · intro hx
    obtain ⟨l, hl, hopen, hsource, hdecode⟩ := hx
    exact ⟨l.body, ⟨l, hl, hopen, by rw [hsource]⟩, hdecode⟩

end Coordinator

end Stepcast
