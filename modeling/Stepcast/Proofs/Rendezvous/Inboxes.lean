import Stepcast.Rendezvous.Group

/-!
# The inboxes of a group

What waits for a member of a group: a value that is sent to it comes to the end, it takes the first
one, and no other inbox changes.
-/

namespace Stepcast

namespace Group

/-- What waits for a member. -/
def inbox (g : Group) (m : Nat) : List UInt32 := g.inboxes[m]?.getD []

section Inbox

variable {g g' : Group} {m : Nat} {value : UInt32}

@[simp] theorem size_ofSize (n : Nat) : (ofSize n).size = n := List.length_replicate

@[simp] theorem inbox_ofSize (n : Nat) : (ofSize n).inbox m = [] := by
  simp only [inbox, ofSize, List.getElem?_replicate]
  split <;> rfl

@[simp] theorem size_push (g : Group) (member : Nat) (value : UInt32) :
    (g.push member value).size = g.size :=
  List.length_modify ..

theorem inbox_push {dest : Nat} (hm : m < g.size) :
    (g.push dest value).inbox m = g.inbox m ++ if dest = m then [value] else [] := by
  have hsome : g.inboxes[m]? = some g.inboxes[m] := List.getElem?_eq_getElem hm
  rw [inbox, inbox, push, List.getElem?_modify, hsome]
  by_cases hdest : dest = m <;> simp [hdest]

theorem pop?_eq_none : g.pop? m = none ↔ g.inbox m = [] := by
  unfold pop? inbox
  split
  · next hsome => simp [hsome]
  · next hnone =>
    rcases hinbox : g.inboxes[m]? with - | ⟨- | ⟨value, rest⟩⟩
    · simp
    · simp
    · exact absurd hinbox (hnone value rest)

theorem pop?_eq_some (h : g.pop? m = some (value, g')) : g'.size = g.size ∧
    g.inbox m = value :: g'.inbox m ∧ ∀ other, other ≠ m → g'.inbox other = g.inbox other := by
  unfold pop? at h
  split at h
  · rename_i value' rest hsome
    cases h
    obtain ⟨hm, -⟩ := List.getElem?_eq_some_iff.mp hsome
    refine ⟨List.length_set, ?_, fun other hother => ?_⟩
    · simp [inbox, hsome, List.getElem?_set_self hm]
    · simp [inbox, List.getElem?_set_ne hother.symm]
  · cases h

theorem mem_others {root : Nat} : m ∈ g.others root ↔ m < g.size ∧ m ≠ root := by
  simp [others]

theorem nodup_others (root : Nat) : (g.others root).Nodup := List.nodup_range.filter _

theorem length_others_lt {root : Nat} (h : root < g.size) : (g.others root).length < g.size := by
  have hlt : (g.others root).length < (List.range g.size).length :=
    List.length_filter_lt_length_iff_exists.mpr ⟨root, List.mem_range.mpr h, by simp⟩
  rwa [List.length_range] at hlt

end Inbox

end Group

end Stepcast
