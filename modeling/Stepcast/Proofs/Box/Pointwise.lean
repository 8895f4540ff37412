import Stepcast.Proofs.Box.Ranges

/-!
# Copies, byte by byte

An element is one scalar, or two if it is a complex number, and each scalar has its bytes in the
order of the block's layout. So every byte that a copy writes comes from a place that can be named:
the element of the block at the same position, in it the same scalar, and in that the same byte, or
its mirror image if the byte order is not that of the host. All other bytes of the target stay,
those after the last element of its box too.

Main statement: `copyOverlap?_pointwise`.
-/

namespace Stepcast

namespace ElementType

/-- The number of scalars in an element: a complex number has a real and an imaginary part. -/
def parts : ElementType → Nat
  | complexFloat | complexDouble => 2
  | _ => 1

/-- The scalars of an element share its bytes. -/
theorem parts_mul_swapUnit (t : ElementType) : t.parts * t.swapUnit = t.size := by cases t <;> rfl

end ElementType

namespace Source

variable {s : Source} {t : ElementType} {box : Box} {target : Bytes} {part k : Nat}

/-- A byte stays in its scalar, where it is mirrored if the byte order differs. -/
theorem order_part (hk : k < t.swapUnit) : s.order t (part * t.swapUnit + k) =
    part * t.swapUnit + if s.layout.needsSwap then t.swapUnit - 1 - k else k := by
  have hunit := t.swapUnit_pos
  have hdiv : (part * t.swapUnit + k) / t.swapUnit = part := by
    rw [Nat.mul_comm, Nat.mul_add_div hunit, Nat.div_eq_of_lt hk, Nat.add_zero]
  have hmod : (part * t.swapUnit + k) % t.swapUnit = k := by
    rw [Nat.mul_comm, Nat.mul_add_mod, Nat.mod_eq_of_lt hk]
  unfold order swaps
  cases s.layout.needsSwap with
  | false => rfl
  | true =>
    simp only [Bool.true_and, decide_eq_true_eq, if_true]
    split
    · rw [reversedPlace, hdiv, hmod]
    · -- A scalar of one byte is its own mirror image.
      rw [id]
      omega

theorem getElem?_of_element_eq {bytes target' : Bytes} {i j n : Nat} (hj : j < n)
    (hbytes : n * t.size ≤ bytes.length)
    (h : t.element target' i = s.layout.toHost t (t.element bytes j)) (hpart : part < t.parts)
    (hk : k < t.swapUnit) :
    ∃ b, target'[i * t.size + (part * t.swapUnit + k)]? = some b ∧
      bytes[j * t.size + (part * t.swapUnit +
        if s.layout.needsSwap then t.swapUnit - 1 - k else k)]? = some b := by
  have hplace : part * t.swapUnit + k < t.size := t.parts_mul_swapUnit ▸ mul_add_lt hpart hk
  have hlt : j * t.size + s.order t (part * t.swapUnit + k) < bytes.length :=
    Nat.lt_of_lt_of_le (mul_add_lt hj (order_lt hplace)) hbytes
  rw [← order_part (s := s) hk]
  refine ⟨_, ?_, List.getElem?_eq_getElem hlt⟩
  calc target'[i * t.size + (part * t.swapUnit + k)]?
      = (t.element target' i)[part * t.swapUnit + k]? := (getElem?_slice hplace).symm
    _ = (t.element bytes j)[s.order t (part * t.swapUnit + k)]? := by
        rw [h, getElem?_toHost (length_element hj hbytes) hplace]
    _ = bytes[j * t.size + s.order t (part * t.swapUnit + k)]? :=
        getElem?_slice (order_lt hplace)
    _ = some _ := List.getElem?_eq_getElem hlt

/-- **A copy between boxes, byte by byte.** Take a block and a target that hold their boxes, which
have as many dimensions and end before the largest index. The copy succeeds without leaving a slice
out of range and counts the bytes of the elements at the common positions. At each of these, every
byte of the target is the one of the block at the same position, in row-major or column-major order
as the layout says, and in the same scalar, mirrored there just if the byte order is not the host's.
A byte of the target that belongs to no such element is as before. -/
theorem copyOverlap?_pointwise (hsource : s.box.Bounded) (htarget : box.Bounded)
    (hdimensions : s.box.start.length = box.start.length)
    (hbytes : s.box.size * t.size ≤ s.bytes.length) (hroom : box.size * t.size ≤ target.length) :
    ∃ target', s.copyOverlap? t target box =
        some (.ok (t.size * (s.box.common box).ncard, target')) ∧
      target'.length = target.length ∧
      (∀ p ∈ s.box.common box, ∀ part < t.parts, ∀ k < t.swapUnit, ∃ b,
        target'[box.index true p * t.size + (part * t.swapUnit + k)]? = some b ∧
          s.bytes[s.box.index s.layout.rowMajor p * t.size + (part * t.swapUnit +
            if s.layout.needsSwap then t.swapUnit - 1 - k else k)]? = some b) ∧
      ∀ w, (∀ p ∈ s.box.common box, w < box.index true p * t.size ∨
        (box.index true p + 1) * t.size ≤ w) → target'[w]? = target[w]? := by
  obtain ⟨n, target', hcopy⟩ := copyOverlap_isOk.mpr ⟨hbytes, hroom, hdimensions⟩
  obtain ⟨rfl, hlength, helements, hrest⟩ := copyOverlap_eq_ok hsource htarget hcopy
  refine ⟨target', (copyOverlap?_eq s t target box).trans (congrArg some hcopy), hlength, ?_, ?_⟩
  · intro p hp part hpart k hk
    exact getElem?_of_element_eq (Box.index_lt _ hp.1) hbytes (helements p hp) hpart hk
  · intro w hw
    refine hrest w fun p hp k hk heq => ?_
    have hout := hw p hp
    rw [Nat.succ_mul] at hout
    omega

/-- Two by three complex numbers, stored column by column with the high byte first. -/
def sampleComplex : Source :=
  { bytes := (List.range 50).map UInt8.ofNat, box := ⟨[0, 0], [2, 3]⟩, layout := ⟨false, false⟩ }

theorem copyOverlap?_pointwise_sample :
    sampleComplex.box.Bounded ∧ Box.Bounded ⟨[1, 1], [2, 2]⟩ ∧
      sampleComplex.copyOverlap? .complexFloat (List.replicate 33 99) ⟨[1, 1], [2, 2]⟩ =
        some (.ok (16, [27, 26, 25, 24, 31, 30, 29, 28, 43, 42, 41, 40, 47, 46, 45, 44] ++
          List.replicate 17 99)) ∧
      (sampleComplex.box.common ⟨[1, 1], [2, 2]⟩).ncard = 2 := by
  have hsource : sampleComplex.box.Bounded := by decide +kernel
  have htarget : Box.Bounded ⟨[1, 1], [2, 2]⟩ := by decide +kernel
  have hcopy : sampleComplex.copyOverlap? .complexFloat (List.replicate 33 99) ⟨[1, 1], [2, 2]⟩ =
      some (.ok (16, [27, 26, 25, 24, 31, 30, 29, 28, 43, 42, 41, 40, 47, 46, 45, 44] ++
        List.replicate 17 99)) := rfl
  have hroom : Box.size ⟨[1, 1], [2, 2]⟩ * ElementType.complexFloat.size ≤
      (List.replicate 33 (99 : UInt8)).length := by decide
  obtain ⟨target', hpointwise, -⟩ :=
    copyOverlap?_pointwise hsource htarget rfl (by decide) hroom
  refine ⟨hsource, htarget, hcopy, ?_⟩
  have hcount : ElementType.complexFloat.size * (sampleComplex.box.common _).ncard = 16 :=
    congrArg Prod.fst (Except.ok.inj (Option.some.inj (hpointwise.symm.trans hcopy)))
  exact Nat.eq_of_mul_eq_mul_left (by decide : 0 < ElementType.complexFloat.size) hcount

end Source

end Stepcast
