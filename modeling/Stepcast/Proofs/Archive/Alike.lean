import Stepcast.Proofs.Archive.Operations
import Stepcast.Proofs.Wire.Variants

/-!
# Archives that are alike

Two archives are alike when each step has alike blocks in them, which give the same payloads, and
the next messages get the same keys. They stay alike when each receives one of two messages that are
the same, or come of the same calls with other operators: the blocks lie elsewhere and have other
sizes in the second, but the same of them come too late, under the same key. They stay alike when
the same step is erased in both.

Main statements: `Alike.put`, `Alike.erase`.
-/

namespace Stepcast

/-- Two messages that are the same, or come of the same calls with other operators. -/
inductive Variants (operators : Operators) : Bytes → Bytes → Prop
  | same (message : Bytes) : Variants operators message message
  | calls {rank : UInt32} {cs cs' : List Draft.Call} :
      cs.map Draft.Call.plain = cs'.map Draft.Call.plain → Draft.Transmits operators rank cs →
      Draft.Transmits operators rank cs' →
      Variants operators (Draft.message operators rank cs) (Draft.message operators rank cs')

namespace Archive

/-! ## Messages that say the same -/

/-- The blocks are alike, and the messages give the same payload for them. -/
structure Matches (operators : Operators) (message message' : Bytes) (b b' : Block) : Prop where
  alike : b.Alike b'
  payload : operators.restore b.toRecord (slice message b.position b.size) =
    operators.restore b'.toRecord (slice message' b'.position b'.size)

/-- The messages say the same, and of their blocks at each step too. -/
inductive Gist.Alike (operators : Operators) (message message' : Bytes) : Gist → Gist → Prop
  | nothing : Alike operators message message' .nothing .nothing
  | ending (final : Option UInt64) :
      Alike operators message message' (.ending final) (.ending final)
  | refused {f f' : Fault} (indexed : Bool) :
      Alike operators message message' (.refused f indexed) (.refused f' indexed)
  | data {c c' : Contents} : (∀ (step : UInt64), List.Forall₂ (Matches operators message message')
      (c.blocks.filter (fun b => b.step = step)) (c'.blocks.filter (fun b => b.step = step))) →
      Alike operators message message' (.data c) (.data c')

section Gist

variable {operators : Operators} {message message' : Bytes} {g g' : Gist}

theorem Gist.Alike.refl (operators : Operators) (message : Bytes) (g : Gist) :
    Gist.Alike operators message message g g := by
  cases g with
  | nothing => exact .nothing
  | ending final => exact .ending final
  | refused f indexed => exact .refused indexed
  | data c => exact .data fun step => List.forall₂_same.mpr fun b _ => ⟨rfl, rfl⟩

theorem Gist.Alike.takesKey (h : Gist.Alike operators message message' g g') :
    g'.takesKey = g.takesKey := by
  cases h <;> rfl

theorem Gist.Alike.blocksAt (h : Gist.Alike operators message message' g g') (key : Nat)
    (step : UInt64) : List.Forall₂ (Matches operators message message') (g.blocksAt key step)
      (g'.blocksAt key step) := by
  cases h with
  | data hblocks =>
    refine List.forall₂_map_left_iff.mpr (List.forall₂_map_right_iff.mpr ?_)
    exact (hblocks step).imp fun b b' hb => ⟨congrArg (Block.under key) hb.alike, hb.payload⟩
  | _ => exact .nil

end Gist

/-! ## Messages of the same calls -/

section Calls

variable {operators : Operators} {rank : UInt32} {cs cs' : List Draft.Call}
  {d d' : Draft} {message message' : Bytes}

/-- The record tells of the put, and the finished message gives back the payload. -/
structure Tells (operators : Operators) (d : Draft) (step : UInt64) (p : Draft.Put)
    (r : Record) : Prop where
  records : Draft.Records operators (d.payload.getD []) step p r
  restored : operators.restore r (slice d.finish.1 r.position r.size) = .ok p.payload

theorem tells_records (htracks : Draft.Tracks operators (cs.filter Draft.Call.isSized) d)
    (hrestores : ∀ c ∈ cs, c.Restores operators) (step : UInt64) :
    List.Forall₂ (Tells operators d step) (Draft.putsAt step (cs.filter Draft.Call.isSized))
      (d.recordsAt step) := by
  refine (forall₂_imp_of_mem (htracks.records step).flip fun r p hp hrecord => ?_).flip
  have hput := hrestores _ (List.mem_filter.mp (Draft.mem_of_mem_putsAt hp)).1
  refine ⟨hrecord, ?_⟩
  rw [Draft.finish_eq htracks, Frame.slice_payload _ _ hrecord.header_le hrecord.le_end]
  exact hrecord.restore_eq (hput hrecord.payload_length)

/-- Records of puts that are alike match. -/
theorem Tells.matches {step : UInt64} {p p' : Draft.Put} {r r' : Record}
    (h : Tells operators d step p r) (h' : Tells operators d' step p' r')
    (hplain : p.plain = p'.plain) : Matches operators d.finish.1 d'.finish.1
      (r.toBlock step rank 0) (r'.toBlock step rank 0) where
  alike := h.records.alike h'.records hplain rank 0
  payload := by
    have hpayload : p.plain.payload = p'.plain.payload := congrArg Draft.Put.payload hplain
    exact (h.restored.trans (congrArg Except.ok hpayload)).trans h'.restored.symm

/-- What the message of calls is: data with a record of each successful put, or nothing that can be
read, if one of the boxes has another number of starts than of extents. -/
theorem gist_message (h : Draft.Transmits operators rank cs)
    (hd : cs.foldl (Draft.perform operators) ({ rank } : Draft).open = d) :
    Draft.Tracks operators (cs.filter Draft.Call.isSized) d ∧
    (¬ Draft.Unranked (cs.filter Draft.Call.isSized) →
      ∃ contents, gist d.finish.1 = .data contents ∧ ∀ step,
        contents.blocks.filter (fun b => b.step = step) =
          (d.recordsAt step).map (·.toBlock step rank 0)) ∧
    (Draft.Unranked (cs.filter Draft.Call.isSized) → ∃ f, gist d.finish.1 = .refused f true) := by
  subst hd
  have hcalls := Draft.calls_isSized (d := ({ rank } : Draft).open) rfl h.restores
  have htracks := Draft.tracks_calls hcalls
  refine ⟨htracks, fun hranked => ?_, fun hbad => ?_⟩
  · have hfit := fit_of_isRanked h.encodable fun v step payload hput =>
      not_not.mp fun hbox => hranked ⟨v, step, payload, hput, hbox⟩
    obtain ⟨offset, entries, contents, hindex, hfinal, hcontents, hblocks⟩ :=
      index_finish htracks hfit h.length 0
    rw [Draft.rank_calls hcalls] at hblocks
    refine ⟨contents, ?_, hblocks⟩
    rw [gist_of_index hindex hfinal, hcontents]
  · obtain ⟨hindex, hfinal⟩ := index_finish_eq htracks h.encodable h.length
    obtain ⟨v, step, -, -, -, hcontents⟩ :=
      ofIndex_finish_error htracks h.encodable h.length hbad 0
    refine ⟨.protocol (.boxRank v.name step), ?_⟩
    rw [gist_of_index hindex hfinal, hcontents]

/-- **The same calls say the same**, whatever the operators are. -/
theorem Gist.Alike.of_variants (h : Variants operators message message') :
    Gist.Alike operators message message' (gist message) (gist message') := by
  cases h with
  | same => exact .refl operators message _
  | @calls rank cs cs' hplain h h' =>
    have hsent := Draft.plain_filter_isSized hplain
    obtain ⟨htracks, hdata, hrefused⟩ := gist_message h rfl
    obtain ⟨htracks', hdata', hrefused'⟩ := gist_message h' rfl
    unfold Draft.message
    generalize cs.foldl (Draft.perform operators) ({ rank } : Draft).open = d at *
    generalize cs'.foldl (Draft.perform operators) ({ rank } : Draft).open = d' at *
    by_cases hunranked : Draft.Unranked (cs.filter Draft.Call.isSized)
    · obtain ⟨f, hf⟩ := hrefused hunranked
      obtain ⟨f', hf'⟩ := hrefused' (hunranked.of_plain hsent)
      rw [hf, hf']
      exact .refused true
    · obtain ⟨contents, hgist, hblocks⟩ := hdata hunranked
      obtain ⟨contents', hgist', hblocks'⟩ := hdata' fun h => hunranked (h.of_plain hsent.symm)
      rw [hgist, hgist']
      refine .data fun step => ?_
      rw [hblocks, hblocks', List.forall₂_map_left_iff, List.forall₂_map_right_iff]
      have hrecords : List.Forall₂ (fun p r' => ∃ p', p.plain = p'.plain ∧
          Tells operators d' step p' r') (Draft.putsAt step (cs.filter Draft.Call.isSized))
            (d'.recordsAt step) :=
        forall₂_comp (Draft.forall₂_putsAt hsent step) (tells_records htracks' h'.restores step)
          fun p p' r' hp hr' => ⟨p', hp, hr'⟩
      refine forall₂_comp (tells_records htracks h.restores step).flip hrecords ?_
      intro r p r' hr hr'
      obtain ⟨p', hp, hr'⟩ := hr'
      exact hr.matches hr' hp

end Calls

/-! ## Archives that are alike -/

/-- The payload of a block; nothing when its message is gone. -/
def restored? (operators : Operators) (a : Archive) (b : Block) : Option (Except Fault Bytes) :=
  (a.stored? b).map (operators.restore b.toRecord)

/-- The blocks are alike and give the same payload. -/
structure SameData (operators : Operators) (a a' : Archive) (b b' : Block) : Prop where
  alike : b.Alike b'
  payload : restored? operators a b = restored? operators a' b'

/-- Each step has alike blocks with the same payloads, and the same is too late. -/
structure Alike (operators : Operators) (a a' : Archive) : Prop where
  sound : a.Sound
  sound' : a'.Sound
  nextKey : a'.nextKey = a.nextKey
  watermark : a'.watermark = a.watermark
  blocks : ∀ (step : UInt64),
    List.Forall₂ (SameData operators a a') (a.blocksAt step) (a'.blocksAt step)

section Alike

variable {operators : Operators} {a a' a₁ a₁' : Archive} {message message' : Bytes}
  {step : UInt64} {b b' : Block}

theorem SameData.of_stored (h : SameData operators a a' b b')
    (hstored : a₁.stored? b = a.stored? b) (hstored' : a₁'.stored? b' = a'.stored? b') :
    SameData operators a₁ a₁' b b' where
  alike := h.alike
  payload := by
    rw [restored?, hstored, restored?, hstored']
    exact h.payload

theorem Alike.keep (h : Alike operators a a')
    (hstored : ∀ b ∈ a.blocksAt step, a₁.stored? b = a.stored? b)
    (hstored' : ∀ b ∈ a'.blocksAt step, a₁'.stored? b = a'.stored? b) :
    List.Forall₂ (SameData operators a₁ a₁') (a.blocksAt step) (a'.blocksAt step) :=
  forall₂_imp_of_mem₂ (h.blocks step) fun b hb b' hb' hsame =>
    hsame.of_stored (hstored b hb) (hstored' b' hb')

theorem Alike.liveSteps (h : Alike operators a a') : a'.liveSteps = a.liveSteps := by
  refine Table.keys_eq_of_mem_iff h.sound'.sorted h.sound.sorted fun step => ?_
  refine h.sound'.mem_liveSteps_iff.trans (Iff.trans ?_ h.sound.mem_liveSteps_iff.symm)
  rw [Ne, Ne, ← List.length_eq_zero_iff, ← List.length_eq_zero_iff, (h.blocks step).length_eq]

theorem Alike.rankCount (h : Alike operators a a') (step : UInt64) :
    a'.rankCount step = a.rankCount step := by
  have hranks : List.Forall₂ Eq ((a.blocksAt step).map (·.rank))
      ((a'.blocksAt step).map (·.rank)) := by
    rw [List.forall₂_map_left_iff, List.forall₂_map_right_iff]
    exact (h.blocks step).imp fun b b' hsame => hsame.alike.rank_eq.symm
  rw [List.forall₂_eq_eq_eq] at hranks
  exact congrArg (fun ranks => ranks.eraseDups.length) hranks.symm

theorem Alike.late_iff (h : Alike operators a a') : a'.Late step ↔ a.Late step := by
  rw [Late, Late, h.watermark]

/-- The blocks of two messages that say the same are alike in archives that received them. -/
theorem SameData.of_matches (h : Matches operators message message' b b')
    (hstored : a.stored? b = some (slice message b.position b.size))
    (hstored' : a'.stored? b' = some (slice message' b'.position b'.size)) :
    SameData operators a a' b b' where
  alike := h.alike
  payload := by
    rw [restored?, hstored, restored?, hstored', Option.map_some, Option.map_some, h.payload]

/-- **Archives stay alike** when they receive the same message, or messages of the same calls. -/
theorem Alike.put (h : Alike operators a a') (hmessage : Variants operators message message') :
    Alike operators (a.put message).1 (a'.put message').1 := by
  have hgist := Gist.Alike.of_variants hmessage
  have hreceived := received_put a message
  have hreceived' := received_put a' message'
  have hkept (step : UInt64) :
      List.Forall₂ (SameData operators (a.put message).1 (a'.put message').1) (a.blocksAt step)
        (a'.blocksAt step) :=
    h.keep (fun b hb => hreceived.stored? h.sound (live_of_mem_blocksAt h.sound hb))
      (fun b hb => hreceived'.stored? h.sound' (live_of_mem_blocksAt h.sound' hb))
  refine ⟨h.sound.put message, h.sound'.put message', ?_, ?_, fun step => ?_⟩
  · rw [nextKey_put, nextKey_put, h.nextKey, hgist.takesKey]
  · rw [hreceived.watermark, hreceived'.watermark, h.watermark]
  · by_cases hlate : a.Late step
    · rw [blocksAt_put_of_late hlate, blocksAt_put_of_late (h.late_iff.mpr hlate)]
      exact hkept step
    · have hlate' : ¬ a'.Late step := fun hlate' => hlate (h.late_iff.mp hlate')
      rw [blocksAt_put hlate, blocksAt_put hlate']
      refine List.rel_append (hkept step) ?_
      rw [h.nextKey]
      refine forall₂_imp_of_mem₂ (hgist.blocksAt a.nextKey step) fun b hb b' hb' hmatches => ?_
      exact .of_matches hmatches (stored?_put hlate hb) (stored?_put hlate' (h.nextKey ▸ hb'))

/-- What becomes of the messages is the same, but for the fault that a refusal names. -/
theorem Alike.verdict (h : Alike operators a a') (hmessage : Variants operators message message') :
    (a.put message).2.toOption = (a'.put message').2.toOption := by
  have hgist := Gist.Alike.of_variants hmessage
  rw [put_eq, put_eq]
  generalize gist message = g at hgist
  generalize gist message' = g' at hgist
  cases hgist with
  | @data c c' hblocks =>
    have hperm : (c.blocks.map (·.step)).Perm (c'.blocks.map (·.step)) :=
      List.perm_iff_count.mpr fun step => by
        rw [count_steps, count_steps, (hblocks step).length_eq]
    have hsteps (key : Nat) (c : Contents) :
        (c.under key).blocks.map (·.step) = c.blocks.map (·.step) := List.map_map
    rw [absorb, absorb]
    dsimp only
    rw [outcome_addContents, outcome_addContents, hsteps, hsteps,
      outcomeOf_perm (hperm.filter _)]
    dsimp only
    rw [h.watermark]
  | _ => rfl

/-- **Archives stay alike** when the same step is erased. -/
theorem Alike.erase (h : Alike operators a a') (erased : UInt64) :
    Alike operators (a.erase erased) (a'.erase erased) where
  sound := h.sound.erase erased
  sound' := h.sound'.erase erased
  nextKey := h.nextKey
  watermark := congrArg (maxOption · (some erased)) h.watermark
  blocks := by
    intro step
    by_cases hstep : step = erased
    · subst hstep
      rw [blocksAt_erase_self, blocksAt_erase_self]
      exact .nil
    · rw [blocksAt_erase_of_ne a hstep, blocksAt_erase_of_ne a' hstep]
      exact h.keep (fun b hb => stored?_erase_of_ne h.sound hb hstep)
        (fun b hb => stored?_erase_of_ne h.sound' hb hstep)

theorem Alike.clear (h : Alike operators a a') : Alike operators a.clear a'.clear where
  sound := sound_of_nil rfl rfl
  sound' := sound_of_nil rfl rfl
  nextKey := h.nextKey
  watermark := rfl
  blocks := fun _ => .nil

end Alike

end Archive

end Stepcast
