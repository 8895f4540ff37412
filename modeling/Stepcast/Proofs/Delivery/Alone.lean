import Stepcast.Proofs.Delivery.Feed

/-!
# A reader that is not interrupted

A reader that goes on without the others does in its steps what `Reader.open`, `Reader.tryBegin` and
`Reader.endStep` do at once.

Main statements: `proceedFor?_start`, `proceedFor?_begin`, `proceedFor?_end`.
-/

namespace Stepcast

namespace Feed

/-- The reader goes on `n` times, and nothing happens in between. -/
def proceedFor? (expired : Bool) (now : Moment) : Nat → Feed → Option Feed
  | 0, f => some f
  | n + 1, f => (f.proceed? expired now).bind (proceedFor? expired now n)

/-- The feed when the reader has looked at all links, or has found a message that is refused. -/
def looked (f : Feed) (result : Reader × Network × Except Fault Unit) : Feed :=
  match result with
  | (reader, network, .ok ()) => { f with reader, network, phase := .looking reader.links.length }
  | (reader, network, .error e) =>
    { f with reader, network, phase := .idle, outcomes := f.outcomes ++ [.error e] }

/-- The feed when `begin_step` has come to a result, or has to wait. -/
def tried (f : Feed) (step? : Option UInt64)
    (result : Reader × Network × Except Fault (Option StepStatus)) : Feed :=
  match result with
  | (reader, network, .ok (some status)) =>
    { f with
      reader, network
      phase := .idle
      exposed := f.exposed ++ (step?.map fun step => ⟨step, reader⟩).toList
      outcomes := f.outcomes ++ [.ok status] }
  | (reader, network, .ok none) => { f with reader, network, phase := .asking 0 }
  | (reader, network, .error e) =>
    { f with reader, network, phase := .idle, outcomes := f.outcomes ++ [.error e] }

section Alone

variable {f : Feed} {expired : Bool} {now : Moment}

theorem proceedFor?_add {f' : Feed} {m : Nat} (n : Nat)
    (h : proceedFor? expired now m f = some f') :
    proceedFor? expired now (m + n) f = proceedFor? expired now n f' := by
  induction m generalizing f with
  | zero =>
    cases h
    rw [Nat.zero_add]
  | succ m ih =>
    obtain ⟨f₁, hstep, hrest⟩ := Option.bind_eq_some_iff.mp h
    rw [Nat.succ_add, proceedFor?, hstep, Option.bind_some, ih hrest]

theorem length_receiveLink (r : Reader) (i : Nat) (n : Network) :
    (r.receiveLink i n).1.links.length = r.links.length := by
  unfold Reader.receiveLink
  split
  · rfl
  · exact List.length_set

/-- Looking at the links one by one takes in what has come. -/
theorem proceedFor?_looking (k : Nat) : ∀ (i : Nat) {f : Feed}, f.phase = .looking i →
    i + k = f.reader.links.length → ∃ n, proceedFor? expired now n f =
      some (f.looked (f.reader.receiveLinks f.network (List.range' i k))) := by
  induction k with
  | zero =>
    intro i f hphase hlength
    refine ⟨0, congrArg some ?_⟩
    cases f
    simp only at hphase hlength
    simp [looked, Reader.receiveLinks, hphase, ← hlength]
  | succ k ih =>
    intro i f hphase hlength
    have hlt : i < f.reader.links.length := by omega
    have hstep : f.proceed? expired now = some (f.takeIn i (.looking (i + 1))) := by
      simp [proceed?, hphase, hlt]
    have hlinks := length_receiveLink f.reader i f.network
    rw [List.range'_succ, Reader.receiveLinks]
    rcases hreceive : f.reader.receiveLink i f.network with ⟨r, n, e | ⟨⟩⟩
    · refine ⟨1, ?_⟩
      simp [proceedFor?, hstep, takeIn, hreceive, looked]
    · rw [hreceive] at hlinks
      have hnext : f.takeIn i (.looking (i + 1)) =
          { f with reader := r, network := n, phase := .looking (i + 1) } := by
        rw [takeIn, hreceive]
      have hsum : i + 1 + k = r.links.length := by
        have heq : r.links.length = f.reader.links.length := hlinks
        omega
      obtain ⟨m, hm⟩ := @ih (i + 1)
        { f with reader := r, network := n, phase := .looking (i + 1) } rfl hsum
      refine ⟨m + 1, ?_⟩
      rw [proceedFor?, hstep, Option.bind_some, hnext, hm]
      simp only [looked]

/-- **Without interruption `begin_step` is `Reader.tryBegin`**, until it has to wait. -/
theorem proceedFor?_begin (hphase : f.phase = .looking 0) : ∃ n step?,
    proceedFor? false now n f = some (f.tried step? (f.reader.tryBegin .next now f.network)) := by
  obtain ⟨n, hn⟩ := @proceedFor?_looking false now f.reader.links.length 0 f hphase
    (Nat.zero_add _)
  rw [← List.range_eq_range'] at hn
  unfold Reader.tryBegin Reader.receive
  rcases hreceive : f.reader.receiveLinks f.network (List.range f.reader.links.length) with
    ⟨r, network, e | ⟨⟩⟩
  · refine ⟨n, none, ?_⟩
    rw [hn, hreceive]
    rfl
  · rw [hreceive] at hn
    have hchoose : proceedFor? false now (n + 1) f =
        some ((f.looked (r, network, .ok ())).choose false now) := by
      rw [proceedFor?_add 1 hn]
      simp [proceedFor?, proceed?, looked]
    refine ⟨n + 1, r.choose .next, ?_⟩
    rw [hchoose]
    simp only [looked, choose, tried, finishBegin]
    cases hstep : r.choose .next with
    | some step => rfl
    | none =>
      by_cases hdone : r.isDone = true
      · simp [hdone]
      · simp [hdone]

/-- Asking over the links one by one is `Reader.requestAll`. -/
theorem proceedFor?_renewing (rest : List Link) : ∀ (before : List Link) {f : Feed},
    f.phase = .renewing before.length → f.reader.links = before ++ rest →
    proceedFor? expired now (rest.length + 1) f =
      some { f with
        reader := { f.reader with links := before ++ (Reader.requestAll rest f.network).1 }
        network := (Reader.requestAll rest f.network).2
        phase := .idle } := by
  induction rest with
  | nil =>
    intro before f hphase hlinks
    have hlength : ¬ before.length < f.reader.links.length := by simp [hlinks]
    have hkeep : before ++ (Reader.requestAll [] f.network).1 = f.reader.links := hlinks.symm
    rw [hkeep]
    simp [proceedFor?, proceed?, hphase, hlength, Reader.requestAll]
  | cons l rest ih =>
    intro before f hphase hlinks
    have hl : f.reader.links[before.length]? = some l := by simp [hlinks]
    have hlt : before.length < f.reader.links.length := by simp [hlinks]
    have hset : f.reader.links.set before.length (l.request f.network).1 =
        before ++ [(l.request f.network).1] ++ rest := by
      simp [hlinks]
    have hstep : f.proceed? expired now = some { f with
        reader := { f.reader with links := before ++ [(l.request f.network).1] ++ rest }
        network := (l.request f.network).2
        phase := .renewing (before ++ [(l.request f.network).1]).length } := by
      have hrequest : f.reader.requestLink before.length f.network =
          ({ f.reader with links := before ++ [(l.request f.network).1] ++ rest },
            (l.request f.network).2) := by
        simp only [Reader.requestLink, hl, hset]
      simp [proceed?, hphase, hlt, ask, hrequest]
    rw [List.length_cons, proceedFor?, hstep, Option.bind_some, ih _ rfl rfl]
    simp [Reader.requestAll]

/-- **Without interruption `end_step` is `Reader.endStep`.** -/
theorem proceedFor?_end {f' : Feed} (h : f.endStep? now = some f') :
    ∃ r n, f.reader.endStep now f.network = (r, n, .ok ()) ∧
      proceedFor? expired now (f.reader.links.length + 1) f' =
        some { f with reader := r, network := n, phase := .idle } := by
  unfold endStep? at h
  split at h
  · rename_i step hphase hactive hcurrent
    cases h
    have hlinks : (f.reader.leave step now).links = f.reader.links := rfl
    refine ⟨_, _, ?_, proceedFor?_renewing (f.reader.leave step now).links [] rfl rfl⟩
    simp [Reader.endStep, Reader.ensureOpen, hactive, hcurrent]
  · cases h

/-- **Without interruption the beginning is `Reader.open`.** -/
theorem proceedFor?_start {crew : Crew} {writers : Nat} {r : Reader} {n : Network}
    (hranks : crew.ranks = Reader.writerRanks writers)
    (h : Reader.open crew.name crew.settings writers crew.inverses now {} = (n, .ok r)) :
    ∃ f k f', start? crew now = some f ∧ proceedFor? expired now k f = some f' ∧
      f'.reader = r ∧ f'.network = n ∧ f'.phase = .idle := by
  unfold Reader.open at h
  split at h
  · cases h
  · rw [← hranks] at h
    split at h
    · cases h
    · rename_i n₀ links hconnect
      cases h
      obtain ⟨f, hf⟩ : ∃ f, start? crew now = some f := by simp [start?, hconnect]
      have heq := hf
      simp only [start?, hconnect] at heq
      cases heq
      exact ⟨_, links.length + 1, _, hf, proceedFor?_renewing links [] rfl rfl, rfl, rfl, rfl⟩

end Alone

end Feed

end Stepcast
