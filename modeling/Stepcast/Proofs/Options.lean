import Stepcast.Proofs.Outcomes
import Stepcast.Proofs.Tables
import Stepcast.Settings.Options

/-!
# Options under other names

Options are taken in the order of their names, and a name in another case, or the other name of its
setting, has another place in that order. Unless two options name one setting, nothing depends on
it. Every option reads a value for its own setting from its text and stores it there
(`assign_eq_map_set`), and values of different settings are stored side by side (`get_set_of_ne`).
So after all options each setting has the value that its option gives, or else its default
(`foldlM_store?_eq_some_iff`), which does not say in which order they came.

Main statements: `ofOptions_eq_ok_iff`, `ofOptions_respelt`.
-/

namespace Stepcast

/-! ## One setting at a time -/

/-- What is kept of a setting. -/
def Setting.Value : Setting → Type
  | .address => Option String
  | .port => Option UInt16
  | .timeout => UInt64
  | .aggregation => Nat
  | .delivery => DeliveryMode
  | .rendezvousReaders => Nat
  | .doubleBuffer => Bool
  | .queueDepth => Nat
  | .verbosity => UInt8
  | .monitor => Bool
  | .handshakeTimeout => Option UInt64
  | .drainTimeout => Option UInt64

namespace Settings

/-- The settings with these values. -/
def ofValues (value : (x : Setting) → x.Value) : Settings where
  address := value .address
  port := value .port
  timeout := value .timeout
  aggregation := value .aggregation
  delivery := value .delivery
  rendezvousReaders := value .rendezvousReaders
  doubleBuffer := value .doubleBuffer
  queueDepth := value .queueDepth
  verbosity := value .verbosity
  monitor := value .monitor
  handshakeTimeout := value .handshakeTimeout
  drainTimeout := value .drainTimeout

/-- The value of a setting. -/
def get (s : Settings) : (x : Setting) → x.Value
  | .address => s.address
  | .port => s.port
  | .timeout => s.timeout
  | .aggregation => s.aggregation
  | .delivery => s.delivery
  | .rendezvousReaders => s.rendezvousReaders
  | .doubleBuffer => s.doubleBuffer
  | .queueDepth => s.queueDepth
  | .verbosity => s.verbosity
  | .monitor => s.monitor
  | .handshakeTimeout => s.handshakeTimeout
  | .drainTimeout => s.drainTimeout

/-- The settings with another value of one of them. -/
def set (s : Settings) : (x : Setting) → x.Value → Settings
  | .address, a => { s with address := a }
  | .port, a => { s with port := a }
  | .timeout, a => { s with timeout := a }
  | .aggregation, a => { s with aggregation := a }
  | .delivery, a => { s with delivery := a }
  | .rendezvousReaders, a => { s with rendezvousReaders := a }
  | .doubleBuffer, a => { s with doubleBuffer := a }
  | .queueDepth, a => { s with queueDepth := a }
  | .verbosity, a => { s with verbosity := a }
  | .monitor, a => { s with monitor := a }
  | .handshakeTimeout, a => { s with handshakeTimeout := a }
  | .drainTimeout, a => { s with drainTimeout := a }

variable {s s' : Settings} {x y : Setting}

@[simp] theorem get_ofValues (value : (x : Setting) → x.Value) (x : Setting) :
    (ofValues value).get x = value x := by
  cases x <;> rfl

theorem ofValues_get (s : Settings) : ofValues s.get = s := rfl

/-- Settings with the same values are the same. -/
theorem eq_of_get_eq (h : ∀ x, s.get x = s'.get x) : s = s' := by
  rw [← ofValues_get s, ← ofValues_get s', funext h]

@[simp] theorem get_set_self (s : Settings) (x : Setting) (a : x.Value) :
    (s.set x a).get x = a := by
  cases x <;> rfl

theorem get_set_of_ne (h : y ≠ x) (s : Settings) (a : x.Value) : (s.set x a).get y = s.get y := by
  cases x <;> cases y <;> first | rfl | exact absurd rfl h

/-! ## Reading a value -/

/-- The value that the text of an option gives to a setting. -/
def readSetting (name text : String) : (x : Setting) → Except Fault x.Value
  | .address => .ok (some (trim text))
  | .port => (readValue (readUnsigned 65535) name text).map (fun n => some (UInt16.ofNat n))
  | .timeout => readValue Double.read name text
  | .aggregation => readCount name text
  | .delivery => DeliveryMode.parse (trim text)
  | .rendezvousReaders => readCount name text
  | .doubleBuffer => readSwitch name text
  | .queueDepth => readCount name text
  | .verbosity => (readValue (readUnsigned 255) name text).map UInt8.ofNat
  | .monitor => readSwitch name text
  | .handshakeTimeout => (readValue Double.read name text).map some
  | .drainTimeout => (readValue Double.read name text).map some

/-- An option stores the value that it reads, and changes nothing else. -/
theorem assign_eq_map_set (s : Settings) (x : Setting) (name text : String) :
    s.assign x name text = (readSetting name text x).map (s.set x) := by
  cases x with
  | address => rfl
  | delivery => exact bind_pure_eq_map (DeliveryMode.parse (trim text)) _
  | timeout => exact bind_pure_eq_map (readValue Double.read name text) _
  | aggregation | rendezvousReaders | queueDepth =>
    exact bind_pure_eq_map (readCount name text) _
  | doubleBuffer | monitor => exact bind_pure_eq_map (readSwitch name text) _
  | port =>
    simp only [readSetting, assign]
    cases readValue (readUnsigned 65535) name text <;> rfl
  | verbosity =>
    simp only [readSetting, assign]
    cases readValue (readUnsigned 255) name text <;> rfl
  | handshakeTimeout | drainTimeout =>
    simp only [readSetting, assign]
    cases readValue Double.read name text <;> rfl

theorem toOption_readValue {α : Type} (read : String → Option α) (name name' text : String) :
    (readValue read name text).toOption = (readValue read name' text).toOption := by
  unfold readValue
  cases read (trim text) <;> rfl

theorem toOption_readCount (name name' text : String) :
    (readCount name text).toOption = (readCount name' text).toOption := by
  unfold readCount
  exact toOption_readValue _ name name' text

theorem toOption_readSwitch (name name' text : String) :
    (readSwitch name text).toOption = (readSwitch name' text).toOption := by
  unfold readSwitch
  split <;> rfl

/-- The value that a text stands for, as the value of a setting. -/
def value? (x : Setting) (text : String) : Option x.Value := (readSetting "" text x).toOption

/-- Only the fault tells under which name the text was given. -/
theorem toOption_readSetting (name text : String) (x : Setting) :
    (readSetting name text x).toOption = value? x text := by
  have hseconds := toOption_readValue Double.read name "" text
  cases x with
  | address | delivery => rfl
  | port =>
    have hport := toOption_readValue (readUnsigned 65535) name "" text
    exact toOption_map_congr hport (fun n => some (UInt16.ofNat n))
  | verbosity =>
    have hlevel := toOption_readValue (readUnsigned 255) name "" text
    exact toOption_map_congr hlevel UInt8.ofNat
  | timeout => exact hseconds
  | handshakeTimeout | drainTimeout => exact toOption_map_congr hseconds some
  | aggregation | rendezvousReaders | queueDepth => exact toOption_readCount name "" text
  | doubleBuffer | monitor => exact toOption_readSwitch name "" text

/-! ## All options -/

/-- The settings that options name, with the texts of the options. -/
def named (options : Table String String) : Table Setting String :=
  options.filterMap (fun e => (Setting.ofName? e.1).map (·, e.2))

/-- No two options name one setting. -/
def Unambiguous (options : Table String String) : Prop := (named options).keys.Nodup

instance (options : Table String String) : Decidable (Unambiguous options) :=
  inferInstanceAs (Decidable (named options).keys.Nodup)

/-- The settings with the value that a text gives to one of them. -/
def store? (s : Settings) (e : Setting × String) : Option Settings :=
  (value? e.1 e.2).map (s.set e.1)

theorem toOption_applyOption (s : Settings) (e : String × String) :
    (s.applyOption e).toOption =
      ((Setting.ofName? e.1).map (·, e.2)).elim (some s) s.store? := by
  rw [applyOption]
  cases Setting.ofName? e.1 with
  | none => rfl
  | some x =>
    simp only [Option.map_some, Option.elim_some, store?]
    rw [assign_eq_map_set, toOption_map, toOption_readSetting]

/-- Options are taken one by one, and those without a meaning are passed over. -/
theorem toOption_foldlM_applyOption (options : Table String String) (s : Settings) :
    (options.foldlM applyOption s).toOption = (named options).foldlM store? s := by
  induction options generalizing s with
  | nil => rfl
  | cons e rest ih =>
    have hstep := toOption_applyOption s e
    rw [List.foldlM_cons, toOption_bind, named, List.filterMap_cons]
    cases hname : (Setting.ofName? e.1).map (·, e.2) with
    | none =>
      rw [hname, Option.elim_none] at hstep
      rw [hstep]
      exact ih s
    | some a =>
      rw [hname, Option.elim_some] at hstep
      rw [hstep, List.foldlM_cons]
      exact Option.bind_congr fun s' _ => ih s'

/-- After options that name each setting at most once, a setting has the value that its text stands
for, or what it had before. -/
theorem foldlM_store?_eq_some_iff {entries : Table Setting String} (h : entries.keys.Nodup) :
    entries.foldlM store? s = some s' ↔ (∀ e ∈ entries, (value? e.1 e.2).isSome) ∧
      ∀ x, s'.get x = ((entries.at? x).bind (value? x)).getD (s.get x) := by
  induction entries generalizing s with
  | nil =>
    constructor
    · intro hs
      cases hs
      exact ⟨fun e he => absurd he List.not_mem_nil, fun x => rfl⟩
    · intro hs
      exact congrArg some (eq_of_get_eq fun x => (hs.2 x).symm)
  | cons e rest ih =>
    obtain ⟨x, text⟩ := e
    obtain ⟨hnot, hrest⟩ := List.nodup_cons.mp h
    rw [List.foldlM_cons, List.forall_mem_cons]
    cases ha : value? x text with
    | none =>
      simp [store?, ha]
    | some a =>
      have hstore : s.store? (x, text) = some (s.set x a) := by rw [store?, ha, Option.map_some]
      have hvalue : ∀ y, ((Table.at? rest y).bind (value? y)).getD ((s.set x a).get y) =
          ((Table.at? ((x, text) :: rest) y).bind (value? y)).getD (s.get y) := by
        intro y
        rw [Table.at?_cons]
        by_cases hy : y = x
        · subst hy
          rw [Table.at?_eq_none_iff.mpr hnot, if_pos rfl, Option.bind_some, ha]
          exact get_set_self s y a
        · rw [if_neg hy, get_set_of_ne hy]
      rw [hstore]
      refine (ih hrest).trans ?_
      simp only [hvalue, Option.isSome_some, true_and]

/-- The settings that options describe: each has the value that its text stands for, or its
default. -/
def described (options : Table String String) : Settings :=
  ofValues fun x => (((named options).at? x).bind (value? x)).getD (({} : Settings).get x)

/-- **Options are accepted if each value can be read and what they describe can be used.** -/
theorem ofOptions_eq_ok_iff {options : Table String String} (h : Unambiguous options) :
    ofOptions options = .ok s ↔ (∀ e ∈ named options, (value? e.1 e.2).isSome) ∧
      s = described options ∧ s.validate = .ok () := by
  have hread : options.foldlM applyOption {} = .ok s ↔
      (∀ e ∈ named options, (value? e.1 e.2).isSome) ∧ s = described options := by
    rw [← toOption_eq_some, toOption_foldlM_applyOption, foldlM_store?_eq_some_iff h]
    refine and_congr_right fun _ => ⟨fun hs => eq_of_get_eq fun x => ?_, fun hs x => ?_⟩
    · rw [described, get_ofValues, hs x]
    · rw [hs, described, get_ofValues]
  rw [← and_assoc, ← hread, ofOptions, bind_eq_ok]
  constructor
  · intro hs
    obtain ⟨s₁, hs₁, hrest⟩ := hs
    obtain ⟨_, hvalid, heq⟩ := bind_eq_ok.mp hrest
    cases heq
    exact ⟨hs₁, hvalid⟩
  · intro hs
    exact ⟨s, hs.1, bind_eq_ok.mpr ⟨(), hs.2, rfl⟩⟩

/-! ## Other names -/

/-- The second options are the first ones, with names replaced by other names of the same setting,
and with options that mean nothing added or removed. -/
inductive Respelt (options : Table String String) : Table String String → Prop
  | refl : Respelt options options
  | rename {options' : Table String String} (name name' text : String) (x : Setting) :
      Respelt options options' → options'.at? name = some text →
      Setting.ofName? name = some x → Setting.ofName? name' = some x →
      Respelt options ((options'.without name).put name' text)
  | add {options' : Table String String} (name text : String) :
      Respelt options options' → Setting.ofName? name = none →
      Respelt options (options'.put name text)
  | remove {options' : Table String String} (name : String) :
      Respelt options options' → Setting.ofName? name = none →
      Respelt options (options'.without name)

section Names

variable {options options' : Table String String} {name name' text : String}

theorem named_cons (e : String × String) (options : Table String String) :
    named (e :: options) =
      ((Setting.ofName? e.1).map (·, e.2)).toList ++ named options := by
  rw [named, List.filterMap_cons, ← named]
  cases (Setting.ofName? e.1).map (·, e.2) <;> rfl

theorem mem_keys_named : x ∈ (named options).keys ↔
    ∃ name ∈ options.keys, Setting.ofName? name = some x := by
  simp only [Table.keys, named, List.mem_map, List.mem_filterMap, Option.map_eq_some_iff]
  constructor
  · rintro ⟨-, ⟨e, he, y, hy, rfl⟩, rfl⟩
    exact ⟨e.1, ⟨e, he, rfl⟩, hy⟩
  · rintro ⟨-, ⟨e, he, rfl⟩, hx⟩
    exact ⟨_, ⟨e, he, x, hx, rfl⟩, rfl⟩

theorem Unambiguous.of_perm (h : Unambiguous options)
    (hperm : (named options').Perm (named options)) : Unambiguous options' :=
  (hperm.map Prod.fst).nodup_iff.mpr h

theorem Unambiguous.tail {e : String × String} (h : Unambiguous (e :: options)) :
    Unambiguous options := by
  have hsub : (named options).Sublist (named (e :: options)) := by
    rw [named_cons]
    exact List.sublist_append_right _ _
  exact List.Nodup.sublist (hsub.map Prod.fst) h

theorem named_put_of_none (h : Setting.ofName? name = none) (options : Table String String)
    (text : String) : named (options.put name text) = named options := by
  have hskip (text : String) (rest : Table String String) :
      named ((name, text) :: rest) = named rest := by
    rw [named_cons, h, Option.map_none, Option.toList_none, List.nil_append]
  induction options with
  | nil => exact hskip text []
  | cons e rest ih =>
    unfold Table.put
    split
    · exact hskip text _
    · split
      · next hname => rw [hskip, ← hskip e.2 rest, hname]
      · rw [named_cons, named_cons e rest, ih]

theorem named_without_of_none (h : Setting.ofName? name = none) (options : Table String String) :
    named (options.without name) = named options := by
  rw [named, Table.without, List.filterMap_filter]
  refine List.filterMap_congr fun e _ => ?_
  by_cases he : e.1 = name
  · simp [he, h]
  · simp [he]

/-- What means something can be taken out and stored again under another name. -/
theorem named_without_perm (h : Unambiguous options) (htext : options.at? name = some text)
    (hname : Setting.ofName? name = some x) :
    ((x, text) :: named (options.without name)).Perm (named options) := by
  induction options with
  | nil => cases htext
  | cons e rest ih =>
    rw [Table.at?_cons] at htext
    by_cases he : name = e.1
    · rw [if_pos he] at htext
      cases htext
      have hfirst : named (e :: rest) = (x, e.2) :: named rest := by
        rw [named_cons, ← he, hname]
        rfl
      have hnot : name ∉ Table.keys rest := by
        intro hmem
        rw [Unambiguous, hfirst] at h
        exact (List.nodup_cons.mp h).1 (mem_keys_named.mpr ⟨name, hmem, hname⟩)
      have hrest : Table.without (e :: rest) name = rest := by
        rw [Table.without, List.filter_cons_of_neg (by simp [he]), List.filter_eq_self]
        intro e' he'
        exact decide_eq_true fun heq => hnot (heq ▸ List.mem_map_of_mem he')
      rw [hrest, hfirst]
    · rw [if_neg he] at htext
      have hrest : Table.without (e :: rest) name = e :: Table.without rest name :=
        List.filter_cons_of_pos (decide_eq_true (Ne.symm he))
      rw [hrest, named_cons, named_cons e rest]
      exact List.perm_middle.symm.trans ((ih h.tail htext).append_left _)

theorem Respelt.named_perm (hr : Respelt options options') (h : Unambiguous options) :
    (named options').Perm (named options) := by
  induction hr with
  | refl => exact .refl _
  | add name text _ hname ih =>
    rw [named_put_of_none hname]
    exact ih
  | remove name _ hname ih =>
    rw [named_without_of_none hname]
    exact ih
  | @rename options' name name' text x _ htext hname hname' ih =>
    have hout := named_without_perm (h.of_perm ih) htext hname
    have hnot : name' ∉ (options'.without name).keys := by
      intro hmem
      have hnodup : (Table.keys ((x, text) :: named (options'.without name))).Nodup :=
        (hout.map Prod.fst).nodup_iff.mpr (h.of_perm ih)
      exact (List.nodup_cons.mp hnodup).1 (mem_keys_named.mpr ⟨name', hmem, hname'⟩)
    have hin : (named ((options'.without name).put name' text)).Perm
        ((x, text) :: named (options'.without name)) := by
      refine ((Table.put_perm hnot text).filterMap _).trans (.of_eq ?_)
      rw [← named, named_cons, hname']
      rfl
    exact (hin.trans hout).trans ih

/-- **Names do not matter, as long as no two of them name one setting.** -/
theorem ofOptions_respelt (h : Unambiguous options) (hr : Respelt options options') :
    (ofOptions options').toOption = (ofOptions options).toOption ∧
    ∀ s, ofOptions options = .ok s ↔ (∀ e ∈ named options, (value? e.1 e.2).isSome) ∧
      s = described options ∧ s.validate = .ok () := by
  have hperm := hr.named_perm h
  have hdescribed : described options' = described options := by
    refine eq_of_get_eq fun x => ?_
    rw [described, described, get_ofValues, get_ofValues,
      Table.at?_eq_of_perm (h.of_perm hperm) hperm]
  refine ⟨?_, fun s => ofOptions_eq_ok_iff h⟩
  refine Option.ext fun s => ?_
  rw [toOption_eq_some, toOption_eq_some, ofOptions_eq_ok_iff h,
    ofOptions_eq_ok_iff (h.of_perm hperm), hdescribed]
  simp only [hperm.mem_iff]

/-- Options of an engine. -/
def engineOptions : Table String String :=
  [("CombiningSteps", "4"), ("IPAddress", " 127.0.0.1"), ("Port", "12306"), ("SomethingElse", "")]

/-- The same options in small letters. -/
def plainOptions : Table String String :=
  [("address", " 127.0.0.1"), ("aggregationfactor", "4"), ("another", "1"), ("port", "12306")]

theorem ofOptions_respelt_sample :
    (ofOptions plainOptions).toOption = (ofOptions engineOptions).toOption ∧
    ofOptions engineOptions =
      .ok { address := some "127.0.0.1", port := some 12306, aggregation := 4 } := by
  have hunknown : Respelt engineOptions _ :=
    .add "another" "1" (.remove "SomethingElse" .refl (by decide)) (by decide)
  have haddress : Respelt engineOptions _ :=
    hunknown.rename "IPAddress" "address" " 127.0.0.1" .address (by decide) (by decide) (by decide)
  have haggregation : Respelt engineOptions _ :=
    haddress.rename "CombiningSteps" "aggregationfactor" "4" .aggregation
      (by decide) (by decide) (by decide)
  have hport : Respelt engineOptions plainOptions :=
    haggregation.rename "Port" "port" "12306" .port (by decide) (by decide) (by decide)
  obtain ⟨heq, hiff⟩ := ofOptions_respelt (by decide) hport
  exact ⟨heq, (hiff _).mpr ⟨by decide, rfl, rfl⟩⟩

end Names

end Settings

end Stepcast
