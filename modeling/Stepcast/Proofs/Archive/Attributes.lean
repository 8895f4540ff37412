import Stepcast.Proofs.Archive.Operations
import Stepcast.Proofs.Wire.Batches
import Stepcast.Proofs.Wire.Variants

/-!
# Attributes that arrive

What attributes a message brings can be told from its bytes (`Gist.attributes?`): a message that is
data brings those of its section for attributes, if it has one. An archive keeps the first that it
is brought and never others (`Settles`). This does not depend on the blocks of the message, so it
holds of a message of which everything comes too late, and clearing the archive leaves the
attributes.

What is attached to an open draft is what its message brings, as long as the message can be read.
What is attached to a draft that is not open is forgotten, since opening starts a new message.

Main statements: `settles_run`, `attributes?_finish`, `attributes_run`.
-/

namespace Stepcast

namespace Attributes

/-! ## The records of a section -/

/-- The well-formed records of a section, in order. -/
def records (t : Tree) : List (String × Attribute) := (t.toList?.getD []).filterMap ofRecord?

/-- Of several records with one name the last counts. -/
theorem at?_ofTree (t : Tree) (name : String) :
    (ofTree t).at? name = Table.at? (records t).reverse name :=
  Table.at?_ofEntries_reverse (records t) name

theorem ofRecord?_entries (name : String) (a : Attribute) :
    ofRecord? (.map (entries name a)) = some (name, a) := by
  have hname : (Tree.map (entries name a)).at? nameKey = some (.text name) := rfl
  have htag : (Tree.map (entries name a)).at? tagKey = some (.text a.tag) := rfl
  have hvalue : (Tree.map (entries name a)).at? valueKey = some a.toTree := rfl
  simp only [ofRecord?, hname, htag, hvalue, Tree.toText?, Attribute.ofTree?_toTree,
    Option.bind_eq_bind, Option.bind_some, Option.pure_def]

/-- **Attributes survive the way through a section.** -/
theorem ofTree_toTree {attributes : Attributes} (h : Table.Sorted attributes) :
    ofTree attributes.toTree = attributes := by
  have hrecords : records attributes.toTree = attributes := by
    show (attributes.map (fun e => Tree.map (entries e.1 e.2))).filterMap ofRecord? = attributes
    rw [List.filterMap_map]
    refine (List.filterMap_congr fun e _ => ?_).trans List.filterMap_some
    exact ofRecord?_entries e.1 e.2
  exact (congrArg Table.ofEntries hrecords).trans (Table.ofEntries_eq_self h)

end Attributes

namespace Archive

/-! ## What a message brings -/

/-- The attributes that the message brings. -/
def Gist.attributes? : Gist → Option Attributes
  | .data c => c.attributes
  | _ => none

/-- The attributes that a received message brings. -/
def Event.attributes? : Event → Option Attributes
  | .put message => (gist message).attributes?
  | _ => none

section Brings

variable {message : Bytes} {attributes : Attributes}

theorem attributes_of_ofIndex {key stop : Nat} {entries : Table String Tree} {c : Contents}
    (h : Contents.ofIndex key stop entries = .ok c) :
    c.attributes = (entries.at? attributesKey).map Attributes.ofTree := by
  rw [Contents.ofIndex] at h
  obtain ⟨lists, -, hcontents⟩ := bind_eq_ok.mp h
  cases hcontents
  rfl

/-- Whether a message is taken for data does not depend on the archive. -/
theorem exists_data_iff (a : Archive) :
    (∃ n steps, (a.put message).2 = .ok (.data n steps)) ↔ ∃ c, gist message = .data c := by
  rw [put_eq]
  cases gist message with
  | data c =>
    refine iff_of_true ?_ ⟨c, rfl⟩
    rw [absorb]
    dsimp only
    rw [outcome_addContents]
    exact ⟨_, _, rfl⟩
  | _ => simp [absorb]

/-- **A message brings what stands in its section**, if it is taken for data: under each name the
last of the well-formed records. -/
theorem attributes?_gist_iff : (gist message).attributes? = some attributes ↔
    (∀ a : Archive, ∃ n steps, (a.put message).2 = .ok (.data n steps)) ∧
    ∃ offset entries t, Frame.index message = .ok (offset, entries) ∧
      entries.at? attributesKey = some t ∧ Table.Sorted attributes ∧
      ∀ name, attributes.at? name = Table.at? (Attributes.records t).reverse name := by
  have hdata : (∀ a : Archive, ∃ n steps, (a.put message).2 = .ok (.data n steps)) ↔
      ∃ c, gist message = .data c :=
    ⟨fun h => (exists_data_iff {}).mp (h {}), fun h a => (exists_data_iff a).mpr h⟩
  rw [hdata]
  constructor
  · intro h
    cases hgist : gist message with
    | data c =>
      obtain ⟨offset, entries, hindex, hcontents⟩ := exists_index_of_gist hgist
      have hsection : (entries.at? attributesKey).map Attributes.ofTree = some attributes := by
        rw [← attributes_of_ofIndex hcontents, ← h, hgist, Gist.attributes?]
      obtain ⟨t, ht, rfl⟩ := Option.map_eq_some_iff.mp hsection
      exact ⟨⟨c, rfl⟩, offset, entries, t, hindex, ht, Table.sorted_ofEntries _,
        Attributes.at?_ofTree t⟩
    | _ =>
      rw [hgist] at h
      cases h
  · intro h
    obtain ⟨⟨c, hgist⟩, offset, entries, t, hindex, ht, hsorted, hnames⟩ := h
    obtain ⟨_, _, hindex', hcontents⟩ := exists_index_of_gist hgist
    cases hindex.symm.trans hindex'
    have heq : Attributes.ofTree t = attributes :=
      Table.eq_of_at?_eq (Table.sorted_ofEntries _) hsorted fun name =>
        (Attributes.at?_ofTree t name).trans (hnames name).symm
    rw [hgist, Gist.attributes?, attributes_of_ofIndex hcontents, ht, Option.map_some, heq]

end Brings

/-! ## The first counts -/

/-- The archive keeps the attributes that it had received, or has received what it was brought. -/
structure Settles (brought : Option Attributes) (a a' : Archive) : Prop where
  attributes : a'.attributes =
    if a.attributesReceived then a.attributes else brought.getD a.attributes
  received : a'.attributesReceived = (a.attributesReceived || brought.isSome)

section Settles

variable {a a' a₁ : Archive} {brought brought' : Option Attributes}

/-- Attributes that were not touched were brought nothing. -/
theorem Settles.none (hattributes : a'.attributes = a.attributes)
    (hreceived : a'.attributesReceived = a.attributesReceived) : Settles .none a a' where
  attributes := by simpa using hattributes
  received := by simpa using hreceived

theorem Settles.trans (h : Settles brought a a₁) (h' : Settles brought' a₁ a') :
    Settles (brought.or brought') a a' where
  attributes := by
    rw [h'.attributes, h.received, h.attributes]
    cases a.attributesReceived <;> cases brought <;> simp
  received := by
    rw [h'.received, h.received]
    cases brought <;> simp

theorem settles_addAttributes (a : Archive) (brought : Option Attributes) :
    Settles brought a (a.addAttributes brought) := by
  cases brought with
  | none => exact .none rfl rfl
  | some attributes =>
    rw [addAttributes]
    constructor <;> split <;> simp_all

/-- Blocks do not touch the attributes. -/
theorem Settles.addBlocks (h : Settles brought a a') (blocks : List Block) :
    Settles brought a (a'.addBlocks blocks) := by
  induction blocks generalizing a' with
  | nil => exact h
  | cons b rest ih =>
    rw [addBlocks_cons]
    exact ih ⟨h.attributes, h.received⟩

theorem settles_put (a : Archive) (message : Bytes) :
    Settles (gist message).attributes? a (a.put message).1 := by
  rw [put_eq]
  cases gist message with
  | data c =>
    have hadded := settles_addAttributes { a with nextKey := a.nextKey + 1 } c.attributes
    rw [absorb]
    dsimp only
    rw [addContents_eq]
    split
    · exact ⟨hadded.attributes, hadded.received⟩
    · refine Settles.addBlocks ?_ _
      exact ⟨hadded.attributes, hadded.received⟩
  | _ => exact .none rfl rfl

theorem settles_handle (a : Archive) (event : Event) :
    Settles event.attributes? a (a.handle event) := by
  cases event with
  | put message => exact settles_put a message
  | _ => exact .none rfl rfl

/-- **The first attributes that an archive is brought settle what they are.** -/
theorem settles_run (a : Archive) (events : List Event) :
    Settles (events.findSome? Event.attributes?) a (events.foldl handle a) := by
  induction events generalizing a with
  | nil => exact .none rfl rfl
  | cons event rest ih =>
    -- What the first operation brings goes before all that comes later.
    have hrun := (settles_handle a event).trans (ih (a.handle event))
    rw [List.findSome?_cons]
    cases hevent : event.attributes? <;> simpa [hevent] using hrun

end Settles

/-! ## What was attached -/

section Finish

variable {operators : Operators} {d : Draft} {cs : List Draft.Call}

/-- **A finished draft brings what was attached to it.** -/
theorem attributes?_finish (htracks : Draft.Tracks operators cs d) (hfit : Draft.CallsFit cs)
    (hlength : d.finish.1.length < 2 ^ 64) (hsorted : ∀ a ∈ d.attributes, Table.Sorted a) :
    (gist d.finish.1).attributes? = d.attributes := by
  obtain ⟨offset, entries, contents, hindex, hfinal, hcontents, -⟩ :=
    index_finish htracks hfit hlength 0
  have hentries := (index_finish_eq htracks hfit.encodable hlength).1
  rw [hindex] at hentries
  cases hentries
  rw [gist_of_index hindex hfinal, hcontents]
  show contents.attributes = d.attributes
  rw [attributes_of_ofIndex hcontents, htracks.at?_attributes, ← htracks.attributes, Option.map_map]
  cases hattributes : d.attributes with
  | none => rfl
  | some a => exact congrArg some (Attributes.ofTree_toTree (hsorted a hattributes))

end Finish

/-- The draft was filled by these calls since it was opened, with these attributes attached last,
and its message can be written. -/
structure Attached (operators : Operators) (cs : List Draft.Call) (attributes : Attributes)
    (d : Draft) : Prop where
  calls : ∃ d₀ : Draft, d₀.open.calls operators cs = .ok d
  last : Draft.lastAttributes cs = some attributes
  sorted : Table.Sorted attributes
  encodable : Draft.CallsEncodable cs
  length : d.finish.1.length < 2 ^ 64

/-- **The first attributes to arrive are those of the stream.** After any operations the attributes
are what the first message with a section for them brought. What a draft brings is what was last
attached to it since it was opened, if every box has one start for each extent; otherwise its
message is refused and brings nothing. What is attached to a draft that is not open is forgotten. -/
theorem attributes_run (events : List Event) :
    (events.foldl handle {}).attributes = (events.findSome? Event.attributes?).getD [] ∧
    (∀ message attributes, Event.attributes? (.put message) = some attributes ↔
      (∀ a : Archive, ∃ n steps, (a.put message).2 = .ok (.data n steps)) ∧
      ∃ offset entries t, Frame.index message = .ok (offset, entries) ∧
        entries.at? attributesKey = some t ∧ Table.Sorted attributes ∧
        ∀ name, attributes.at? name = Table.at? (Attributes.records t).reverse name) ∧
    (∀ operators cs attributes d, Attached operators cs attributes d →
      (¬ Draft.Unranked cs → (∀ event ∈ events, event.attributes? = none) → ∀ later : List Event,
        ((events ++ .put d.finish.1 :: later).foldl handle {}).attributes = attributes) ∧
      (Draft.Unranked cs → ∀ a : Archive,
        (a.put d.finish.1).1 = { a with nextKey := a.nextKey + 1 })) ∧
    ∀ (d : Draft) attributes, d.payload = none →
      (d.attachAttributes attributes).finish = d.finish := by
  have hfirst : ∀ events : List Event, (events.foldl handle {}).attributes =
      (events.findSome? Event.attributes?).getD [] :=
    fun events => (settles_run {} events).attributes
  refine ⟨hfirst events, fun message attributes => attributes?_gist_iff, ?_,
    fun d attributes hclosed => ?_⟩
  · intro operators cs attributes d h
    obtain ⟨d₀, hcalls⟩ := h.calls
    have htracks := Draft.tracks_calls hcalls
    refine ⟨fun hranked hbefore later => ?_, fun hbad a => ?_⟩
    · have hfit := fit_of_isRanked h.encodable fun v step payload hput =>
        not_not.mp fun hbox => hranked ⟨v, step, payload, hput, hbox⟩
      have hattached : d.attributes = some attributes := htracks.attributes.trans h.last
      have hbrings : Event.attributes? (.put d.finish.1) = some attributes := by
        refine (attributes?_finish htracks hfit h.length fun a ha => ?_).trans hattached
        cases hattached.symm.trans ha
        exact h.sorted
      rw [hfirst, List.findSome?_append, List.findSome?_eq_none_iff.mpr hbefore, Option.none_or,
        List.findSome?_cons, hbrings]
      rfl
    · obtain ⟨hindex, hfinal⟩ := index_finish_eq htracks h.encodable h.length
      obtain ⟨v, step, payload, -, -, hcontents⟩ :=
        ofIndex_finish_error htracks h.encodable h.length hbad a.nextKey
      rw [put_of_ofIndex_error a hindex hfinal hcontents]
  · have hopen : (d.attachAttributes attributes).ensureOpen = d.ensureOpen := by
      simp [Draft.ensureOpen, Draft.attachAttributes, Draft.open, hclosed]
    rw [Draft.finish, Draft.finish, hopen]

/-- Attributes of three kinds. -/
def sampleAttributes : Attributes :=
  [("levels", .ints [-1, 2]), ("names", .texts ["a", "b"]), ("units", .text "K")]

theorem sampleAttributes_fits : sampleAttributes.Fits := by
  refine ⟨by decide, by decide, fun e he => ?_⟩
  simp only [sampleAttributes, List.mem_cons, List.not_mem_nil, or_false] at he
  rcases he with rfl | rfl | rfl
  · exact (by decide : [(-1 : Int64), 2].length < 2 ^ 32)
  · exact ⟨by decide, by decide⟩
  · exact (by decide : (utf8 "K").length < 2 ^ 32)

/-- Attributes and a block. -/
def describedCalls : List Draft.Call :=
  [.attach sampleAttributes, .put (.scalar "t" .uint8) 3 [5]]

/-- The draft after `describedCalls`. -/
def describedDraft : Draft :=
  { rank := 7
    payload := some [5]
    records := [(3, [Draft.recordOf (.scalar "t" .uint8) 1 16])]
    attributes := some sampleAttributes }

theorem describedDraft_attached : Attached [] describedCalls sampleAttributes describedDraft where
  calls := ⟨{ rank := 7 }, rfl⟩
  last := rfl
  sorted := show sampleAttributes.Pairwise (fun a b => a.1 < b.1) by decide
  encodable := {
    puts := by
      intro v step payload h
      simp only [describedCalls, List.mem_cons, List.not_mem_nil, or_false, Draft.Call.put.injEq,
        reduceCtorEq, false_or] at h
      obtain ⟨rfl, -, -⟩ := h
      exact ⟨by decide, by decide, by decide, by decide, fun _ h => nomatch h⟩
    blocks := fun step =>
      Nat.lt_of_le_of_lt (Draft.length_putsAt_le step describedCalls) (by decide)
    attributes := by
      intro attributes h
      cases h
      exact sampleAttributes_fits
    sections := by decide }
  length := by decide +kernel

/-- A message whose step is erased. -/
def passedEvents : List Event := [.put (elementMessage 0 4), .erase 9]

/-- Other attributes, and the end of all steps. -/
def otherEvents : List Event :=
  [.put (({ rank := 0 } : Draft).open.attachAttributes [("units", .text "m")]).finish.1, .clear]

/-- The message comes too late with its block, but its attributes are the first. -/
theorem attributes_run_sample :
    ((passedEvents.foldl handle {}).put describedDraft.finish.1).1.liveSteps = [4] ∧
      ((passedEvents ++ .put describedDraft.finish.1 :: otherEvents).foldl handle {}).attributes =
        sampleAttributes := by
  have hranked : ¬ Draft.Unranked describedCalls := by
    rintro ⟨v, step, payload, hput, hbox⟩
    simp only [describedCalls, List.mem_cons, List.not_mem_nil, or_false, Draft.Call.put.injEq,
      reduceCtorEq, false_or] at hput
    obtain ⟨rfl, -, -⟩ := hput
    exact hbox (by decide)
  have hbefore : ∀ event ∈ passedEvents, event.attributes? = none := by decide +kernel
  obtain ⟨-, -, hattached, -⟩ := attributes_run passedEvents
  exact ⟨by decide +kernel,
    (hattached _ _ _ _ describedDraft_attached).1 hranked hbefore otherEvents⟩

/-- Attributes are lost when they are attached to a draft that is not open, although the draft has
data then, and when a box beside them has an extent but no start. -/
theorem loses_attached :
    let units : Attributes := [("units", .text "K")]
    let closed := ({ rank := 0 } : Draft).attachAttributes units
    closed.hasData = true ∧ (({} : Archive).put closed.finish.1).1.attributes = [] ∧
      (({} : Archive).put (unrankedDraft.attachAttributes units).finish.1).1.attributes = [] :=
  ⟨rfl, by decide +kernel, by decide +kernel⟩

end Archive

end Stepcast
