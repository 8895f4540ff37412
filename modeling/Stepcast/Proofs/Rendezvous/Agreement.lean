import Mathlib.Data.List.Nodup
import Mathlib.Data.List.Perm.Subperm
import Stepcast.Proofs.Rendezvous.Knowledge

/-!
# When a stream is settled

A plan says which applications there are, which processes form them, and which side of each stream
they take. A process that knows the announcements of some processes takes a stream for settled just
if it knows those of all members of all applications that take part: a group that is there only in
part, or not at all, is noticed. What it then knows is what the plan says.

Main statements: `converged_iff`, `mapOf_eq_of_complete`.
-/

namespace Stepcast

/-! ## Plans -/

/-- A group of processes and the sides of the streams that it takes. -/
structure Application where
  /-- The ranks of the members in the pool; the first one leads. -/
  members : List UInt32
  /-- The side of a stream that the members take, if they open it. -/
  role? : String → Option Role

namespace Application

/-- The rank of the leading member. -/
def master (app : Application) : UInt32 := app.members.headD 0

theorem master_eq (app : Application) {k : Nat} {p : UInt32} (hk : app.members[k]? = some p)
    (hroot : k = 0) : app.master = p := by
  subst hroot
  rw [master, List.headD_eq_head?_getD, List.head?_eq_getElem?, hk]
  rfl

/-- The ranks of the members. -/
def rankSet (app : Application) : RankSet := Table.ofEntries (app.members.map (fun p => (p, ())))

theorem mem_rankSet {app : Application} {p : UInt32} :
    p ∈ Table.keys app.rankSet ↔ p ∈ app.members := by
  have hkeys : Table.keys (app.members.map (fun p => (p, ()))) = app.members := by
    rw [Table.keys, List.map_map]
    exact List.map_id' app.members
  rw [rankSet, Table.mem_keys_ofEntries, hkeys]

/-- The group as its members announce it. -/
def announcement (app : Application) (role : Role) (stream : String) : Announcement :=
  { role, master := app.master, groupSize := UInt32.ofNat app.members.length, stream }

end Application

/-- The applications of a run. -/
structure Plan where
  settings : RendezvousSettings
  poolSize : UInt32
  applications : List Application

namespace Plan

/-- The applications are disjoint groups of processes of the pool, slots are 32-bit words, and names
hold no zero byte. -/
structure Valid (plan : Plan) : Prop where
  disjoint : (plan.applications.flatMap Application.members).Nodup
  nonempty : ∀ app ∈ plan.applications, app.members ≠ []
  inPool : ∀ app ∈ plan.applications, ∀ p ∈ app.members, p < plan.poolSize
  slots : plan.settings.maxStreams < UInt32.size
  names : ∀ app ∈ plan.applications, ∀ stream, (app.role? stream).isSome →
    (0 : UInt8) ∉ utf8 stream

/-- The applications that open a stream. -/
def openers (plan : Plan) (stream : String) : List Application :=
  plan.applications.filter (fun app => (app.role? stream).isSome)

/-- The applications that take a side of a stream. -/
def takers (plan : Plan) (role : Role) (stream : String) : List Application :=
  plan.applications.filter (fun app => app.role? stream = some role)

/-- The groups on one side of a stream, by master. -/
def rankMap (plan : Plan) (role : Role) (stream : String) : RankMap :=
  Table.ofEntries ((plan.takers role stream).map (fun app => (app.master, app.rankSet)))

variable {plan : Plan}

theorem mem_openers {stream : String} {app : Application} :
    app ∈ plan.openers stream ↔
      app ∈ plan.applications ∧ ∃ role, app.role? stream = some role := by
  simp [openers, Option.isSome_iff_exists]

theorem Valid.nodup_members (h : plan.Valid) {app : Application} (happ : app ∈ plan.applications) :
    app.members.Nodup :=
  (List.nodup_flatMap.mp h.disjoint).1 app happ

/-- A process belongs to one application. -/
theorem Valid.eq_of_mem (h : plan.Valid) {app app' : Application}
    (happ : app ∈ plan.applications) (happ' : app' ∈ plan.applications) {p : UInt32}
    (hp : p ∈ app.members) (hp' : p ∈ app'.members) : app = app' := by
  have hdisjoint := (List.nodup_flatMap.mp h.disjoint).2
  refine List.Pairwise.forall_of_forall_of_flip (R := fun a b =>
    p ∈ a.members → p ∈ b.members → a = b) (fun _ _ _ _ => rfl) ?_ ?_ happ happ' hp hp'
  · exact hdisjoint.imp fun hab ha hb => absurd hb (hab ha)
  · exact hdisjoint.imp fun hab hb ha => absurd hb (hab ha)

theorem Valid.master_mem (h : plan.Valid) {app : Application} (happ : app ∈ plan.applications) :
    app.master ∈ app.members := by
  have hne := h.nonempty app happ
  cases hmembers : app.members with
  | nil => exact absurd hmembers hne
  | cons p rest => simp [Application.master, hmembers]

theorem Valid.eq_of_master_eq (h : plan.Valid) {app app' : Application}
    (happ : app ∈ plan.applications) (happ' : app' ∈ plan.applications)
    (hmaster : app.master = app'.master) : app = app' :=
  h.eq_of_mem happ happ' (h.master_mem happ) (hmaster ▸ h.master_mem happ')

/-- A group is no larger than the pool, so its size is announced as it is. -/
theorem Valid.size_eq (h : plan.Valid) {app : Application} (happ : app ∈ plan.applications) :
    (UInt32.ofNat app.members.length).toNat = app.members.length := by
  have hsub : app.members.map UInt32.toNat ⊆ List.range plan.poolSize.toNat := by
    intro n hn
    obtain ⟨p, hp, rfl⟩ := List.mem_map.mp hn
    exact List.mem_range.mpr (UInt32.lt_iff_toNat_lt.mp (h.inPool app happ p hp))
  have hnodup : (app.members.map UInt32.toNat).Nodup :=
    (h.nodup_members happ).map (fun _ _ heq => UInt32.toNat_inj.mp heq)
  have hlength := (hnodup.subperm hsub).length_le
  rw [List.length_map, List.length_range] at hlength
  exact UInt32.toNat_ofNat_of_lt' (Nat.lt_of_le_of_lt hlength plan.poolSize.toNat_lt)

/-! ## What the plan says of a stream -/

/-- The announcements of a stream that reach a process are those that the plan gives to the
processes in `A`. -/
def Tells (plan : Plan) (N : UInt32 × Announcement → Prop) (stream : String)
    (A : UInt32 → Prop) : Prop :=
  ∀ p role master size, N (p, ⟨role, master, size, stream⟩) ↔ A p ∧
    ∃ app ∈ plan.applications, p ∈ app.members ∧ app.role? stream = some role ∧
      master = app.master ∧ size = UInt32.ofNat app.members.length

/-- All members of all applications that open the stream are in `A`. -/
def Complete (plan : Plan) (stream : String) (A : UInt32 → Prop) : Prop :=
  ∀ app ∈ plan.openers stream, ∀ p ∈ app.members, A p

end Plan

namespace Coordinator

variable {plan : Plan} {c : Coordinator} {N : UInt32 × Announcement → Prop} {stream : String}
  {A : UInt32 → Prop}

theorem mem_mapOf_iff (hknows : c.Knows N) (htells : plan.Tells N stream A) {role : Role}
    {master : UInt32} : master ∈ Table.keys (c.mapOf role stream) ↔
      ∃ app ∈ plan.applications, app.role? stream = some role ∧ master = app.master ∧
        ∃ p ∈ app.members, A p := by
  rw [hknows.mem_masters]
  constructor
  · intro h
    obtain ⟨p, size, hN⟩ := h
    obtain ⟨hA, app, happ, hp, hrole, rfl, -⟩ := (htells ..).mp hN
    exact ⟨app, happ, hrole, rfl, p, hp, hA⟩
  · intro h
    obtain ⟨app, happ, hrole, rfl, p, hp, hA⟩ := h
    exact ⟨p, _, (htells ..).mpr ⟨hA, app, happ, hp, hrole, rfl, rfl⟩⟩

theorem mem_ranks_iff (hplan : plan.Valid) (hknows : c.Knows N) (htells : plan.Tells N stream A)
    {role : Role} {app : Application} (happ : app ∈ plan.applications) {p : UInt32} :
    p ∈ Table.keys ((c.mapOf role stream).ranks app.master) ↔
      app.role? stream = some role ∧ p ∈ app.members ∧ A p := by
  rw [hknows.mem_ranks]
  constructor
  · intro h
    obtain ⟨size, hN⟩ := h
    obtain ⟨hA, app', happ', hp, hrole, hmaster, -⟩ := (htells ..).mp hN
    obtain rfl := hplan.eq_of_master_eq happ happ' hmaster
    exact ⟨hrole, hp, hA⟩
  · intro h
    obtain ⟨hrole, hp, hA⟩ := h
    exact ⟨_, (htells ..).mpr ⟨hA, app, happ, hp, hrole, rfl, rfl⟩⟩

/-! ## The count of the groups -/

theorem mem_masters_iff (hknows : c.Knows N) (htells : plan.Tells N stream A) {master : UInt32} :
    master ∈ c.masters stream ↔
      ∃ app ∈ plan.openers stream, master = app.master ∧ ∃ p ∈ app.members, A p := by
  have hkeys : master ∈ c.masters stream ↔ master ∈ Table.keys (c.mapOf .writer stream) ∨
      master ∈ Table.keys (c.mapOf .reader stream) := by
    rw [masters, Table.mem_keys_ofEntries]
    simp [Table.keys, mapOf]
  rw [hkeys, mem_mapOf_iff hknows htells, mem_mapOf_iff hknows htells]
  constructor
  · intro h
    rcases h with ⟨app, happ, hrole, hrest⟩ | ⟨app, happ, hrole, hrest⟩
    · exact ⟨app, Plan.mem_openers.mpr ⟨happ, _, hrole⟩, hrest⟩
    · exact ⟨app, Plan.mem_openers.mpr ⟨happ, _, hrole⟩, hrest⟩
  · intro h
    obtain ⟨app, hopener, hrest⟩ := h
    obtain ⟨happ, role, hrole⟩ := Plan.mem_openers.mp hopener
    cases role with
    | writer => exact .inl ⟨app, happ, hrole, hrest⟩
    | reader => exact .inr ⟨app, happ, hrole, hrest⟩

theorem nodup_masters (c : Coordinator) (stream : String) : (c.masters stream).Nodup :=
  (Table.sorted_ofEntries _).nodup_keys

theorem nodup_map_master (hplan : plan.Valid) {apps : List Application}
    (hsub : apps.Sublist plan.applications) : (apps.map Application.master).Nodup := by
  have hdisjoint := ((List.nodup_flatMap.mp hplan.disjoint).2).sublist hsub
  refine List.pairwise_map.mpr (hdisjoint.imp_of_mem fun ha hb hab heq => ?_)
  have ha := hplan.master_mem (hsub.mem ha)
  have hb := hplan.master_mem (hsub.mem hb)
  exact hab ha (heq ▸ hb)

/-- As many groups are known as open the stream just if each of them is known in part. -/
theorem length_masters_iff (hplan : plan.Valid) (hknows : c.Knows N)
    (htells : plan.Tells N stream A) :
    (c.masters stream).length = (plan.openers stream).length ↔
      ∀ app ∈ plan.openers stream, app.master ∈ c.masters stream := by
  have hsub : c.masters stream ⊆ (plan.openers stream).map Application.master := by
    intro master hmaster
    obtain ⟨app, happ, rfl, -⟩ := (mem_masters_iff hknows htells).mp hmaster
    exact List.mem_map_of_mem happ
  have hsubperm := (nodup_masters c stream).subperm hsub
  rw [← (List.length_map Application.master : _ = (plan.openers stream).length)]
  constructor
  · intro hlength app happ
    have hperm := hsubperm.perm_of_length_le (Nat.le_of_eq hlength.symm)
    exact hperm.mem_iff.mpr (List.mem_map_of_mem happ)
  · intro hall
    have hsub' : (plan.openers stream).map Application.master ⊆ c.masters stream := by
      intro master hmaster
      obtain ⟨app, happ, rfl⟩ := List.mem_map.mp hmaster
      exact hall app happ
    have hsubperm' := (nodup_map_master hplan List.filter_sublist).subperm hsub'
    exact Nat.le_antisymm hsubperm.length_le hsubperm'.length_le

/-! ## The size of a group -/

theorem ranks_eq_nil (hplan : plan.Valid) (hknows : c.Knows N) (htells : plan.Tells N stream A)
    {app : Application} (happ : app ∈ plan.applications) {role : Role}
    (hrole : app.role? stream ≠ some role) : (c.mapOf role stream).ranks app.master = [] := by
  refine List.eq_nil_iff_forall_not_mem.mpr fun e he => hrole ?_
  exact ((mem_ranks_iff hplan hknows htells happ).mp (List.mem_map_of_mem he)).1

/-- The ranks that announced the stream under a master are counted on one side only. -/
theorem announcedCount_eq (hplan : plan.Valid) (hknows : c.Knows N)
    (htells : plan.Tells N stream A) {app : Application} (happ : app ∈ plan.applications)
    {role : Role} (hrole : app.role? stream = some role) :
    c.announcedCount stream app.master = ((c.mapOf role stream).ranks app.master).length := by
  have hcount : c.announcedCount stream app.master =
      ((c.mapOf .writer stream).ranks app.master).length +
        ((c.mapOf .reader stream).ranks app.master).length := rfl
  cases role with
  | writer =>
    have hother : app.role? stream ≠ some .reader := by rw [hrole]; decide
    rw [hcount, ranks_eq_nil hplan hknows htells happ hother, List.length_nil, Nat.add_zero]
  | reader =>
    have hother : app.role? stream ≠ some .writer := by rw [hrole]; decide
    rw [hcount, ranks_eq_nil hplan hknows htells happ hother, List.length_nil, Nat.zero_add]

/-- A group is counted in full just if all of its members are known. -/
theorem announcedCount_eq_iff (hplan : plan.Valid) (hknows : c.Knows N)
    (htells : plan.Tells N stream A) {app : Application} (happ : app ∈ plan.applications)
    {role : Role} (hrole : app.role? stream = some role) :
    c.announcedCount stream app.master = app.members.length ↔ ∀ p ∈ app.members, A p := by
  have hmem : ∀ p, p ∈ Table.keys ((c.mapOf role stream).ranks app.master) ↔
      p ∈ app.members ∧ A p := by
    intro p
    rw [mem_ranks_iff hplan hknows htells happ]
    exact and_iff_right hrole
  have hnodup := (hknows.sorted_ranks role stream app.master).nodup_keys
  rw [announcedCount_eq hplan hknows htells happ hrole, ← List.length_map (f := Prod.fst)]
  constructor
  · intro hlength p hp
    have hsubperm := hnodup.subperm (fun p hp => ((hmem p).mp hp).1)
    have hperm := hsubperm.perm_of_length_le (Nat.le_of_eq hlength.symm)
    exact ((hmem p).mp (hperm.mem_iff.mpr hp)).2
  · intro hall
    have hperm : (Table.keys ((c.mapOf role stream).ranks app.master)).Perm app.members :=
      (List.perm_ext_iff_of_nodup hnodup (hplan.nodup_members happ)).mpr fun p => by
        rw [hmem]
        exact and_iff_left_of_imp (hall p)
    exact hperm.length_eq

theorem size_eq_of_at? (hplan : plan.Valid) (hknows : c.Knows N) (htells : plan.Tells N stream A)
    {app : Application} (happ : app ∈ plan.applications) {size : UInt32}
    (hsize : (c.sizesOf stream).at? app.master = some size) :
    size.toNat = app.members.length := by
  obtain ⟨p, role, hN⟩ := hknows.sizes stream app.master size hsize
  obtain ⟨-, app', happ', -, -, hmaster, rfl⟩ := (htells ..).mp hN
  obtain rfl := hplan.eq_of_master_eq happ happ' hmaster
  exact hplan.size_eq happ

/-- Of a group with a known member the size is known. -/
theorem exists_size (hknows : c.Knows N) (htells : plan.Tells N stream A) {app : Application}
    (happ : app ∈ plan.openers stream) {p : UInt32} (hp : p ∈ app.members) (hA : A p) :
    (c.groupSizes.at? stream).isSome ∧ ∃ size, (c.sizesOf stream).at? app.master = some size := by
  obtain ⟨happ, role, hrole⟩ := Plan.mem_openers.mp happ
  have hN : N (p, app.announcement role stream) :=
    (htells ..).mpr ⟨hA, app, happ, hp, hrole, rfl, rfl⟩
  exact ⟨(hknows.sized p _ hN).1, Option.isSome_iff_exists.mp (hknows.sized p _ hN).2⟩

/-! ## Settling -/

/-- **A stream is settled just if all members of all applications that open it are known.** -/
theorem converged_iff (hplan : plan.Valid) (hknows : c.Knows N) (htells : plan.Tells N stream A)
    (hopened : plan.openers stream ≠ [])
    (hexpected : c.settings.expectedGroups = (plan.openers stream).length) :
    c.converged stream = true ↔ plan.Complete stream A := by
  have hconverged : c.converged stream = true ↔
      ((c.masters stream).length = (plan.openers stream).length ∧
        (c.groupSizes.at? stream).isSome) ∧ ∀ master ∈ c.masters stream,
          ∃ size, (c.sizesOf stream).at? master = some size ∧
            c.announcedCount stream master = size.toNat := by
    rw [← hexpected]
    simp only [converged, Bool.and_eq_true, beq_iff_eq, List.all_eq_true, Option.any_eq_true,
      sizesOf]
  rw [hconverged, length_masters_iff hplan hknows htells]
  constructor
  · intro h app hopener
    obtain ⟨⟨hmasters, -⟩, hsizes⟩ := h
    obtain ⟨happ, role, hrole⟩ := Plan.mem_openers.mp hopener
    obtain ⟨size, hsize, hcount⟩ := hsizes app.master (hmasters app hopener)
    rw [size_eq_of_at? hplan hknows htells happ hsize] at hcount
    exact (announcedCount_eq_iff hplan hknows htells happ hrole).mp hcount
  · intro hcomplete
    have hknown : ∀ app ∈ plan.openers stream, ∃ p ∈ app.members, A p := fun app hopener =>
      have hmaster := hplan.master_mem (Plan.mem_openers.mp hopener).1
      ⟨app.master, hmaster, hcomplete app hopener _ hmaster⟩
    refine ⟨⟨fun app hopener => ?_, ?_⟩, fun master hmaster => ?_⟩
    · exact (mem_masters_iff hknows htells).mpr ⟨app, hopener, rfl, hknown app hopener⟩
    · obtain ⟨app, hopener⟩ := List.exists_mem_of_ne_nil _ hopened
      obtain ⟨p, hp, hA⟩ := hknown app hopener
      exact (exists_size hknows htells hopener hp hA).1
    · obtain ⟨app, hopener, rfl, p, hp, hA⟩ := (mem_masters_iff hknows htells).mp hmaster
      obtain ⟨happ, role, hrole⟩ := Plan.mem_openers.mp hopener
      obtain ⟨size, hsize⟩ := (exists_size hknows htells hopener hp hA).2
      refine ⟨size, hsize, ?_⟩
      rw [size_eq_of_at? hplan hknows htells happ hsize]
      exact (announcedCount_eq_iff hplan hknows htells happ hrole).mpr (hcomplete app hopener)

theorem ranks_eq_of_complete (hplan : plan.Valid) (hknows : c.Knows N)
    (htells : plan.Tells N stream A) (hcomplete : plan.Complete stream A) {app : Application}
    (happ : app ∈ plan.applications) {role : Role} (hrole : app.role? stream = some role) :
    (c.mapOf role stream).ranks app.master = app.rankSet := by
  refine Table.eq_of_mem_keys_iff (hknows.sorted_ranks ..) (Table.sorted_ofEntries _) fun p => ?_
  rw [mem_ranks_iff hplan hknows htells happ, Application.mem_rankSet]
  constructor
  · exact fun h => h.2.1
  · exact fun hp => ⟨hrole, hp, hcomplete app (Plan.mem_openers.mpr ⟨happ, _, hrole⟩) p hp⟩

/-- **What is known of a settled stream is what the plan says.** -/
theorem mapOf_eq_of_complete (hplan : plan.Valid) (hknows : c.Knows N)
    (htells : plan.Tells N stream A) (hcomplete : plan.Complete stream A) (role : Role) :
    c.mapOf role stream = plan.rankMap role stream := by
  have hkeys : Table.keys ((plan.takers role stream).map (fun app => (app.master, app.rankSet))) =
      (plan.takers role stream).map Application.master := List.map_map
  have hsub : (plan.takers role stream).Sublist plan.applications := List.filter_sublist
  have hnodup := hkeys ▸ nodup_map_master hplan hsub
  refine Table.eq_of_at?_eq (hknows.sorted ..) (Table.sorted_ofEntries _) fun master => ?_
  by_cases hmaster : ∃ app ∈ plan.takers role stream, app.master = master
  · obtain ⟨app, htaker, rfl⟩ := hmaster
    obtain ⟨happ, hrole⟩ := List.mem_filter.mp htaker
    have hrole := of_decide_eq_true hrole
    have hA : A app.master := hcomplete app (Plan.mem_openers.mpr ⟨happ, role, hrole⟩) _
      (hplan.master_mem happ)
    have hknown : app.master ∈ Table.keys (c.mapOf role stream) :=
      (mem_mapOf_iff hknows htells).mpr ⟨app, happ, hrole, rfl, _, hplan.master_mem happ, hA⟩
    obtain ⟨ranks, hranks⟩ := Option.isSome_iff_exists.mp (Table.isSome_at?_iff.mpr hknown)
    have heq := ranks_eq_of_complete hplan hknows htells hcomplete happ hrole
    rw [RankMap.ranks, hranks, Option.getD_some] at heq
    rw [hranks, Plan.rankMap, Table.at?_ofEntries hnodup,
      Table.at?_of_mem hnodup (List.mem_map_of_mem htaker), heq]
  · have hunknown : master ∉ Table.keys (c.mapOf role stream) := by
      rw [mem_mapOf_iff hknows htells]
      intro h
      obtain ⟨app, happ, hrole, rfl, -⟩ := h
      exact hmaster ⟨app, List.mem_filter.mpr ⟨happ, decide_eq_true hrole⟩, rfl⟩
    have hnone : master ∉ Table.keys (plan.rankMap role stream) := by
      rw [Plan.rankMap, Table.mem_keys_ofEntries, hkeys, List.mem_map]
      exact hmaster
    rw [Table.at?_eq_none_iff.mpr hunknown]
    exact (Table.at?_eq_none_iff.mpr hnone).symm

end Coordinator

end Stepcast
