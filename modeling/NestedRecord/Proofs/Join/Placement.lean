import NestedRecord.Join.Procedure
import NestedRecord.Proofs.Graph.Metadata
import NestedRecord.Proofs.Path.Layout
import NestedRecord.Proofs.Procedure.Assembly

/-!
# What the procedures of a joined store consist of

Every join of a store puts at most one action into its procedures, at the lists of the
path that it leads to. Insertion, deletion and rebuilding have the same actions.

* `Joining.Stands` says which action a join puts where.
* `exists_entries` lists the actions of a compiled procedure, one for a join at most and
  one for every attachment.
* `exists_events` describes a run as a list of events: actions of joins at elements that
  their lists lead to.

The three procedures are compiled apart from each other, with one mode each. They differ in what
their actions do with a record and not in where these stand, so everything about places is proved
for any mode at once. Fragments without an action, such as those of joins that belong to no
aggregate, are left out by the compiler and do not show in `Stands`.
-/

namespace NestedRecord

/-- The joins of a store, in order of declaration. -/
def Metadata.joinsOf (metadata : Metadata) (store : String) : List Join :=
  (Fields.get? metadata.joins store).getD []

/-- The joins of a store are among those of all stores. -/
theorem Metadata.joinsOf_sublist (metadata : Metadata) (store : String) :
    (metadata.joinsOf store).Sublist (Fields.entries metadata.joins) :=
  Fields.sublist_entries metadata.joins store

namespace Joining

variable {blueprint : Blueprint} {store : String}

/-- The attachment of a join whose path is resolved. -/
def attachmentAt (blueprint : Blueprint) (join : Join) (resolved : ResolvedPath) : Attachment :=
  ⟨resolved.leaf, join.cardinality == .many,
    blueprint.metadata.localAggregates.filterMap (inlined? blueprint resolved)⟩

/-- What a join puts into the procedures of its store, and at which lists. -/
inductive Stands (blueprint : Blueprint) (store : String) : Join → List Loop → Action → Prop
  | attachment {join : Join} {resolved : ResolvedPath} (attaches : join.Attaches)
      (leads : blueprint.resolveLenient join.path = .ok resolved)
      (level : resolved.isScalar = false) :
      Stands blueprint store join resolved.loops (.attach (attachmentAt blueprint join resolved))
  | feed {join : Join} {aggregate : ExternalAggregate} {resolved : ResolvedPath}
      (feeds : join.cardinality = .aggregate)
      (registered : aggregate ∈ (Fields.get? blueprint.metadata.externals store).getD [])
      (target : aggregate.target = join.path)
      (leads : blueprint.resolveStrict aggregate.target = .ok resolved)
      (scalar : resolved.isScalar = true) :
      Stands blueprint store join resolved.loops (.feed ⟨resolved.leaf, aggregate⟩)

/-- The event comes from a join of the store. -/
def FromJoin (blueprint : Blueprint) (store : String) (event : Event Action) : Prop :=
  ∃ other ∈ blueprint.metadata.joinsOf store, ∃ loops,
    Stands blueprint store other loops event.action ∧ event.cursor.Fits loops

/-! ## One join -/

/-- The fragment of an attachment. -/
theorem placeAttachment_eq_ok {mode : Mode} {join : Join} {placed : Placed}
    (h : placeAttachment blueprint mode join = .ok placed) :
    ∃ resolved, blueprint.resolveLenient join.path = .ok resolved ∧ resolved.isScalar = false ∧
      placed.loops = resolved.loops ∧
      placed.action = .attach (attachmentAt blueprint join resolved) := by
  unfold placeAttachment at h
  obtain ⟨resolved, hresolved, h⟩ := Except.bind_eq_ok.mp h
  cases hscalar : resolved.isScalar with
  | true =>
    rw [hscalar] at h
    cases h
  | false =>
    rw [hscalar] at h
    cases h
    exact ⟨resolved, Blueprint.resolve_of_demand hresolved, hscalar, rfl, rfl⟩

/-- The fragment of an external aggregate. -/
theorem placeFeed_eq_some {join : Join} {placed : Placed}
    (h : placeFeed blueprint store join = .ok (some placed)) :
    ∃ aggregate resolved,
      aggregate ∈ (Fields.get? blueprint.metadata.externals store).getD [] ∧
      aggregate.target = join.path ∧ blueprint.resolveStrict aggregate.target = .ok resolved ∧
      resolved.isScalar = true ∧ placed.loops = resolved.loops ∧
      placed.action = .feed ⟨resolved.leaf, aggregate⟩ := by
  unfold placeFeed at h
  cases hfind : ((Fields.get? blueprint.metadata.externals store).getD []).find?
      (·.target = join.path) with
  | none =>
    simp only [hfind] at h
    cases h
  | some aggregate =>
    -- the aggregate is found by the path of its join
    have htarget : aggregate.target = join.path := by
      simpa using List.find?_some hfind
    simp only [hfind] at h
    obtain ⟨resolved, hresolved, h⟩ := Except.bind_eq_ok.mp h
    cases hscalar : resolved.isScalar with
    | false =>
      rw [hscalar] at h
      cases h
    | true =>
      rw [hscalar] at h
      cases h
      exact ⟨aggregate, resolved, List.mem_of_find?_eq_some hfind, htarget,
        Blueprint.resolve_of_demand hresolved, hscalar, rfl, rfl⟩

/-- An attachment is placed where its path leads. -/
theorem place_of_attaches {mode : Mode} {join : Join} (h : join.Attaches) :
    place blueprint store mode join = (placeAttachment blueprint mode join).map some := by
  unfold place
  cases hcardinality : join.cardinality with
  | aggregate => exact absurd hcardinality h
  | one => rfl
  | many => rfl

/-- What is placed for a join stands there. -/
theorem stands_of_place {mode : Mode} {join : Join} {placed : Placed}
    (h : place blueprint store mode join = .ok (some placed)) :
    Stands blueprint store join placed.loops placed.action := by
  by_cases hattaches : join.Attaches
  · rw [place_of_attaches hattaches] at h
    cases hplaced : placeAttachment blueprint mode join with
    | error fault =>
      rw [hplaced] at h
      cases h
    | ok other =>
      rw [hplaced] at h
      cases h
      obtain ⟨resolved, hresolved, hscalar, hloops, haction⟩ := placeAttachment_eq_ok hplaced
      rw [hloops, haction]
      exact .attachment hattaches hresolved hscalar
  · have hfeeds : join.cardinality = .aggregate := Decidable.not_not.mp hattaches
    rw [place, hfeeds] at h
    obtain ⟨aggregate, resolved, hmem, htarget, hresolved, hscalar, hloops, haction⟩ :=
      placeFeed_eq_some h
    rw [hloops, haction]
    exact .feed hfeeds hmem htarget hresolved hscalar

/-- Whether a join has an action: it is an attachment, or its path is the target of an external
aggregate of its store. -/
def Acts (blueprint : Blueprint) (store : String) (join : Join) : Prop :=
  join.Attaches ∨ ∃ aggregate ∈ (Fields.get? blueprint.metadata.externals store).getD [],
    aggregate.target = join.path

/-- A join that has an action is always placed. -/
theorem isSome_of_place {mode : Mode} {join : Join} {result : Option Placed}
    (hacts : Acts blueprint store join) (h : place blueprint store mode join = .ok result) :
    result.isSome := by
  by_cases hattaches : join.Attaches
  · rw [place_of_attaches hattaches] at h
    cases hplaced : placeAttachment blueprint mode join with
    | error fault =>
      rw [hplaced] at h
      cases h
    | ok placed =>
      rw [hplaced] at h
      cases h
      rfl
  · have hfeeds : join.cardinality = .aggregate := Decidable.not_not.mp hattaches
    obtain ⟨aggregate, hmem, htarget⟩ := hacts.resolve_left hattaches
    rw [place, hfeeds] at h
    replace h : placeFeed blueprint store join = .ok result := h
    unfold placeFeed at h
    cases hfind : ((Fields.get? blueprint.metadata.externals store).getD []).find?
        (·.target = join.path) with
    | none => exact absurd (decide_eq_true htarget) (List.find?_eq_none.mp hfind aggregate hmem)
    | some first =>
      simp only [hfind, Except.bind_eq_ok] at h
      obtain ⟨resolved, -, h⟩ := h
      cases hscalar : resolved.isScalar <;> rw [hscalar] at h <;> cases h
      rfl

/-! ## The procedures -/

/-- One step of the scaffold of a procedure. -/
def addJoin (blueprint : Blueprint) (store : String) (mode : Mode) (scaffold : Scaffold Action)
    (join : Join) : Except Fault (Scaffold Action) := do
  match ← place blueprint store mode join with
  | none => return scaffold
  | some placed => return scaffold.add placed.loops .body placed.label placed.action

/-- A join adds its action, or nothing if it has none. -/
theorem addJoin_eq_ok {mode : Mode} {scaffold scaffold' : Scaffold Action} {join : Join}
    (h : addJoin blueprint store mode scaffold join = .ok scaffold') :
    (¬ Acts blueprint store join ∧ scaffold' = scaffold) ∨
      ∃ placed : Placed, Stands blueprint store join placed.loops placed.action ∧
        scaffold' = scaffold.add placed.loops .body placed.label placed.action := by
  unfold addJoin at h
  obtain ⟨result, hplace, h⟩ := Except.bind_eq_ok.mp h
  cases result with
  | none =>
    cases h
    refine .inl ⟨fun hacts => ?_, rfl⟩
    simpa using isSome_of_place hacts hplace
  | some placed =>
    cases h
    exact .inr ⟨placed, stands_of_place hplace, rfl⟩

/-- An action with the lists that it needs and the join that it comes from. -/
abbrev Standing := Join × List Loop × Action

/-- Joins add their actions one after the other. -/
theorem exists_entries_scaffold {mode : Mode} :
    ∀ (joins : List Join) {scaffold scaffold' : Scaffold Action}
      {added : List (List Loop × Bucket × Action)},
      joins.foldlM (addJoin blueprint store mode) scaffold = .ok scaffold' →
      scaffold'.conflicts = [] → (scaffold.conflicts = [] → scaffold.Assembled added) →
        scaffold.conflicts = [] ∧ ∃ entries : List Standing,
          scaffold'.Assembled (added ++ entries.map fun entry => (entry.2.1, .body, entry.2.2)) ∧
          (entries.map (·.1)).Sublist joins ∧
          (∀ entry ∈ entries, Stands blueprint store entry.1 entry.2.1 entry.2.2) ∧
          ∀ join ∈ joins, Acts blueprint store join → ∃ entry ∈ entries, entry.1 = join
  | [], scaffold, scaffold', added, h, hconflicts, hassembled => by
    cases h
    refine ⟨hconflicts, [], ?_, by simp, by simp, by simp⟩
    simpa using hassembled hconflicts
  | join :: rest, scaffold, scaffold', added, h, hconflicts, hassembled => by
    rw [List.foldlM_cons] at h
    obtain ⟨next, hstep, hrest⟩ := Except.bind_eq_ok.mp h
    -- an aggregate that another store has taken over is passed over
    rcases addJoin_eq_ok hstep with ⟨hidle, rfl⟩ | ⟨placed, hstands, rfl⟩
    · obtain ⟨hnone, entries, hentries, hsub, hstands, hall⟩ :=
        exists_entries_scaffold rest hrest hconflicts hassembled
      refine ⟨hnone, entries, hentries, hsub.cons join, hstands, ?_⟩
      exact List.forall_mem_cons.mpr ⟨fun hacts => absurd hacts hidle, hall⟩
    · obtain ⟨hadd, entries, hentries, hsub, hstands', hall⟩ :=
        exists_entries_scaffold rest hrest hconflicts
          (fun hadd => (hassembled (Scaffold.conflicts_of_add hadd).1).add hadd)
      refine ⟨(Scaffold.conflicts_of_add hadd).1, (join, placed.loops, placed.action) :: entries,
        by simpa using hentries, hsub.cons_cons join,
        List.forall_mem_cons.mpr ⟨hstands, hstands'⟩, List.forall_mem_cons.mpr ⟨?_, ?_⟩⟩
      · exact fun _ => ⟨_, List.mem_cons_self, rfl⟩
      · intro other hother hacts
        obtain ⟨entry, hentry, hjoin⟩ := hall other hother hacts
        exact ⟨entry, List.mem_cons_of_mem _ hentry, hjoin⟩

/-- A procedure is synthesized from the actions of joins. -/
theorem exists_assembled_compile {mode : Mode} {program : Program Action}
    (h : compile blueprint store mode = .ok program) :
    ∃ (built : Scaffold Action) (entries : List Standing), built.synthesize = .ok program ∧
      built.Assembled (entries.map fun entry => (entry.2.1, .body, entry.2.2)) ∧
      (entries.map (·.1)).Sublist (blueprint.metadata.joinsOf store) ∧
      (∀ entry ∈ entries, Stands blueprint store entry.1 entry.2.1 entry.2.2) ∧
      ∀ join ∈ blueprint.metadata.joinsOf store, Acts blueprint store join →
        ∃ entry ∈ entries, entry.1 = join := by
  unfold compile at h
  obtain ⟨built, hscaffold, hfinish⟩ := Except.bind_eq_ok.mp h
  have hprogram := Blueprint.synthesize_of_finish hfinish
  obtain ⟨-, entries, hentries, hsub, hstands, hall⟩ :=
    @exists_entries_scaffold blueprint store mode (blueprint.metadata.joinsOf store)
      { name := blueprint.store ++ ".joins." ++ store ++ "." ++ mode.name } built []
      hscaffold (Scaffold.root_of_synthesize hprogram).1 (fun _ => Scaffold.assembled_start _)
  exact ⟨built, entries, hprogram, hentries, hsub, hstands, hall⟩

/-- The actions of a compiled procedure are those of the joins. -/
theorem exists_entries_compile {mode : Mode} {program : Program Action}
    (h : compile blueprint store mode = .ok program) :
    ∃ entries : List Standing, program.placed.Perm (entries.map (·.2)) ∧
      (entries.map (·.1)).Sublist (blueprint.metadata.joinsOf store) ∧
      (∀ entry ∈ entries, Stands blueprint store entry.1 entry.2.1 entry.2.2) ∧
      ∀ join ∈ blueprint.metadata.joinsOf store, Acts blueprint store join →
        ∃ entry ∈ entries, entry.1 = join := by
  obtain ⟨built, entries, hprogram, hentries, hsub, hstands, hall⟩ := exists_assembled_compile h
  refine ⟨entries, ?_, hsub, hstands, hall⟩
  have hperm := hentries.placed_program hprogram
  simpa [Bucket.loops, Function.comp_def] using hperm

/-- A procedure goes through lists that actions of joins need. -/
theorem exists_stands_of_list {mode : Mode} {program : Program Action}
    (h : compile blueprint store mode = .ok program) {list : List Loop}
    (hlist : list ∈ Pass.listsInner program.root.inner) :
    ∃ join ∈ blueprint.metadata.joinsOf store, ∃ loops action,
      Stands blueprint store join loops action ∧ list <+: loops := by
  obtain ⟨built, entries, hprogram, hentries, hsub, hstands, -⟩ := exists_assembled_compile h
  obtain ⟨added, hadded, hstart⟩ := hentries.lists_program hprogram list hlist
  obtain ⟨entry, hentry, rfl⟩ := List.mem_map.mp hadded
  exact ⟨entry.1, hsub.subset (List.mem_map_of_mem hentry), entry.2.1, entry.2.2,
    hstands entry hentry, hstart⟩

end Joining

namespace JoinProcedures

open Joining

variable {blueprint : Blueprint} {store : String} {procedures : JoinProcedures}

/-- Each of the three procedures has been compiled. -/
theorem exists_compile (h : compile blueprint store = .ok procedures) (delta : Delta) :
    procedures.store = store ∧
      ∃ mode, Joining.compile blueprint store mode = .ok (procedures.program delta) := by
  unfold compile at h
  obtain ⟨insert, hinsert, h⟩ := Except.bind_eq_ok.mp h
  obtain ⟨delete, hdelete, h⟩ := Except.bind_eq_ok.mp h
  obtain ⟨set, hset, h⟩ := Except.bind_eq_ok.mp h
  cases h
  cases delta with
  | insert record => exact ⟨rfl, .insert, hinsert⟩
  | delete record => exact ⟨rfl, .delete, hdelete⟩
  | set records => exact ⟨rfl, .set, hset⟩

/-- The actions of a procedure: one for a join at most, and one for every attachment. -/
theorem exists_entries (h : compile blueprint store = .ok procedures) (delta : Delta) :
    ∃ entries : List Standing, (procedures.program delta).placed.Perm (entries.map (·.2)) ∧
      (entries.map (·.1)).Sublist (blueprint.metadata.joinsOf store) ∧
      (∀ entry ∈ entries, Stands blueprint store entry.1 entry.2.1 entry.2.2) ∧
      ∀ join ∈ blueprint.metadata.joinsOf store, Acts blueprint store join →
        ∃ entry ∈ entries, entry.1 = join := by
  obtain ⟨-, mode, hmode⟩ := exists_compile h delta
  exact exists_entries_compile hmode

/-- What comes from joins of one sort is placed as often as there are such joins at most. -/
theorem countP_placed_le (h : compile blueprint store = .ok procedures) (delta : Delta)
    (p : List Loop × Action → Bool) (q : Join → Bool)
    (hsort : ∀ join loops action, Stands blueprint store join loops action →
      p (loops, action) = true → q join = true) :
    (procedures.program delta).placed.countP p ≤ (blueprint.metadata.joinsOf store).countP q := by
  obtain ⟨entries, hperm, hsub, hstands, -⟩ := exists_entries h delta
  calc (procedures.program delta).placed.countP p
      = (entries.map (·.2)).countP p := hperm.countP_eq p
    _ = entries.countP (fun entry => p entry.2) := List.countP_map
    _ ≤ entries.countP (fun entry => q entry.1) :=
      List.countP_mono_left fun entry hentry => hsort _ _ _ (hstands entry hentry)
    _ = (entries.map (·.1)).countP q := List.countP_map.symm
    _ ≤ (blueprint.metadata.joinsOf store).countP q := hsub.countP_le

/-- The machine that runs the procedures. -/
abbrev machine (surroundings : Surroundings) : Machine Action State :=
  { act := act surroundings, record := State.record }

/-- What a procedure places comes from joins of the store. -/
theorem fromJoin_of_placed (h : compile blueprint store = .ok procedures) (delta : Delta)
    {loops : List Loop} {action : Action}
    (hplaced : (loops, action) ∈ (procedures.program delta).placed) {cursor : Cursor}
    (hfits : cursor.Fits loops) : FromJoin blueprint store ⟨action, cursor⟩ := by
  obtain ⟨entries, hperm, hsub, hstands, -⟩ := exists_entries h delta
  obtain ⟨entry, hentry, heq⟩ := List.mem_map.mp (hperm.mem_iff.mp hplaced)
  have hstand := hstands entry hentry
  rw [heq] at hstand
  exact ⟨entry.1, hsub.subset (List.mem_map_of_mem hentry), loops, hstand, hfits⟩

/-- A run does the actions of the joins, each at elements that its lists lead to. -/
theorem exists_events (h : compile blueprint store = .ok procedures)
    (surroundings : Surroundings) (record : Json) (states : AggregateStates) :
    ∃ events, procedures.run surroundings record states =
        (machine surroundings).perform events { record, states } ∧
      (machine surroundings).Traced (procedures.program surroundings.delta).placed {} events
        { record, states } ∧
      ∀ event ∈ events, FromJoin blueprint store event := by
  obtain ⟨events, hrun, htraced⟩ := Program.exists_trace (machine surroundings) (fun _ => rfl)
    (procedures.program surroundings.delta) { record, states }
  refine ⟨events, hrun, htraced, fun event hevent => ?_⟩
  obtain ⟨loops, hplaced, hunder⟩ := htraced.sound event hevent
  exact fromJoin_of_placed h surroundings.delta hplaced (Cursor.fits_iff_under_root.mpr hunder)

/-- Every attachment of the store has its action in the procedures. -/
theorem placed_of_attaches (h : compile blueprint store = .ok procedures) (delta : Delta)
    {join : Join} (hjoin : join ∈ blueprint.metadata.joinsOf store)
    (hattaches : join.Attaches) :
    ∃ resolved, blueprint.resolveLenient join.path = .ok resolved ∧ resolved.isScalar = false ∧
      (resolved.loops, .attach (attachmentAt blueprint join resolved)) ∈
        (procedures.program delta).placed := by
  obtain ⟨entries, hperm, -, hstands, hall⟩ := exists_entries h delta
  obtain ⟨entry, hentry, heq⟩ := hall join hjoin (.inl hattaches)
  have hplaced : entry.2 ∈ (procedures.program delta).placed :=
    hperm.mem_iff.mpr (List.mem_map_of_mem hentry)
  obtain ⟨other, loops, action⟩ := entry
  obtain rfl : other = join := heq
  have hstand : Stands blueprint store other loops action := hstands _ hentry
  cases hstand with
  | attachment hkept hleads hlevel => exact ⟨_, hleads, hlevel, hplaced⟩
  | feed hfeeds => exact absurd hfeeds hattaches

/-- The external aggregate of a target is placed where its join is. -/
theorem placed_of_feeds (h : compile blueprint store = .ok procedures) (delta : Delta)
    (htidy : blueprint.metadata.Tidy) {aggregate : ExternalAggregate}
    (hmem : aggregate ∈ (Fields.get? blueprint.metadata.externals store).getD []) :
    ∃ resolved, blueprint.resolveStrict aggregate.target = .ok resolved ∧
      resolved.isScalar = true ∧
      (resolved.loops, .feed ⟨resolved.leaf, aggregate⟩) ∈ (procedures.program delta).placed := by
  obtain ⟨entries, hperm, -, hstands, hall⟩ := exists_entries h delta
  obtain ⟨join, hjoin, hcardinality, hpath⟩ := htidy.exists_feed hmem
  obtain ⟨entry, hentry, heq⟩ := hall join hjoin (.inr ⟨aggregate, hmem, hpath.symm⟩)
  have hplaced : entry.2 ∈ (procedures.program delta).placed :=
    hperm.mem_iff.mpr (List.mem_map_of_mem hentry)
  obtain ⟨other, loops, action⟩ := entry
  obtain rfl : other = join := heq
  have hstand : Stands blueprint store other loops action := hstands _ hentry
  cases hstand with
  | attachment hattaches => exact absurd hcardinality hattaches
  | feed _ hregistered htarget hleads hscalar =>
    obtain rfl := htidy.eq_of_target hregistered hmem (htarget.trans hpath)
    exact ⟨_, hleads, hscalar, hplaced⟩

end JoinProcedures

end NestedRecord
