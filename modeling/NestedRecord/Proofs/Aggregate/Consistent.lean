import NestedRecord.Proofs.Aggregate.Recompute
import NestedRecord.Proofs.Procedure.Order
import NestedRecord.Proofs.Store.Compiled

/-!
# Aggregates of aggregates

An aggregate may read what another one computes. Its target shows the fold of the values that the
finished record has if nothing that it reads is written again after it has been read.

The value that a target shows was folded at some point of the run, from the record as it was then.
That the finished record would give the same is shown in two steps: the source of the aggregate is
not written after it has been read, because of where the fragments stand in the procedure; and a run
changes nothing but targets, so it does not change which elements are folded either.

* `IsPlan.precedes`: everything that an aggregate writes at an element is done before another one
  reads it there. This holds if it folds a list below its target, and otherwise if it is declared
  first.
* `locate?_source`: what has been read stays until the end.
* `shows_values` and `reports_perm`: a target shows the fold of the values in the finished record,
  and each transformer that fails on one is reported once. An aggregate of its own target reads the
  start value, which is why `Pure` is asked for: `not_aggregate_recomputes`.
* `Recomputed` is the condition on the finished record, and `Store.aggregate_recomputes` the
  theorem.
-/

namespace NestedRecord

theorem Json.eq_number_of_outline {value : Json} {n : Number} (h : value.outline = .number n) :
    value = .number n := by
  cases value <;> cases h
  rfl

theorem Json.eq_null_of_outline {value : Json} (h : value.outline = .null) : value = .null := by
  cases value <;> cases h
  rfl

/-- Folding the fold of a start value gives it again. -/
theorem AggregateOp.fold_start (op : AggregateOp) :
    (op.kind.fold [(op.kind.fold [op.kind.start]).value]).value =
      (op.kind.fold [op.kind.start]).value := by
  have hsettles : ∀ value : Json, (op.kind.fold [op.kind.start]).value = value →
      (op.kind.fold [value]).value = value →
        (op.kind.fold [(op.kind.fold [op.kind.start]).value]).value =
          (op.kind.fold [op.kind.start]).value := by
    rintro value rfl h
    exact h
  -- a count counts its own start value, sums and means stay at zero, extrema stay empty
  cases op with
  | count =>
    exact hsettles (.ofNat 1) (Json.eq_number_of_outline (by decide +kernel))
      (Json.eq_number_of_outline (by decide +kernel))
  | sum | avg | countBoolTrue | countBoolFalse =>
    exact hsettles (.ofNat 0) (Json.eq_number_of_outline (by decide +kernel))
      (Json.eq_number_of_outline (by decide +kernel))
  | min | max =>
    exact hsettles .null (Json.eq_null_of_outline (by decide +kernel))
      (Json.eq_null_of_outline (by decide +kernel))

namespace Recompute

variable {blueprint : Blueprint} {environment : Environment} {program : Program Action}
  {plan : List Resolved} {record : Json}

/-! ## Nothing is written after it has been read -/

/-- Whether a fragment takes in a source value of the aggregate of a target. -/
def reads (target : String) : Action → Bool
  | .reset _ => false
  | .add fold => fold.target == target

/-- The source of an aggregate lies in a list below its target. -/
def Crosses (blueprint : Blueprint) (aggregate : LocalAggregate) : Prop :=
  ∃ resolved : Resolved, resolved.aggregate = aggregate ∧ resolved.Valid blueprint ∧
    resolved.target.depth < resolved.source.depth

/-- An aggregate is declared after those that it reads, unless they cross a list below their
target. -/
def Ordered (blueprint : Blueprint) : Prop :=
  blueprint.metadata.localAggregates.Pairwise fun earlier later =>
    earlier.source = later.target → Crosses blueprint later

/-- A fragment of an aggregate writes its own target and no other. -/
theorem Resolved.picks_iff {resolved : Resolved} {target : String}
    {added : List Loop × Bucket × Action} (hadded : added ∈ resolved.added) :
    picks target added.2.2 = true ↔ resolved.aggregate.target = target := by
  rcases List.mem_cons.mp hadded with rfl | hadded
  · simp [picks, Action.fold, Resolved.fold]
  · obtain rfl := List.mem_singleton.mp hadded
    simp [picks, Action.fold, Resolved.fold]

/-- Only the adding fragment of an aggregate reads. -/
theorem Resolved.reads_iff {resolved : Resolved} {target : String}
    {added : List Loop × Bucket × Action} (hadded : added ∈ resolved.added) :
    reads target added.2.2 = true ↔ resolved.aggregate.target = target ∧
      added = (resolved.source.loops, .body, .add resolved.fold) := by
  rcases List.mem_cons.mp hadded with rfl | hadded
  · simp [reads]
  · obtain rfl := List.mem_singleton.mp hadded
    simp [reads, Resolved.fold]

/-- The fragments of an aggregate that crosses a list are added further inside than its target. -/
theorem Resolved.depth_lt {resolved : Resolved}
    (h : resolved.target.depth < resolved.source.depth)
    {added : List Loop × Bucket × Action} (hadded : added ∈ resolved.added) :
    resolved.target.depth < added.1.length := by
  have hlength : resolved.target.depth < resolved.source.loops.length := h
  rcases List.mem_cons.mp hadded with rfl | hadded
  · show _ < resolved.resetLoops.length
    rw [resetLoops, if_pos h, List.length_take]
    omega
  · obtain rfl := List.mem_singleton.mp hadded
    exact hlength

/-- No fragment of an aggregate is added after a loop. -/
theorem Resolved.bucket_ne_post {resolved : Resolved} {added : List Loop × Bucket × Action}
    (hadded : added ∈ resolved.added) : added.2.1 ≠ .post := by
  rcases List.mem_cons.mp hadded with rfl | hadded
  · show resolved.resetBucket ≠ .post
    unfold resetBucket
    split <;> exact nofun
  · obtain rfl := List.mem_singleton.mp hadded
    exact nofun

section Order

variable (hplan : IsPlan blueprint program plan) {reader fed : Resolved} (hreader : reader ∈ plan)
  (hfed : fed ∈ plan) (hreads : reader.aggregate.source = fed.aggregate.target)

include hplan hreader hfed hreads

/-- The source of the reading aggregate is resolved as the target of the other one. -/
theorem IsPlan.source_eq : reader.source = fed.target := by
  have hsource := (hplan.valid reader hreader).source
  rw [hreads, Blueprint.resolveLenient_of_strict (hplan.valid fed hfed).target] at hsource
  exact (Except.ok.inj hsource).symm

variable (htidy : blueprint.metadata.Tidy) (hordered : Ordered blueprint)
  (hne : reader.aggregate.target ≠ fed.aggregate.target)

include htidy hordered hne

/-- What an aggregate writes at an element is there before another one reads it. -/
theorem IsPlan.precedes :
    Pass.Precedes (plan.flatMap Resolved.added) reader.source.loops
      (picks fed.aggregate.target) (reads reader.aggregate.target) := by
  have hsource := hplan.source_eq hreader hfed hreads
  constructor
  · intro added hadded hlate
    obtain ⟨resolved, hresolved, hmem⟩ := List.mem_flatMap.mp hadded
    obtain ⟨htarget, rfl⟩ := (Resolved.reads_iff hmem).mp hlate
    rw [hplan.eq_of_target htidy hresolved hreader htarget]
    exact ⟨rfl, rfl⟩
  · intro added hadded hearly
    obtain ⟨resolved, hresolved, hmem⟩ := List.mem_flatMap.mp hadded
    obtain rfl := hplan.eq_of_target htidy hresolved hfed ((Resolved.picks_iff hmem).mp hearly)
    refine ⟨?_, Resolved.bucket_ne_post hmem⟩
    have habove := (Resolved.loops_above (hplan.valid _ hfed) hmem).1
    rw [hsource]
    refine habove.trans ?_
    cases added.2.1
    · exact List.dropLast_prefix _
    · exact List.prefix_refl _
    · exact List.dropLast_prefix _
  · rw [List.pairwise_flatMap]
    constructor
    · intro resolved hresolved
      refine List.pairwise_of_forall_mem_list fun first hfirst second hsecond hlate hearly => ?_
      exact absurd (((Resolved.reads_iff hfirst).mp hlate).1.symm.trans
        ((Resolved.picks_iff hsecond).mp hearly)) hne
    · unfold Ordered at hordered
      rw [← hplan.aggregates, List.pairwise_map] at hordered
      refine hordered.imp_of_mem fun {earlier later} hearlier hlater hcrosses first hfirst second
        hsecond hlate hearly heq => ?_
      -- the reading aggregate is declared first, so the other one works further inside
      obtain rfl := hplan.eq_of_target htidy hearlier hreader
        ((Resolved.reads_iff hfirst).mp hlate).1
      obtain rfl := hplan.eq_of_target htidy hlater hfed ((Resolved.picks_iff hsecond).mp hearly)
      obtain ⟨crossing, haggregate, hvalid, hbelow⟩ := hcrosses hreads
      obtain rfl := hvalid.eq (hplan.valid _ hfed) haggregate
      have hdepth := Resolved.depth_lt hbelow hsecond
      rw [heq, hsource] at hdepth
      exact Nat.lt_irrefl _ hdepth

/-- `precedes` for events: what is read at an element is not written inside it afterwards. -/
theorem IsPlan.pairwise_events (record : Json) :
    (program.events record).Pairwise fun first second =>
      reads reader.aggregate.target first.action = true →
        picks fed.aggregate.target second.action = true → Pass.NotInside first second := by
  have hconflicts := (Scaffold.root_of_synthesize hplan.synthesized).1
  have harranged := holds_plan (p := Scaffold.Arranged) (fun h hconflicts => h.add hconflicts) plan
    (Scaffold.arranged_start _) hconflicts
  exact harranged.pairwise_events hplan.synthesized
    (hplan.precedes hreader hfed hreads htidy hordered hne) record

end Order

/-! ## What a run reads -/

section Reading

variable (hlevels : blueprint.LevelsDeclared) (htidy : blueprint.metadata.Tidy)
  (hcompile : compile blueprint = .ok program) (hplan : IsPlan blueprint program plan)
  {reader : Resolved} (hreader : reader ∈ plan)

include hlevels htidy hcompile hplan hreader

/-- Nothing is written later at the source of an aggregate that reads another one's target. -/
theorem apart_of_read (hordered : Ordered blueprint)
    (hne : reader.aggregate.source ≠ reader.aggregate.target) {front back : List (Event Action)}
    {inner : Cursor}
    (hevents : program.events record = front ++ ⟨.add reader.fold, inner⟩ :: back) :
    ∀ event ∈ (⟨.add reader.fold, inner⟩ : Event Action) :: back,
      ¬ event.action.place event.cursor <+: inner.below reader.source.leaf ∧
        ¬ inner.below reader.source.leaf <+: event.action.place event.cursor := by
  intro event hevent
  have hvalid := hplan.valid reader hreader
  have hfits : inner.Fits reader.source.loops :=
    (Json.mem_reach_root.mp (mem_reach_of_add htidy hcompile hvalid (hplan.mem hreader)
      (hevents ▸ List.mem_append_right _ List.mem_cons_self))).1
  obtain ⟨aggregate, haggregate, htarget, hvalue⟩ := stands_of_event hlevels hcompile
    (hevents ▸ List.mem_append_right front hevent)
  -- a later event at the source would belong to an aggregate that is read here
  suffices happart : ¬ (event.action.place event.cursor <+: inner.below reader.source.leaf ∨
      inner.below reader.source.leaf <+: event.action.place event.cursor) from
    not_or.mp happart
  intro hcomparable
  obtain ⟨hsource, -, hplace⟩ := Blueprint.ValueAt.eq_of_comparable hlevels hvalid.source
    hvalid.sourceScalar hfits hvalue hcomparable
  rw [← hplan.aggregates] at haggregate
  obtain ⟨fed, hfed, rfl⟩ := List.mem_map.mp haggregate
  rcases List.mem_cons.mp hevent with rfl | hback
  · exact hne (hsource.trans htarget.symm)
  · have hpairwise := hplan.pairwise_events hreader hfed hsource htidy hordered
      (fun heq => hne (hsource.trans heq.symm)) record
    rw [hevents] at hpairwise
    have hcons := (List.pairwise_append.mp hpairwise).2.1
    refine (List.pairwise_cons.mp hcons).1 event hback ?_ ?_ ?_
    · exact beq_self_eq_true _
    · exact beq_iff_eq.mpr htarget
    · have hstart : inner.below reader.source.leaf <+:
          (event.cursor.upTo event.action.fold.depth).below event.action.fold.targetLeaf := by
        rw [← Cursor.place_eq]
        exact hplace ▸ List.prefix_refl _
      exact (Cursor.entered_prefix_of_below hstart).trans (List.take_prefix _ _)

/-- What an aggregate has read stays until the end. -/
theorem locate?_source (hordered : Ordered blueprint)
    (hne : reader.aggregate.source ≠ reader.aggregate.target) {front back : List (Event Action)}
    {inner : Cursor}
    (hevents : program.events record = front ++ ⟨.add reader.fold, inner⟩ :: back)
    (environment : Environment) :
    ((machine environment).perform front { record }).record.locate?
        (inner.below reader.source.leaf) =
      (run program environment record).1.locate? (inner.below reader.source.leaf) := by
  have hrun : (run program environment record).1 =
      ((machine environment).perform (program.events record) { record }).record :=
    congrArg State.record (run_eq_perform hlevels hcompile environment record).1
  have hapart := apart_of_read hlevels htidy hcompile hplan hreader hordered hne hevents
  rw [hrun, hevents, Machine.perform_append]
  exact (locate?_perform_of_apart hapart _).symm

end Reading

/-- An aggregate of its own target reads at the element of the target. -/
theorem IsPlan.reach_own (hplan : IsPlan blueprint program plan) {reader : Resolved}
    (hreader : reader ∈ plan) (hown : reader.aggregate.source = reader.aggregate.target)
    (record : Json) (element : Cursor) :
    record.reach element (reader.source.loops.drop reader.target.depth) = [element] := by
  have hlevel : reader.source.loops.length ≤ reader.target.depth := by
    rw [hplan.source_eq hreader hreader hown]
    exact Nat.le_refl _
  rw [List.drop_eq_nil_iff.mpr hlevel, Json.reach]

/-- Every event of a procedure is one of an aggregate of its plan. -/
theorem IsPlan.exists_fold (hplan : IsPlan blueprint program plan)
    (hlevels : blueprint.LevelsDeclared) (htidy : blueprint.metadata.Tidy)
    (hcompile : compile blueprint = .ok program) {event : Event Action}
    (hevent : event ∈ program.events record) :
    ∃ resolved ∈ plan, event.action.fold = resolved.fold := by
  obtain ⟨aggregate, haggregate, htarget, -⟩ := stands_of_event hlevels hcompile hevent
  rw [← hplan.aggregates] at haggregate
  obtain ⟨resolved, hresolved, rfl⟩ := List.mem_map.mp haggregate
  refine ⟨resolved, hresolved, ?_⟩
  have hselected : event ∈ Event.select (picks resolved.aggregate.target) (program.events record) :=
    List.mem_filter.mpr ⟨hevent, beq_iff_eq.mpr htarget⟩
  rw [selectedEvents_of_compile htidy hcompile (hplan.valid resolved hresolved)
    (hplan.mem hresolved), List.mem_flatMap] at hselected
  obtain ⟨element, -, hmem⟩ := hselected
  rcases List.mem_cons.mp hmem with rfl | hmem
  · rfl
  · obtain ⟨inner, -, rfl⟩ := List.mem_map.mp hmem
    rfl

/-! ## What a run reports -/

/-- What is reported where the transformer of an aggregate fails. -/
def Fold.warning? (environment : Environment) (fold : Fold) (record : Json) (cursor : Cursor) :
    Option Notice :=
  fold.transformer.bind fun handler =>
    match handler ((record.locate? (cursor.below fold.sourceLeaf)).getD .null)
        environment.constants with
    | .ok _ => none
    | .error reason =>
      some (.recovered ["aggregate", fold.target]
        (HandlerFailure.message ⟨"aggregate", fold.target, reason⟩))

/-- There is a warning exactly if the transformer gives one. -/
theorem Fold.warning?_eq (environment : Environment) (fold : Fold) (record : Json)
    (cursor : Cursor) :
    (fold.warning? environment record cursor).toList =
      (applyTransformer "aggregate" fold.target fold.transformer
        ((record.locate? (cursor.below fold.sourceLeaf)).getD .null) environment.constants).2 := by
  unfold warning? applyTransformer
  cases fold.transformer with
  | none => rfl
  | some handler =>
    simp only [Option.bind_some]
    cases handler ((record.locate? (cursor.below fold.sourceLeaf)).getD .null)
      environment.constants with
    | ok result => rfl
    | error reason => rfl

/-- What an event reports when it finds the values of a record. -/
def warning? (environment : Environment) (record : Json) (event : Event Action) : Option Notice :=
  match event.action with
  | .reset _ => none
  | .add fold => fold.warning? environment record event.cursor

/-- With all kinds at hand, an event reports a failure of its transformer and nothing else. -/
theorem journal_act (hkinds : environment.kinds = .builtIn) (event : Event Action)
    (state : State) :
    (act environment event.action event.cursor state).journal =
      state.journal ++ (warning? environment state.record event).toList := by
  obtain ⟨action, cursor⟩ := event
  cases action with
  | reset fold => exact (List.append_nil _).symm
  | add fold =>
    show (add environment fold cursor state).journal = _
    simp only [add, hkinds, AggregateKinds.get?_builtIn, warning?, Fold.warning?_eq,
      Cursor.get?_eq_locate?]
    rfl

/-- A run reports what fails on the values of `after` if every event finds them. -/
theorem journal_perform (hkinds : environment.kinds = .builtIn) {after : Json} :
    ∀ (events : List (Event Action)) {state : State},
      (∀ front event back, events = front ++ event :: back →
        warning? environment ((machine environment).perform front state).record event =
          warning? environment after event) →
      ((machine environment).perform events state).journal =
        state.journal ++ events.filterMap (warning? environment after)
  | [], _, _ => (List.append_nil _).symm
  | event :: rest, state, h => by
    show ((machine environment).perform rest
      (act environment event.action event.cursor state)).journal = _
    have hfirst : warning? environment state.record event = warning? environment after event :=
      h [] event rest rfl
    have hrest : ((machine environment).perform rest
        (act environment event.action event.cursor state)).journal =
          (act environment event.action event.cursor state).journal ++
            rest.filterMap (warning? environment after) :=
      journal_perform hkinds rest fun front other back heq =>
        h (event :: front) other back (by rw [heq]; rfl)
    rw [hrest, journal_act hkinds, hfirst, List.append_assoc, List.filterMap_eq_flatMap_toList,
      List.filterMap_eq_flatMap_toList, List.flatMap_cons]

/-- Events can be sorted by the targets that they belong to. -/
theorem perm_flatMap_select :
    ∀ {targets : List String} {events : List (Event Action)}, targets.Nodup →
      (∀ event ∈ events, event.action.fold.target ∈ targets) →
      events.Perm (targets.flatMap fun target => Event.select (picks target) events)
  | [], events, _, h => by
    obtain rfl : events = [] := List.eq_nil_iff_forall_not_mem.mpr fun event hevent =>
      absurd (h event hevent) List.not_mem_nil
    exact .refl _
  | target :: rest, events, hnodup, h => by
    obtain ⟨hnot, hrest⟩ := List.nodup_cons.mp hnodup
    -- the events of the first target are taken out, which the other targets do not notice
    have hothers : (events.filter fun event => !picks target event.action).Perm
        (rest.flatMap fun other => Event.select (picks other) events) := by
      refine (perm_flatMap_select hrest fun event hevent => ?_).trans (List.Perm.of_eq ?_)
      · obtain ⟨hmem, hother⟩ := List.mem_filter.mp hevent
        refine (List.mem_cons.mp (h event hmem)).resolve_left fun heq => ?_
        simp [picks, heq] at hother
      · refine List.flatMap_congr fun other hmem => ?_
        show ((events.filter _).filter _) = events.filter _
        rw [List.filter_filter]
        refine List.filter_congr fun event _ => ?_
        by_cases heq : event.action.fold.target = other
        · have hne : other ≠ target := fun heq' => hnot (heq' ▸ hmem)
          simp [picks, heq, hne]
        · simp [picks, heq]
    rw [List.flatMap_cons]
    exact (List.filter_append_perm _ events).symm.trans (hothers.append_left _)

/-! ## The finished record -/

/-- The reports of an aggregate on the values of a record: one for each source value that its
transformer fails on. -/
def Resolved.warnings (environment : Environment) (resolved : Resolved) (record : Json) : Journal :=
  (record.reach {} resolved.source.loops).filterMap (resolved.fold.warning? environment record)

/-- `after` is `record` with the local aggregates of its own values, and `journal` reports the
transformers that fail on them. -/
structure Recomputed (blueprint : Blueprint) (environment : Environment) (plan : List Resolved)
    (record after : Json) (journal : Journal) : Prop where
  aggregates : plan.map (·.aggregate) = blueprint.metadata.localAggregates
  valid : ∀ resolved ∈ plan, resolved.Valid blueprint
  /-- every target shows the fold of the values that stand below its element -/
  shows : ∀ resolved ∈ plan, ∀ element : Cursor, element.Fits resolved.target.loops →
    resolved.Owns after element →
      after.locate? (element.below resolved.target.leaf) =
        some (resolved.aggregate.op.kind.fold (resolved.values environment after element)).value
  /-- nothing but the targets has changed -/
  same : Json.SameOutside blueprint.Computes record after
  /-- every failure is reported once -/
  reports : journal.Perm (plan.flatMap (Resolved.warnings environment · after))

/-- Aggregates with a transformer do not read what they compute themselves. -/
def Pure (blueprint : Blueprint) : Prop :=
  ∀ aggregate ∈ blueprint.metadata.localAggregates,
    aggregate.source = aggregate.target → aggregate.transformer = none

section Finished

variable (hlevels : blueprint.LevelsDeclared) (htidy : blueprint.metadata.Tidy)
  (hcompile : compile blueprint = .ok program) (hplan : IsPlan blueprint program plan)
  (hkinds : environment.kinds = .builtIn) (hordered : Ordered blueprint) (hpure : Pure blueprint)
  {resolved : Resolved} (hresolved : resolved ∈ plan)

include hlevels htidy hcompile hplan hkinds hordered hpure hresolved

omit hlevels htidy hcompile hkinds hordered in
/-- An aggregate of its own target reads what the target shows. -/
theorem reading_own (hown : resolved.aggregate.source = resolved.aggregate.target) (record : Json)
    (element : Cursor) :
    resolved.fold.reading environment record element =
      (record.locate? (element.below resolved.target.leaf)).getD .null := by
  have hnone : resolved.fold.transformer = none := hpure _ (hplan.mem hresolved) hown
  unfold Fold.reading
  rw [hnone, ← hplan.source_eq hresolved hresolved hown]
  rfl

omit hordered in
/-- An aggregate of its own target has read the start value, and shows the fold of it. -/
theorem shows_own {element : Cursor} (hown : resolved.aggregate.source = resolved.aggregate.target)
    (hfits : element.Fits resolved.target.loops) (howner : resolved.Owns record element) :
    (run program environment record).1.locate? (element.below resolved.target.leaf) =
      some (resolved.aggregate.op.kind.fold [resolved.aggregate.op.kind.start]).value := by
  have hkind : environment.kinds.get? resolved.aggregate.op = some resolved.aggregate.op.kind := by
    rw [hkinds]
    exact AggregateKinds.get?_builtIn _
  have hlist := hplan.reach_own hresolved hown record element
  have hshown := run_shows_reads hlevels htidy hcompile (hplan.valid resolved hresolved)
    (hplan.mem hresolved) (fun _ => resolved.aggregate.op.kind.start) ?_ hfits howner hkind
  · rwa [hlist] at hshown
  · intro front inner back before after _ hsplit hshows
    rw [hlist] at hsplit
    -- there is one source value, the target, which shows the start value when it is read
    cases before with
    | nil =>
      obtain ⟨rfl, -⟩ := List.cons_eq_cons.mp hsplit
      rw [reading_own hplan hpure hresolved hown, hshows.shown]
      rfl
    | cons first before => simp at hsplit

/-- A target shows the fold of the values of the finished record. -/
theorem shows_values {element : Cursor} (hfits : element.Fits resolved.target.loops)
    (howner : resolved.Owns record element) :
    (run program environment record).1.locate? (element.below resolved.target.leaf) =
      some (resolved.aggregate.op.kind.fold
        (resolved.values environment (run program environment record).1 element)).value := by
  have hvalid := hplan.valid resolved hresolved
  have hkind : environment.kinds.get? resolved.aggregate.op = some resolved.aggregate.op.kind := by
    rw [hkinds]
    exact AggregateKinds.get?_builtIn _
  have hreach := reach_eq hlevels (Blueprint.leads_of_lenient hlevels hvalid.source).1
    (run_sameOutside hlevels hcompile environment record) hvalid.source_loops hfits
  rw [Resolved.values, hreach]
  -- an aggregate of its own target has overwritten what it has read
  by_cases hown : resolved.aggregate.source = resolved.aggregate.target
  · have hshown := shows_own hlevels htidy hcompile hplan hkinds hpure hresolved hown hfits howner
    rw [hplan.reach_own hresolved hown record element, List.map_singleton,
      reading_own hplan hpure hresolved hown, hshown]
    exact congrArg some (AggregateOp.fold_start _).symm
  · exact run_shows_reads hlevels htidy hcompile hvalid (hplan.mem hresolved) _
      (fun front inner back _ _ hevents _ _ => by
        unfold Fold.reading
        show (applyTransformer _ _ _ ((((machine environment).perform front
          { record }).record.locate? (inner.below resolved.source.leaf)).getD .null) _).1 = _
        rw [locate?_source hlevels htidy hcompile hplan hresolved hordered hown hevents]
        rfl) hfits howner hkind

omit hresolved in
/-- The failures of a run are those that its events would meet in the finished record. -/
theorem journal_run (record : Json) :
    (run program environment record).2 = (program.events record).filterMap
      (warning? environment (run program environment record).1) := by
  have hrun : (run program environment record).2 =
      ((machine environment).perform (program.events record) { record }).journal :=
    congrArg State.journal (run_eq_perform hlevels hcompile environment record).1
  rw [hrun]
  generalize hafter : (run program environment record).1 = after
  rw [← List.nil_append (List.filterMap _ _)]
  refine journal_perform hkinds _ fun front event back hevents => ?_
  have hevent : event ∈ program.events record :=
    hevents ▸ List.mem_append_right _ List.mem_cons_self
  obtain ⟨resolved, hresolved, hfold⟩ := hplan.exists_fold hlevels htidy hcompile hevent
  obtain ⟨action, cursor⟩ := event
  cases action with
  | reset fold => rfl
  | add fold =>
    obtain rfl : fold = resolved.fold := hfold
    show resolved.fold.warning? environment _ cursor = resolved.fold.warning? environment _ cursor
    unfold Fold.warning?
    -- what an aggregate of its own target has read is gone, but nothing is applied to it
    by_cases hown : resolved.aggregate.source = resolved.aggregate.target
    · rw [show resolved.fold.transformer = none from hpure _ (hplan.mem hresolved) hown]
      rfl
    · have hlocate := locate?_source hlevels htidy hcompile hplan hresolved hordered hown hevents
        environment
      rw [hafter] at hlocate
      rw [show resolved.fold.sourceLeaf = resolved.source.leaf from rfl, hlocate]

omit hkinds hordered hpure in
/-- The failures that the events of one aggregate would meet in the finished record are its
warnings. -/
theorem warnings_eq (record : Json) :
    (Event.select (picks resolved.aggregate.target) (program.events record)).filterMap
        (warning? environment (run program environment record).1) =
      resolved.warnings environment (run program environment record).1 := by
  have hvalid := hplan.valid resolved hresolved
  have hreach := reach_eq hlevels (Blueprint.leads_of_lenient hlevels hvalid.source).1
    (run_sameOutside hlevels hcompile environment record) (List.nil_append _).symm
    (Cursor.fits_root_iff.mpr rfl)
  rw [selectedEvents_of_compile htidy hcompile hvalid (hplan.mem hresolved), List.filterMap_flatMap,
    Resolved.warnings, hreach, hvalid.reach_source, List.filterMap_flatMap]
  refine List.flatMap_congr fun element _ => ?_
  rw [List.filterMap_cons_none rfl, List.filterMap_map]
  rfl

omit hresolved in
/-- A run reports every failure once. -/
theorem reports_perm (record : Json) :
    (run program environment record).2.Perm
      (plan.flatMap (Resolved.warnings environment · (run program environment record).1)) := by
  have hsorted : (program.events record).Perm ((plan.map (·.aggregate.target)).flatMap
      fun target => Event.select (picks target) (program.events record)) := by
    refine perm_flatMap_select (hplan.nodup_targets htidy) fun event hevent => ?_
    obtain ⟨resolved, hresolved, hfold⟩ := hplan.exists_fold hlevels htidy hcompile hevent
    exact List.mem_map.mpr ⟨resolved, hresolved, by rw [hfold]; rfl⟩
  rw [journal_run hlevels htidy hcompile hplan hkinds hordered hpure]
  refine (hsorted.filterMap _).trans (List.Perm.of_eq ?_)
  rw [List.flatMap_map, List.filterMap_flatMap]
  exact List.flatMap_congr fun resolved hresolved =>
    warnings_eq hlevels htidy hcompile hplan hresolved record

end Finished

end Recompute

namespace Store

/-- Recomputing the local aggregates of a record leaves each of them consistent with the record. -/
theorem aggregate_recomputes {store : Store} (hstore : store.IsCompiled)
    {environment : Environment} (hkinds : environment.kinds = .builtIn)
    (hordered : Recompute.Ordered store.blueprint) (hpure : Recompute.Pure store.blueprint)
    (record : Json) :
    ∃ plan, Recompute.Recomputed store.blueprint environment plan record
      (store.aggregate environment record).1 (store.aggregate environment record).2 := by
  have hlevels := hstore.levelsDeclared
  have hcompile := hstore.aggregates
  obtain ⟨plan, hplan⟩ := Recompute.exists_plan_of_compile hcompile
  have hsame : Json.SameOutside store.blueprint.Computes record
      (store.aggregate environment record).1 :=
    Recompute.run_sameOutside hlevels hcompile environment record
  refine ⟨plan, hplan.aggregates, hplan.valid, fun resolved hresolved element hfits howns => ?_,
    hsame, Recompute.reports_perm hlevels hstore.tidy hcompile hplan hkinds hordered hpure record⟩
  refine Recompute.shows_values hlevels hstore.tidy hcompile hplan hkinds hordered hpure hresolved
    hfits ?_
  exact ((hplan.valid resolved hresolved).owns_iff hlevels hsame hfits).mp howns

/-! ### A total of totals -/

/-- Carts with their totals, and the total of these, which is declared first. -/
def cartsWithTotals : Descriptor :=
  .mk [("id", .tuple [.word "int", .word "<<idCustomer>>"]),
    ("grand", .tuple [.word "number", .word "sum", .word "carts.total"]),
    ("carts", .tuple [.word "array", .nested (.mk [
      ("id", .tuple [.word "int", .word "<<idCart>>"]),
      ("items", .tuple [.word "array", .nested (.mk [
        ("sku", .tuple [.word "string", .word "<<sku>>"]),
        ("price", .tuple [.word "number"])])]),
      ("total", .tuple [.word "number", .word "sum", .word "items.price"])])])]

/-- The store of these carts. -/
def carts : Store := compiled "carts" cartsWithTotals (by decide +kernel)

/-- An item of a price. -/
def item (price : Nat) : Json := .object [("sku", .string "a"), ("price", .ofNat price)]

/-- Two carts whose totals have not been computed. -/
def filledCarts : Json :=
  .object [("id", .ofNat 1), ("grand", .null), ("carts", .array [
    .object [("id", .ofNat 1), ("items", .array [item 10, item 2]), ("total", .null)],
    .object [("id", .ofNat 2), ("items", .array [item 30]), ("total", .null)]])]

/-- The total of a cart. -/
def cartTotal : ResolvedPath :=
  ⟨"carts.total", [⟨"carts1", ["carts"]⟩], ["total"], .scalar "carts1" "total" (some .number),
    false⟩

/-- The price of an item in a cart. -/
def itemPrice : ResolvedPath :=
  ⟨"carts.items.price", [⟨"carts1", ["carts"]⟩, ⟨"items2", ["items"]⟩], ["price"],
    .scalar "items2" "price" (some .number), false⟩

theorem aggregates_carts : ∃ grand total : LocalAggregate,
    carts.blueprint.metadata.localAggregates = [grand, total] ∧
      (grand.target, grand.source) = ("grand", "carts.total") ∧
      (total.target, total.source) = ("carts.total", "carts.items.price") := by
  have hpaths : carts.blueprint.metadata.localAggregates.map (fun aggregate =>
      (aggregate.target, aggregate.source)) =
        [("grand", "carts.total"), ("carts.total", "carts.items.price")] := by
    decide +kernel
  obtain ⟨grand, rest, hlist, hgrand, hrest⟩ := List.map_eq_cons_iff.mp hpaths
  obtain ⟨total, hsingle, htotal⟩ := List.map_eq_singleton_iff.mp hrest
  exact ⟨grand, total, by rw [hlist, hsingle], hgrand, htotal⟩

/-- The total of a cart crosses the list of its items. -/
theorem ordered_carts : Recompute.Ordered carts.blueprint := by
  obtain ⟨grand, total, hlist, -, htotal⟩ := aggregates_carts
  obtain ⟨htarget, hsource⟩ := Prod.mk.inj htotal
  unfold Recompute.Ordered
  rw [hlist]
  have hbelow : cartTotal.depth < itemPrice.depth := by decide
  refine List.pairwise_pair.mpr fun _ => ⟨⟨total, cartTotal, itemPrice⟩, rfl, ?_, hbelow⟩
  have hleads : carts.blueprint.resolveStrict "carts.total" = .ok cartTotal :=
    Except.eq_ok_of_toOption (by decide +kernel)
  have hleads' : carts.blueprint.resolveLenient "carts.items.price" = .ok itemPrice :=
    Except.eq_ok_of_toOption (by decide +kernel)
  exact ⟨htarget ▸ hleads, rfl, hsource ▸ hleads', rfl, rfl⟩

theorem pure_carts : Recompute.Pure carts.blueprint := by
  obtain ⟨grand, total, hlist, hgrand, htotal⟩ := aggregates_carts
  obtain ⟨htarget, hsource⟩ := Prod.mk.inj hgrand
  obtain ⟨htarget', hsource'⟩ := Prod.mk.inj htotal
  intro aggregate hmem hown
  rw [hlist] at hmem
  rcases List.mem_cons.mp hmem with rfl | hmem
  · rw [htarget, hsource] at hown
    exact absurd hown (by decide)
  · obtain rfl := List.mem_singleton.mp hmem
    rw [htarget', hsource'] at hown
    exact absurd hown (by decide)

/-- The total of the totals is what the items of all carts cost. -/
theorem aggregate_recomputes_carts :
    (∃ plan, Recompute.Recomputed carts.blueprint {} plan filledCarts
      (carts.aggregate {} filledCarts).1 (carts.aggregate {} filledCarts).2) ∧
    ((carts.aggregate {} filledCarts).1.locate? [.key "grand"]).map Json.outline =
      some (Json.ofNat 42).outline := by
  constructor
  · exact aggregate_recomputes (isCompiled_compiled _ _ _) rfl ordered_carts pure_carts filledCarts
  · decide +kernel

/-! ### An aggregate that folds what it makes of its own value -/

/-- A handler that fails on `1`. -/
def notOne : Handler := fun value _ =>
  if value.outline = (Json.ofNat 1).outline then .error "must not be 1" else .ok value

/-- A counter of its own values other than `1`. -/
def countersOfThemselves : Descriptor :=
  .mk [("id", .tuple [.word "int", .word "<<idCounter>>"]),
    ("n", .tuple [.word "int", .word "count", .word "n", .handler notOne])]

/-- The store of these counters. -/
def counters : Store := compiled "counters" countersOfThemselves (by decide +kernel)

def counter : Json := .object [("id", .ofNat 1), ("n", .ofNat 0)]

/-- The value of a counter. -/
def counterPath : ResolvedPath := ⟨"n", [], ["n"], .scalar "main0" "n" (some .int), false⟩

/-- A count of what a transformer leaves of the count itself need not be that of the finished
record. -/
theorem not_aggregate_recomputes :
    ¬ ∀ (store : Store) (environment : Environment) (record : Json), store.IsCompiled →
      store.blueprint.flattened.PlainNames → environment.kinds = .builtIn →
      Recompute.Ordered store.blueprint →
        ∃ plan, Recompute.Recomputed store.blueprint environment plan record
          (store.aggregate environment record).1 (store.aggregate environment record).2 := by
  intro h
  have hparts : counters.blueprint.metadata.localAggregates.map (fun aggregate =>
      (aggregate.target, aggregate.op, aggregate.source,
        (applyTransformer "aggregate" "n" aggregate.transformer (.ofNat 1) .null).1.outline)) =
        [("n", .count, "n", .null)] := by
    decide +kernel
  obtain ⟨aggregate, hlist, heq⟩ := List.map_eq_singleton_iff.mp hparts
  simp only [Prod.mk.injEq] at heq
  obtain ⟨htarget, hop, hsource, hone⟩ := heq
  have hordered : Recompute.Ordered counters.blueprint := by
    unfold Recompute.Ordered
    rw [hlist]
    exact List.pairwise_singleton _ _
  obtain ⟨plan, hrecomputed⟩ := h counters {} counter (isCompiled_compiled _ _ _)
    (by decide +kernel) rfl hordered
  have hplan := hrecomputed.aggregates
  rw [hlist] at hplan
  obtain ⟨resolved, rfl, haggregate⟩ := List.map_eq_singleton_iff.mp hplan
  have hmem : resolved ∈ [resolved] := List.mem_singleton_self _
  have hvalid := hrecomputed.valid resolved hmem
  have hleads : counters.blueprint.resolveStrict "n" = .ok counterPath :=
    Except.eq_ok_of_toOption (by decide +kernel)
  obtain rfl : resolved.aggregate = aggregate := haggregate
  have htargetPath : resolved.target = counterPath := by
    have htarget' := hvalid.target
    rw [htarget, hleads] at htarget'
    exact (Except.ok.inj htarget').symm
  have hsourcePath : resolved.source = counterPath := by
    have hsource' := hvalid.source
    rw [hsource, Blueprint.resolveLenient_of_strict hleads] at hsource'
    exact (Except.ok.inj hsource').symm
  have howns : resolved.Owns (counters.aggregate {} counter).1 {} := by
    unfold Recompute.Resolved.Owns
    rw [htargetPath]
    decide +kernel
  have hshows := hrecomputed.shows resolved hmem {} (by rw [htargetPath]; rfl) howns
  -- the counter shows one, and the transformer fails on it
  have hshown : ((counters.aggregate {} counter).1.locate? [.key "n"]).map Json.outline =
      some (Json.ofNat 1).outline := by
    decide +kernel
  obtain ⟨value, hvalue, houtline⟩ := Option.map_eq_some_iff.mp hshown
  obtain rfl : value = .ofNat 1 := Json.eq_number_of_outline houtline
  have hreading : (resolved.fold.reading {} (counters.aggregate {} counter).1 {}).outline =
      .null := by
    rw [← hone]
    unfold Recompute.Fold.reading
    rw [show resolved.fold.sourceLeaf = ["n"] from congrArg ResolvedPath.leaf hsourcePath,
      show Cursor.below {} ["n"] = [.key "n"] from rfl, hvalue,
      show resolved.fold.target = "n" from htarget]
    rfl
  have hvalues : resolved.values {} (counters.aggregate {} counter).1 {} = [.null] := by
    unfold Recompute.Resolved.values
    rw [hsourcePath, htargetPath]
    exact congrArg (fun value => [value]) (Json.eq_null_of_outline hreading)
  rw [hvalues, hop, htargetPath, show Cursor.below {} counterPath.leaf = [.key "n"] from rfl,
    hvalue] at hshows
  have hcounts := congrArg (Option.map Json.outline) hshows
  revert hcounts
  decide +kernel

end Store

end NestedRecord
