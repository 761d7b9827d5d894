import NestedRecord.Proofs.Aggregate.Consistent
import NestedRecord.Proofs.Json.Overwrite

/-!
# Recomputing once more

A record whose aggregates have been recomputed has nothing left to recompute, if no aggregate reads
what is computed after it.

The second run starts from the record that the first one left, and it has the same events, since
only targets have changed. Both runs are followed event by event. Their records differ only at
places that the second run has not come to yet, and nothing is read at such a place before it is
written: a source that an earlier event wrote is equal in both runs, and one that no earlier event
wrote is never written at all.

* `Alongside`: two runs stand side by side, with the same running states and the same values at the
  places that have been written. What the second run reads the first one has read:
  `locate?_source_alongside`.
* `Filled`: the places of the events are there. From such a record on a run overwrites values and
  adds no key, `exists_overwrites`.
* `run_run` puts the two together: the overwrites of the second run leave the values of the first.
* `Store.aggregate_aggregate` is the theorem, and `Store.not_aggregate_aggregate` shows that an
  aggregate which reads a later one need not be done after one pass.
-/

namespace NestedRecord

namespace Recompute

variable {blueprint : Blueprint} {environment : Environment} {program : Program Action}
  {plan : List Resolved} {record : Json}

/-! ## One event -/

/-- The place that an event writes to. -/
def placeOf (event : Event Action) : Location := event.action.place event.cursor

/-- The running state that an event leaves, of the kinds that are built in. -/
def next (environment : Environment) (event : Event Action) (state : State) : AggregateState :=
  match event.action with
  | .reset fold => fold.op.kind.init
  | .add fold => fold.op.kind.add ((Fields.get? state.running fold.target).getD fold.op.kind.init)
      (fold.reading environment state.record event.cursor)

/-- An event sets the running state and writes its value. -/
theorem act_eq (hkinds : environment.kinds = .builtIn) (event : Event Action) (state : State) :
    ((machine environment).act event.action event.cursor state).running =
        Fields.set state.running event.action.fold.target (next environment event state) ∧
      ((machine environment).act event.action event.cursor state).record =
        (event.cursor.setAt? state.record event.action.fold.depth event.action.fold.targetLeaf
          (next environment event state).value).getD state.record := by
  obtain ⟨action, cursor⟩ := event
  cases action with
  | reset fold =>
    show (reset environment fold cursor state).running = _ ∧
      (reset environment fold cursor state).record = _
    simp only [reset, hkinds, AggregateKinds.get?_builtIn]
    exact ⟨rfl, rfl⟩
  | add fold =>
    show (add environment fold cursor state).running = _ ∧
      (add environment fold cursor state).record = _
    simp only [add, hkinds, AggregateKinds.get?_builtIn, Cursor.get?_eq_locate?]
    exact ⟨rfl, rfl⟩

/-- What stands at its place after an event. -/
theorem locate?_act (hkinds : environment.kinds = .builtIn) {event : Event Action}
    (hleaf : event.action.fold.targetLeaf ≠ []) (state : State) :
    ((machine environment).act event.action event.cursor state).record.locate? (placeOf event) =
      if Owned (placeOf event) state.record then some (next environment event state).value
      else none := by
  rw [(act_eq hkinds event state).2]
  have hset : (event.cursor.setAt? state.record event.action.fold.depth event.action.fold.targetLeaf
      (next environment event state).value).isSome ↔ Owned (placeOf event) state.record :=
    Cursor.setAt?_isSome hleaf
  by_cases howned : Owned (placeOf event) state.record
  · obtain ⟨after, hafter⟩ := Option.isSome_iff_exists.mp (hset.mpr howned)
    rw [if_pos howned, hafter]
    exact (Cursor.setAt?_written hafter).locate?_self
  · rw [if_neg howned, Option.not_isSome_iff_eq_none.mp fun hsome => howned (hset.mp hsome)]
    exact Option.not_isSome_iff_eq_none.mp fun hsome =>
      howned (Cursor.owned_of_isSome hleaf hsome)

section Places

variable (hlevels : blueprint.LevelsDeclared) {event other : Event Action}
  (hstands : Stands blueprint event) (hstands' : Stands blueprint other)

include hlevels hstands hstands'

/-- Two events write at one place or at places apart; no target is inside another one. -/
theorem Stands.eq_or_apart :
    placeOf event = placeOf other ∨ Location.Apart (placeOf event) (placeOf other) := by
  obtain ⟨aggregate, -, -, hvalue⟩ := hstands
  obtain ⟨aggregate', -, -, hvalue'⟩ := hstands'
  by_cases heq : placeOf event = placeOf other
  · exact .inl heq
  · exact .inr (hvalue.apart hlevels hvalue' (.inr heq))

/-- An event at another place does not change a place. -/
theorem locate?_act_of_placeOf_ne (hne : placeOf event ≠ placeOf other) (state : State) :
    ((machine environment).act event.action event.cursor state).record.locate? (placeOf other) =
      state.record.locate? (placeOf other) := by
  obtain ⟨habove, hbelow⟩ := (hstands.eq_or_apart hlevels hstands').resolve_left hne
  refine (act_sameOutside event.action event.cursor state _ ?_).2 ?_
  · rintro location rfl
    exact habove
  · rintro location rfl
    exact hbelow

/-- The places of events keep their owners. -/
theorem owned_act_iff (hleaf : other.action.fold.targetLeaf ≠ []) (state : State) :
    Owned (placeOf other) ((machine environment).act event.action event.cursor state).record ↔
      Owned (placeOf other) state.record := by
  refine owned_iff (act_sameOutside event.action event.cursor state) (Cursor.below_ne_nil hleaf) ?_
  rintro location rfl hstart
  exact (hstands.eq_or_apart hlevels hstands').resolve_right fun h => h.1 hstart

omit hstands' in
/-- While targets are written, the places of events keep their owners. -/
theorem Stands.owned_iff (hleaf : event.action.fold.targetLeaf ≠ []) {after : Json}
    (hsame : Json.SameOutside blueprint.Computes record after) :
    Owned (placeOf event) after ↔ Owned (placeOf event) record := by
  obtain ⟨aggregate, -, -, hvalue⟩ := hstands
  refine NestedRecord.owned_iff hsame (Cursor.below_ne_nil hleaf) ?_
  rintro location ⟨other, -, hother⟩ hstart
  exact (hother.eq_of_above hlevels hvalue hstart).2

end Places

/-! ## What is there stays there -/

/-- The events of a procedure, each at an instance of its target. -/
structure Placed (blueprint : Blueprint) (events : List (Event Action)) : Prop where
  stands : ∀ event ∈ events, Stands blueprint event
  leaf_ne_nil : ∀ event ∈ events, event.action.fold.targetLeaf ≠ []

theorem Placed.of_subset {events events' : List (Event Action)} (h : Placed blueprint events)
    (hsub : events' ⊆ events) : Placed blueprint events' :=
  ⟨fun event hmem => h.stands event (hsub hmem), fun event hmem => h.leaf_ne_nil event (hsub hmem)⟩

/-- Every place that has an owner is there. -/
def Filled (events : List (Event Action)) (record : Json) : Prop :=
  ∀ event ∈ events, Owned (placeOf event) record → (record.locate? (placeOf event)).isSome

/-- An event fills its own place and leaves the others filled. -/
theorem filled_act (hlevels : blueprint.LevelsDeclared) (hkinds : environment.kinds = .builtIn)
    {events done : List (Event Action)} {event : Event Action} {state : State}
    (hplaced : Placed blueprint (event :: events))
    (hfilled : Filled done state.record) (hsub : events ⊆ event :: done) :
    Filled events ((machine environment).act event.action event.cursor state).record := by
  have hstands := hplaced.stands event List.mem_cons_self
  intro other hmem howned
  have hstands' := hplaced.stands other (List.mem_cons_of_mem _ hmem)
  rw [owned_act_iff hlevels hstands hstands'
    (hplaced.leaf_ne_nil other (List.mem_cons_of_mem _ hmem))] at howned
  by_cases heq : placeOf event = placeOf other
  · rw [← heq] at howned ⊢
    rw [locate?_act hkinds (hplaced.leaf_ne_nil event List.mem_cons_self), if_pos howned]
    rfl
  · rw [locate?_act_of_placeOf_ne hlevels hstands hstands' heq]
    refine hfilled other ((List.mem_cons.mp (hsub hmem)).resolve_left fun hsame => ?_) howned
    exact heq (hsame ▸ rfl)

/-- A run fills the places of its events. -/
theorem filled_perform (hlevels : blueprint.LevelsDeclared)
    (hkinds : environment.kinds = .builtIn) {events : List (Event Action)}
    (hplaced : Placed blueprint events) (state : State) :
    Filled events ((machine environment).perform events state).record := by
  induction events using List.reverseRecOn with
  | nil => exact fun event hmem => absurd hmem List.not_mem_nil
  | append_singleton events event ih =>
    have hfilled := ih (hplaced.of_subset (List.subset_append_left ..))
    rw [Machine.perform_append]
    refine filled_act hlevels hkinds (hplaced.of_subset ?_) hfilled ?_
    · exact List.cons_subset.mpr ⟨by simp, List.Subset.refl _⟩
    · intro other hmem
      simpa [or_comm] using hmem

/-- From a filled record on, a run overwrites places of its events. -/
theorem exists_overwrites (hlevels : blueprint.LevelsDeclared)
    (hkinds : environment.kinds = .builtIn) {events : List (Event Action)}
    (hplaced : Placed blueprint events) {state : State} (hfilled : Filled events state.record) :
    ∃ writes : List (Location × Json),
      (∀ write ∈ writes, ∃ event ∈ events, placeOf event = write.1) ∧
        ((machine environment).perform events state).record =
          Json.overwriteAll writes state.record := by
  induction events generalizing state with
  | nil => exact ⟨[], nofun, rfl⟩
  | cons event rest ih =>
    have hleaf := hplaced.leaf_ne_nil event List.mem_cons_self
    have hnext : Filled rest
        ((machine environment).act event.action event.cursor state).record :=
      filled_act hlevels hkinds hplaced hfilled fun other hmem =>
        List.mem_cons_of_mem _ (List.mem_cons_of_mem _ hmem)
    obtain ⟨writes, hwrites, hperform⟩ := ih (hplaced.of_subset (List.subset_cons_self ..)) hnext
    have hrest : ∀ write ∈ writes, ∃ other ∈ event :: rest, placeOf other = write.1 :=
      fun write hmem => by
        obtain ⟨other, hother, hplace⟩ := hwrites write hmem
        exact ⟨other, List.mem_cons_of_mem _ hother, hplace⟩
    show ∃ writes, _ ∧ ((machine environment).perform rest
      ((machine environment).act event.action event.cursor state)).record = _
    rw [hperform, (act_eq hkinds event state).2]
    cases hset : event.cursor.setAt? state.record event.action.fold.depth
        event.action.fold.targetLeaf (next environment event state).value with
    | none => exact ⟨writes, hrest, rfl⟩
    | some after =>
      have howned : Owned (placeOf event) state.record :=
        (Cursor.setAt?_isSome hleaf).mp (Option.isSome_of_eq_some hset)
      refine ⟨(placeOf event, (next environment event state).value) :: writes, ?_, ?_⟩
      · exact List.forall_mem_cons.mpr ⟨⟨event, List.mem_cons_self, rfl⟩, hrest⟩
      · -- in a filled record the target is there, so that nothing is added
        rw [Option.getD_some, Json.overwriteAll_cons,
          Cursor.setAt?_eq_overwrite (hfilled event List.mem_cons_self howned) hset]
        rfl

/-! ## Two runs side by side -/

/-- The states of two runs that have done the same events, from records that differ at targets
only. -/
structure Alongside (blueprint : Blueprint) (record : Json) (done : List (Event Action))
    (first second : State) : Prop where
  sameFirst : Json.SameOutside blueprint.Computes record first.record
  sameSecond : Json.SameOutside blueprint.Computes record second.record
  running : second.running = first.running
  /-- what has been written is the same -/
  written : ∀ event ∈ done,
    second.record.locate? (placeOf event) = first.record.locate? (placeOf event)

namespace Alongside

variable {done : List (Event Action)} {first second : State} {event : Event Action}

/-- An event that reads the same in both runs keeps them alongside. -/
theorem act (hlevels : blueprint.LevelsDeclared) (hkinds : environment.kinds = .builtIn)
    (hplaced : Placed blueprint (done ++ [event]))
    (h : Alongside blueprint record done first second)
    (hnext : next environment event second = next environment event first) :
    Alongside blueprint record (done ++ [event])
      ((machine environment).act event.action event.cursor first)
      ((machine environment).act event.action event.cursor second) where
  sameFirst := (hplaced.stands event (by simp)).sameOutside h.sameFirst
  sameSecond := (hplaced.stands event (by simp)).sameOutside h.sameSecond
  running := by
    rw [(act_eq hkinds event first).1, (act_eq hkinds event second).1, h.running, hnext]
  written other hmem := by
    have hstands := hplaced.stands event (by simp)
    have hleaf := hplaced.leaf_ne_nil event (by simp)
    by_cases heq : placeOf event = placeOf other
    · -- both write the same, or find no object to write into
      have howned : Owned (placeOf event) second.record ↔ Owned (placeOf event) first.record :=
        (hstands.owned_iff hlevels hleaf h.sameSecond).trans
          (hstands.owned_iff hlevels hleaf h.sameFirst).symm
      rw [← heq, locate?_act hkinds hleaf, locate?_act hkinds hleaf, hnext]
      exact if_congr howned rfl rfl
    · have hmem' : other ∈ done := by
        rcases List.mem_append.mp hmem with hmem | hmem
        · exact hmem
        · exact absurd (congrArg placeOf (List.mem_singleton.mp hmem)).symm heq
      have hstands' := hplaced.stands other hmem
      rw [locate?_act_of_placeOf_ne hlevels hstands hstands' heq,
        locate?_act_of_placeOf_ne hlevels hstands hstands' heq]
      exact h.written other hmem'

end Alongside

/-- In a list of blocks, what is no head of a block stands behind the head of its own. -/
theorem head_mem_of_flatMap_eq {α β : Type} {head : α → β} {tail : α → List β} {x : β} :
    ∀ {blocks : List α} {front back : List β},
      blocks.flatMap (fun block => head block :: tail block) = front ++ x :: back →
        (∀ block ∈ blocks, x ≠ head block) →
          ∃ block ∈ blocks, x ∈ tail block ∧ head block ∈ front
  | [], front, _, h, _ => by simp at h
  | block :: rest, front, back, h, hne => by
    rw [List.flatMap_cons] at h
    rcases List.append_eq_append_iff.mp h with ⟨front', rfl, hrest⟩ | ⟨back', hblock, hback⟩
    · obtain ⟨other, hmem, htail, hhead⟩ := head_mem_of_flatMap_eq hrest fun other hmem =>
        hne other (List.mem_cons_of_mem _ hmem)
      exact ⟨other, List.mem_cons_of_mem _ hmem, htail, List.mem_append_right _ hhead⟩
    · cases back' with
      | nil =>
        -- the next block would begin with it
        have hrest : rest.flatMap (fun block => head block :: tail block) = [] ++ x :: back :=
          hback.symm
        obtain ⟨_, _, _, hnone⟩ := head_mem_of_flatMap_eq hrest fun other hmem =>
          hne other (List.mem_cons_of_mem _ hmem)
        cases hnone
      | cons y back' =>
        obtain ⟨rfl, -⟩ := List.cons_eq_cons.mp hback
        cases front with
        | nil => exact absurd (List.cons_eq_cons.mp hblock).1.symm (hne block List.mem_cons_self)
        | cons y front =>
          obtain ⟨rfl, htail⟩ := List.cons_eq_cons.mp hblock
          refine ⟨block, List.mem_cons_self, ?_, List.mem_cons_self⟩
          exact htail ▸ List.mem_append_right _ List.mem_cons_self

section Repeated

variable (hlevels : blueprint.LevelsDeclared) (htidy : blueprint.metadata.Tidy)
  (hcompile : compile blueprint = .ok program) (hplan : IsPlan blueprint program plan)

include hlevels htidy hcompile hplan

theorem placed_events (record : Json) : Placed blueprint (program.events record) where
  stands _ hmem := stands_of_event hlevels hcompile hmem
  leaf_ne_nil event hmem := by
    obtain ⟨resolved, hresolved, hfold⟩ := hplan.exists_fold hlevels htidy hcompile hmem
    rw [hfold]
    exact (Blueprint.leads_of_strict hlevels (hplan.valid resolved hresolved).target).1.leaf_ne_nil

variable {reader : Resolved} (hreader : reader ∈ plan)

include hreader

omit hlevels in
/-- An aggregate of its own target reads what its reset has written. -/
theorem exists_reset_of_add (hown : reader.aggregate.source = reader.aggregate.target)
    {front back : List (Event Action)} {inner : Cursor}
    (hevents : program.events record = front ++ ⟨.add reader.fold, inner⟩ :: back) :
    ∃ event ∈ front, placeOf event = inner.below reader.source.leaf := by
  have hvalid := hplan.valid reader hreader
  have hselected := selectedEvents_of_compile htidy hcompile hvalid (hplan.mem hreader) record
  have hpicks : picks reader.aggregate.target (.add reader.fold) = true := beq_self_eq_true _
  rw [hevents, Event.select, List.filter_append, List.filter_cons, if_pos hpicks] at hselected
  obtain ⟨element, hmem, htail, hhead⟩ := head_mem_of_flatMap_eq hselected.symm fun _ _ heq => by
    cases heq
  rw [hplan.reach_own hreader hown] at htail
  obtain ⟨-, heq⟩ := Event.mk.inj (List.mem_singleton.mp htail)
  subst heq
  refine ⟨⟨.reset reader.fold, inner⟩, (List.mem_filter.mp hhead).1, ?_⟩
  rw [hplan.source_eq hreader hreader hown]
  -- the head of the block in which the addition stands
  have hreset : (⟨.reset reader.fold, inner⟩ : Event Action) ∈ ⟨.reset reader.fold, inner⟩ ::
      (record.reach inner (reader.source.loops.drop reader.target.depth)).map
        (⟨.add reader.fold, ·⟩) := List.mem_cons_self
  exact place_of_selected (Json.mem_reach_root.mp hmem).1 hreset

/-- Where an aggregate reads what has not been written, nothing is written by any event. -/
theorem apart_of_not_written (hordered : Ordered blueprint) {front back : List (Event Action)}
    {inner : Cursor} (hevents : program.events record = front ++ ⟨.add reader.fold, inner⟩ :: back)
    (hnot : ∀ event ∈ front, placeOf event ≠ inner.below reader.source.leaf) :
    ∀ event ∈ program.events record,
      ¬ placeOf event <+: inner.below reader.source.leaf ∧
        ¬ inner.below reader.source.leaf <+: placeOf event := by
  intro event hmem
  rw [hevents] at hmem
  -- earlier events write elsewhere by assumption, later ones because of the order
  rcases List.mem_append.mp hmem with hfront | hback
  · have hvalid := hplan.valid reader hreader
    have hfits : inner.Fits reader.source.loops :=
      (Json.mem_reach_root.mp (mem_reach_of_add htidy hcompile hvalid (hplan.mem hreader)
        (hevents ▸ List.mem_append_right _ List.mem_cons_self))).1
    obtain ⟨aggregate, -, -, hvalue⟩ := stands_of_event hlevels hcompile (hevents ▸ hmem)
    refine not_or.mp fun hcomparable => hnot event hfront ?_
    exact (Blueprint.ValueAt.eq_of_comparable hlevels hvalid.source hvalid.sourceScalar hfits
      hvalue hcomparable).2.2
  · by_cases hown : reader.aggregate.source = reader.aggregate.target
    · obtain ⟨reset, hreset, hplace⟩ :=
        exists_reset_of_add htidy hcompile hplan hreader hown hevents
      exact absurd hplace (hnot reset hreset)
    · exact apart_of_read hlevels htidy hcompile hplan hreader hordered hown hevents event hback

/-- What the second run reads is what the first run has read. -/
theorem locate?_source_alongside (hordered : Ordered blueprint) {front back : List (Event Action)}
    {inner : Cursor} (hevents : program.events record = front ++ ⟨.add reader.fold, inner⟩ :: back)
    (halongside : Alongside blueprint record front ((machine environment).perform front { record })
      ((machine environment).perform front
        { record := (run program environment record).1 })) :
    ((machine environment).perform front
        { record := (run program environment record).1 }).record.locate?
          (inner.below reader.source.leaf) =
      ((machine environment).perform front { record }).record.locate?
        (inner.below reader.source.leaf) := by
  -- what has been written is equal in both runs; anything else is as it was in the record, which
  -- the first run has not changed there
  by_cases hwritten : ∃ event ∈ front, placeOf event = inner.below reader.source.leaf
  · obtain ⟨event, hmem, hplace⟩ := hwritten
    rw [← hplace]
    exact halongside.written event hmem
  · have hapart := apart_of_not_written hlevels htidy hcompile hplan hreader hordered hevents
      fun event hmem heq => hwritten ⟨event, hmem, heq⟩
    have hfront := fun event hmem => hapart event (hevents ▸ List.mem_append_left _ hmem)
    have hrun : (run program environment record).1 =
        ((machine environment).perform (program.events record) { record }).record :=
      congrArg State.record (run_eq_perform hlevels hcompile environment record).1
    rw [locate?_perform_of_apart hfront, locate?_perform_of_apart hfront, hrun,
      locate?_perform_of_apart hapart]

omit hreader in
/-- The second run stays alongside the first. -/
theorem alongside_perform (hkinds : environment.kinds = .builtIn) (hordered : Ordered blueprint)
    {front back : List (Event Action)} (hevents : program.events record = front ++ back) :
    Alongside blueprint record front ((machine environment).perform front { record })
      ((machine environment).perform front { record := (run program environment record).1 }) := by
  induction front using List.reverseRecOn generalizing back with
  | nil =>
    exact ⟨.refl _ _, run_sameOutside hlevels hcompile environment record, rfl,
      fun event hmem => absurd hmem List.not_mem_nil⟩
  | append_singleton front event ih =>
    have hplaced : Placed blueprint (front ++ [event]) :=
      (placed_events hlevels htidy hcompile hplan record).of_subset
        (hevents ▸ List.subset_append_left ..)
    rw [List.append_assoc, List.singleton_append] at hevents
    have halongside := ih hevents
    rw [Machine.perform_append, Machine.perform_append]
    refine halongside.act hlevels hkinds hplaced ?_
    obtain ⟨resolved, hresolved, hfold⟩ := hplan.exists_fold hlevels htidy hcompile
      (hevents ▸ List.mem_append_right front List.mem_cons_self)
    obtain ⟨action, cursor⟩ := event
    cases action with
    | reset fold => rfl
    | add fold =>
      obtain rfl : fold = resolved.fold := hfold
      have hsource := locate?_source_alongside hlevels htidy hcompile hplan hresolved hordered
        hevents halongside
      simp only [next, Fold.reading, halongside.running]
      rw [show resolved.fold.sourceLeaf = resolved.source.leaf from rfl, hsource]

omit hreader in
/-- A record whose aggregates have been recomputed stays the same when this is done again. -/
theorem run_run (hkinds : environment.kinds = .builtIn) (hordered : Ordered blueprint)
    (record : Json) :
    (run program environment (run program environment record).1).1 =
      (run program environment record).1 := by
  have hplaced := placed_events hlevels htidy hcompile hplan record
  have hrun : (run program environment record).1 =
      ((machine environment).perform (program.events record) { record }).record :=
    congrArg State.record (run_eq_perform hlevels hcompile environment record).1
  have hsame : Json.SameOutside blueprint.Computes record
      ({ record := (run program environment record).1 } : State).record :=
    run_sameOutside hlevels hcompile environment record
  have hagain : (run program environment (run program environment record).1).1 =
      ((machine environment).perform (program.events record)
        { record := (run program environment record).1 }).record :=
    congrArg State.record (run_eq_perform_from hlevels hcompile environment hsame).1
  have halongside : Alongside blueprint record (program.events record)
      ((machine environment).perform (program.events record) { record })
      ((machine environment).perform (program.events record)
        { record := (run program environment record).1 }) :=
    alongside_perform hlevels htidy hcompile hplan hkinds hordered (List.append_nil _).symm
  have hfilled : Filled (program.events record) (run program environment record).1 := by
    rw [hrun]
    exact filled_perform hlevels hkinds hplaced { record }
  obtain ⟨writes, hwrites, hoverwrites⟩ : ∃ writes : List (Location × Json), _ ∧
      ((machine environment).perform (program.events record)
        { record := (run program environment record).1 }).record = _ :=
    exists_overwrites hlevels hkinds hplaced hfilled
  rw [hagain, hoverwrites]
  -- each place is given what stands there already
  refine Json.eq_of_overwriteAll (List.pairwise_of_forall_mem_list ?_) ?_
  · intro first hfirst second hsecond
    obtain ⟨event, hevent, hplace⟩ := hwrites first hfirst
    obtain ⟨event', hevent', hplace'⟩ := hwrites second hsecond
    rw [← hplace, ← hplace']
    exact (hplaced.stands event' hevent').eq_or_apart hlevels (hplaced.stands event hevent)
  · intro write hwrite
    obtain ⟨event, hevent, hplace⟩ := hwrites write hwrite
    rw [← hplace, ← hoverwrites, halongside.written event hevent, ← hrun]

end Repeated

end Recompute

namespace Store

/-- Recomputing the local aggregates a second time changes nothing. -/
theorem aggregate_aggregate {store : Store} (hstore : store.IsCompiled)
    {environment : Environment} (hkinds : environment.kinds = .builtIn)
    (hordered : Recompute.Ordered store.blueprint) (record : Json) :
    (store.aggregate environment (store.aggregate environment record).1).1 =
      (store.aggregate environment record).1 := by
  obtain ⟨plan, hplan⟩ := Recompute.exists_plan_of_compile hstore.aggregates
  exact Recompute.run_run hstore.levelsDeclared hstore.tidy hstore.aggregates hplan hkinds hordered
    record

/-- The total of the totals is there after one pass, also where it is declared before them. -/
theorem aggregate_aggregate_carts :
    Recompute.Ordered carts.blueprint ∧
      (carts.aggregate {} (carts.aggregate {} filledCarts).1).1 = (carts.aggregate {} filledCarts).1 ∧
      ((carts.aggregate {} filledCarts).1.locate? [.key "grand"]).map Json.outline =
        some (Json.ofNat 42).outline := by
  refine ⟨ordered_carts, ?_, by decide +kernel⟩
  exact aggregate_aggregate (isCompiled_compiled _ _ _) rfl ordered_carts filledCarts

/-! ### A sum that is declared before what it sums -/

/-- A sum of a sum, both at the record itself. -/
def sumsInReverse : Descriptor :=
  .mk [("id", .tuple [.word "int", .word "<<id>>"]),
    ("a", .tuple [.word "number", .word "sum", .word "b"]),
    ("b", .tuple [.word "number", .word "sum", .word "c"]),
    ("c", .tuple [.word "number"])]

/-- The store of these sums. -/
def reversed : Store := compiled "sums" sumsInReverse (by decide +kernel)

/-- A value that no sum has taken in yet. -/
def unsummed : Json :=
  .object [("id", .ofNat 1), ("a", .ofNat 0), ("b", .ofNat 0), ("c", .ofNat 5)]

/-- One pass need not be enough for an aggregate that reads a later one: the sum of the first pass
reads what the second aggregate held before. -/
theorem not_aggregate_aggregate :
    ¬ ∀ (store : Store) (environment : Environment) (record : Json), store.IsCompiled →
      environment.kinds = .builtIn →
        (store.aggregate environment (store.aggregate environment record).1).1 =
          (store.aggregate environment record).1 := by
  intro h
  have hfirst : ((reversed.aggregate {} unsummed).1.locate? [.key "a"]).map Json.outline =
      some (Json.ofNat 0).outline := by
    decide +kernel
  have hsecond : ((reversed.aggregate {} (reversed.aggregate {} unsummed).1).1.locate?
      [.key "a"]).map Json.outline = some (Json.ofNat 5).outline := by
    decide +kernel
  rw [h reversed {} unsummed (isCompiled_compiled _ _ _) rfl, hfirst] at hsecond
  revert hsecond
  decide +kernel

end Store

end NestedRecord
