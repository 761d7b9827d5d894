import NestedRecord.Aggregate.Recompute
import NestedRecord.Proofs.Aggregate.Exact
import NestedRecord.Proofs.Graph.Metadata
import NestedRecord.Proofs.Path.Layout
import NestedRecord.Proofs.Procedure.Assembly

/-!
# What recomputing aggregates leaves behind

The procedure of the local aggregates writes the targets of the aggregates and nothing else. An
aggregate whose source crosses a list below its target leaves the fold of the values that the
lists reach from the element of the target.

A procedure mixes the events of many aggregates, loop by loop. One aggregate is followed through it
by picking the events of its target: what the others do in between writes at other places and leaves
its running state alone, so it can be passed over (`shown_perform`). What is picked is known from
the compilation, since every fragment that is added extends the list of events in a known way. The
result is then an induction over the source values of one element, from the reset on.

* `Recompute.IsPlan` says of a list of resolved aggregates that a procedure is compiled from it.
* `act_sameOutside` and `run_sameOutside` say what stays as it is.
* `selectedEvents_eq` lists the events of one aggregate: for every element that owns its target
  a reset, then one addition for each source value.
* `run_shows_fold` is the value that the procedure leaves.
-/

namespace NestedRecord

/-- The instances of the targets of local aggregates. -/
def Blueprint.Computes (blueprint : Blueprint) (place : Location) : Prop :=
  ∃ aggregate ∈ blueprint.metadata.localAggregates, blueprint.ValueAt aggregate.target place

namespace Recompute

variable {blueprint : Blueprint} {environment : Environment}

/-! ## Compilation -/

/-- An aggregate with its target and its source resolved. -/
structure Resolved where
  aggregate : LocalAggregate
  target : ResolvedPath
  source : ResolvedPath

namespace Resolved

/-- What the fragments of the aggregate work with. -/
def fold (resolved : Resolved) : Fold :=
  { target := resolved.aggregate.target, op := resolved.aggregate.op
    depth := resolved.target.depth, targetLeaf := resolved.target.leaf
    sourceLeaf := resolved.source.leaf, transformer := resolved.aggregate.transformer }

/-- Where the fragment that resets the aggregate is added. -/
def resetLoops (resolved : Resolved) : List Loop :=
  if resolved.target.depth < resolved.source.depth then
    resolved.source.loops.take (resolved.target.depth + 1)
  else resolved.source.loops

/-- In which bucket it is added. -/
def resetBucket (resolved : Resolved) : Bucket :=
  if resolved.target.depth < resolved.source.depth then .pre else .body

/-- The fragments of the aggregate. -/
def added (resolved : Resolved) : List (List Loop × Bucket × Action) :=
  [(resolved.resetLoops, resolved.resetBucket, .reset resolved.fold),
   (resolved.source.loops, .body, .add resolved.fold)]

/-- Adds the fragments of the aggregate. -/
def addTo (scaffold : Scaffold Action) (resolved : Resolved) : Scaffold Action :=
  addFragments resolved.aggregate resolved.target resolved.source scaffold

/-- The aggregate is resolved in the blueprint. -/
structure Valid (blueprint : Blueprint) (resolved : Resolved) : Prop where
  target : blueprint.resolveStrict resolved.aggregate.target = .ok resolved.target
  targetScalar : resolved.target.isScalar = true
  source : blueprint.resolveLenient resolved.aggregate.source = .ok resolved.source
  sourceScalar : resolved.source.isScalar = true
  inside : resolved.source.loops.take resolved.target.depth = resolved.target.loops

end Resolved

/-- An aggregate is resolved in one way. -/
theorem Resolved.Valid.eq {resolved other : Resolved} (h : resolved.Valid blueprint)
    (h' : other.Valid blueprint) (haggregate : resolved.aggregate = other.aggregate) :
    resolved = other := by
  obtain ⟨aggregate, target, source⟩ := resolved
  obtain ⟨aggregate', target', source'⟩ := other
  obtain rfl : aggregate = aggregate' := haggregate
  obtain rfl : target = target' := Except.ok.inj (h.target.symm.trans h'.target)
  obtain rfl : source = source' := Except.ok.inj (h.source.symm.trans h'.source)
  rfl

/-- The loops of a source go on from those of its target. -/
theorem Resolved.Valid.source_loops {resolved : Resolved} (h : resolved.Valid blueprint) :
    resolved.source.loops =
      resolved.target.loops ++ resolved.source.loops.drop resolved.target.depth := by
  rw [← h.inside, List.take_append_drop]

/-- The loops of a source reach the elements below those that the loops of its target reach. -/
theorem Resolved.Valid.reach_source {resolved : Resolved} (h : resolved.Valid blueprint)
    (record : Json) : record.reach {} resolved.source.loops =
      (record.reach {} resolved.target.loops).flatMap
        (record.reach · (resolved.source.loops.drop resolved.target.depth)) := by
  rw [← Json.reach_append, ← h.source_loops]

/-- The check of an aggregate finds both paths, or reports why it does not. -/
theorem valid_of_resolve {aggregate : LocalAggregate} {target source : ResolvedPath}
    (h : resolve blueprint aggregate = .ok (target, source)) :
    Resolved.Valid blueprint ⟨aggregate, target, source⟩ := by
  unfold resolve at h
  simp only at h
  obtain ⟨target', htarget, h⟩ := Except.bind_eq_ok.mp h
  replace htarget := Blueprint.resolve_of_demand htarget
  cases hscalar : target'.isScalar with
  | false =>
    rw [hscalar] at h
    cases h
  | true =>
    rw [hscalar] at h
    obtain ⟨source', hsource, h⟩ := Except.bind_eq_ok.mp h
    replace hsource := Blueprint.resolve_of_demand hsource
    cases hscalar' : source'.isScalar with
    | false =>
      rw [hscalar'] at h
      cases h
    | true =>
      rw [hscalar'] at h
      -- the last check: the source is inside the lists of its target
      by_cases hinside : source'.loops.take target'.depth = target'.loops
      · simp only [hinside, ne_eq, not_true_eq_false, if_false] at h
        cases h
        exact ⟨htarget, hscalar, hsource, hscalar', hinside⟩
      · simp only [hinside, ne_eq, not_false_eq_true, if_true] at h
        cases h

/-- A procedure is put together from the local aggregates, resolved as in `plan`. -/
structure IsPlan (blueprint : Blueprint) (program : Program Action) (plan : List Resolved) :
    Prop where
  aggregates : plan.map (·.aggregate) = blueprint.metadata.localAggregates
  valid : ∀ resolved ∈ plan, resolved.Valid blueprint
  synthesized : (plan.foldl Resolved.addTo { name := blueprint.store ++ ".aggregate" }).synthesize =
    .ok program

/-- Aggregates that are added to a scaffold are resolved one after the other. -/
theorem exists_plan_of_foldlM {aggregates : List LocalAggregate}
    {scaffold scaffold' : Scaffold Action}
    (h : aggregates.foldlM (fun scaffold aggregate => do
      let sites ← resolve blueprint aggregate
      return addFragments aggregate sites.1 sites.2 scaffold) scaffold = .ok scaffold') :
    ∃ plan : List Resolved, plan.map (·.aggregate) = aggregates ∧
      (∀ resolved ∈ plan, resolved.Valid blueprint) ∧
      plan.foldl Resolved.addTo scaffold = scaffold' := by
  induction aggregates generalizing scaffold with
  | nil =>
    cases h
    exact ⟨[], rfl, by simp, rfl⟩
  | cons aggregate rest ih =>
    rw [List.foldlM_cons] at h
    obtain ⟨next, hstep, hrest⟩ := Except.bind_eq_ok.mp h
    obtain ⟨⟨target, source⟩, hresolve, hreturn⟩ := Except.bind_eq_ok.mp hstep
    obtain rfl : addFragments aggregate target source scaffold = next := Except.ok.inj hreturn
    obtain ⟨plan, haggregates, hvalid, hplan⟩ := ih hrest
    exact ⟨⟨aggregate, target, source⟩ :: plan, by rw [List.map_cons, haggregates],
      List.forall_mem_cons.mpr ⟨valid_of_resolve hresolve, hvalid⟩, hplan⟩

/-- Every compiled procedure is put together from the local aggregates. -/
theorem exists_plan_of_compile {program : Program Action} (h : compile blueprint = .ok program) :
    ∃ plan, IsPlan blueprint program plan := by
  unfold compile at h
  obtain ⟨scaffold, hscaffold, hfinish⟩ := Except.bind_eq_ok.mp h
  obtain ⟨plan, haggregates, hvalid, rfl⟩ := exists_plan_of_foldlM hscaffold
  exact ⟨plan, { aggregates := haggregates, valid := hvalid
                 synthesized := Blueprint.synthesize_of_finish hfinish }⟩

theorem IsPlan.mem {program : Program Action} {plan : List Resolved}
    (h : IsPlan blueprint program plan) {resolved : Resolved} (hmem : resolved ∈ plan) :
    resolved.aggregate ∈ blueprint.metadata.localAggregates := by
  rw [← h.aggregates]
  exact List.mem_map_of_mem hmem

theorem IsPlan.nodup_targets {program : Program Action} {plan : List Resolved}
    (h : IsPlan blueprint program plan) (htidy : blueprint.metadata.Tidy) :
    (plan.map (·.aggregate.target)).Nodup := by
  have htargets := htidy.nodup_targets
  rw [← h.aggregates, List.map_map] at htargets
  exact htargets

/-- The aggregates of a plan are told apart by their targets. -/
theorem IsPlan.eq_of_target {program : Program Action} {plan : List Resolved}
    (h : IsPlan blueprint program plan) (htidy : blueprint.metadata.Tidy)
    {resolved other : Resolved} (hmem : resolved ∈ plan) (hmem' : other ∈ plan)
    (htarget : resolved.aggregate.target = other.aggregate.target) : resolved = other :=
  List.inj_on_of_nodup_map (h.nodup_targets htidy) hmem hmem' htarget

/-! ## The fragments of one aggregate -/

/-- An aggregate adds two fragments, one that resets and one that adds up. -/
theorem exists_addTo (scaffold : Scaffold Action) (resolved : Resolved) :
    ∃ resetLabel addLabel, resolved.addTo scaffold =
      (scaffold.add resolved.resetLoops resolved.resetBucket resetLabel
        (.reset resolved.fold)).add resolved.source.loops .body addLabel (.add resolved.fold) := by
  unfold Resolved.addTo addFragments Resolved.resetLoops Resolved.resetBucket
  simp only
  split <;> exact ⟨_, _, rfl⟩

theorem conflicts_of_addTo {scaffold : Scaffold Action} {resolved : Resolved}
    (h : (resolved.addTo scaffold).conflicts = []) : scaffold.conflicts = [] := by
  obtain ⟨resetLabel, addLabel, heq⟩ := exists_addTo scaffold resolved
  rw [heq] at h
  exact (Scaffold.conflicts_of_add (Scaffold.conflicts_of_add h).1).1

/-- Conflicts stay, so a plan without any had none on the way. -/
theorem conflicts_of_plan :
    ∀ (plan : List Resolved) {scaffold : Scaffold Action},
      (plan.foldl Resolved.addTo scaffold).conflicts = [] → scaffold.conflicts = []
  | [], _, h => h
  | _ :: rest, _, h => conflicts_of_addTo (conflicts_of_plan rest h)

/-- What every added fragment keeps true of a scaffold and of what has been added to it is true when
the aggregates of a plan have been added. -/
theorem holds_plan {p : Scaffold Action → List (List Loop × Bucket × Action) → Prop}
    (hadd : ∀ {scaffold added loops bucket label action}, p scaffold added →
      (scaffold.add loops bucket label action).conflicts = [] →
        p (scaffold.add loops bucket label action) (added ++ [(loops, bucket, action)])) :
    ∀ (plan : List Resolved) {scaffold : Scaffold Action}
      {added : List (List Loop × Bucket × Action)}, p scaffold added →
      (plan.foldl Resolved.addTo scaffold).conflicts = [] →
        p (plan.foldl Resolved.addTo scaffold) (added ++ plan.flatMap Resolved.added)
  | [], scaffold, added, h, _ => by
    rw [List.flatMap_nil, List.append_nil]
    exact h
  | resolved :: rest, scaffold, added, h, hconflicts => by
    rw [List.foldl_cons] at hconflicts ⊢
    rw [List.flatMap_cons, ← List.append_assoc]
    refine holds_plan hadd rest ?_ hconflicts
    replace hconflicts := conflicts_of_plan rest hconflicts
    obtain ⟨resetLabel, addLabel, heq⟩ := exists_addTo scaffold resolved
    rw [heq] at hconflicts ⊢
    have hboth := hadd (hadd h (Scaffold.conflicts_of_add hconflicts).1) hconflicts
    rw [List.append_assoc] at hboth
    exact hboth

theorem assembled_plan (plan : List Resolved) {name : String}
    (hconflicts : (plan.foldl Resolved.addTo { name }).conflicts = []) :
    (plan.foldl Resolved.addTo { name }).Assembled (plan.flatMap Resolved.added) :=
  holds_plan (p := Scaffold.Assembled) (fun h hconflicts => h.add hconflicts) plan
    (Scaffold.assembled_start name) hconflicts

/-- The aggregate that a fragment belongs to. -/
def Action.fold : Action → Fold
  | .reset fold => fold
  | .add fold => fold

/-- Whether a fragment belongs to the aggregate of a target. -/
def picks (target : String) (action : Action) : Bool := action.fold.target == target

theorem free_of_targets {plan : List Resolved} {target : String}
    (h : ∀ resolved ∈ plan, resolved.aggregate.target ≠ target) {scaffold : Scaffold Action}
    (hassembled : scaffold.Assembled (plan.flatMap Resolved.added)) :
    Pass.Free (picks target) scaffold.root.placedRoot := by
  intro entry hentry
  obtain ⟨added, hadded, rfl⟩ := List.mem_map.mp (hassembled.placed.mem_iff.mp hentry)
  obtain ⟨resolved, hresolved, hmem⟩ := List.mem_flatMap.mp hadded
  have hne := h resolved hresolved
  rcases List.mem_cons.mp hmem with rfl | hmem
  · simpa [picks, Action.fold, Resolved.fold] using hne
  · obtain rfl := List.mem_singleton.mp hmem
    simpa [picks, Action.fold, Resolved.fold] using hne

/-- The other aggregates add no events of a target. -/
theorem select_addTo {resolved : Resolved} {target : String}
    (h : resolved.aggregate.target ≠ target) {scaffold : Scaffold Action}
    (hconflicts : (resolved.addTo scaffold).conflicts = []) (record : Json) :
    Event.select (picks target) (Pass.eventsRoot record (resolved.addTo scaffold).root) =
      Event.select (picks target) (Pass.eventsRoot record scaffold.root) := by
  obtain ⟨resetLabel, addLabel, heq⟩ := exists_addTo scaffold resolved
  rw [heq] at hconflicts ⊢
  obtain ⟨hreset, hadd⟩ := Scaffold.conflicts_of_add hconflicts
  have hpicks : (resolved.fold.target == target) = false := by simpa [Resolved.fold] using h
  have hpicksReset : picks target (⟨resetLabel, .reset resolved.fold⟩ : Fragment Action).action =
      false := hpicks
  have hpicksAdd : picks target (⟨addLabel, .add resolved.fold⟩ : Fragment Action).action =
      false := hpicks
  exact (Pass.select_eventsRoot_edit (Pass.keepsPicked_push _ hpicksAdd) _ _ hadd).trans
    (Pass.select_eventsRoot_edit (Pass.keepsPicked_push _ hpicksReset) _ _
      (Scaffold.conflicts_of_add hreset).2)

/-- All aggregates but that of a target leave its events as they are. -/
theorem select_plan {target : String} (record : Json) :
    ∀ (plan : List Resolved), (∀ resolved ∈ plan, resolved.aggregate.target ≠ target) →
      ∀ {scaffold : Scaffold Action}, (plan.foldl Resolved.addTo scaffold).conflicts = [] →
        Event.select (picks target)
            (Pass.eventsRoot record (plan.foldl Resolved.addTo scaffold).root) =
          Event.select (picks target) (Pass.eventsRoot record scaffold.root)
  | [], _, _, _ => rfl
  | resolved :: rest, h, scaffold, hconflicts => by
    rw [List.foldl_cons] at hconflicts ⊢
    rw [select_plan record rest (fun other hother => h other (List.mem_cons_of_mem _ hother))
      hconflicts, select_addTo (h resolved List.mem_cons_self) (conflicts_of_plan rest hconflicts)]

/-- The picked events of an aggregate whose source crosses a list below its target. -/
theorem select_addTo_below {resolved : Resolved} (hvalid : resolved.Valid blueprint)
    (hbelow : resolved.target.depth < resolved.source.depth) {scaffold : Scaffold Action}
    (hfree : Pass.Free (picks resolved.aggregate.target) scaffold.root.placedRoot)
    (hconflicts : (resolved.addTo scaffold).conflicts = []) (record : Json) :
    Event.select (picks resolved.aggregate.target)
        (Pass.eventsRoot record (resolved.addTo scaffold).root) =
      (record.reach {} resolved.target.loops).flatMap fun element =>
        ⟨.reset resolved.fold, element⟩ ::
          (record.reach element (resolved.source.loops.drop resolved.target.depth)).map fun inner =>
            ⟨.add resolved.fold, inner⟩ := by
  obtain ⟨resetLabel, addLabel, heq⟩ := exists_addTo scaffold resolved
  rw [heq] at hconflicts ⊢
  obtain ⟨hreset, hadd⟩ := Scaffold.conflicts_of_add hconflicts
  replace hreset := (Scaffold.conflicts_of_add hreset).2
  -- the first list below the target splits the loops of the source
  obtain ⟨loop, rest, hdrop⟩ : ∃ loop rest,
      resolved.source.loops.drop resolved.target.depth = loop :: rest := by
    refine List.exists_cons_of_ne_nil fun hnil => ?_
    rw [List.drop_eq_nil_iff] at hnil
    exact Nat.not_lt.mpr hnil hbelow
  have hsource : resolved.source.loops = resolved.target.loops ++ loop :: rest := by
    rw [← hdrop, ← hvalid.source_loops]
  have hloops : resolved.resetLoops = resolved.target.loops ++ [loop] := by
    rw [Resolved.resetLoops, if_pos hbelow, hsource, ResolvedPath.depth]
    simp [List.take_append]
  have hbucket : resolved.resetBucket = .pre := if_pos hbelow
  rw [hloops, hbucket] at hreset hadd ⊢
  rw [hsource] at hadd ⊢
  have hpicks : (resolved.fold.target == resolved.aggregate.target) = true := beq_self_eq_true _
  obtain ⟨hpre, hinner, hbody, hpost⟩ := hfree.rootParts
  obtain ⟨hpre₁, hbody₁, hpost₁⟩ := Pass.edit_fragments
    (Pass.push .pre ⟨resetLabel, .reset resolved.fold⟩)
    (resolved.target.loops ++ [loop]) (by simp) scaffold.root
  obtain ⟨hpre₂, hbody₂, hpost₂⟩ := Pass.edit_fragments
    (Pass.push .body ⟨addLabel, .add resolved.fold⟩)
    (resolved.target.loops ++ loop :: rest) (by simp)
    (Pass.edit (Pass.push .pre ⟨resetLabel, .reset resolved.fold⟩)
      (resolved.target.loops ++ [loop]) scaffold.root).1
  show Event.select (picks resolved.aggregate.target) (Pass.eventsRoot record
    (Pass.edit (Pass.push .body ⟨addLabel, .add resolved.fold⟩)
      (resolved.target.loops ++ loop :: rest)
      (Pass.edit (Pass.push .pre ⟨resetLabel, .reset resolved.fold⟩)
        (resolved.target.loops ++ [loop]) scaffold.root).1).1) = _
  rw [Pass.eventsRoot_eq, hpre₂, hbody₂, hpost₂, hpre₁, hbody₁, hpost₁]
  simp only [Pass.select_append, Pass.select_eventsHere_of_free hpre,
    Pass.select_eventsHere_of_free hbody, Pass.select_eventsHere_of_free hpost,
    List.nil_append, List.append_nil]
  have hpicksReset : picks resolved.aggregate.target
      (⟨resetLabel, .reset resolved.fold⟩ : Fragment Action).action = true := hpicks
  have hpicksAdd : picks resolved.aggregate.target
      (⟨addLabel, .add resolved.fold⟩ : Fragment Action).action = true := hpicks
  rw [Pass.select_events_reset_add hpicksReset hpicksAdd loop rest resolved.target.loops
    scaffold.root {} hinner hreset hadd]
  rw [← hsource, hdrop]

/-- The picked events of an aggregate whose source crosses no list below its target: both fragments
stand in one body. -/
theorem select_addTo_level {resolved : Resolved} (hvalid : resolved.Valid blueprint)
    (hlevel : ¬ resolved.target.depth < resolved.source.depth) {scaffold : Scaffold Action}
    (hfree : Pass.Free (picks resolved.aggregate.target) scaffold.root.placedRoot)
    (hconflicts : (resolved.addTo scaffold).conflicts = []) (record : Json) :
    Event.select (picks resolved.aggregate.target)
        (Pass.eventsRoot record (resolved.addTo scaffold).root) =
      (record.reach {} resolved.target.loops).flatMap fun element =>
        ⟨.reset resolved.fold, element⟩ ::
          (record.reach element (resolved.source.loops.drop resolved.target.depth)).map fun inner =>
            ⟨.add resolved.fold, inner⟩ := by
  obtain ⟨resetLabel, addLabel, heq⟩ := exists_addTo scaffold resolved
  rw [heq] at hconflicts ⊢
  obtain ⟨hreset, hadd⟩ := Scaffold.conflicts_of_add hconflicts
  replace hreset := (Scaffold.conflicts_of_add hreset).2
  have hloops : resolved.resetLoops = resolved.target.loops := by
    rw [Resolved.resetLoops, if_neg hlevel, ← hvalid.inside]
    exact (List.take_of_length_le (Nat.not_lt.mp hlevel)).symm
  have hsource : resolved.source.loops = resolved.target.loops := by
    rw [← hloops, Resolved.resetLoops, if_neg hlevel]
  have hbucket : resolved.resetBucket = .body := if_neg hlevel
  have hdrop : resolved.source.loops.drop resolved.target.depth = [] :=
    List.drop_eq_nil_iff.mpr (Nat.not_lt.mp hlevel)
  rw [hloops, hbucket] at hreset hadd ⊢
  rw [hdrop]
  rw [hsource] at hadd ⊢
  have hpicks : (resolved.fold.target == resolved.aggregate.target) = true := beq_self_eq_true _
  rw [Pass.push_body] at hreset
  -- two edits of one body, in the order in which they were made
  have hboth : Pass.edit (Pass.push .body ⟨addLabel, .add resolved.fold⟩) resolved.target.loops
      (Pass.edit (Pass.push .body ⟨resetLabel, .reset resolved.fold⟩) resolved.target.loops
        scaffold.root).1 =
      Pass.edit (Pass.pushAll [⟨resetLabel, .reset resolved.fold⟩, ⟨addLabel, .add resolved.fold⟩])
        resolved.target.loops scaffold.root := by
    have hadd' := hadd
    simp only [Scaffold.add, Scaffold.edit] at hadd'
    rw [Pass.push_body, Pass.push_body] at hadd' ⊢
    rw [Pass.edit_edit _ _ _ _ hreset hadd']
    exact congrArg (Pass.edit · _ _) (funext (Pass.pushAll_pushAll _ _))
  show Event.select (picks resolved.aggregate.target) (Pass.eventsRoot record
    (Pass.edit (Pass.push .body ⟨addLabel, .add resolved.fold⟩) resolved.target.loops
      (Pass.edit (Pass.push .body ⟨resetLabel, .reset resolved.fold⟩) resolved.target.loops
        scaffold.root).1).1) = _
  rw [hboth, Pass.select_eventsRoot_pushAll ?_ resolved.target.loops hfree (hboth ▸ hadd)]
  · rfl
  · simpa [picks, Action.fold] using hpicks

/-- The events of one aggregate among those of a procedure: for every element that owns the
target a reset, then one addition for each source value below it. -/
theorem selectedEvents_eq {program : Program Action} {front back : List Resolved}
    {resolved : Resolved} (hvalid : resolved.Valid blueprint)
    (hfront : ∀ other ∈ front, other.aggregate.target ≠ resolved.aggregate.target)
    (hback : ∀ other ∈ back, other.aggregate.target ≠ resolved.aggregate.target) {name : String}
    (hprogram : ((front ++ resolved :: back).foldl Resolved.addTo { name }).synthesize =
      .ok program) (record : Json) :
    Event.select (picks resolved.aggregate.target) (program.events record) =
      (record.reach {} resolved.target.loops).flatMap fun element =>
        ⟨.reset resolved.fold, element⟩ ::
          (record.reach element (resolved.source.loops.drop resolved.target.depth)).map fun inner =>
            ⟨.add resolved.fold, inner⟩ := by
  rw [Scaffold.events_of_synthesize hprogram]
  have hconflicts := (Scaffold.root_of_synthesize hprogram).1
  rw [List.foldl_append, List.foldl_cons] at hconflicts ⊢
  rw [select_plan record back hback hconflicts]
  replace hconflicts := conflicts_of_plan back hconflicts
  have hfree : Pass.Free (picks resolved.aggregate.target)
      (front.foldl Resolved.addTo ({ name } : Scaffold Action)).root.placedRoot :=
    free_of_targets hfront (assembled_plan front (conflicts_of_addTo hconflicts))
  by_cases hbelow : resolved.target.depth < resolved.source.depth
  · exact select_addTo_below hvalid hbelow hfree hconflicts record
  · exact select_addTo_level hvalid hbelow hfree hconflicts record

/-! ## One action -/

/-- The value that an aggregate reads at an element of the lists around its source. -/
def Fold.reading (environment : Environment) (fold : Fold) (record : Json) (cursor : Cursor) :
    Json :=
  (applyTransformer "aggregate" fold.target fold.transformer
    ((record.locate? (cursor.below fold.sourceLeaf)).getD .null) environment.constants).1

/-- How the procedure is run. -/
def machine (environment : Environment) : Machine Action State :=
  { act := act environment, record := State.record }

/-- The place that an action writes to. -/
def Action.place (action : Action) (cursor : Cursor) : Location :=
  cursor.place action.fold.depth action.fold.targetLeaf

/-- A target is written at one place. -/
theorem State.write_sameOutside (state : State) (fold : Fold) (cursor : Cursor) (value : Json) :
    Json.SameOutside (· = cursor.place fold.depth fold.targetLeaf) state.record
      (state.write fold cursor value).record := by
  unfold State.write
  cases hset : cursor.setAt? state.record fold.depth fold.targetLeaf value with
  | none => exact .refl _ _
  | some record => exact (Cursor.setAt?_written hset).sameOutside

/-- A value is shown where its target has an object to stand in. -/
theorem State.locate?_write {state : State} {fold : Fold} {cursor : Cursor}
    (hleaf : fold.targetLeaf ≠ [])
    (howner : Owned (cursor.place fold.depth fold.targetLeaf) state.record) (value : Json) :
    (state.write fold cursor value).record.locate? (cursor.place fold.depth fold.targetLeaf) =
      some value := by
  obtain ⟨record, hset⟩ := Option.isSome_iff_exists.mp ((Cursor.setAt?_isSome hleaf).mpr howner)
  unfold State.write
  rw [hset]
  exact (Cursor.setAt?_written hset).locate?_self

/-- An action changes the place that it writes to and nothing else. -/
theorem act_sameOutside (action : Action) (cursor : Cursor) (state : State) :
    Json.SameOutside (· = action.place cursor) state.record
      (act environment action cursor state).record := by
  cases action with
  | reset fold => exact State.write_sameOutside _ fold cursor _
  | add fold =>
    show Json.SameOutside _ _ (add environment fold cursor state).record
    unfold add
    cases environment.kinds.get? fold.op with
    | none => exact .refl _ _
    | some kind => exact State.write_sameOutside _ fold cursor _

/-- Events elsewhere keep the value of a place. -/
theorem locate?_perform_of_apart {events : List (Event Action)} {place : Location}
    (h : ∀ event ∈ events, ¬ event.action.place event.cursor <+: place ∧
      ¬ place <+: event.action.place event.cursor) (state : State) :
    ((machine environment).perform events state).record.locate? place =
      state.record.locate? place := by
  refine Machine.perform_congr (machine environment)
    (fun state : State => state.record.locate? place) (fun event hevent state => ?_) state
  obtain ⟨habove, hbelow⟩ := h event hevent
  refine (act_sameOutside event.action event.cursor state _ ?_).2 ?_
  · rintro location rfl
    exact habove
  · rintro location rfl
    exact hbelow

/-- The running states of other targets stay. -/
theorem running_act_of_ne {action : Action} {target : String} (h : action.fold.target ≠ target)
    (cursor : Cursor) (state : State) :
    Fields.get? (act environment action cursor state).running target =
      Fields.get? state.running target := by
  cases action with
  | reset fold => exact Fields.get?_set_of_ne _ _ (Ne.symm h)
  | add fold =>
    show Fields.get? (add environment fold cursor state).running target = _
    unfold add
    cases environment.kinds.get? fold.op with
    | none => rfl
    | some kind => exact Fields.get?_set_of_ne _ _ (Ne.symm h)

/-! ## What stays as it is -/

/-- An event writes at an instance of a local aggregate's target. -/
def Stands (blueprint : Blueprint) (event : Event Action) : Prop :=
  ∃ aggregate ∈ blueprint.metadata.localAggregates,
    event.action.fold.target = aggregate.target ∧
      blueprint.ValueAt aggregate.target (event.action.place event.cursor)

theorem Stands.computes {event : Event Action} (h : Stands blueprint event) :
    blueprint.Computes (event.action.place event.cursor) := by
  obtain ⟨aggregate, hmem, -, hvalue⟩ := h
  exact ⟨aggregate, hmem, hvalue⟩

/-- An event leaves everything but the targets as it is. -/
theorem Stands.sameOutside {event : Event Action} (h : Stands blueprint event) {record : Json}
    {state : State} (hsame : Json.SameOutside blueprint.Computes record state.record) :
    Json.SameOutside blueprint.Computes record
      (act environment event.action event.cursor state).record := by
  refine hsame.trans ((act_sameOutside event.action event.cursor state).mono ?_)
  rintro location rfl
  exact h.computes

/-- An aggregate writes at instances of its target, in whichever lists it goes on from there. -/
theorem valueAt_of_fits {resolved : Resolved} (hvalid : resolved.Valid blueprint)
    {loops : List Loop} (hloops : resolved.target.loops <+: loops) {cursor : Cursor}
    (hfits : cursor.Fits loops) :
    blueprint.ValueAt resolved.aggregate.target
      (cursor.place resolved.target.depth resolved.target.leaf) := by
  refine ⟨resolved.target, hvalid.target, hvalid.targetScalar, cursor.upTo resolved.target.depth,
    ?_, Cursor.place_eq _ _ _⟩
  have htake : loops.take resolved.target.depth = resolved.target.loops :=
    (List.prefix_iff_eq_take.mp hloops).symm
  rw [← htake]
  exact hfits.upTo resolved.target.depth

/-- Both fragments of an aggregate are run inside the lists around its target. -/
theorem Resolved.loops_above {resolved : Resolved} (hvalid : resolved.Valid blueprint)
    {added : List Loop × Bucket × Action} (hadded : added ∈ resolved.added) :
    resolved.target.loops <+: added.2.1.loops added.1 ∧ added.1 <+: resolved.source.loops ∧
      added.2.2.fold = resolved.fold := by
  have hsource : resolved.target.loops <+: resolved.source.loops := by
    rw [← hvalid.inside]
    exact List.take_prefix _ _
  rcases List.mem_cons.mp hadded with rfl | hadded
  · by_cases hbelow : resolved.target.depth < resolved.source.depth
    · simp only [resetLoops, resetBucket, if_pos hbelow, Bucket.loops]
      refine ⟨?_, List.take_prefix _ _, rfl⟩
      have hlength : resolved.target.depth + 1 ≤ resolved.source.loops.length := hbelow
      -- a reset of a target further up stands before the loop below it, in the body around
      have hdrop : (resolved.source.loops.take (resolved.target.depth + 1)).dropLast =
          resolved.source.loops.take resolved.target.depth := by
        rw [List.dropLast_eq_take, List.length_take, List.take_take, Nat.min_eq_left hlength,
          Nat.add_sub_cancel, Nat.min_eq_left (Nat.le_succ _)]
      exact ⟨[], (List.append_nil _).trans (hvalid.inside.symm.trans hdrop.symm)⟩
    · simp only [resetLoops, resetBucket, if_neg hbelow, Bucket.loops]
      exact ⟨hsource, List.prefix_refl _, rfl⟩
  · obtain rfl := List.mem_singleton.mp hadded
    exact ⟨hsource, List.prefix_refl _, rfl⟩

/-- What a procedure places belongs to one of its aggregates, inside the lists around its target and
around its source. -/
theorem IsPlan.exists_resolved {program : Program Action} {plan : List Resolved}
    (h : IsPlan blueprint program plan) {loops : List Loop} {action : Action}
    (hplaced : (loops, action) ∈ program.placed) :
    ∃ resolved ∈ plan, resolved.target.loops <+: loops ∧ loops <+: resolved.source.loops ∧
      action.fold = resolved.fold := by
  have hassembled := assembled_plan plan (Scaffold.root_of_synthesize h.synthesized).1
  obtain ⟨added, hadded, heq⟩ :=
    List.mem_map.mp ((hassembled.placed_program h.synthesized).mem_iff.mp hplaced)
  obtain ⟨resolved, hresolved, hmem⟩ := List.mem_flatMap.mp hadded
  obtain ⟨rfl, rfl⟩ := Prod.mk.inj heq
  obtain ⟨htarget, hsource, hfold⟩ := Resolved.loops_above (h.valid resolved hresolved) hmem
  refine ⟨resolved, hresolved, htarget, (?_ : _ <+: added.1).trans hsource, hfold⟩
  cases added.2.1 with
  | body => exact List.prefix_refl _
  | pre => exact List.dropLast_prefix _
  | post => exact List.dropLast_prefix _

/-- What a procedure of aggregates does, and over which lists. -/
theorem stands_of_compile (hlevels : blueprint.LevelsDeclared) {program : Program Action}
    (h : compile blueprint = .ok program) :
    (∀ loops action, (loops, action) ∈ program.placed → ∀ cursor : Cursor, cursor.Fits loops →
      Stands blueprint ⟨action, cursor⟩) ∧
    ∀ front last, front ++ [last] ∈ Pass.listsInner program.root.inner →
      ∃ source back, blueprint.Leads source ∧ source.loops = front ++ last :: back := by
  obtain ⟨plan, hplan⟩ := exists_plan_of_compile h
  have hprogram := hplan.synthesized
  have hassembled := assembled_plan plan (Scaffold.root_of_synthesize hprogram).1
  refine ⟨fun loops action hplaced cursor hfits => ?_, fun front last hlist => ?_⟩
  · obtain ⟨resolved, hresolved, hloops, -, hfold⟩ := hplan.exists_resolved hplaced
    refine ⟨resolved.aggregate, hplan.mem hresolved, by rw [hfold]; rfl, ?_⟩
    show blueprint.ValueAt _ (cursor.place action.fold.depth action.fold.targetLeaf)
    rw [hfold]
    exact valueAt_of_fits (hplan.valid resolved hresolved) hloops hfits
  · obtain ⟨added, hadded, hstart⟩ := hassembled.lists_program hprogram _ hlist
    obtain ⟨resolved, hresolved, hmem⟩ := List.mem_flatMap.mp hadded
    have hvalid := hplan.valid resolved hresolved
    have hsource := (Resolved.loops_above hvalid hmem).2.1
    obtain ⟨back, hback⟩ := hstart.trans hsource
    refine ⟨resolved.source, back, (Blueprint.leads_of_lenient hlevels hvalid.source).1, ?_⟩
    rw [← hback, List.append_assoc]
    rfl

/-- A run from a state whose record differs at targets only performs the events of the record, which
leave everything but the targets as it is. -/
theorem run_eq_perform_from (hlevels : blueprint.LevelsDeclared) {program : Program Action}
    (h : compile blueprint = .ok program) (environment : Environment) {record : Json} {state : State}
    (hsame : Json.SameOutside blueprint.Computes record state.record) :
    program.run (machine environment) state =
        (machine environment).perform (program.events record) state ∧
      Json.SameOutside blueprint.Computes record
        ((machine environment).perform (program.events record) state).record := by
  obtain ⟨hstands, hlists⟩ := stands_of_compile hlevels h
  refine program.run_eq_perform (machine environment)
    (fun state => Json.SameOutside blueprint.Computes record state.record)
    (fun _ => rfl) ?_ ?_ hsame
  · intro loops action hplaced cursor hfits state hinv
    exact (hstands loops action hplaced cursor hfits).sameOutside hinv
  · intro front last hlist cursor hfits state hinv
    obtain ⟨source, back, hleads, hloops⟩ := hlists front last hlist
    rw [Machine.size_eq_sizeAt]
    refine hinv.sizeAt_eq ?_
    rintro location ⟨aggregate, -, hvalue⟩
    exact hvalue.not_above_list hlevels hleads hloops hfits

/-- A run performs the events of its record. -/
theorem run_eq_perform (hlevels : blueprint.LevelsDeclared) {program : Program Action}
    (h : compile blueprint = .ok program) (environment : Environment) (record : Json) :
    program.run (machine environment) { record } =
        (machine environment).perform (program.events record) { record } ∧
      Json.SameOutside blueprint.Computes record
        ((machine environment).perform (program.events record) { record }).record :=
  run_eq_perform_from hlevels h environment (.refl _ _)

/-- Recomputing the aggregates of a record changes their targets and nothing else. -/
theorem run_sameOutside (hlevels : blueprint.LevelsDeclared) {program : Program Action}
    (h : compile blueprint = .ok program) (environment : Environment) (record : Json) :
    Json.SameOutside blueprint.Computes record (run program environment record).1 := by
  obtain ⟨hrun, hsame⟩ := run_eq_perform hlevels h environment record
  rw [← hrun] at hsame
  exact hsame

theorem stands_of_event (hlevels : blueprint.LevelsDeclared) {program : Program Action}
    (h : compile blueprint = .ok program) {record : Json} {event : Event Action}
    (hevent : event ∈ program.events record) : Stands blueprint event := by
  obtain ⟨loops, hplaced, hfits⟩ := Program.placed_of_mem_events hevent
  exact (stands_of_compile hlevels h).1 loops event.action hplaced event.cursor hfits

/-! ## What an aggregate shows -/

/-- The source of an aggregate lies in a list below its target, and is neither the target of a
local aggregate nor inside or around one. -/
structure Resolved.Feeds (blueprint : Blueprint) (resolved : Resolved) : Prop
    extends resolved.Valid blueprint where
  mem : resolved.aggregate ∈ blueprint.metadata.localAggregates
  below : resolved.target.depth < resolved.source.depth
  apart : ∀ aggregate ∈ blueprint.metadata.localAggregates,
    ¬ segments aggregate.target <+: resolved.source.names ∧
      ¬ resolved.source.names <+: segments aggregate.target

/-- An element owns the target of an aggregate: the target has an object to stand in. -/
def Resolved.Owns (resolved : Resolved) (record : Json) (element : Cursor) : Prop :=
  Owned (element.below resolved.target.leaf) record

/-- The source values of an aggregate below an element that owns its target. -/
def Resolved.values (environment : Environment) (resolved : Resolved) (record : Json)
    (element : Cursor) : List Json :=
  (record.reach element (resolved.source.loops.drop resolved.target.depth)).map
    (resolved.fold.reading environment record)

variable {resolved : Resolved} {record : Json} {element : Cursor} {kind : AggregateKind}

/-- An element that owns a target is one of those that the loops of the target reach. -/
theorem Resolved.Owns.mem_reach (h : resolved.Owns record element)
    (hleaf : resolved.target.leaf ≠ []) (hfits : element.Fits resolved.target.loops) :
    element ∈ record.reach {} resolved.target.loops := by
  obtain ⟨owner, hlocate, -⟩ := h
  rw [Cursor.dropLast_below hleaf, Cursor.below] at hlocate
  exact Json.mem_reach_root.mpr
    ⟨hfits, Json.locate?_isSome_of_append (Option.isSome_of_eq_some hlocate)⟩

/-- The targets stay apart from the values that an aggregate reads. -/
theorem Resolved.Feeds.not_above (hlevels : blueprint.LevelsDeclared)
    (h : resolved.Feeds blueprint) {inner : Cursor} (hfits : inner.Fits resolved.source.loops)
    {location : Location} (hcomputes : blueprint.Computes location) :
    ¬ location <+: inner.below resolved.source.leaf ∧
      ¬ inner.below resolved.source.leaf <+: location := by
  obtain ⟨aggregate, hmem, hvalue⟩ := hcomputes
  obtain ⟨habove, hbelow⟩ := h.apart aggregate hmem
  rw [← hvalue.names hlevels, ← ResolvedPath.names_below hfits] at habove hbelow
  exact ⟨fun hstart => habove (Location.names_above hstart),
    fun hstart => hbelow (Location.names_above hstart)⟩

/-- What an aggregate reads does not change while targets are written. -/
theorem reading_eq (hlevels : blueprint.LevelsDeclared) (h : resolved.Feeds blueprint)
    {after : Json} (hsame : Json.SameOutside blueprint.Computes record after) {inner : Cursor}
    (hfits : inner.Fits resolved.source.loops) :
    resolved.fold.reading environment after inner =
      resolved.fold.reading environment record inner := by
  have heq : after.locate? (inner.below resolved.source.leaf) =
      record.locate? (inner.below resolved.source.leaf) :=
    (hsame _ fun location hcomputes => (h.not_above hlevels hfits hcomputes).1).2
      fun location hcomputes => (h.not_above hlevels hfits hcomputes).2
  unfold Fold.reading
  show (applyTransformer _ _ _ ((after.locate? (inner.below resolved.source.leaf)).getD .null)
    _).1 = (applyTransformer _ _ _ ((record.locate? (inner.below resolved.source.leaf)).getD .null)
    _).1
  rw [heq]

/-- The lists that aggregates read have the same elements in the finished record. -/
theorem reach_eq (hlevels : blueprint.LevelsDeclared) {source : ResolvedPath}
    (hleads : blueprint.Leads source) {after : Json}
    (hsame : Json.SameOutside blueprint.Computes record after) {front back : List Loop}
    (hloops : source.loops = front ++ back) {element : Cursor} (hfits : element.Fits front) :
    after.reach element back = record.reach element back := by
  refine Json.reach_congr fun front' loop back' heq middle hmiddle => hsame.sizeAt_eq ?_
  rintro location ⟨aggregate, -, hvalue⟩
  rw [heq, ← List.append_assoc] at hloops
  exact hvalue.not_above_list hlevels hleads hloops (hmiddle.fits hfits)

/-- Recomputing the aggregates leaves the values that an aggregate folds as they are. -/
theorem Resolved.Feeds.values_eq (hlevels : blueprint.LevelsDeclared) (h : resolved.Feeds blueprint)
    {after : Json} (hsame : Json.SameOutside blueprint.Computes record after)
    (hfits : element.Fits resolved.target.loops) :
    resolved.values environment after element = resolved.values environment record element := by
  rw [values, values, reach_eq hlevels (Blueprint.leads_of_lenient hlevels h.source).1 hsame
    h.source_loops hfits]
  refine List.map_congr_left fun inner hinner => reading_eq hlevels h hsame ?_
  have hboth := (Json.under_of_mem_reach hinner).fits hfits
  rwa [← h.source_loops] at hboth

/-- The target of an aggregate shows the fold of values, which is also its running state. -/
structure Shows (blueprint : Blueprint) (resolved : Resolved) (record : Json) (element : Cursor)
    (folded : AggregateState) (state : State) : Prop where
  same : Json.SameOutside blueprint.Computes record state.record
  running : Fields.get? state.running resolved.aggregate.target = some folded
  shown : state.record.locate? (element.below resolved.target.leaf) = some folded.value

theorem Resolved.Valid.valueAt (h : resolved.Valid blueprint)
    (hfits : element.Fits resolved.target.loops) :
    blueprint.ValueAt resolved.aggregate.target (element.below resolved.target.leaf) :=
  ⟨resolved.target, h.target, h.targetScalar, element, hfits, rfl⟩

/-- While targets are written, they keep their owners. -/
theorem Resolved.Valid.owns_iff (hlevels : blueprint.LevelsDeclared)
    (hvalid : resolved.Valid blueprint) {after : Json}
    (hsame : Json.SameOutside blueprint.Computes record after)
    (hfits : element.Fits resolved.target.loops) :
    resolved.Owns after element ↔ resolved.Owns record element := by
  have hleaf := (Blueprint.leads_of_strict hlevels hvalid.target).1.leaf_ne_nil
  refine owned_iff hsame (Cursor.below_ne_nil hleaf) ?_
  rintro location ⟨aggregate, -, hvalue⟩ hstart
  exact (hvalue.eq_of_above hlevels (hvalid.valueAt hfits) hstart).2

section Run

variable (hlevels : blueprint.LevelsDeclared) (hvalid : resolved.Valid blueprint)
  (hfits : element.Fits resolved.target.loops)
  (howner : resolved.Owns record element)

include hlevels hvalid hfits

/-- An event at another place keeps what is shown. -/
theorem locate?_act_of_ne {event : Event Action} (hstands : Stands blueprint event)
    (hne : event.action.fold.target ≠ resolved.aggregate.target ∨
      event.action.place event.cursor ≠ element.below resolved.target.leaf) (state : State) :
    (act environment event.action event.cursor state).record.locate?
        (element.below resolved.target.leaf) =
      state.record.locate? (element.below resolved.target.leaf) := by
  obtain ⟨aggregate, -, htarget, hvalue⟩ := hstands
  obtain ⟨habove, hbelow⟩ := hvalue.apart hlevels (hvalid.valueAt hfits) (htarget ▸ hne)
  refine (act_sameOutside event.action event.cursor state _ ?_).2 ?_
  · rintro location rfl
    exact habove
  · rintro location rfl
    exact hbelow

/-- Events that leave the element's target alone keep what it shows. -/
theorem shown_perform {value : Json} {events : List (Event Action)} {state : State}
    (hstands : ∀ event ∈ events, Stands blueprint event)
    (hne : ∀ event ∈ events, event.action.fold.target ≠ resolved.aggregate.target ∨
      event.action.place event.cursor ≠ element.below resolved.target.leaf)
    (hshown : state.record.locate? (element.below resolved.target.leaf) = some value) :
    ((machine environment).perform events state).record.locate?
      (element.below resolved.target.leaf) = some value := by
  refine Machine.perform_induction (machine environment)
    (fun state => state.record.locate? (element.below resolved.target.leaf) = some value)
    (fun event hevent state hshown => ?_) hshown
  rw [← hshown]
  exact locate?_act_of_ne hlevels hvalid hfits (hstands event hevent) (hne event hevent) state

include howner

/-- A value that is written at the element is shown there. -/
theorem locate?_write_element {state : State}
    (hsame : Json.SameOutside blueprint.Computes record state.record)
    {cursor : Cursor} (hcursor : cursor.upTo resolved.target.depth = element) (value : Json) :
    (state.write resolved.fold cursor value).record.locate?
      (element.below resolved.target.leaf) = some value := by
  have hleaf := (Blueprint.leads_of_strict hlevels hvalid.target).1.leaf_ne_nil
  have hplace : cursor.place resolved.target.depth resolved.target.leaf =
      element.below resolved.target.leaf := by
    rw [Cursor.place_eq, hcursor]
  rw [← hplace]
  refine State.locate?_write hleaf ?_ value
  show Owned (cursor.place resolved.target.depth resolved.target.leaf) state.record
  rw [hplace]
  exact (hvalid.owns_iff hlevels hsame hfits).mpr howner

/-- A reset shows the start value. -/
theorem shows_reset (hkind : environment.kinds.get? resolved.aggregate.op = some kind)
    {state : State} (hsame : Json.SameOutside blueprint.Computes record state.record)
    (hstands : Stands blueprint ⟨.reset resolved.fold, element⟩) :
    Shows blueprint resolved record element kind.init
      (act environment (.reset resolved.fold) element state) := by
  have heq : act environment (.reset resolved.fold) element state =
      State.write { state with
        running := Fields.set state.running resolved.aggregate.target kind.init }
        resolved.fold element kind.init.value := by
    show reset environment resolved.fold element state = _
    simp only [reset, show environment.kinds.get? resolved.fold.op = some kind from hkind]
    rfl
  refine ⟨hstands.sameOutside hsame, ?_, ?_⟩
  · rw [heq]
    exact Fields.get?_set_self _ _ _
  · rw [heq]
    refine locate?_write_element hlevels hvalid hfits howner ?_ ?_ _
    · exact hsame
    · -- the target is written at the element itself, however deep the cursor is
      rw [← show element.depth = resolved.target.depth from hfits.depth, Cursor.upTo_depth]

/-- An addition takes the value that it reads at its element into the fold. -/
theorem shows_add (hkind : environment.kinds.get? resolved.aggregate.op = some kind)
    {state : State} {folded : AggregateState}
    (hshows : Shows blueprint resolved record element folded state) {inner : Cursor}
    (hunder : inner.Under element (resolved.source.loops.drop resolved.target.depth))
    (hstands : Stands blueprint ⟨.add resolved.fold, inner⟩) :
    Shows blueprint resolved record element
      (kind.add folded (resolved.fold.reading environment state.record inner))
      (act environment (.add resolved.fold) inner state) := by
  have hupTo : inner.upTo resolved.target.depth = element := by
    rw [← show element.depth = resolved.target.depth from hfits.depth, hunder.upTo]
  -- the journal aside, the state takes the value that is read in the record as it stands
  obtain ⟨journal, heq⟩ : ∃ journal, act environment (.add resolved.fold) inner state =
      State.write { state with
        running := Fields.set state.running resolved.aggregate.target
          (kind.add folded (resolved.fold.reading environment state.record inner)), journal }
        resolved.fold inner
        (kind.add folded (resolved.fold.reading environment state.record inner)).value := by
    refine ⟨state.journal ++ (applyTransformer "aggregate" resolved.fold.target
      resolved.fold.transformer ((inner.get? state.record resolved.fold.sourceLeaf).getD .null)
      environment.constants).2, ?_⟩
    show add environment resolved.fold inner state = _
    simp only [add, show environment.kinds.get? resolved.fold.op = some kind from hkind,
      show Fields.get? state.running resolved.fold.target = some folded from hshows.running,
      Option.getD_some, Fold.reading, Cursor.get?_eq_locate?]
    rfl
  refine ⟨hstands.sameOutside hshows.same, ?_, ?_⟩
  · rw [heq]
    exact Fields.get?_set_self _ _ _
  · rw [heq]
    exact locate?_write_element hlevels hvalid hfits howner hshows.same hupTo _

/-- The additions of the aggregate fold the values that they read, whatever other aggregates do
in between. `done` are the elements at which it has read before. -/
theorem shows_perform (hkind : environment.kinds.get? resolved.aggregate.op = some kind)
    {read : Cursor → Json} :
    ∀ (events : List (Event Action)) {done inners : List Cursor} {state : State},
      (∀ event ∈ events, Stands blueprint event) →
      Event.select (picks resolved.aggregate.target) events =
        inners.map (⟨.add resolved.fold, ·⟩) →
      (∀ inner ∈ inners,
        inner.Under element (resolved.source.loops.drop resolved.target.depth)) →
      (∀ front inner back before after, events = front ++ ⟨.add resolved.fold, inner⟩ :: back →
        done ++ inners = before ++ inner :: after →
        Shows blueprint resolved record element (kind.fold (before.map read))
          ((machine environment).perform front state) →
        resolved.fold.reading environment ((machine environment).perform front state).record inner =
          read inner) →
      Shows blueprint resolved record element (kind.fold (done.map read)) state →
        Shows blueprint resolved record element (kind.fold ((done ++ inners).map read))
          ((machine environment).perform events state)
  | [], done, inners, state, _, hselect, _, _, hshows => by
    obtain rfl : inners = [] := List.map_eq_nil_iff.mp hselect.symm
    rw [List.append_nil]
    exact hshows
  | event :: rest, done, inners, state, hstands, hselect, hunder, hread, hshows => by
    have hfirst := hstands event List.mem_cons_self
    have hrest := fun other hmem => hstands other (List.mem_cons_of_mem event hmem)
    have hreadRest : ∀ front inner back before after,
        rest = front ++ ⟨.add resolved.fold, inner⟩ :: back →
        done ++ inners = before ++ inner :: after →
        Shows blueprint resolved record element (kind.fold (before.map read))
          ((machine environment).perform front
            (act environment event.action event.cursor state)) →
        resolved.fold.reading environment ((machine environment).perform front
          (act environment event.action event.cursor state)).record inner = read inner :=
      fun front inner back before after heq =>
        hread (event :: front) inner back before after (by rw [heq]; rfl)
    -- the next addition of the aggregate, or the event of another one, which neither writes
    -- its target nor its state
    by_cases hpicks : picks resolved.aggregate.target event.action = true
    · simp only [Event.select, List.filter_cons, hpicks, if_true] at hselect
      cases inners with
      | nil => cases hselect
      | cons inner inners =>
        rw [List.map_cons] at hselect
        obtain ⟨rfl, hselectRest⟩ := List.cons_eq_cons.mp hselect
        have hnext := shows_add hlevels hvalid hfits howner hkind hshows
          (hunder inner List.mem_cons_self) hfirst
        rw [show resolved.fold.reading environment state.record inner = read inner from
          hread [] inner rest done inners rfl rfl hshows, ← kind.fold_append] at hnext
        have hboth : done ++ inner :: inners = (done ++ [inner]) ++ inners := by simp
        rw [hboth] at hreadRest ⊢
        refine shows_perform hkind rest hrest hselectRest
          (fun other hmem => hunder other (List.mem_cons_of_mem inner hmem)) hreadRest ?_
        rw [List.map_append]
        exact hnext
    · simp only [Event.select, List.filter_cons, hpicks] at hselect
      have hne : event.action.fold.target ≠ resolved.aggregate.target := by
        simpa [picks] using hpicks
      refine shows_perform hkind rest hrest hselect hunder hreadRest
        ⟨hfirst.sameOutside hshows.same, ?_, ?_⟩
      · rw [← hshows.running]
        exact running_act_of_ne hne event.cursor state
      · rw [← hshows.shown]
        exact locate?_act_of_ne hlevels hvalid hfits hfirst (.inl hne) state

end Run

section Procedure

variable (hlevels : blueprint.LevelsDeclared) (htidy : blueprint.metadata.Tidy)
  {program : Program Action} (hcompile : compile blueprint = .ok program)
  (hvalid : resolved.Valid blueprint)
  (hmem : resolved.aggregate ∈ blueprint.metadata.localAggregates)

include htidy hcompile hvalid hmem

/-- The events of an aggregate among those of the compiled procedure. -/
theorem selectedEvents_of_compile (record : Json) :
    Event.select (picks resolved.aggregate.target) (program.events record) =
      (record.reach {} resolved.target.loops).flatMap fun element =>
        ⟨.reset resolved.fold, element⟩ ::
          (record.reach element (resolved.source.loops.drop resolved.target.depth)).map fun inner =>
            ⟨.add resolved.fold, inner⟩ := by
  obtain ⟨plan, hplan⟩ := exists_plan_of_compile hcompile
  have hnodup := hplan.nodup_targets htidy
  obtain ⟨planned, hplanned, haggregate⟩ : ∃ planned ∈ plan,
      planned.aggregate = resolved.aggregate := by
    rw [← hplan.aggregates] at hmem
    exact List.mem_map.mp hmem
  obtain rfl := (hplan.valid planned hplanned).eq hvalid haggregate
  obtain ⟨front, back, rfl⟩ := List.append_of_mem hplanned
  rw [List.map_append, List.map_cons] at hnodup
  refine selectedEvents_eq hvalid (fun other hother heq => ?_) (fun other hother heq => ?_)
    hplan.synthesized record
  · exact List.disjoint_of_nodup_append hnodup (List.mem_map_of_mem hother)
      (heq ▸ List.mem_cons_self)
  · exact (List.nodup_cons.mp (List.nodup_append.mp hnodup).2.1).1
      (heq ▸ List.mem_map_of_mem hother)

/-- An aggregate reads at the elements that the loops of its source reach. -/
theorem mem_reach_of_add {inner : Cursor}
    (h : ⟨.add resolved.fold, inner⟩ ∈ program.events record) :
    inner ∈ record.reach {} resolved.source.loops := by
  have hselected : (⟨.add resolved.fold, inner⟩ : Event Action) ∈
      Event.select (picks resolved.aggregate.target) (program.events record) :=
    List.mem_filter.mpr ⟨h, by simp [picks, Action.fold, Resolved.fold]⟩
  rw [selectedEvents_of_compile htidy hcompile hvalid hmem, List.mem_flatMap] at hselected
  obtain ⟨element, helement, hevent⟩ := hselected
  rcases List.mem_cons.mp hevent with heq | hevent
  · cases heq
  · obtain ⟨inner', hinner', heq⟩ := List.mem_map.mp hevent
    cases heq
    rw [hvalid.reach_source]
    exact List.mem_flatMap.mpr ⟨element, helement, hinner'⟩

omit htidy hcompile hvalid hmem in
/-- Both fragments of an aggregate write at the element that they belong to. -/
theorem place_of_selected {event : Event Action} (hfits : element.Fits resolved.target.loops)
    (h : event ∈ (⟨.reset resolved.fold, element⟩ : Event Action) ::
      (record.reach element (resolved.source.loops.drop resolved.target.depth)).map
        (⟨.add resolved.fold, ·⟩)) :
    event.action.place event.cursor = element.below resolved.target.leaf := by
  have hdepth : element.depth = resolved.target.depth := hfits.depth
  rcases List.mem_cons.mp h with rfl | h
  · show element.place resolved.target.depth _ = _
    rw [← hdepth]
    exact Cursor.place_depth _ _
  · obtain ⟨inner, hinner, rfl⟩ := List.mem_map.mp h
    show inner.place resolved.target.depth _ = _
    rw [Cursor.place_eq, ← hdepth, (Json.under_of_mem_reach hinner).upTo]
    rfl

/-- At an element that its target stands in, an aggregate is reset and adds up. Other aggregates may
do something in between, and what it does later it does at other elements. -/
theorem exists_turn (helement : element ∈ record.reach {} resolved.target.loops) :
    ∃ front adds back,
      program.events record = front ++ ⟨.reset resolved.fold, element⟩ :: (adds ++ back) ∧
      Event.select (picks resolved.aggregate.target) adds =
        (record.reach element (resolved.source.loops.drop resolved.target.depth)).map
          (⟨.add resolved.fold, ·⟩) ∧
      ∀ event ∈ back, event.action.fold.target ≠ resolved.aggregate.target ∨
        event.action.place event.cursor ≠ element.below resolved.target.leaf := by
  have hselect := selectedEvents_of_compile htidy hcompile hvalid hmem record
  have hfits : ∀ other ∈ record.reach {} resolved.target.loops, other.Fits resolved.target.loops :=
    fun other hother => (Json.mem_reach_root.mp hother).1
  have hnodup : (record.reach {} resolved.target.loops).Nodup := Json.nodup_reach
  obtain ⟨before, after, helements⟩ := List.append_of_mem helement
  rw [helements] at hselect hfits hnodup
  have hafter : element ∉ after := (List.nodup_cons.mp (List.nodup_append.mp hnodup).2.1).1
  rw [List.flatMap_append, List.flatMap_cons] at hselect
  obtain ⟨front, rest, hevents, -, hrest⟩ := List.filter_eq_append_iff.mp hselect
  obtain ⟨middle, back, rfl, hown, hback⟩ := List.filter_eq_append_iff.mp hrest
  obtain ⟨idle, adds, rfl, -, -, hadds⟩ := List.filter_eq_cons_iff.mp hown
  refine ⟨front ++ idle, adds, back, by simp [hevents], hadds, fun event hevent => ?_⟩
  by_cases htarget : event.action.fold.target = resolved.aggregate.target
  · -- what follows for this target belongs to other elements
    refine .inr fun hplace => hafter ?_
    have hselected : event ∈
        back.filter fun event => picks resolved.aggregate.target event.action :=
      List.mem_filter.mpr ⟨hevent, by simpa [picks] using htarget⟩
    rw [hback] at hselected
    obtain ⟨other, hother, hmem⟩ := List.mem_flatMap.mp hselected
    have hfits' := hfits other (List.mem_append_right _ (List.mem_cons_of_mem _ hother))
    have hsame := hplace.symm.trans (place_of_selected hfits' hmem)
    have helement' := hfits element (List.mem_append_right _ List.mem_cons_self)
    rw [Cursor.eq_of_above helement' hfits' ⟨[], (List.append_nil _).trans hsame⟩]
    exact hother
  · exact .inl htarget

include hlevels

/-- Recomputing the aggregates leaves the fold of the values that an aggregate reads below an
element in the target of the element. -/
theorem run_shows_reads (read : Cursor → Json)
    (hread : ∀ front inner back before after, program.events record =
      front ++ ⟨.add resolved.fold, inner⟩ :: back →
        record.reach element (resolved.source.loops.drop resolved.target.depth) =
          before ++ inner :: after →
        Shows blueprint resolved record element (kind.fold (before.map read))
          ((machine environment).perform front { record }) →
        resolved.fold.reading environment
          ((machine environment).perform front { record }).record inner = read inner)
    (hfits : element.Fits resolved.target.loops) (howner : resolved.Owns record element)
    (hkind : environment.kinds.get? resolved.aggregate.op = some kind) :
    (run program environment record).1.locate? (element.below resolved.target.leaf) =
      some (kind.fold ((record.reach element
        (resolved.source.loops.drop resolved.target.depth)).map read)).value := by
  have hrun : (run program environment record).1 =
      ((machine environment).perform (program.events record) { record }).record :=
    congrArg State.record (run_eq_perform hlevels hcompile environment record).1
  have hleaf := (Blueprint.leads_of_strict hlevels hvalid.target).1.leaf_ne_nil
  obtain ⟨front, adds, back, hevents, hadds, hback⟩ :=
    exists_turn htidy hcompile hvalid hmem (howner.mem_reach hleaf hfits)
  have hstands : ∀ event ∈ program.events record, Stands blueprint event :=
    fun event hevent => stands_of_event hlevels hcompile hevent
  rw [hevents] at hstands
  have hbefore : Json.SameOutside blueprint.Computes record
      ((machine environment).perform front { record }).record :=
    Machine.perform_induction (machine environment)
      (fun state => Json.SameOutside blueprint.Computes record state.record)
      (fun event hevent _ hsame =>
        (hstands event (List.mem_append_left _ hevent)).sameOutside hsame)
      (.refl _ _)
  -- reset at the element, folded below it, and left alone from then on
  replace hstands := fun event hevent => hstands event (List.mem_append_right _ hevent)
  have hreset : Shows blueprint resolved record element (kind.fold []) _ :=
    shows_reset hlevels hvalid hfits howner hkind hbefore (hstands _ List.mem_cons_self)
  replace hstands := fun event hevent => hstands event (List.mem_cons_of_mem _ hevent)
  have hfolded : Shows blueprint resolved record element (kind.fold (([] ++ record.reach element
      (resolved.source.loops.drop resolved.target.depth)).map read)) _ :=
    shows_perform hlevels hvalid hfits howner hkind adds
      (fun event hevent => hstands event (List.mem_append_left _ hevent)) hadds
      (fun inner hinner => Json.under_of_mem_reach hinner)
      (fun front' inner back' before after heq hreach hshows => by
        have hread' := hread (front ++ ⟨.reset resolved.fold, element⟩ :: front') inner
          (back' ++ back) before after (by rw [hevents, heq]; simp) hreach
        rw [Machine.perform_append] at hread'
        exact hread' hshows) hreset
  rw [List.nil_append] at hfolded
  rw [hrun, hevents, Machine.perform_append]
  show ((machine environment).perform (adds ++ back) _).record.locate? _ = _
  rw [Machine.perform_append]
  exact shown_perform hlevels hvalid hfits
    (fun event hevent => hstands event (List.mem_append_right _ hevent)) hback hfolded.shown

end Procedure

/-- Recomputing the aggregates leaves the fold of the source values below an element in the
target of the element. -/
theorem run_shows_fold (hlevels : blueprint.LevelsDeclared) (htidy : blueprint.metadata.Tidy)
    {program : Program Action} (hcompile : compile blueprint = .ok program)
    (hfeeds : resolved.Feeds blueprint) (hfits : element.Fits resolved.target.loops)
    (howner : resolved.Owns record element)
    (hkind : environment.kinds.get? resolved.aggregate.op = some kind) :
    (run program environment record).1.locate? (element.below resolved.target.leaf) =
      some (kind.fold (resolved.values environment record element)).value := by
  refine run_shows_reads hlevels htidy hcompile hfeeds.toValid hfeeds.mem _
    (fun front inner back _ _ hevents _ _ => ?_) hfits howner hkind
  have hinner := mem_reach_of_add htidy hcompile hfeeds.toValid hfeeds.mem
    (hevents ▸ List.mem_append_right _ List.mem_cons_self)
  refine reading_eq hlevels hfeeds ?_ (Json.mem_reach_root.mp hinner).1
  exact Machine.perform_induction (machine environment)
    (fun state => Json.SameOutside blueprint.Computes record state.record)
    (fun event hevent _ hsame => (stands_of_event hlevels hcompile
      (hevents ▸ List.mem_append_left _ hevent)).sameOutside hsame)
    (.refl _ _)

end Recompute

end NestedRecord
