import NestedRecord.Proofs.Join.Calls
import NestedRecord.Proofs.Join.Tandem

/-!
# Aggregates over attachments in the course of calls

Calls of joined stores keep the local aggregates over their attachments current, by deltas to
persisted states. What they show is what recomputing all aggregates would show.

- `Store.UpToDate` says that recomputing the aggregates of a record would leave a target as it is.
- `Coverage.Upheld` is the invariant of a sequence of calls: `upheld_aggregate` is its start,
  `upheld_join?` one call, `upheld_joinEach` a sequence.

Recomputing is not what a call does, and the invariant does not mention it: it says that targets and
persisted states are folds of the values in the record. The link is made at the end. An element
whose target shows the fold is shown the same by a recomputation, because this reads the same
values. An element without a persisted state is allowed; its next state is folded anew.
-/

namespace NestedRecord

open Joining
open Recompute (Resolved)
open AggregateKind (Exact)

/-- An aggregate without a transformer is known by its paths and its kind. -/
theorem LocalAggregate.mem_of_isNone {aggregates : List LocalAggregate} {target source : String}
    {op : AggregateOp} (h : ∃ aggregate ∈ aggregates,
      (aggregate.target, aggregate.op, aggregate.source) = (target, op, source) ∧
        aggregate.transformer.isNone) :
    (⟨target, op, source, none⟩ : LocalAggregate) ∈ aggregates := by
  obtain ⟨⟨target', op', source', transformer⟩, hmem, heq, hnone⟩ := h
  obtain ⟨rfl, rfl, rfl⟩ : target' = target ∧ op' = op ∧ source' = source := by simpa using heq
  obtain rfl : transformer = none := by simpa using hnone
  exact hmem

namespace Store

/-- Recomputing the aggregates of a record would leave the target of an element as it is. -/
def UpToDate (store : Store) (environment : Environment) (resolved : Resolved) (record : Json)
    (element : Cursor) : Prop :=
  record.locate? (element.below resolved.target.leaf) =
    (store.aggregate environment record).1.locate? (element.below resolved.target.leaf)

/-- The value that a target of an element shows after all aggregates have been recomputed. -/
theorem IsCompiled.aggregate_shows {store : Store} (hstore : store.IsCompiled)
    {environment : Environment} (hkinds : environment.kinds = .builtIn) {resolved : Resolved}
    (hfeeds : resolved.Feeds store.blueprint) {record : Json} {element : Cursor}
    (hfits : element.Fits resolved.target.loops) (howns : resolved.Owns record element) :
    (store.aggregate environment record).1.locate? (element.below resolved.target.leaf) =
      some (resolved.aggregate.op.kind.fold
        (resolved.values environment record element)).value := by
  refine Recompute.run_shows_fold hstore.levelsDeclared hstore.tidy hstore.aggregates hfeeds hfits
    howns ?_
  rw [hkinds]
  exact AggregateKinds.get?_builtIn _

end Store

namespace Coverage

variable {store : Store} {environment : Environment} {join : Join} {attachment : ResolvedPath}
  {resolved : Resolved} {element : Cursor}

/-- A target that shows the fold of the values below its element is up to date. -/
theorem upToDate_of_shown (hstore : store.IsCompiled) (hkinds : environment.kinds = .builtIn)
    (h : Coverage store.blueprint join attachment resolved) {record : Json}
    (hfits : element.Fits resolved.target.loops) (howns : resolved.Owns record element)
    (hshown : Shown environment resolved.aggregate.op.kind resolved record element) :
    store.UpToDate environment resolved record element :=
  hshown.trans (hstore.aggregate_shows hkinds h.feeds hfits howns).symm

/-- What holds between calls: the record is shaped, and for every element what is persisted is the
fold of the values below it, and its target shows the fold. -/
structure Upheld (environment : Environment) (attachment : ResolvedPath) (resolved : Resolved)
    (state : State) : Prop where
  shaped : Json.shapedAlong attachment.leaf attachment.loops state.record = true
  kept : ∀ element : Cursor, element.Fits resolved.target.loops →
    Kept environment resolved.aggregate.op.kind resolved state element
  shown : ∀ element : Cursor, element.Fits resolved.target.loops →
    resolved.Owns state.record element →
      Shown environment resolved.aggregate.op.kind resolved state.record element

/-- Targets of local aggregates do not stand inside records that declare no shape. -/
theorem off_of_computes (hstore : store.IsCompiled)
    (h : Coverage store.blueprint join attachment resolved) (hbare : attachment.isVirtual = true)
    {location : Location} (hcomputes : store.blueprint.Computes location) :
    Off attachment resolved location := by
  have hlevels := hstore.levelsDeclared
  obtain ⟨aggregate, hmem, hvalue⟩ := hcomputes
  obtain ⟨value, hleads, hscalar, -⟩ := id hvalue
  obtain ⟨hvalueLeads, -, hnames, hdeclared⟩ := Blueprint.leads_of_strict hlevels hleads
  rw [Off, hvalue.names hlevels]
  refine ⟨(h.feeds.apart aggregate hmem).1, ?_⟩
  rw [← hnames]
  exact ((Blueprint.leads_of_lenient hlevels h.leads).1.apart_of_foreign h.level hbare hvalueLeads
    ⟨hscalar, hdeclared⟩).1

/-- When the aggregates of a record have been recomputed and nothing is persisted, it is upheld. -/
theorem upheld_aggregate (hstore : store.IsCompiled) (hkinds : environment.kinds = .builtIn)
    (h : Coverage store.blueprint join attachment resolved) (hbare : attachment.isVirtual = true)
    {record : Json} (hshaped : Json.shapedAlong attachment.leaf attachment.loops record = true) :
    Upheld environment attachment resolved
      { record := (store.aggregate environment record).1, states := [] } := by
  have hlevels := hstore.levelsDeclared
  have hsame : Json.SameOutside store.blueprint.Computes record
      (store.aggregate environment record).1 :=
    Recompute.run_sameOutside hlevels hstore.aggregates environment record
  have hoff : ∀ location, store.blueprint.Computes location →
      At attachment location ∨ Off attachment resolved location :=
    fun location hcomputes => .inr (h.off_of_computes hstore hbare hcomputes)
  refine ⟨?_, fun element _ => kept_empty _ _ _ _ element, fun element helement howns => ?_⟩
  · -- recomputing writes targets only, and none of these stands in the records
    refine h.shapedAlong_of_same hlevels hsame hoff hshaped
      fun inner hinner hbefore part hpart => hbefore part ?_
    rw [← h.locate?_eq hlevels hsame hoff hinner fun hcomputes =>
      h.not_off_of_at hlevels ⟨inner, hinner, rfl⟩ (h.off_of_computes hstore hbare hcomputes)]
    exact hpart
  · rw [Shown, h.feeds.values_eq hlevels hsame helement]
    exact hstore.aggregate_shows hkinds h.feeds helement
      ((h.feeds.toValid.owns_iff hlevels hsame helement).mp howns)

/-- What a call of a joined store has to fulfil for an aggregate: no other attachment of the store
meets the attachment or the target, and objects come in. -/
structure Admits (store : Store) (join : Join) (resolved : Resolved) (call : String × Delta) :
    Prop where
  joined : (store.joined? call.1).isSome
  alone : store.metadata.Alone call.1 join resolved.aggregate.target
  objects : ∀ record ∈ Attached.incoming call.2, record.isObject = true

/-- One call settles every element. -/
theorem join?_settles (hstore : store.IsCompiled) (hkinds : environment.kinds = .builtIn)
    (h : Coverage store.blueprint join attachment resolved) {call : String × Delta}
    (hadmits : Admits store join resolved call) {record : Json} {states : AggregateStates}
    (hshaped : Json.shapedAlong attachment.leaf attachment.loops record = true)
    (haffords : join ∈ store.metadata.joinsOf call.1 →
      Affords environment attachment resolved record call.2)
    (hkept : ∀ element : Cursor, element.Fits resolved.target.loops →
      Kept environment resolved.aggregate.op.kind resolved { record, states } element) :
    ∃ final, store.join? environment call.1 call.2 record states = some final ∧
      Json.shapedAlong attachment.leaf attachment.loops final.record = true ∧
      ∀ element : Cursor, element.Fits resolved.target.loops →
        Settled environment resolved.aggregate.op.kind attachment resolved record final
          element := by
  obtain ⟨procedures, hjoined⟩ := Option.isSome_iff_exists.mp hadmits.joined
  have hkind : environment.kinds.get? resolved.aggregate.op = some resolved.aggregate.op.kind := by
    rw [hkinds]
    exact AggregateKinds.get?_builtIn _
  let surroundings : Surroundings :=
    { environment with delta := call.2, identityKey := store.config.identityKey }
  refine ⟨procedures.run surroundings record states, ?_, ?_⟩
  · rw [Store.join?, hjoined]
    rfl
  · exact h.run_settles hstore.levelsDeclared hstore.tidy hadmits.alone
      (AggregateOp.faithful resolved.aggregate.op)
      (show surroundings.kinds.get? resolved.aggregate.op = some _ from hkind) hadmits.objects
      (hstore.of_joined? hjoined) hshaped haffords hkept

/-- One call keeps what holds between calls. -/
theorem upheld_join? (hstore : store.IsCompiled) (hkinds : environment.kinds = .builtIn)
    (h : Coverage store.blueprint join attachment resolved) {call : String × Delta}
    (hadmits : Admits store join resolved call) {state : State}
    (haffords : join ∈ store.metadata.joinsOf call.1 →
      Affords environment attachment resolved state.record call.2)
    (hupheld : Upheld environment attachment resolved state) :
    ∃ final, store.join? environment call.1 call.2 state.record state.states = some final ∧
      Upheld environment attachment resolved final := by
  obtain ⟨final, hcall, hshaped, hsettled⟩ :=
    h.join?_settles hstore hkinds hadmits hupheld.shaped haffords hupheld.kept
  refine ⟨final, hcall, hshaped, fun element helement => (hsettled element helement).kept,
    fun element helement howns => ?_⟩
  have hbefore := hupheld.shown element helement ((hsettled element helement).owns.mp howns)
  rcases (hsettled element helement).shown howns with hshown | hsame
  · exact hshown
  · rw [Shown, hsame.target, hsame.values]
    exact hbefore

/-- A sequence of calls that an aggregate affords keeps what holds between calls. -/
theorem upheld_joinEach (hstore : store.IsCompiled) (hkinds : environment.kinds = .builtIn)
    (h : Coverage store.blueprint join attachment resolved) :
    ∀ {calls : List (String × Delta)} {state : State},
      (∀ call ∈ calls, Admits store join resolved call) →
      (∀ front call back middle, calls = front ++ call :: back →
        join ∈ store.metadata.joinsOf call.1 →
        store.joinEach environment front state = some middle →
          Affords environment attachment resolved middle.record call.2) →
      Upheld environment attachment resolved state →
        ∃ final, store.joinEach environment calls state = some final ∧
          Upheld environment attachment resolved final
  | [], state, _, _, hupheld => ⟨state, rfl, hupheld⟩
  | call :: rest, state, hadmits, haffords, hupheld => by
    obtain ⟨next, hcall, hnext⟩ := h.upheld_join? hstore hkinds
      (hadmits call List.mem_cons_self)
      (fun hjoin => haffords [] call rest state rfl hjoin rfl) hupheld
    -- a sequence that goes on from the state after the first call
    have hcons : ∀ calls, store.joinEach environment (call :: calls) state =
        store.joinEach environment calls next := by
      intro calls
      rw [Store.joinEach_cons, hcall]
      rfl
    rw [hcons]
    refine h.upheld_joinEach hstore hkinds
      (fun other hother => hadmits other (List.mem_cons_of_mem call hother))
      (fun front other back middle heq hjoin hmiddle => ?_) hnext
    refine haffords (call :: front) other back middle (by rw [heq]; rfl) hjoin ?_
    rw [hcons]
    exact hmiddle

/-- Whether every call of a sequence is afforded by the record that it finds. -/
def affordsEach (store : Store) (environment : Environment) (attachment : ResolvedPath)
    (resolved : Resolved) : List (String × Delta) → State → Bool
  | [], _ => true
  | call :: rest, state =>
    decide (Affords environment attachment resolved state.record call.2) &&
      (store.join? environment call.1 call.2 state.record state.states).all
        (affordsEach store environment attachment resolved rest)

/-- Whether a sequence of calls is afforded can be decided call by call. -/
theorem affords_of_affordsEach : ∀ {calls : List (String × Delta)} {state : State},
    affordsEach store environment attachment resolved calls state = true →
      ∀ front call back middle, calls = front ++ call :: back →
        store.joinEach environment front state = some middle →
          Affords environment attachment resolved middle.record call.2
  | [], _, _, front, call, back, _, hcalls, _ => by
    simp at hcalls
  | first :: rest, state, hafford, front, call, back, middle, hcalls, hmiddle => by
    rw [affordsEach, Bool.and_eq_true] at hafford
    cases front with
    | nil =>
      obtain ⟨rfl, -⟩ := List.cons_eq_cons.mp hcalls
      obtain rfl : state = middle := Option.some.inj hmiddle
      exact of_decide_eq_true hafford.1
    | cons other front =>
      obtain ⟨rfl, hrest⟩ := List.cons_eq_cons.mp hcalls
      rw [Store.joinEach_cons] at hmiddle
      obtain ⟨next, hnext, hmiddle⟩ := Option.bind_eq_some_iff.mp hmiddle
      refine affords_of_affordsEach ?_ front call back middle hrest hmiddle
      exact (Option.all_eq_true _ _).mp hafford.2 next hnext

end Coverage

end NestedRecord
