import NestedRecord.Proofs.Join.Undeclared

/-!
# Where the calls of a store write

The calls of a joined store write its attachments, the targets of the aggregates over these, and the
targets of its external aggregates. When no attachment declares a shape, no such place lies at,
inside or around a place of another store. What a store's calls do is then fixed by the record as it
was at first: no call of any store changes the lists that they go through.

A call runs over the lists of the record as it finds it, and the call of another store may have been
there before. So that calls of different stores can be exchanged, it has to be known that none of
them writes at or above a list which the other one goes through. Both are statements about paths:
what a store keeps are attachments, which lead to levels of other stores, and scalar targets, and
neither can lie above a declared list.

- `Joining.Keeps` are the paths that a store keeps, `IsCompiled.eq_of_kept` tells those of different
  stores apart.
- `Joining.Footprint` are the places of these paths, `IsCompiled.eq_of_above` tells them apart.
- `IsCompiled.run_eq_perform`: a call performs the events of the record that it started from, even
  after calls of whatever stores.
-/

namespace NestedRecord

/-! ## Places that end in a key -/

namespace Location

/-- A place that ends in a key has no more names than one above it only if it is that one. -/
theorem eq_of_names_eq {location front : Location} {key : String}
    (hstart : location <+: front ++ [.key key])
    (hnames : location.names = (front ++ [.key key] : Location).names) :
    location = front ++ [.key key] := by
  rcases List.prefix_concat_iff.mp hstart with heq | hstart
  · exact heq
  · have hlength := (names_above hstart).length_le
    rw [hnames, names_append, List.length_append] at hlength
    exact absurd hlength (Nat.not_succ_le_self _)

end Location

/-- What stands below an element ends in a key. -/
theorem Cursor.exists_key_below (cursor : Cursor) {names : List String} (hnames : names ≠ []) :
    ∃ front key, cursor.below names = front ++ [.key key] := by
  refine ⟨cursor.element ++ names.dropLast.map .key, names.getLast hnames, ?_⟩
  rw [below, ← List.map_singleton, List.append_assoc, ← List.map_append,
    List.dropLast_append_getLast hnames]

namespace Joining

variable {blueprint : Blueprint} {store : String}

/-- The targets whose aggregates follow the records of a store. -/
inductive Serves (blueprint : Blueprint) (store : String) : String → Prop
  | reads {join : Join} {aggregate : LocalAggregate}
      (joined : join ∈ blueprint.metadata.joinsOf store) (attaches : join.Attaches)
      (registered : aggregate ∈ blueprint.metadata.localAggregates)
      (inside : segments join.path <+: segments aggregate.source) :
      Serves blueprint store aggregate.target
  | feed {aggregate : ExternalAggregate}
      (registered : aggregate ∈ (Fields.get? blueprint.metadata.externals store).getD []) :
      Serves blueprint store aggregate.target

/-- The paths whose places calls of a store write to. -/
inductive Keeps (blueprint : Blueprint) (store : String) : String → Prop
  | attachment {join : Join} (joined : join ∈ blueprint.metadata.joinsOf store)
      (attaches : join.Attaches) : Keeps blueprint store join.path
  | target {path : String} (serves : Serves blueprint store path) : Keeps blueprint store path

/-- The places that calls of a store write to. -/
def Footprint (blueprint : Blueprint) (store : String) (place : Location) : Prop :=
  ∃ event : Event Action, FromJoin blueprint store event ∧ event.action.Touches event.cursor place

/-- The places whose states calls of a store persist. -/
def Persisted (blueprint : Blueprint) (store : String) (place : Location) : Prop :=
  ∃ event : Event Action, FromJoin blueprint store event ∧ event.action.Persists event.cursor place

theorem Persisted.footprint {place : Location} (h : Persisted blueprint store place) :
    Footprint blueprint store place := by
  obtain ⟨event, hevent, hpersists⟩ := h
  exact ⟨event, hevent, hpersists.touches⟩

theorem Persisted.exists_valueAt {place : Location} (h : Persisted blueprint store place) :
    ∃ path, blueprint.ValueAt path place := by
  obtain ⟨event, ⟨join, -, loops, hstands, hfits⟩, hpersists⟩ := h
  exact valueAt_of_persists hstands hfits hpersists

/-- The places that calls of any store write to. -/
def Joined (blueprint : Blueprint) (place : Location) : Prop :=
  ∃ store, Footprint blueprint store place

/-- The target of an aggregate over an attachment follows the records of its store. -/
theorem serves_of_inlined (hlevels : blueprint.LevelsDeclared) {join : Join}
    {resolved : ResolvedPath} {inlined : Inlined}
    (hjoin : join ∈ blueprint.metadata.joinsOf store) (hattaches : join.Attaches)
    (hleads : blueprint.resolveLenient join.path = .ok resolved)
    (hmem : inlined ∈ (attachmentAt blueprint join resolved).inlined) :
    Serves blueprint store inlined.target := by
  obtain ⟨aggregate, haggregate, hinlined⟩ := List.mem_filterMap.mp hmem
  obtain ⟨rest, target, hafter, -, -, -, rfl⟩ := inlined?_eq_some hinlined
  rw [(Blueprint.leads_of_lenient hlevels hleads).2.1] at hafter
  exact .reads hjoin hattaches haggregate ⟨_, (segments_of_below hafter).symm⟩

/-- The lists of an action are those of a path that its store keeps. -/
theorem Stands.exists_leads (hlevels : blueprint.LevelsDeclared) {join : Join} {loops : List Loop}
    {action : Action} (h : Stands blueprint store join loops action)
    (hjoin : join ∈ blueprint.metadata.joinsOf store) :
    ∃ resolved path, blueprint.Leads resolved ∧ resolved.loops = loops ∧
      resolved.names = segments path ∧ Keeps blueprint store path := by
  cases h with
  | attachment hattaches hleads hlevel =>
    obtain ⟨hresolved, -, hnames⟩ := Blueprint.leads_of_lenient hlevels hleads
    exact ⟨_, _, hresolved, rfl, hnames, .attachment hjoin hattaches⟩
  | feed _ hregistered _ hleads _ =>
    obtain ⟨hresolved, -, hnames, -⟩ := Blueprint.leads_of_strict hlevels hleads
    exact ⟨_, _, hresolved, rfl, hnames, .target (.feed hregistered)⟩

/-- A place in the footprint of a store has the names of a path that the store keeps, and ends in a
key. -/
theorem Footprint.exists_keeps (hlevels : blueprint.LevelsDeclared) {place : Location}
    (h : Footprint blueprint store place) :
    (∃ path, Keeps blueprint store path ∧ place.names = segments path) ∧
      ∃ front key, place = front ++ [.key key] := by
  obtain ⟨⟨action, cursor⟩, ⟨join, hjoin, loops, hstands, hfits⟩, htouches⟩ := h
  cases hstands with
  | @attachment resolved hattaches hleads hlevel =>
    have hleaf := (Blueprint.leads_of_lenient hlevels hleads).1.leaf_ne_nil
    rcases htouches with rfl | ⟨inlined, hmem, rfl⟩
    · have hattached : blueprint.AttachedAt join (cursor.below resolved.leaf) :=
        ⟨resolved, hleads, hlevel, cursor, hfits, rfl⟩
      exact ⟨⟨join.path, .attachment hjoin hattaches, hattached.names hlevels⟩,
        cursor.exists_key_below hleaf⟩
    · have hvalue := (valueAt_of_inlined hmem hfits).2
      refine ⟨⟨inlined.target, .target (serves_of_inlined hlevels hjoin hattaches hleads hmem),
        hvalue.names hlevels⟩, ?_⟩
      obtain ⟨value, hvalue, -, inner, -, hplace⟩ := hvalue
      rw [hplace]
      exact inner.exists_key_below (Blueprint.leads_of_strict hlevels hvalue).1.leaf_ne_nil
  | @feed aggregate resolved _ hregistered _ hleads hscalar =>
    obtain rfl : place = cursor.below resolved.leaf := htouches
    have hvalue : blueprint.ValueAt aggregate.target (cursor.below resolved.leaf) :=
      ⟨resolved, hleads, hscalar, cursor, hfits, rfl⟩
    exact ⟨⟨aggregate.target, .target (.feed hregistered), hvalue.names hlevels⟩,
      cursor.exists_key_below (Blueprint.leads_of_strict hlevels hleads).1.leaf_ne_nil⟩

/-- An event of a store leaves everything but the places of stores as it is. -/
theorem FromJoin.sameOutside {event : Event Action} (hevent : FromJoin blueprint store event)
    (surroundings : Surroundings) {record : Json} {state : State}
    (h : Json.SameOutside (Joined blueprint) record state.record) :
    Json.SameOutside (Joined blueprint) record
      (act surroundings event.action event.cursor state).record :=
  h.trans ((act_sameOutside event.action event.cursor state).mono fun _ htouches =>
    ⟨store, event, hevent, htouches⟩)

end Joining

/-! ## Telling stores apart -/

namespace Store.IsCompiled

open Joining

variable {store : Store} (hstore : store.IsCompiled) {foreign other path path' : String}
  {place place' : Location} {join : Join}

include hstore

/-- Whatever serves a store is a declared value. -/
theorem exists_value (h : Serves store.blueprint foreign path) :
    ∃ value, store.blueprint.resolveStrict path = .ok value ∧ value.isScalar = true := by
  cases h with
  | reads _ _ hregistered _ =>
    obtain ⟨resolved, rfl, hvalid⟩ := hstore.exists_resolved hregistered
    exact ⟨resolved.target, hvalid.target, hvalid.targetScalar⟩
  | feed hregistered =>
    obtain ⟨join, hjoin, -⟩ := hstore.tidy.exists_feed hregistered
    obtain ⟨procedures, hjoined⟩ := hstore.exists_joined? hjoin
    obtain ⟨value, hvalue, hscalar, -⟩ := JoinProcedures.placed_of_feeds
      (hstore.of_joined? hjoined) (.set []) hstore.tidy hregistered
    exact ⟨value, hvalue, hscalar⟩

variable (hplain : store.blueprint.flattened.PlainNames)
  (hbare : store.blueprint.flattened.BareAttachments)

include hplain hbare

/-- An attachment belongs to one store. -/
theorem store_eq_of_join (hjoin : join ∈ store.metadata.joinsOf foreign) (hattaches : join.Attaches)
    (hother : join ∈ store.metadata.joinsOf other) : foreign = other := by
  obtain ⟨name, rootName, descriptor, hflatten⟩ := hstore.exists_flatten.1
  exact Fields.key_eq_of_nodup (Blueprint.nodup_attachments hflatten hplain hbare) hjoin hother
    (decide_eq_true hattaches) (decide_eq_true hattaches) rfl

/-- A target follows the records of one store. -/
theorem store_eq_of_serves (h : Serves store.blueprint foreign path)
    (h' : Serves store.blueprint other path') (hpath : path = path') : foreign = other := by
  cases h with
  | @reads join aggregate hjoin hattaches hregistered hinside =>
    cases h' with
    | @reads join' aggregate' hjoin' hattaches' hregistered' hinside' =>
      obtain rfl : aggregate = aggregate' :=
        List.inj_on_of_nodup_map hstore.tidy.nodup_targets hregistered hregistered' hpath
      -- one source lies in both attachments, so one of them lies in the other
      rcases List.prefix_or_prefix_of_prefix hinside hinside' with hstart | hstart
      · obtain rfl := hstore.eq_of_inside hplain hbare hjoin hattaches hjoin' hattaches' hstart
        exact hstore.store_eq_of_join hplain hbare hjoin hattaches hjoin'
      · obtain rfl := hstore.eq_of_inside hplain hbare hjoin' hattaches' hjoin hattaches hstart
        exact hstore.store_eq_of_join hplain hbare hjoin hattaches hjoin'
    | feed hregistered' =>
      exact absurd hpath.symm (hstore.tidy.not_external hregistered hregistered')
  | feed hregistered =>
    cases h' with
    | reads _ _ hregistered' _ =>
      exact absurd hpath (hstore.tidy.not_external hregistered' hregistered)
    | feed hregistered' => exact hstore.tidy.store_eq_of_target hregistered hregistered' hpath

/-- A path that a store keeps lies at or around one that a store keeps only if the paths and the
stores are the same. -/
theorem eq_of_kept (h : Keeps store.blueprint foreign path) (h' : Keeps store.blueprint other path')
    (hstart : segments path <+: segments path') : path = path' ∧ foreign = other := by
  have hlevels := hstore.levelsDeclared
  cases h with
  | @attachment join hjoin hattaches =>
    cases h' with
    | @attachment join' hjoin' hattaches' =>
      obtain rfl := hstore.eq_of_inside hplain hbare hjoin hattaches hjoin' hattaches' hstart
      exact ⟨rfl, hstore.store_eq_of_join hplain hbare hjoin hattaches hjoin'⟩
    | target hserves =>
      obtain ⟨level, hresolved, hlevel, hforeign, -⟩ :=
        hstore.foreign_level hplain hbare hjoin hattaches
      obtain ⟨value, hvalue, hscalar⟩ := hstore.exists_value hserves
      obtain ⟨hleads, -, hnames⟩ := Blueprint.leads_of_lenient hlevels hresolved
      obtain ⟨hleads', -, hnames', hdeclared⟩ := Blueprint.leads_of_strict hlevels hvalue
      rw [← hnames, ← hnames'] at hstart
      -- an attachment leads out of the declared levels, a target does not
      exact absurd hstart (hleads.apart_of_foreign hlevel hforeign hleads' ⟨hscalar, hdeclared⟩).1
  | target hserves =>
    obtain ⟨value, hvalue, hscalar⟩ := hstore.exists_value hserves
    obtain ⟨hleads, -, hnames, hdeclared⟩ := Blueprint.leads_of_strict hlevels hvalue
    cases h' with
    | @attachment join hjoin hattaches =>
      obtain ⟨level, hresolved, hlevel, hforeign, -⟩ :=
        hstore.foreign_level hplain hbare hjoin hattaches
      obtain ⟨hleads', -, hnames'⟩ := Blueprint.leads_of_lenient hlevels hresolved
      rw [← hnames, ← hnames'] at hstart
      exact absurd hstart (hleads'.apart_of_foreign hlevel hforeign hleads ⟨hscalar, hdeclared⟩).2
    | target hserves' =>
      obtain ⟨value', hvalue', -⟩ := hstore.exists_value hserves'
      obtain ⟨hleads', -, hnames', -⟩ := Blueprint.leads_of_strict hlevels hvalue'
      rw [← hnames, ← hnames'] at hstart
      have hequal := hleads.names_eq_of_value ⟨hscalar, hdeclared⟩ hleads' hstart
      rw [hnames, hnames'] at hequal
      have hpath := segments_injective hequal
      exact ⟨hpath, hstore.store_eq_of_serves hplain hbare hserves hserves' hpath⟩

/-- A place of a store whose names are first names of a path that a store keeps has all of them. -/
theorem names_eq_of_kept (h : Footprint store.blueprint foreign place)
    (h' : Keeps store.blueprint other path) (hstart : place.names <+: segments path) :
    place.names = segments path ∧ foreign = other := by
  obtain ⟨⟨own, hkeeps, hnames⟩, -⟩ := h.exists_keeps hstore.levelsDeclared
  rw [hnames] at hstart ⊢
  obtain ⟨rfl, hforeign⟩ := hstore.eq_of_kept hplain hbare hkeeps h' hstart
  exact ⟨rfl, hforeign⟩

/-- A place of a store lies at or around a place of a store only if the two are the same, and the
stores are. -/
theorem eq_of_above (h : Footprint store.blueprint foreign place)
    (h' : Footprint store.blueprint other place') (hstart : place <+: place') :
    place = place' ∧ foreign = other := by
  obtain ⟨⟨path, hkeeps, hnames⟩, front, key, rfl⟩ := h'.exists_keeps hstore.levelsDeclared
  have hinside := Location.names_above hstart
  rw [hnames] at hinside
  obtain ⟨hequal, hforeign⟩ := hstore.names_eq_of_kept hplain hbare h hkeeps hinside
  exact ⟨Location.eq_of_names_eq hstart (hequal.trans hnames.symm), hforeign⟩

/-- No call of any store writes at or around a list that calls of a store go through. -/
theorem not_above_list (h : Footprint store.blueprint foreign place) {loops : List Loop}
    {action : Action} (hjoin : join ∈ store.metadata.joinsOf other)
    (hstands : Stands store.blueprint other join loops action) {front back : List Loop}
    {last : Loop} (hloops : loops = front ++ last :: back) {cursor : Cursor}
    (hfits : cursor.Fits front) :
    ¬ place <+: cursor.below last.access := by
  intro hstart
  obtain ⟨resolved, path, hleads, rfl, hnames, hkeeps⟩ :=
    hstands.exists_leads hstore.levelsDeclared hjoin
  have hlist := ResolvedPath.names_above_list hloops hfits
  rw [hnames] at hlist
  have hequal := (hstore.names_eq_of_kept hplain hbare h hkeeps
    ((Location.names_above hstart).trans hlist)).1
  have hlength := (Location.names_above hstart).length_le
  have hless := ResolvedPath.length_names_above_list hloops hfits hleads.leaf_ne_nil
  rw [hequal, ← hnames] at hlength
  omega

/-! ## The events of a call -/

/-- In a record that only calls have changed, a call performs the events of the record before those
calls. -/
theorem run_eq_perform {procedures : JoinProcedures}
    (hcompile : JoinProcedures.compile store.blueprint foreign = .ok procedures)
    (surroundings : Surroundings) {start record : Json} (states : AggregateStates)
    (h : Json.SameOutside (Joined store.blueprint) start record) :
    procedures.run surroundings record states =
      (JoinProcedures.machine surroundings).perform
        ((procedures.program surroundings.delta).events start) { record, states } := by
  obtain ⟨-, mode, hmode⟩ := JoinProcedures.exists_compile hcompile surroundings.delta
  -- only places of stores have changed, and none of them holds a list of a pass
  let inv (state : State) : Prop := Json.SameOutside (Joined store.blueprint) start state.record
  have hinv : inv { record, states } := h
  refine ((procedures.program surroundings.delta).run_eq_perform
    (JoinProcedures.machine surroundings) inv (fun _ => rfl) ?_ ?_ hinv).1
  · intro loops action hplaced cursor hfits state hstate
    exact (JoinProcedures.fromJoin_of_placed hcompile surroundings.delta hplaced hfits).sameOutside
      surroundings hstate
  · intro front last hlist cursor hfits state hstate
    obtain ⟨join, hjoin, loops, action, hstands, back, hloops⟩ := exists_stands_of_list hmode hlist
    rw [Machine.size_eq_sizeAt]
    refine hstate.sizeAt_eq ?_
    rintro place ⟨called, hplace⟩
    rw [List.append_assoc] at hloops
    exact hstore.not_above_list hplain hbare hplace hjoin hstands hloops.symm hfits

end Store.IsCompiled

end NestedRecord
