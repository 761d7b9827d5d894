import NestedRecord.Proofs.Join.Placement

/-!
# What joins write to

An attachment writes its content and the targets of the aggregates over it; an external
aggregate writes its target. Every such place belongs to an attachment or is the target of
an aggregate, and a target never has an attachment at or below it.

Every statement about a call begins with what it does not do. An action names the places that it may
write to in its own fields, so `Touches` is read off the action and the cursor without the record;
and persisted states are kept by the pointers of some of these places. That different actions touch
different places is then a matter of the declared paths (`touches_cases`), and no later proof has to
look into what an action writes.

* `Action.Touches` are the places that an action writes to, `act_sameOutside` says that
  everything else stays as it is.
* `Blueprint.Maintains` are the places that some join or aggregate of a store keeps.
* `touches_cases` traces what an action writes to back to them.
-/

namespace NestedRecord

/-- The targets of the aggregates of a store. -/
def Metadata.IsTarget (metadata : Metadata) (path : String) : Prop :=
  (∃ aggregate ∈ metadata.localAggregates, aggregate.target = path) ∨
    ∃ store, ∃ aggregate ∈ (Fields.get? metadata.externals store).getD [], aggregate.target = path

namespace Blueprint

variable {blueprint : Blueprint}

/-- The instances of an attachment. -/
def AttachedAt (blueprint : Blueprint) (join : Join) (place : Location) : Prop :=
  ∃ resolved, blueprint.resolveLenient join.path = .ok resolved ∧ resolved.isScalar = false ∧
    ∃ cursor : Cursor, cursor.Fits resolved.loops ∧ place = cursor.below resolved.leaf

/-- The places that an attachment or an aggregate of the store keeps up to date. -/
inductive Maintains (blueprint : Blueprint) (place : Location) : Prop
  | attachment {store : String} {join : Join} (joined : join ∈ blueprint.metadata.joinsOf store)
      (attaches : join.Attaches) (attached : blueprint.AttachedAt join place)
  | target {path : String} (aggregated : blueprint.metadata.IsTarget path)
      (value : blueprint.ValueAt path place)

variable {join : Join} {path : String} {place location : Location}

theorem AttachedAt.names (hlevels : blueprint.LevelsDeclared)
    (h : blueprint.AttachedAt join place) : place.names = segments join.path := by
  obtain ⟨resolved, hleads, -, cursor, hfits, rfl⟩ := h
  rw [ResolvedPath.names_below hfits, (leads_of_lenient hlevels hleads).2.2]

/-- No attachment lies at or below a single value. -/
theorem ValueAt.not_above (hlevels : blueprint.LevelsDeclared)
    (h : blueprint.ValueAt path location) (h' : blueprint.AttachedAt join place) :
    ¬ location <+: place := by
  intro hstart
  have hnames := Location.names_above hstart
  rw [h.names hlevels, h'.names hlevels] at hnames
  obtain ⟨value, hvalue, hscalar, -⟩ := h
  obtain ⟨level, hlevel, hscalar', -⟩ := h'
  obtain ⟨hleads, -, hsegments, hvirtual⟩ := leads_of_strict hlevels hvalue
  obtain ⟨hleads', -, hsegments'⟩ := leads_of_lenient hlevels hlevel
  rw [← hsegments, ← hsegments'] at hnames
  have heq := hleads.names_eq_of_value ⟨hscalar, hvirtual⟩ hleads' hnames
  have htarget := (hleads.eq_of_names hleads' heq).2.2.1
  rw [ResolvedPath.isScalar, htarget] at hscalar
  rw [ResolvedPath.isScalar] at hscalar'
  exact Bool.false_ne_true (hscalar'.symm.trans hscalar)

/-- One attachment at one place is one instance. -/
theorem AttachedAt.eq_of_above {resolved : ResolvedPath}
    (hleads : blueprint.resolveLenient join.path = .ok resolved) {cursor : Cursor}
    (hfits : cursor.Fits resolved.loops) {names : List String}
    (h : blueprint.AttachedAt join location) (hstart : location <+: cursor.below names) :
    location = cursor.below resolved.leaf := by
  obtain ⟨other, hother, -, cursor', hfits', rfl⟩ := h
  obtain rfl : resolved = other := Except.ok.inj (hleads.symm.trans hother)
  rw [Cursor.eq_of_above hfits' hfits hstart]

end Blueprint

namespace Joining

variable {blueprint : Blueprint} {store : String} {surroundings : Surroundings}

/-- The places that an action writes to. -/
def Action.Touches (action : Action) (cursor : Cursor) (location : Location) : Prop :=
  match action with
  | .attach attached =>
    location = cursor.below attached.leaf ∨
      ∃ inlined ∈ attached.inlined, location = cursor.place inlined.depth inlined.targetLeaf
  | .feed supplied => location = cursor.below supplied.leaf

/-! ## Nothing else changes -/

/-- A value is written at one place, if at all. -/
theorem State.write_sameOutside (state : State) (cursor : Cursor) (depth : Nat)
    (leaf : List String) (value : Json) :
    Json.SameOutside (· = cursor.place depth leaf) state.record
      (state.write cursor depth leaf value).record := by
  unfold State.write
  cases hset : cursor.setAt? state.record depth leaf value with
  | none => exact .refl _ _
  | some record => exact (Cursor.setAt?_written hset).sameOutside

/-- An aggregate over an attachment writes its own target. -/
theorem Inlined.refresh_sameOutside (surroundings : Surroundings) (inlined : Inlined)
    (cursor : Cursor) (change : Attached.Change) (state : State) :
    Json.SameOutside (· = cursor.place inlined.depth inlined.targetLeaf) state.record
      (inlined.refresh surroundings cursor change state).record := by
  unfold Inlined.refresh
  cases surroundings.kinds.get? inlined.op with
  | none => exact .refl _ _
  | some kind => exact State.write_sameOutside state cursor _ _ _

/-- Brings the aggregates over an attachment up to date, one after the other. -/
def refreshAll (surroundings : Surroundings) (inlined : List Inlined) (cursor : Cursor)
    (change : Attached.Change) (state : State) : State :=
  inlined.foldl (fun state inlined => inlined.refresh surroundings cursor change state) state

/-- The aggregates over an attachment write their own targets. -/
theorem refreshAll_sameOutside (surroundings : Surroundings) (inlined : List Inlined)
    (cursor : Cursor) (change : Attached.Change) (state : State) :
    Json.SameOutside
      (fun location => ∃ aggregate ∈ inlined,
        location = cursor.place aggregate.depth aggregate.targetLeaf)
      state.record (refreshAll surroundings inlined cursor change state).record := by
  induction inlined generalizing state with
  | nil => exact .refl _ _
  | cons first rest ih =>
    have hfirst := Inlined.refresh_sameOutside surroundings first cursor change state
    refine (hfirst.mono ?_).trans ((ih _).mono ?_)
    · rintro location rfl
      exact ⟨first, List.mem_cons_self, rfl⟩
    · rintro location ⟨aggregate, hmem, rfl⟩
      exact ⟨aggregate, List.mem_cons_of_mem _ hmem, rfl⟩

/-- The change that a delta makes to an attachment. -/
def changeAt? (surroundings : Surroundings) (attachment : Attachment) (cursor : Cursor)
    (record : Json) : Option Attached.Change :=
  Attached.change? attachment.many surroundings.identityKey
    ((record.locate? (cursor.below attachment.leaf)).getD .null) surroundings.delta

/-- An attachment whose content changes and can be written. -/
theorem attach_eq {attachment : Attachment} {cursor : Cursor} {state : State}
    {change : Attached.Change} {record : Json}
    (hchange : changeAt? surroundings attachment cursor state.record = some change)
    (hset : cursor.setAt? state.record cursor.depth attachment.leaf change.content =
      some record) :
    attach surroundings attachment cursor state =
      refreshAll surroundings attachment.inlined cursor change { state with record } := by
  rw [changeAt?, ← Cursor.get?_eq_locate?] at hchange
  simp only [attach, hchange, hset]
  rfl

/-- An attachment is left as it is, or its changed content is written and the aggregates over
it are brought up to date. -/
theorem attach_cases (surroundings : Surroundings) (attachment : Attachment) (cursor : Cursor)
    (state : State) :
    attach surroundings attachment cursor state = state ∨
      ∃ change record, changeAt? surroundings attachment cursor state.record = some change ∧
        cursor.setAt? state.record cursor.depth attachment.leaf change.content = some record ∧
        attach surroundings attachment cursor state =
          refreshAll surroundings attachment.inlined cursor change { state with record } := by
  cases hchange : changeAt? surroundings attachment cursor state.record with
  | none =>
    rw [changeAt?, ← Cursor.get?_eq_locate?] at hchange
    refine .inl ?_
    simp only [attach, hchange]
  | some change =>
    cases hset : cursor.setAt? state.record cursor.depth attachment.leaf change.content with
    | none =>
      rw [changeAt?, ← Cursor.get?_eq_locate?] at hchange
      refine .inl ?_
      simp only [attach, hchange, hset]
    | some record => exact .inr ⟨change, record, rfl, hset, attach_eq hchange hset⟩

/-- An attachment whose content does not change, or cannot be written, is left as it is. -/
theorem attach_eq_self {attachment : Attachment} {cursor : Cursor} {state : State}
    (hnot : ∀ change, changeAt? surroundings attachment cursor state.record = some change →
      cursor.setAt? state.record cursor.depth attachment.leaf change.content = none) :
    attach surroundings attachment cursor state = state := by
  rcases attach_cases surroundings attachment cursor state with
    hsame | ⟨change, record, hsome, hset, -⟩
  · exact hsame
  · rw [hnot change hsome] at hset
    cases hset

/-- An action changes the places that it touches and nothing else. -/
theorem act_sameOutside (action : Action) (cursor : Cursor) (state : State) :
    Json.SameOutside (action.Touches cursor) state.record
      (act surroundings action cursor state).record := by
  cases action with
  | feed feed =>
    show Json.SameOutside _ _ (supply surroundings feed cursor state).record
    unfold supply
    cases surroundings.kinds.get? feed.aggregate.op with
    | none => exact .refl _ _
    | some kind =>
      refine (State.write_sameOutside state cursor _ _ _).mono ?_
      rintro location rfl
      exact Cursor.place_depth cursor feed.leaf
  | attach attachment =>
    show Json.SameOutside _ _ (attach surroundings attachment cursor state).record
    rcases attach_cases surroundings attachment cursor state with
      heq | ⟨change, record, -, hset, heq⟩
    · rw [heq]
      exact .refl _ _
    · rw [heq]
      -- first the attachment is written, then the targets of its aggregates
      refine ((Cursor.setAt?_written hset).sameOutside.mono ?_).trans
        ((refreshAll_sameOutside surroundings _ cursor change { state with record }).mono ?_)
      · rintro location rfl
        exact .inl (Cursor.place_depth cursor attachment.leaf)
      · rintro location htarget
        exact .inr htarget

/-! ## Persisted states -/

/-- The places of the targets whose states an action persists. -/
def Action.Persists (action : Action) (cursor : Cursor) (location : Location) : Prop :=
  match action with
  | .attach attached =>
    ∃ inlined ∈ attached.inlined, location = cursor.place inlined.depth inlined.targetLeaf
  | .feed supplied => location = cursor.below supplied.leaf

theorem Action.Persists.touches {action : Action} {cursor : Cursor} {location : Location}
    (h : action.Persists cursor location) : action.Touches cursor location := by
  cases action with
  | attach attached => exact .inr h
  | feed supplied => exact h

/-- An aggregate over an attachment persists its own state. -/
theorem Inlined.refresh_states (inlined : Inlined) (cursor : Cursor) (change : Attached.Change)
    (state : State) {pointer : String}
    (h : pointer ≠ (cursor.place inlined.depth inlined.targetLeaf).pointer) :
    Fields.get? (inlined.refresh surroundings cursor change state).states pointer =
      Fields.get? state.states pointer := by
  unfold Inlined.refresh
  cases surroundings.kinds.get? inlined.op with
  | none => rfl
  | some kind => exact Fields.get?_set_of_ne _ _ h

/-- The aggregates over an attachment persist their own states. -/
theorem refreshAll_states (inlined : List Inlined) (cursor : Cursor) (change : Attached.Change)
    (state : State) {pointer : String}
    (h : ∀ aggregate ∈ inlined,
      pointer ≠ (cursor.place aggregate.depth aggregate.targetLeaf).pointer) :
    Fields.get? (refreshAll surroundings inlined cursor change state).states pointer =
      Fields.get? state.states pointer := by
  induction inlined generalizing state with
  | nil => rfl
  | cons first rest ih =>
    have hrest := ih (first.refresh surroundings cursor change state)
      fun aggregate hmem => h aggregate (List.mem_cons_of_mem _ hmem)
    exact hrest.trans (first.refresh_states cursor change state (h first List.mem_cons_self))

/-- An action leaves the states of other pointers as they are. -/
theorem act_states (action : Action) (cursor : Cursor) (state : State) {pointer : String}
    (h : ∀ location, action.Persists cursor location → pointer ≠ location.pointer) :
    Fields.get? (act surroundings action cursor state).states pointer =
      Fields.get? state.states pointer := by
  cases action with
  | feed feed =>
    show Fields.get? (supply surroundings feed cursor state).states pointer = _
    unfold supply
    cases surroundings.kinds.get? feed.aggregate.op with
    | none => rfl
    | some kind =>
      refine Fields.get?_set_of_ne _ _ ?_
      rw [Cursor.pointerAt_eq, Cursor.place_depth]
      exact h _ rfl
  | attach attachment =>
    show Fields.get? (attach surroundings attachment cursor state).states pointer = _
    rcases attach_cases surroundings attachment cursor state with
      heq | ⟨change, record, -, -, heq⟩
    · rw [heq]
    · rw [heq]
      exact refreshAll_states _ cursor change { state with record }
        fun aggregate hmem => h _ ⟨aggregate, hmem, rfl⟩

/-! ## Whose places are written -/

/-- Where the target of an aggregate over an attachment stands. -/
theorem inlined?_eq_some {attachment : ResolvedPath} {aggregate : LocalAggregate}
    {inlined : Inlined} (h : inlined? blueprint attachment aggregate = some inlined) :
    ∃ rest target,
      after? (attachment.path.toList ++ ['.']) aggregate.source.toList = some rest ∧
      blueprint.resolveStrict aggregate.target = .ok target ∧ target.isScalar = true ∧
      target.loops <+: attachment.loops ∧
      inlined =
        { target := aggregate.target, op := aggregate.op, depth := target.depth
          targetLeaf := target.leaf
          route :=
            (attachment.loops.drop target.depth).flatMap (·.access) ++ attachment.leaf
          source := segments (String.ofList rest)
          transformer := aggregate.transformer } := by
  unfold inlined? at h
  cases hrest : after? (attachment.path.toList ++ ['.']) aggregate.source.toList with
  | none =>
    rw [hrest] at h
    cases h
  | some rest =>
    rw [hrest] at h
    cases htarget : blueprint.resolveStrict aggregate.target with
    | error unresolved =>
      rw [htarget] at h
      cases h
    | ok target =>
      simp only [htarget] at h
      split at h
      · cases h
      · -- the target is a single value and stands in lists around the attachment
        next hscope =>
        simp only [Bool.or_eq_true, Bool.not_eq_true', not_or, Bool.not_eq_false] at hscope
        exact ⟨rest, target, rfl, rfl, hscope.1, List.isPrefixOf_iff_prefix.mp hscope.2,
          (Option.some.inj h).symm⟩

/-- The aggregate over an attachment writes at an instance of its target. -/
theorem valueAt_of_inlined {join : Join} {resolved : ResolvedPath} {inlined : Inlined}
    (hmem : inlined ∈ (attachmentAt blueprint join resolved).inlined) {cursor : Cursor}
    (hfits : cursor.Fits resolved.loops) :
    blueprint.metadata.IsTarget inlined.target ∧
      blueprint.ValueAt inlined.target (cursor.place inlined.depth inlined.targetLeaf) := by
  obtain ⟨aggregate, haggregate, hinlined⟩ := List.mem_filterMap.mp hmem
  obtain ⟨rest, target, -, hleads, hscalar, hloops, rfl⟩ := inlined?_eq_some hinlined
  refine ⟨.inl ⟨aggregate, haggregate, rfl⟩, target, hleads, hscalar,
    cursor.upTo target.depth, ?_, Cursor.place_eq _ _ _⟩
  have htake : resolved.loops.take target.depth = target.loops :=
    (List.prefix_iff_eq_take.mp hloops).symm
  rw [← htake]
  exact hfits.upTo target.depth

/-- What the action of a join writes to: its attachment, or targets of aggregates. -/
theorem touches_cases {join : Join} {loops : List Loop} {action : Action} {cursor : Cursor}
    {location : Location} (hstands : Stands blueprint store join loops action)
    (hfits : cursor.Fits loops) (h : action.Touches cursor location) :
    (join.Attaches ∧ blueprint.AttachedAt join location) ∨
      ∃ path, blueprint.metadata.IsTarget path ∧ blueprint.ValueAt path location := by
  cases hstands with
  | attachment hattaches hleads hlevel =>
    rcases h with rfl | ⟨inlined, hmem, rfl⟩
    · exact .inl ⟨hattaches, _, hleads, hlevel, cursor, hfits, rfl⟩
    · exact .inr ⟨inlined.target, valueAt_of_inlined hmem hfits⟩
  | feed hfeeds hregistered htarget hleads hscalar =>
    obtain rfl : location = _ := h
    exact .inr ⟨_, .inr ⟨store, _, hregistered, rfl⟩, _, hleads, hscalar, cursor, hfits, rfl⟩

/-- The states that a join persists belong to targets of aggregates. -/
theorem valueAt_of_persists {join : Join} {loops : List Loop} {action : Action} {cursor : Cursor}
    {location : Location} (hstands : Stands blueprint store join loops action)
    (hfits : cursor.Fits loops) (h : action.Persists cursor location) :
    ∃ path, blueprint.ValueAt path location := by
  cases hstands with
  | attachment hattaches hleads hlevel =>
    obtain ⟨inlined, hmem, rfl⟩ := h
    exact ⟨inlined.target, (valueAt_of_inlined hmem hfits).2⟩
  | feed hfeeds hregistered htarget hleads hscalar =>
    obtain rfl : location = _ := h
    exact ⟨_, _, hleads, hscalar, cursor, hfits, rfl⟩

/-! ## Owners -/

section Owners

open JoinProcedures (machine)

variable {place : Location} {events : List (Event Action)}

/-- An event that writes nothing around a place leaves its owner an object, or none. -/
theorem owned_act_of_spared (hne : place ≠ []) {event : Event Action}
    (hspares : ∀ location, event.action.Touches event.cursor location →
      location <+: place → location = place) (state : State) :
    Owned place (act surroundings event.action event.cursor state).record ↔
      Owned place state.record :=
  owned_iff (act_sameOutside event.action event.cursor state) hne hspares

/-- So do any number of such events. -/
theorem owned_perform_of_spared (hne : place ≠ [])
    (hspares : ∀ event ∈ events, ∀ location, event.action.Touches event.cursor location →
      location <+: place → location = place) (state : State) :
    Owned place ((machine surroundings).perform events state).record ↔
      Owned place state.record := by
  have heq := Machine.perform_congr (machine surroundings) (fun state => Owned place state.record)
    (fun event hevent state => propext (owned_act_of_spared hne (hspares event hevent) state)) state
  exact iff_of_eq heq

/-- A place whose owner is an object has its element in the record. -/
theorem has_of_owned {cursor : Cursor} {leaf : List String} {state : State} (hleaf : leaf ≠ [])
    (h : Owned (cursor.below leaf) state.record) : (machine surroundings).Has cursor state := by
  obtain ⟨owner, howner, -⟩ := h
  rw [Cursor.dropLast_below hleaf, Cursor.below] at howner
  exact Json.locate?_isSome_of_append (Option.isSome_of_eq_some howner)

end Owners

end Joining

end NestedRecord
