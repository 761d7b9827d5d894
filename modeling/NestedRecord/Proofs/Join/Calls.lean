import NestedRecord.Proofs.Join.Instance
import NestedRecord.Proofs.Join.Upkeep

/-!
# Calls of a joined store

One call runs through all instances of the attachments of a store. From event to event the states
that are persisted for an aggregate stay the folds of the values that stand below its elements, and
an element below which an instance has changed shows the fold.

The elements that own a target partition the instances of the attachment: each instance lies below
one of them. An event changes one instance and settles the element around it; for all other elements
it has to be shown that nothing happens, neither to the values below them nor to their targets nor
to the states that are persisted for them. What folding needs in addition is a bound on all values
that may stand together in the course of a call, since doubles are exact only up to a point.

- `Coverage.act_instance`, `act_values`, `act_target` and `act_owns` are what an event leaves as it
  is.
- `Coverage.Affords` bounds the values that a call can fold, and `perform_values` says why.
- `Coverage.Settled` is the invariant of the events of a call, and `settled_perform` keeps it.
- `Coverage.run_settles` is the call as a whole.
-/

namespace NestedRecord

open Joining
open Recompute (Resolved)
open AggregateKind (Exact Faithful)

theorem subperm_map {α β : Type} (f : α → β) {xs ys : List α} (h : xs.Subperm ys) :
    (xs.map f).Subperm (ys.map f) := by
  obtain ⟨middle, hperm, hsublist⟩ := h
  exact ⟨middle.map f, hperm.map f, hsublist.map f⟩

/-- Fewer values at each place are fewer values. -/
theorem subperm_flatMap {α β : Type} {f g : α → List β} :
    ∀ {xs : List α}, (∀ x ∈ xs, (f x).Subperm (g x)) → (xs.flatMap f).Subperm (xs.flatMap g)
  | [], _ => List.Subperm.refl _
  | x :: rest, h => by
    rw [List.flatMap_cons, List.flatMap_cons]
    exact (h x List.mem_cons_self).append
      (subperm_flatMap fun y hy => h y (List.mem_cons_of_mem x hy))

namespace Coverage

variable {blueprint : Blueprint} {join : Join} {attachment : ResolvedPath} {resolved : Resolved}
  {surroundings : Surroundings} {kind : AggregateKind} {store : String} {element cursor : Cursor}

/-- The action of the attachment. -/
def own (blueprint : Blueprint) (join : Join) (attachment : ResolvedPath) : Action :=
  .attach (attachmentAt blueprint join attachment)

section Event

variable (hlevels : blueprint.LevelsDeclared) (htidy : blueprint.metadata.Tidy)
  (h : Coverage blueprint join attachment resolved)
  (halone : blueprint.metadata.Alone store join resolved.aggregate.target)
  {event : Event Action} (hevent : FromJoin blueprint store event)

include hlevels h halone hevent

/-- An event writes the instance that it serves, or off the way of the aggregate. -/
theorem touches_own_or_off {location : Location}
    (htouches : event.action.Touches event.cursor location) :
    event.cursor.Fits attachment.loops ∧ location = event.cursor.below attachment.leaf ∨
      Off attachment resolved location := by
  obtain ⟨other, hother, loops, hstands, hfits⟩ := hevent
  rcases h.touches_cases hlevels halone hother hstands hfits htouches with
    ⟨-, hcursor, heq⟩ | hoff
  · exact .inl ⟨hcursor, heq⟩
  · exact .inr hoff

/-- An event writes an instance, or off the way of the aggregate. -/
theorem touches_at_or_off {location : Location}
    (htouches : event.action.Touches event.cursor location) :
    At attachment location ∨ Off attachment resolved location :=
  (h.touches_own_or_off hlevels halone hevent htouches).imp
    (fun hown => ⟨event.cursor, hown.1, hown.2⟩) id

/-- Only the event of an instance writes the instance. -/
theorem eq_of_touches {inner : Cursor} (hinner : inner.Fits attachment.loops)
    (htouches : event.action.Touches event.cursor (inner.below attachment.leaf)) :
    event.action = own blueprint join attachment ∧ event.cursor = inner := by
  obtain ⟨other, hother, loops, hstands, hfits⟩ := hevent
  rcases h.touches_cases hlevels halone hother hstands hfits htouches with
    ⟨haction, hcursor, heq⟩ | hoff
  · exact ⟨haction, Cursor.eq_of_above hcursor hinner ⟨[], (List.append_nil _).trans heq.symm⟩⟩
  · exact absurd hoff (h.not_off_of_at hlevels ⟨inner, hinner, rfl⟩)

/-- An event leaves the other instances of the attachment as they are. -/
theorem act_instance {inner : Cursor} (hinner : inner.Fits attachment.loops)
    (hne : event.action = own blueprint join attachment → event.cursor ≠ inner) (state : State) :
    (act surroundings event.action event.cursor state).record.locate?
        (inner.below attachment.leaf) =
      state.record.locate? (inner.below attachment.leaf) := by
  refine h.locate?_eq hlevels (act_sameOutside event.action event.cursor state)
    (fun location htouches => h.touches_at_or_off hlevels halone hevent htouches) hinner ?_
  intro htouches
  obtain ⟨haction, hcursor⟩ := h.eq_of_touches hlevels halone hevent hinner htouches
  exact hne haction hcursor

/-- An event leaves the values below the other elements as they are. -/
theorem act_values (environment : Environment) (helement : element.Fits resolved.target.loops)
    (hne : event.action = own blueprint join attachment →
      event.cursor.upTo resolved.target.depth ≠ element) (state : State) :
    resolved.values environment (act surroundings event.action event.cursor state).record element =
      resolved.values environment state.record element := by
  refine h.values_congr hlevels (act_sameOutside event.action event.cursor state)
    (fun location htouches => h.touches_at_or_off hlevels halone hevent htouches) helement ?_
  intro inner hinner hupTo htouches
  obtain ⟨haction, hcursor⟩ := h.eq_of_touches hlevels halone hevent hinner htouches
  exact hne haction (hcursor ▸ hupTo)

include htidy

/-- An event leaves the targets of the other elements and their states as they are. -/
theorem act_target (helement : element.Fits resolved.target.loops)
    (hne : event.action = own blueprint join attachment →
      event.cursor.upTo resolved.target.depth ≠ element) (state : State) :
    (act surroundings event.action event.cursor state).record.locate?
        (element.below resolved.target.leaf) =
      state.record.locate? (element.below resolved.target.leaf) ∧
    Fields.get? (act surroundings event.action event.cursor state).states
        (element.below resolved.target.leaf).pointer =
      Fields.get? state.states (element.below resolved.target.leaf).pointer := by
  obtain ⟨other, hother, loops, hstands, hfits⟩ := hevent
  have hapart : ∀ location, event.action.Touches event.cursor location →
      ¬ location <+: element.below resolved.target.leaf ∧
        ¬ element.below resolved.target.leaf <+: location := by
    intro location htouches
    -- what is written is the target of another element, or no target of this aggregate
    rcases h.touches_target hlevels htidy halone hother hstands hfits htouches with
      ⟨haction, hcursor, rfl⟩ | hapart
    · have hupTo := (h.upTo_fits hlevels hcursor).1
      exact ⟨fun hstart => hne haction (Cursor.eq_of_above hupTo helement hstart),
        fun hstart => hne haction (Cursor.eq_of_above helement hupTo hstart).symm⟩
    · exact hapart element helement
  refine ⟨(act_sameOutside event.action event.cursor state _ ?_).2 ?_, act_states _ _ _ ?_⟩
  · exact fun location htouches => (hapart location htouches).1
  · exact fun location htouches => (hapart location htouches).2
  · intro location hpersists hpointer
    obtain ⟨path, hvalue⟩ := valueAt_of_persists hstands hfits hpersists
    have heq := (h.feeds.valueAt helement).eq_of_pointer hlevels hvalue hpointer
    exact (hapart location hpersists.touches).1 (heq ▸ List.prefix_refl _)

/-- An event leaves the owners of the target as they are. -/
theorem act_owns (helement : element.Fits resolved.target.loops) (state : State) :
    resolved.Owns (act surroundings event.action event.cursor state).record element ↔
      resolved.Owns state.record element := by
  obtain ⟨other, hother, loops, hstands, hfits⟩ := hevent
  have hleaf := (Blueprint.leads_of_strict hlevels h.feeds.target).1.leaf_ne_nil
  refine owned_iff (act_sameOutside event.action event.cursor state) (Cursor.below_ne_nil hleaf)
    fun location htouches hstart => ?_
  rcases h.touches_target hlevels htidy halone hother hstands hfits htouches with
    ⟨-, hcursor, rfl⟩ | hapart
  · have hupTo := (h.upTo_fits hlevels hcursor).1
    rw [Cursor.eq_of_above hupTo helement hstart]
  · exact absurd hstart (hapart element helement).1

omit htidy in
/-- Whatever attaches at an instance is the action of the attachment. -/
theorem own_of_attachesTo (hcursor : event.cursor.Fits attachment.loops)
    (hattaches : event.action.attachesTo attachment.leaf = true) :
    event.action = own blueprint join attachment := by
  refine (h.eq_of_touches hlevels halone hevent hcursor ?_).1
  obtain ⟨action, cursor⟩ := event
  cases action with
  | attach attached => exact .inl (congrArg cursor.below (of_decide_eq_true hattaches).symm)
  | feed supplied => cases hattaches

omit htidy halone hevent in
/-- What the attachment's procedure puts into an instance. -/
theorem attach_items (surroundings : Surroundings) (hcursor : cursor.Fits attachment.loops)
    (state : State) :
    ((attach surroundings (attachmentAt blueprint join attachment) cursor state).record.itemsAt
        (cursor.below attachment.leaf)).Subperm
      (state.record.itemsAt (cursor.below attachment.leaf) ++
        Attached.incoming surroundings.delta) := by
  rcases h.attach_cases surroundings cursor state with
    heq | ⟨change, record, items, heq, hwritten, -, hsub, -⟩
  · rw [heq]
    exact (List.sublist_append_left _ _).subperm
  · have hlocate := (h.refreshAll_kept hlevels surroundings hcursor change { state with record }
      (h.upTo_fits hlevels hcursor).1).1.trans hwritten.locate?_self
    rw [heq, Json.itemsAt, hlocate]
    exact hsub

omit htidy in
/-- The record stays shaped. -/
theorem act_shaped
    (hobjects : ∀ record ∈ Attached.incoming surroundings.delta, record.isObject = true)
    {state : State}
    (hshaped : Json.shapedAlong attachment.leaf attachment.loops state.record = true) :
    Json.shapedAlong attachment.leaf attachment.loops
      (act surroundings event.action event.cursor state).record = true := by
  have hsame : Json.SameOutside (event.action.Touches event.cursor) state.record
      (act surroundings event.action event.cursor state).record :=
    act_sameOutside event.action event.cursor state
  -- only the attachment itself brings records in
  by_cases hown : event.action = own blueprint join attachment ∧ event.cursor.Fits attachment.loops
  · obtain ⟨haction, hcursor⟩ := hown
    have hact : act surroundings event.action event.cursor state =
        attach surroundings (attachmentAt blueprint join attachment) event.cursor state := by
      rw [haction]
      rfl
    rcases h.attach_cases surroundings event.cursor state with
      heq | ⟨change, record, items, heq, hwritten, -, hsub, -⟩
    · rw [hact, heq]
      exact hshaped
    · refine h.shapedAlong_of_written hlevels hcursor hsame (fun location htouches =>
        (h.touches_own_or_off hlevels halone hevent htouches).imp And.right id) ?_ hsub hobjects
        hshaped
      rw [hact, heq, (h.refreshAll_kept hlevels surroundings hcursor change { state with record }
        (h.upTo_fits hlevels hcursor).1).1]
      exact hwritten.locate?_self
  · refine h.shapedAlong_of_same hlevels hsame
      (fun location htouches => h.touches_at_or_off hlevels halone hevent htouches) hshaped
      fun inner hinner hbefore part hpart => hbefore part ?_
    rw [← h.act_instance hlevels halone hevent hinner ?_ state]
    · exact hpart
    · rintro haction rfl
      exact hown ⟨haction, hinner⟩

end Event

/-! ## The values that a call folds -/

/-- The values that a call can fold below an element: those that stand there and, for every instance
of the attachment, those that come in. -/
def budget (environment : Environment) (attachment : ResolvedPath) (resolved : Resolved)
    (record : Json) (delta : Delta) (element : Cursor) : List Json :=
  (record.reach element (attachment.loops.drop resolved.target.depth)).flatMap fun inner =>
    valuesAt environment attachment resolved record inner ++
      (Attached.incoming delta).map (valueOf environment resolved)

/-- The values that a call folds below an element are folded exactly. -/
def Affords (environment : Environment) (attachment : ResolvedPath) (resolved : Resolved)
    (record : Json) (delta : Delta) : Prop :=
  rebuilds delta = false → ∀ element ∈ record.reach {} resolved.target.loops,
    Exact (budget environment attachment resolved record delta element)

instance (environment : Environment) (attachment : ResolvedPath) (resolved : Resolved)
    (record : Json) (delta : Delta) :
    Decidable (Affords environment attachment resolved record delta) :=
  inferInstanceAs (Decidable (_ → _))

section Values

variable (hlevels : blueprint.LevelsDeclared)
  (h : Coverage blueprint join attachment resolved)
  (halone : blueprint.metadata.Alone store join resolved.aggregate.target)
  {events : List (Event Action)} (hevents : ∀ event ∈ events, FromJoin blueprint store event)

include hlevels h halone hevents

/-- A call writes instances, and off the way of the aggregate. -/
theorem perform_sameOutside (state : State) :
    Json.SameOutside (fun location => At attachment location ∨ Off attachment resolved location)
      state.record ((JoinProcedures.machine surroundings).perform events state).record :=
  Machine.perform_induction (JoinProcedures.machine surroundings)
    (fun after => Json.SameOutside
      (fun location => At attachment location ∨ Off attachment resolved location)
      state.record after.record)
    (fun event hevent after hsame => hsame.trans ((act_sameOutside event.action event.cursor
      after).mono fun _ htouches =>
        h.touches_at_or_off hlevels halone (hevents event hevent) htouches))
    (.refl _ _)

/-- Instances whose events are not among those performed stay as they are. -/
theorem perform_instance {inner : Cursor} (hinner : inner.Fits attachment.loops)
    (hne : ∀ event ∈ events, event.cursor = inner →
      event.action.attachesTo attachment.leaf = false) (state : State) :
    ((JoinProcedures.machine surroundings).perform events state).record.locate?
        (inner.below attachment.leaf) = state.record.locate? (inner.below attachment.leaf) := by
  refine Machine.perform_congr (JoinProcedures.machine surroundings)
    (fun state : State => state.record.locate? (inner.below attachment.leaf))
    (fun event hevent state => ?_) state
  refine h.act_instance hlevels halone (hevents event hevent) hinner ?_ state
  intro haction hcursor
  have hattaches := hne event hevent hcursor
  rw [haction] at hattaches
  exact absurd (decide_eq_false_iff_not.mp hattaches) (fun hnot => hnot rfl)

/-- An instance whose event is performed once at most holds records that it held before, and some
that come in. -/
theorem perform_items {inner : Cursor} (hinner : inner.Fits attachment.loops)
    (honce : events.countP (fun event =>
      decide (event.cursor = inner) && event.action.attachesTo attachment.leaf) ≤ 1)
    (state : State) :
    (((JoinProcedures.machine surroundings).perform events state).record.itemsAt
        (inner.below attachment.leaf)).Subperm
      (state.record.itemsAt (inner.below attachment.leaf) ++
        Attached.incoming surroundings.delta) := by
  by_cases hown : ∃ event ∈ events, event.cursor = inner ∧
      event.action.attachesTo attachment.leaf = true
  · -- what comes before and after that one event does not touch the instance
    obtain ⟨⟨action, cursor⟩, hevent, rfl, hattaches⟩ := hown
    obtain ⟨front, back, rfl, hothers⟩ :=
      Machine.exists_split_of_countP_le (Action.attachesTo attachment.leaf) hattaches hevent honce
    have hfront : ∀ event ∈ front, FromJoin blueprint store event := fun event hmem =>
      hevents event (hothers event (List.mem_append_left _ hmem)).1
    have hback : ∀ event ∈ back, FromJoin blueprint store event := fun event hmem =>
      hevents event (hothers event (List.mem_append_right _ hmem)).1
    rw [Machine.perform_append]
    show (((JoinProcedures.machine surroundings).perform back (act surroundings action cursor
      ((JoinProcedures.machine surroundings).perform front state))).record.itemsAt _).Subperm _
    rw [Json.itemsAt_eq_of_locate? (h.perform_instance hlevels halone hback hinner
      (fun event hmem => (hothers event (List.mem_append_right _ hmem)).2) _)]
    obtain ⟨middle, hmiddle⟩ : ∃ middle,
        (JoinProcedures.machine surroundings).perform front state = middle := ⟨_, rfl⟩
    have hbefore : ((JoinProcedures.machine surroundings).perform front state).record.locate?
        (cursor.below attachment.leaf) = state.record.locate? (cursor.below attachment.leaf) :=
      h.perform_instance hlevels halone hfront hinner
        (fun event hmem => (hothers event (List.mem_append_left _ hmem)).2) state
    rw [hmiddle] at hbefore ⊢
    have haction : action = own blueprint join attachment :=
      h.own_of_attachesTo hlevels halone (hevents _ hevent) hinner hattaches
    rw [← Json.itemsAt_eq_of_locate? hbefore, haction]
    exact h.attach_items hlevels surroundings hinner middle
  · have hnone : ∀ event ∈ events, event.cursor = inner →
        event.action.attachesTo attachment.leaf = false := fun event hevent hcursor => by
      cases hattaches : event.action.attachesTo attachment.leaf with
      | false => rfl
      | true => exact absurd ⟨event, hevent, hcursor, hattaches⟩ hown
    rw [Json.itemsAt_eq_of_locate? (h.perform_instance hlevels halone hevents hinner hnone state)]
    exact (List.sublist_append_left _ _).subperm

/-- Whatever events a call has performed, it has put values together that it affords. -/
theorem perform_values (helement : element.Fits resolved.target.loops)
    (honce : ∀ inner : Cursor, inner.Fits attachment.loops → events.countP (fun event =>
      decide (event.cursor = inner) && event.action.attachesTo attachment.leaf) ≤ 1)
    (state : State) :
    (resolved.values surroundings.toEnvironment
        ((JoinProcedures.machine surroundings).perform events state).record element).Subperm
      (budget surroundings.toEnvironment attachment resolved state.record surroundings.delta
        element) := by
  have hsame : Json.SameOutside _ state.record
      ((JoinProcedures.machine surroundings).perform events state).record :=
    h.perform_sameOutside hlevels halone hevents state
  rw [h.values_eq hlevels, h.reach_eq hlevels hsame (fun _ htouched => htouched) helement, budget]
  refine subperm_flatMap fun inner hinner => ?_
  have hfits : inner.Fits attachment.loops := by
    have hboth := (Json.under_of_mem_reach hinner).fits helement
    rwa [← h.attachment_loops hlevels] at hboth
  rw [valuesAt, valuesAt, ← List.map_append]
  exact subperm_map _ (h.perform_items hlevels halone hevents hfits (honce inner hfits) state)

end Values

/-! ## The aggregate in the course of a call -/

/-- The instances of the attachment below an element are those of before, and so are the values that
are folded and the target. -/
structure Unchanged (environment : Environment) (attachment : ResolvedPath) (resolved : Resolved)
    (before after : Json) (element : Cursor) : Prop where
  instances : ∀ inner : Cursor, inner.Fits attachment.loops →
    inner.upTo resolved.target.depth = element →
      after.locate? (inner.below attachment.leaf) = before.locate? (inner.below attachment.leaf)
  values : resolved.values environment after element = resolved.values environment before element
  target : after.locate? (element.below resolved.target.leaf) =
    before.locate? (element.below resolved.target.leaf)

/-- What is persisted for an element is the fold of the values below it, and its target shows the
fold unless nothing has changed since `before`. -/
structure Settled (environment : Environment) (kind : AggregateKind) (attachment : ResolvedPath)
    (resolved : Resolved) (before : Json) (state : State) (element : Cursor) : Prop where
  kept : Kept environment kind resolved state element
  owns : resolved.Owns state.record element ↔ resolved.Owns before element
  shown : resolved.Owns state.record element →
    Shown environment kind resolved state.record element ∨
      Unchanged environment attachment resolved before state.record element

section Settled

variable (hlevels : blueprint.LevelsDeclared) (htidy : blueprint.metadata.Tidy)
  (h : Coverage blueprint join attachment resolved)
  (halone : blueprint.metadata.Alone store join resolved.aggregate.target)
  (hfaithful : kind.Faithful)
  (hkind : surroundings.kinds.get? resolved.aggregate.op = some kind)
  (hobjects : ∀ record ∈ Attached.incoming surroundings.delta, record.isObject = true)

include hlevels htidy h halone

/-- An event that does not concern an element leaves it settled. -/
theorem settled_other {event : Event Action} (hevent : FromJoin blueprint store event)
    (helement : element.Fits resolved.target.loops)
    (hne : event.action = own blueprint join attachment →
      event.cursor.upTo resolved.target.depth ≠ element) {before : Json} {state : State}
    (hsettled : Settled surroundings.toEnvironment kind attachment resolved before state element) :
    Settled surroundings.toEnvironment kind attachment resolved before
      (act surroundings event.action event.cursor state) element := by
  have hvalues : resolved.values surroundings.toEnvironment
      (act surroundings event.action event.cursor state).record element =
        resolved.values surroundings.toEnvironment state.record element :=
    h.act_values hlevels halone hevent surroundings.toEnvironment helement hne state
  obtain ⟨htarget, hstates⟩ :
      (act surroundings event.action event.cursor state).record.locate?
          (element.below resolved.target.leaf) =
        state.record.locate? (element.below resolved.target.leaf) ∧
      Fields.get? (act surroundings event.action event.cursor state).states
          (element.below resolved.target.leaf).pointer =
        Fields.get? state.states (element.below resolved.target.leaf).pointer :=
    h.act_target hlevels htidy halone hevent helement hne state
  have howns : resolved.Owns (act surroundings event.action event.cursor state).record element ↔
      resolved.Owns state.record element := h.act_owns hlevels htidy halone hevent helement state
  constructor
  · intro folded hfolded
    rw [hstates] at hfolded
    rw [hvalues]
    exact hsettled.kept folded hfolded
  · exact howns.trans hsettled.owns
  · intro howns'
    -- nothing that either alternative speaks of has been changed
    rcases hsettled.shown (howns.mp howns') with hshown | hsame
    · refine .inl ?_
      rw [Shown, htarget, hvalues]
      exact hshown
    · refine .inr ⟨fun inner hinner hupTo => ?_, hvalues.trans hsame.values,
        htarget.trans hsame.target⟩
      rw [h.act_instance hlevels halone hevent hinner (fun haction hcursor =>
        hne haction (hcursor ▸ hupTo)) state]
      exact hsame.instances inner hinner hupTo

/-- The attachment's action concerns an element at an instance below it only. -/
theorem fits_of_own {event : Event Action} (hevent : FromJoin blueprint store event)
    (haction : event.action = own blueprint join attachment)
    (helement : (event.cursor.upTo resolved.target.depth).Fits resolved.target.loops) :
    event.cursor.Fits attachment.loops := by
  obtain ⟨other, hother, loops, hstands, hfits⟩ := hevent
  obtain ⟨front, back, hsplit, -⟩ := h.exists_inlined hlevels htidy
  have htouches : event.action.Touches event.cursor
      (event.cursor.place resolved.target.depth resolved.target.leaf) := by
    rw [haction]
    refine .inr ⟨inlined attachment resolved, ?_, rfl⟩
    rw [hsplit]
    exact List.mem_append_right _ List.mem_cons_self
  rcases h.touches_target hlevels htidy halone hother hstands hfits htouches with
    ⟨-, hcursor, -⟩ | hapart
  · exact hcursor
  · exact absurd (Cursor.place_eq event.cursor resolved.target.depth resolved.target.leaf ▸
      List.prefix_refl _) (hapart _ helement).1

omit htidy in
/-- The attachment's action comes from the attachment. -/
theorem mem_of_own {event : Event Action} (hevent : FromJoin blueprint store event)
    (haction : event.action = own blueprint join attachment)
    (hcursor : event.cursor.Fits attachment.loops) :
    join ∈ blueprint.metadata.joinsOf store := by
  obtain ⟨other, hother, loops, hstands, hfits⟩ := hevent
  generalize event.action = action at haction hstands
  cases hstands with
  | @attachment resolved' _ hleads _ =>
    have hleaf : resolved'.leaf = attachment.leaf := by
      injection haction with hattached
      exact congrArg Attachment.leaf hattached
    have hnames : segments other.path = segments join.path := by
      rw [← (Blueprint.leads_of_lenient hlevels hleads).2.2, ← h.attachment_names hlevels,
        ← ResolvedPath.names_below hfits, ← ResolvedPath.names_below hcursor, hleaf]
    exact halone.eq hother (.inl ⟨[], by rw [hnames, List.append_nil]⟩) ▸ hother
  | feed => cases haction

include hfaithful hkind hobjects

/-- The event of an instance settles the element around it. -/
theorem settled_own (hevent : FromJoin blueprint store ⟨own blueprint join attachment, cursor⟩)
    (hcursor : cursor.Fits attachment.loops) {before : Json} {state : State}
    (hshaped : Json.shapedAlong attachment.leaf attachment.loops state.record = true)
    (hexact : rebuilds surroundings.delta = false →
      cursor.upTo resolved.target.depth ∈ state.record.reach {} resolved.target.loops →
      Exact (resolved.values surroundings.toEnvironment state.record
        (cursor.upTo resolved.target.depth)) ∧
      Exact (resolved.values surroundings.toEnvironment
        (act surroundings (own blueprint join attachment) cursor state).record
        (cursor.upTo resolved.target.depth)))
    (hsettled : Settled surroundings.toEnvironment kind attachment resolved before state
      (cursor.upTo resolved.target.depth)) :
    Settled surroundings.toEnvironment kind attachment resolved before
      (act surroundings (own blueprint join attachment) cursor state)
      (cursor.upTo resolved.target.depth) := by
  obtain ⟨helement, hunder⟩ := h.upTo_fits hlevels hcursor
  -- nothing is written where no object holds the instance
  rcases h.attach_cases surroundings cursor state with
    heq | ⟨change, record, items, heq, hwritten, hpresent, hsub, hperm⟩
  · rw [show act surroundings (own blueprint join attachment) cursor state = state from heq]
    exact hsettled
  replace heq : act surroundings (own blueprint join attachment) cursor state =
    refreshAll surroundings (attachmentAt blueprint join attachment).inlined cursor change
      { state with record } := heq
  have hvalues := (h.refreshAll_kept hlevels surroundings hcursor change { state with record }
    helement).2
  rw [← heq] at hvalues
  obtain ⟨hstate, hshows⟩ := h.attach_settles hlevels htidy hfaithful hkind hobjects hcursor hshaped
    hsettled.kept hwritten hpresent hsub (fun hrebuilds => by
      have hreach : cursor.upTo resolved.target.depth ∈
          state.record.reach {} resolved.target.loops := by
        obtain ⟨rest, hrest⟩ := Cursor.element_above hunder.entered_above
        rw [← hrest] at hpresent
        exact Json.mem_reach_root.mpr ⟨helement, Json.locate?_isSome_of_append hpresent⟩
      obtain ⟨hbefore, hafter⟩ := hexact hrebuilds hreach
      rw [hvalues] at hafter
      exact ⟨hbefore, hafter, hperm hrebuilds⟩) heq
  have howns : resolved.Owns
      (act surroundings (own blueprint join attachment) cursor state).record
        (cursor.upTo resolved.target.depth) ↔
      resolved.Owns state.record (cursor.upTo resolved.target.depth) :=
    h.act_owns hlevels htidy halone hevent helement state
  constructor
  · intro folded hfolded
    exact Option.some.inj (hfolded.symm.trans hstate)
  · exact howns.trans hsettled.owns
  · intro howns'
    exact .inl (hshows (howns.mp howns'))

/-- Every event of a call leaves every element settled. -/
theorem settled_perform {events : List (Event Action)} {state : State}
    (hshaped : Json.shapedAlong attachment.leaf attachment.loops state.record = true)
    (haffords : join ∈ blueprint.metadata.joinsOf store →
      Affords surroundings.toEnvironment attachment resolved state.record surroundings.delta)
    (hkept : ∀ element : Cursor, element.Fits resolved.target.loops →
      Kept surroundings.toEnvironment kind resolved state element)
    (hevents : ∀ event ∈ events, FromJoin blueprint store event)
    (honce : ∀ inner : Cursor, inner.Fits attachment.loops → events.countP (fun event =>
      decide (event.cursor = inner) && event.action.attachesTo attachment.leaf) ≤ 1) :
    Json.shapedAlong attachment.leaf attachment.loops
        ((JoinProcedures.machine surroundings).perform events state).record = true ∧
      ∀ element : Cursor, element.Fits resolved.target.loops →
        Settled surroundings.toEnvironment kind attachment resolved state.record
          ((JoinProcedures.machine surroundings).perform events state) element := by
  -- from the left: what an event does is seen in the state that those before it have left
  induction events using List.reverseRecOn with
  | nil =>
    refine ⟨hshaped, fun element helement => ⟨hkept element helement, Iff.rfl, fun _ => .inr ?_⟩⟩
    exact ⟨fun _ _ _ => rfl, rfl, rfl⟩
  | append_singleton front event ih =>
    have hfront : ∀ other ∈ front, FromJoin blueprint store other := fun other hother =>
      hevents other (List.mem_append_left _ hother)
    have honceFront : ∀ inner : Cursor, inner.Fits attachment.loops → front.countP (fun event =>
        decide (event.cursor = inner) && event.action.attachesTo attachment.leaf) ≤ 1 :=
      fun inner hinner => Nat.le_trans
        (List.Sublist.countP_le (List.sublist_append_left front [event])) (honce inner hinner)
    have hevent := hevents event (List.mem_append_right _ (List.mem_singleton_self event))
    obtain ⟨hshapedFront, hsettled⟩ := ih hfront honceFront
    have hlast : (JoinProcedures.machine surroundings).perform (front ++ [event]) state =
        act surroundings event.action event.cursor
          ((JoinProcedures.machine surroundings).perform front state) := by
      rw [Machine.perform_append]
      rfl
    refine ⟨?_, fun element helement => ?_⟩
    · rw [hlast]
      exact h.act_shaped hlevels halone hevent hobjects hshapedFront
    · by_cases hown : event.action = own blueprint join attachment ∧
          event.cursor.upTo resolved.target.depth = element
      · -- the event of an instance below the element: the one that may change its values
        obtain ⟨haction, rfl⟩ := hown
        have hcursor := h.fits_of_own hlevels htidy halone hevent haction helement
        have hsame : Json.SameOutside _ state.record
            ((JoinProcedures.machine surroundings).perform front state).record :=
          h.perform_sameOutside hlevels halone hfront state
        have hreach := h.reach_target hlevels hsame fun _ htouched => htouched
        have hvalues : (resolved.values surroundings.toEnvironment
            ((JoinProcedures.machine surroundings).perform front state).record _).Subperm _ :=
          h.perform_values hlevels halone hfront helement honceFront state
        have hvalues' : (resolved.values surroundings.toEnvironment
            ((JoinProcedures.machine surroundings).perform (front ++ [event]) state).record
              _).Subperm _ :=
          h.perform_values hlevels halone hevents helement honce state
        obtain ⟨action, cursor⟩ := event
        obtain rfl : action = own blueprint join attachment := haction
        rw [hlast] at hvalues' ⊢
        refine h.settled_own hlevels htidy halone hfaithful hkind hobjects hevent hcursor
          hshapedFront (fun hrebuilds hmem => ?_) (hsettled _ helement)
        have hjoin := h.mem_of_own hlevels halone hevent rfl hcursor
        have hexact := haffords hjoin hrebuilds _ (hreach ▸ hmem)
        exact ⟨hexact.subperm hvalues, hexact.subperm hvalues'⟩
      · rw [hlast]
        exact h.settled_other hlevels htidy halone hevent helement
          (fun haction hupTo => hown ⟨haction, hupTo⟩) (hsettled element helement)

/-- A call leaves every element settled. -/
theorem run_settles {procedures : JoinProcedures}
    (hcompile : JoinProcedures.compile blueprint store = .ok procedures) {record : Json}
    {states : AggregateStates}
    (hshaped : Json.shapedAlong attachment.leaf attachment.loops record = true)
    (haffords : join ∈ blueprint.metadata.joinsOf store →
      Affords surroundings.toEnvironment attachment resolved record surroundings.delta)
    (hkept : ∀ element : Cursor, element.Fits resolved.target.loops →
      Kept surroundings.toEnvironment kind resolved { record, states } element) :
    Json.shapedAlong attachment.leaf attachment.loops
        (procedures.run surroundings record states).record = true ∧
      ∀ element : Cursor, element.Fits resolved.target.loops →
        Settled surroundings.toEnvironment kind attachment resolved record
          (procedures.run surroundings record states) element := by
  obtain ⟨events, hrun, htraced, hfrom⟩ :=
    JoinProcedures.exists_events hcompile surroundings record states
  rw [hrun]
  refine h.settled_perform hlevels htidy halone hfaithful hkind hobjects hshaped haffords hkept
    hfrom
    fun inner hinner => ?_
  refine Nat.le_trans (htraced.once (Action.attachesTo attachment.leaf) inner) ?_
  refine Nat.le_trans (countP_attachesTo_le hlevels hcompile h.leads hinner surroundings.delta) ?_
  refine Nat.le_trans ?_ halone.length_le
  rw [← List.countP_eq_length_filter]
  refine List.countP_mono_left fun other _ hother => ?_
  exact decide_eq_true (.inl (of_decide_eq_true hother).2)

end Settled

end Coverage

end NestedRecord
