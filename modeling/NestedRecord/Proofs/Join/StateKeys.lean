import NestedRecord.Proofs.Join.Territory
import NestedRecord.Proofs.Json.Pointer

/-!
# Keys of persisted states

The state of an aggregate is persisted under the pointer of its target in one element. A pointer can
be read back, though it does not tell keys from indices; the graph does, so two targets or two
elements never share a key.

* `Cursor.unescape_pointerAt`: a pointer at a cursor is read as the names and positions on the way.
* `Joining.StateAt` says under which key an event persists the state of a target in the element with
  given positions, `Joining.StateUnder` says so of the calls of a store.
* `Store.StatesApart`: calls change no other states, and keys are not shared.
  `Store.pointers_identify_states` is the result.

A pointer alone would not do as a key: `/a/0` may be the position of an element or a member of that
name. Both readings are never declared at once. The names on the way lead to one target, whose lists
say which of the steps are positions.
-/

namespace NestedRecord

open Fields (get?)
open Location (unescape)

namespace Cursor

/-- The names and positions on the way to names below the element of the list number `depth`. -/
def way (cursor : Cursor) (depth : Nat) (names : List String) : List String :=
  (cursor.entered.take depth).flatMap (fun entered =>
    entered.access ++ [Numeral.natText entered.index]) ++ names

/-- The names on the way to a place, positions as numbers. -/
theorem name_place (cursor : Cursor) (depth : Nat) (names : List String) :
    (cursor.place depth names).map Step.name = cursor.way depth names := by
  have hkeys : ∀ names : List String, (names.map Step.key).map Step.name = names := by
    intro names
    rw [List.map_map]
    exact List.map_id names
  rw [place, location, way, List.map_append, hkeys, List.map_flatMap]
  refine congrArg (· ++ names) (List.flatMap_congr fun entered _ => ?_)
  rw [Entered.location, List.map_append, hkeys]
  rfl

/-- A pointer at a cursor is read as the names and positions on the way, whichever lists the cursor
has entered and left and whatever the names are. -/
theorem unescape_pointerAt (cursor : Cursor) (depth : Nat) (names : List String) :
    (splitAtChar '/' (cursor.pointerAt depth names).toList).map unescape =
      "" :: cursor.way depth names := by
  rw [pointerAt_eq, Location.unescape_pointer, name_place]

end Cursor

namespace Joining

open JoinProcedures (machine)

variable {blueprint : Blueprint} {store store' target target' key : String}
  {indices indices' : List Nat} {event : Event Action} {surroundings : Surroundings}

/-- An event persists the state of a target under a key: that of the target in the element with
these positions in the lists around the target. -/
inductive StateAt : Event Action → String → List Nat → String → Prop
  | inlined {attachment : Attachment} {cursor : Cursor} {inlined : Inlined}
      (kept : inlined ∈ attachment.inlined) : StateAt ⟨.attach attachment, cursor⟩ inlined.target
        ((cursor.entered.take inlined.depth).map (·.index))
        (cursor.pointerAt inlined.depth inlined.targetLeaf)
  | feed {feed : Feed} {cursor : Cursor} : StateAt ⟨.feed feed, cursor⟩ feed.aggregate.target
      (cursor.entered.map (·.index)) (cursor.pointerAt cursor.depth feed.leaf)

/-- Calls of a store persist the state of a target under a key. -/
def StateUnder (blueprint : Blueprint) (store target : String) (indices : List Nat)
    (key : String) : Prop :=
  ∃ event, FromJoin blueprint store event ∧ StateAt event target indices key

/-- Every state that an event persists is that of a target. -/
theorem exists_stateAt {place : Location} (h : event.action.Persists event.cursor place) :
    ∃ target indices, StateAt event target indices place.pointer := by
  obtain ⟨action, cursor⟩ := event
  cases action with
  | attach attachment =>
    obtain ⟨inlined, hkept, rfl⟩ := h
    exact ⟨_, _, .inlined hkept⟩
  | feed feed =>
    obtain rfl : place = cursor.below feed.leaf := h
    rw [← cursor.place_depth]
    exact ⟨_, _, .feed⟩

/-- The state of a target is kept where the target stands in the element. -/
theorem StateUnder.exists_cursor (h : StateUnder blueprint store target indices key) :
    ∃ resolved, blueprint.resolveStrict target = .ok resolved ∧ resolved.isScalar = true ∧
      ∃ cursor : Cursor, cursor.Fits resolved.loops ∧ cursor.entered.map (·.index) = indices ∧
        key = (cursor.below resolved.leaf).pointer := by
  obtain ⟨⟨action, cursor⟩, ⟨join, hjoin, loops, hstands, hfits⟩, hstate⟩ := h
  cases hstands with
  | @attachment attached hattaches hleads hlevel =>
    cases hstate with
    | @inlined _ _ inlined hkept =>
      obtain ⟨aggregate, -, hinlined⟩ := List.mem_filterMap.mp hkept
      obtain ⟨rest, resolved, -, htarget, hscalar, hscope, rfl⟩ := inlined?_eq_some hinlined
      refine ⟨resolved, htarget, hscalar, cursor.upTo resolved.depth, ?_, rfl, rfl⟩
      -- the target stands in lists around the attachment, so the cursor of the attachment leads to
      -- its element as well
      have htake : attached.loops.take resolved.depth = resolved.loops :=
        (List.prefix_iff_eq_take.mp hscope).symm
      rw [← htake]
      exact hfits.upTo resolved.depth
  | feed hfeeds hregistered htarget hleads hscalar =>
    cases hstate with
    | feed =>
      refine ⟨_, hleads, hscalar, cursor, hfits, rfl, ?_⟩
      rw [Cursor.pointerAt_eq, Cursor.place_depth]

/-- Two states are kept under one key only if they belong to one target in one element. -/
theorem StateUnder.unique (hlevels : blueprint.LevelsDeclared)
    (h : StateUnder blueprint store target indices key)
    (h' : StateUnder blueprint store' target' indices' key) :
    target = target' ∧ indices = indices' := by
  obtain ⟨resolved, hleads, hscalar, cursor, hfits, rfl, rfl⟩ := h.exists_cursor
  obtain ⟨resolved', hleads', hscalar', cursor', hfits', rfl, hpointer⟩ := h'.exists_cursor
  have hvalue : blueprint.ValueAt target (cursor.below resolved.leaf) :=
    ⟨resolved, hleads, hscalar, cursor, hfits, rfl⟩
  have hvalue' : blueprint.ValueAt target' (cursor'.below resolved'.leaf) :=
    ⟨resolved', hleads', hscalar', cursor', hfits', rfl⟩
  -- the graph tells keys from indices, so one pointer is one place
  have hplace := hvalue.eq_of_pointer hlevels hvalue' hpointer
  have hstart : cursor.below resolved.leaf <+: cursor'.below resolved'.leaf :=
    hplace ▸ List.prefix_rfl
  obtain ⟨rfl, -⟩ := hvalue.eq_of_above hlevels hvalue' hstart
  obtain rfl := Except.ok.inj (hleads.symm.trans hleads')
  exact ⟨rfl, by rw [Cursor.eq_of_above hfits hfits' hstart]⟩

/-- Events of a store change only states that its calls persist. -/
theorem exists_state_of_perform {events : List (Event Action)} {state : State}
    (hevents : ∀ event ∈ events, FromJoin blueprint store event)
    (h : get? ((machine surroundings).perform events state).states key ≠ get? state.states key) :
    ∃ target indices, StateUnder blueprint store target indices key := by
  by_contra hnone
  refine h (Machine.perform_congr (machine surroundings) (fun state => get? state.states key)
    (fun event hevent state => act_states event.action event.cursor state ?_) state)
  rintro place hpersists rfl
  obtain ⟨target, indices, hstate⟩ := exists_stateAt hpersists
  exact hnone ⟨target, indices, event, hevents event hevent, hstate⟩

end Joining

namespace Store

open Joining

variable {store : Store} {environment : Environment} {key : String}

/-- A call changes only states of targets. -/
theorem exists_state_of_received (hstore : store.IsCompiled) {state : State}
    {call : String × Delta}
    (h : get? (store.received environment state call).states key ≠ get? state.states key) :
    ∃ target indices, StateUnder store.blueprint call.1 target indices key := by
  cases hjoined : store.joined? call.1 with
  | none =>
    rw [received_of_not_joined hjoined] at h
    exact absurd rfl h
  | some procedures =>
    rw [received_of_joined hjoined] at h
    obtain ⟨events, hrun, -, hfrom⟩ := JoinProcedures.exists_events (hstore.of_joined? hjoined)
      { environment with delta := call.2, identityKey := store.config.identityKey }
      state.record state.states
    rw [hrun] at h
    exact exists_state_of_perform hfrom h

/-- Calls of whatever stores change only states of targets. -/
theorem exists_state_of_receive (hstore : store.IsCompiled) {calls : List (String × Delta)} :
    ∀ (state : State),
      get? (store.receive environment calls state).states key ≠ get? state.states key →
        ∃ call ∈ calls, ∃ target indices, StateUnder store.blueprint call.1 target indices key := by
  induction calls with
  | nil => exact fun _ h => absurd rfl h
  | cons call rest ih =>
    intro state h
    -- either the first call has changed the state or a later one
    by_cases hfirst : get? (store.received environment state call).states key =
        get? state.states key
    · obtain ⟨other, hother, hstate⟩ := ih (store.received environment state call) (hfirst ▸ h)
      exact ⟨other, List.mem_cons_of_mem _ hother, hstate⟩
    · exact ⟨call, List.mem_cons_self, exists_state_of_received hstore hfirst⟩

/-- The states of a store are told apart by their keys. -/
structure StatesApart (store : Store) : Prop where
  /-- calls change only states of targets, each in an element with some positions -/
  changed : ∀ environment calls state key,
    get? (store.receive environment calls state).states key ≠ get? state.states key →
      ∃ call ∈ calls, ∃ target indices, StateUnder store.blueprint call.1 target indices key
  /-- different targets, and one target in different elements, have different keys -/
  apart : ∀ foreign foreign' target target' indices indices' key,
    StateUnder store.blueprint foreign target indices key →
      StateUnder store.blueprint foreign' target' indices' key →
        target = target' ∧ indices = indices'

theorem IsCompiled.statesApart (hstore : store.IsCompiled) : store.StatesApart where
  changed _ _ state _ := exists_state_of_receive hstore state
  apart _ _ _ _ _ _ _ h h' := h.unique hstore.levelsDeclared h'

/-- Pointers can be read back, and the states of a store are told apart by them. -/
theorem pointers_identify_states :
    (∀ (cursor : Cursor) (depth : Nat) (names : List String),
      (splitAtChar '/' (cursor.pointerAt depth names).toList).map unescape =
        "" :: cursor.way depth names) ∧
      ∀ store : Store, store.IsCompiled → store.StatesApart :=
  ⟨Cursor.unescape_pointerAt, fun _ => IsCompiled.statesApart⟩

/-- Stalls with tills, what each till has sold and pays in fees, and what all of them have sold. -/
def stallWithTills : Descriptor :=
  .mk [("id", .tuple [.word "int", .word "<<stall>>"]),
    ("all~", .tuple [.word "number", .word "sum", .word "till/s.sales.amount"]),
    ("till/s", .tuple [.word "array", .nested (.mk [
      ("id", .tuple [.word "int", .word "<<till>>"]),
      ("sold", .tuple [.word "number", .word "sum", .word "sales.amount"]),
      ("~1", .tuple [.word "number", .word "sum", .word "@fees.amount"]),
      ("sales", .tuple [.word "array", .word "@sales"])])])]

def stalls : Store := compiled "stalls" stallWithTills (by decide +kernel)

/-- A stall with two tills, one of which has sold something. -/
def stall : Json :=
  .object [("id", .ofNat 1), ("till/s", .array [
    .object [("id", .ofNat 1), ("sales", .array [order "a" 10])],
    .object [("id", .ofNat 2), ("sales", .array [])]])]

/-- The states of the stall, one for each target in each element. -/
theorem pointers_identify_states_stalls :
    stalls.StatesApart ∧
      Fields.keys (stalls.receive {} [("sales", .insert (order "b" 5)),
        ("fees", .insert (order "c" 1))] { record := stall, states := [] }).states =
          ["/all~0", "/till~1s/0/sold", "/till~1s/1/sold", "/till~1s/0/~01", "/till~1s/1/~01"] ∧
      (splitAtChar '/' "/till~1s/1/~01".toList).map unescape = ["", "till/s", "1", "~1"] :=
  ⟨pointers_identify_states.2 stalls (isCompiled_compiled _ _ _), by decide +kernel,
    pointers_identify_states.1 ⟨[⟨["till/s"], 1⟩]⟩ 1 ["~1"]⟩

end Store

end NestedRecord
