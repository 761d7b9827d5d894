import Mathlib.Data.List.Perm.Basic
import Mathlib.Data.List.Nodup
import NestedRecord.Proofs.Json.Overwrite
import NestedRecord.Record.Transform

/-!
# Calls of hooks

A transformation rewrites a record while it goes through it, and calls hooks on the way. Here it is
written down once more together with the calls that it makes, so that something can be said of them.

The transformation itself only returns a record and its reports. The traced one returns the calls
instead of the reports, each with its place and the value that it was given, and the reports are
read off them; so a statement about calls is one about the transformation. A call is known by what
the hook is given, which is enough to know what it returns.

* `Fields.updates` changes some members one after the other. `updates_perm`: if they are different
  ones, the order does not matter.
* `HookCall` is one call of a hook; what it leaves and reports is known from the call.
* `Transformer.tracedAttributes` goes the way of `Transformer.attributes` and lists the calls.
  `attributes_eq_traced`: it makes the same object, and the calls account for all reports.
* `Transformer.tracedMember` is what happens to one value. `tracedAttributes_fst` and
  `tracedAttributes_snd` take an object apart into its members.
* `Flattened.traced` is the transformation of a record with its calls.
-/

namespace NestedRecord

open Fields (get?)

/-! ## Members one after the other -/

namespace Fields

variable {α : Type} {changes changes' : List (String × (α → α))} {fields : Fields α} {key : String}
  {f : α → α}

/-- Changes the values of some keys, one after the other. -/
def updates (changes : List (String × (α → α))) (fields : Fields α) : Fields α :=
  changes.foldl (fun fields change => update change.2 fields change.1) fields

@[simp] theorem updates_nil (fields : Fields α) : updates [] fields = fields := rfl

@[simp] theorem updates_cons (change : String × (α → α)) (fields : Fields α) :
    updates (change :: changes) fields = updates changes (update change.2 fields change.1) := rfl

/-- To write what a value becomes is to change it. -/
theorem set_eq_update_of_get? {value : α} (h : get? fields key = some value) :
    set fields key (f value) = update f fields key := by
  have hkept : update (fun _ => value) fields key = fields :=
    update_eq_self fun other hother => Option.some.inj (h.symm.trans hother)
  rw [set_eq_update (has_iff.mpr ⟨value, h⟩)]
  conv_rhs => rw [← hkept, update_update]
  rfl

/-- The values of different keys may be changed in any order. -/
theorem updates_perm (h : changes.Perm changes') (hnodup : (changes.map (·.1)).Nodup)
    (fields : Fields α) : updates changes fields = updates changes' fields := by
  refine h.foldl_eq' (fun a ha b hb fields => ?_) fields
  by_cases hkeys : b.1 = a.1
  · -- changes of one key are the same change
    rw [List.inj_on_of_nodup_map hnodup hb ha hkeys]
  · exact update_comm _ _ fields hkeys

/-- Other keys keep their values. -/
theorem get?_updates_of_ne (h : ∀ change ∈ changes, change.1 ≠ key) :
    get? (updates changes fields) key = get? fields key := by
  induction changes generalizing fields with
  | nil => rfl
  | cons change rest ih =>
    obtain ⟨hfirst, hrest⟩ := List.forall_mem_cons.mp h
    rw [updates_cons, ih hrest, get?_update, if_neg (Ne.symm hfirst)]

/-- A key that is changed once has the changed value. -/
theorem get?_updates (hnodup : (changes.map (·.1)).Nodup) {change : String × (α → α)}
    (hmem : change ∈ changes) :
    get? (updates changes fields) change.1 = (get? fields change.1).map change.2 := by
  induction changes generalizing fields with
  | nil => cases hmem
  | cons first rest ih =>
    obtain ⟨hnot, hrest⟩ := List.nodup_cons.mp hnodup
    have hne : ∀ other ∈ rest, other.1 ≠ first.1 := fun other hother heq =>
      hnot (List.mem_map.mpr ⟨other, hother, heq⟩)
    rw [updates_cons]
    rcases List.mem_cons.mp hmem with rfl | hmem
    · rw [get?_updates_of_ne hne, get?_update, if_pos rfl]
    · rw [ih hrest hmem, get?_update, if_neg (hne change hmem)]

/-- Changes that keep all values change nothing. -/
theorem updates_of_fixed (h : ∀ change ∈ changes, ∀ value, get? fields change.1 = some value →
    change.2 value = value) : updates changes fields = fields := by
  induction changes with
  | nil => rfl
  | cons change rest ih =>
    obtain ⟨hfirst, hrest⟩ := List.forall_mem_cons.mp h
    rw [updates_cons, update_eq_self hfirst, ih hrest]

end Fields

theorem Json.nonNull?_eq (value : Json) :
    value.nonNull? = if value.isNull then none else some value := by
  cases value <;> rfl

/-! ## Calls -/

/-- A call of a hook. -/
structure HookCall where
  /-- where the value stands in the record -/
  place : Location
  /-- the path under which the hook is noted -/
  path : String
  hook : Hook
  value : Json
  /-- the record that the hook gets beside the value -/
  context : Json

namespace HookCall

/-- What is left in place of the value; a hook that fails leaves null. -/
def replacement (call : HookCall) : Json :=
  match call.hook.apply call.value call.context with
  | .ok replacement => replacement
  | .error _ => .null

/-- What is reported of the call. -/
def journal (call : HookCall) : Journal :=
  match call.hook.apply call.value call.context with
  | .ok _ => []
  | .error reason =>
    let failure : HandlerFailure := ⟨"onTransform", call.path, reason⟩
    [.recovered ["onTransform", call.path] failure.message]

/-- A result with the reports of the calls that led to it. -/
def reported {α : Type} (result : α × List HookCall) : α × Journal :=
  (result.1, result.2.flatMap journal)

end HookCall

namespace Transformer

/-- The value after the hook of its path, and the call of the hook. -/
def tracedHook (transformer : Transformer) (path : String) (place : Location) (value : Json) :
    Json × List HookCall :=
  match get? transformer.hooks path with
  | none => (value, [])
  | some hook =>
    let call : HookCall := ⟨place, path, hook, value, transformer.context⟩
    (call.replacement, [call])

/-- An item of a list after the transformation of its attributes, with the calls. -/
def tracedItem (object : Location → List (String × Json) → List (String × Json) × List HookCall)
    (place : Location) (item : Json) : Json × List HookCall :=
  match item with
  | .object members =>
    let (members, calls) := object place members
    (.object members, calls)
  | item => (item, [])

/-- The items of a list from a position on, with the calls. -/
def tracedItems (object : Location → List (String × Json) → List (String × Json) × List HookCall)
    (place : Location) : Nat → List Json → List Json × List HookCall
  | _, [] => ([], [])
  | index, item :: rest =>
    let (item, calls) := tracedItem object (place ++ [.index index]) item
    let (rest, restCalls) := tracedItems object place (index + 1) rest
    (item :: rest, calls ++ restCalls)

mutual

/-- The value of an attribute after the transformations of what stands under it, with the calls. -/
def tracedContent (transformer : Transformer) (conversion : Option Conversion) (path : String)
    (place : Location) : Shape → Json → Json × List HookCall
  | .scalar, value => (converted conversion value, [])
  | .foreign, value => (value, [])
  | .level .object nested, value =>
    match value with
    | .object members =>
      let (members, calls) := tracedAttributes transformer nested nested path place members
      (.object members, calls)
    | value => (value, [])
  | .level .array nested, value =>
    match value with
    | .array list =>
      let (list, calls) :=
        tracedItems (tracedAttributes transformer nested nested path) place 0 list
      (.array list, calls)
    | value => (value, [])
termination_by structural shape => shape

/-- The members of an object at a place after the transformation of its attributes, with the
calls. -/
def tracedAttributes (transformer : Transformer) (level : List (AttributeDecl × Shape)) :
    List (AttributeDecl × Shape) → String → Location → List (String × Json) →
      List (String × Json) × List HookCall
  | [], _, _, members => (members, [])
  | (decl, shape) :: rest, path, place, members =>
    match (get? members decl.name).bind Json.nonNull? with
    | none => tracedAttributes transformer level rest path place members
    | some value =>
      let inner := joinPath path decl.name
      let innerPlace := place ++ [.key decl.name]
      let (value, calls) :=
        tracedContent transformer (Shape.conversion? level decl.name) inner innerPlace shape value
      let (value, hookCalls) := transformer.tracedHook inner innerPlace value
      let (members, restCalls) :=
        tracedAttributes transformer level rest path place (Fields.set members decl.name value)
      (members, calls ++ hookCalls ++ restCalls)
termination_by structural attributes => attributes

end

open HookCall (reported)

variable {transformer : Transformer} {level rest : List (AttributeDecl × Shape)} {path : String}
  {place : Location} {members : List (String × Json)}

/-- The call of a hook accounts for what it leaves and reports. -/
theorem hooked_eq_traced (path : String) (place : Location) (value : Json) :
    transformer.hooked path value = reported (transformer.tracedHook path place value) := by
  rw [hooked, tracedHook]
  cases get? transformer.hooks path with
  | none => rfl
  | some hook =>
    cases houtcome : hook.apply value transformer.context <;>
      simp [reported, HookCall.replacement, HookCall.journal, houtcome]

/-- So do the calls for a list, if those for its items do. -/
theorem items_eq_traced {object : List (String × Json) → List (String × Json) × Journal}
    {traced : Location → List (String × Json) → List (String × Json) × List HookCall}
    (h : ∀ place members, object members = reported (traced place members)) (place : Location)
    (list : List Json) :
    ∀ index, items object list = reported (tracedItems traced place index list) := by
  induction list with
  | nil => exact fun _ => rfl
  | cons item rest ih =>
    intro index
    cases item with
    | object members =>
      simp only [items, tracedItems, tracedItem, ih (index + 1), h (place ++ [.index index])]
      simp [reported]
    | _ => simp [items, tracedItems, tracedItem, ih (index + 1), reported]

mutual

/-- The calls account for what a transformation of a value makes and reports. -/
theorem content_eq_traced : ∀ (shape : Shape) (conversion : Option Conversion) (path : String)
    (place : Location) (value : Json), transformer.content conversion path shape value =
      reported (transformer.tracedContent conversion path place shape value)
  | .scalar, _, _, _, _ => by simp [content, tracedContent, reported]
  | .foreign, _, _, _, _ => by simp [content, tracedContent, reported]
  | .level .object nested, conversion, path, place, value => by
    cases value with
    | object members =>
      simp only [content, tracedContent, attributes_eq_traced nested nested path place members]
      rfl
    | _ => simp [content, tracedContent, reported]
  | .level .array nested, conversion, path, place, value => by
    cases value with
    | array list =>
      simp only [content, tracedContent, items_eq_traced
        (fun place members => attributes_eq_traced nested nested path place members) place list 0]
      rfl
    | _ => simp [content, tracedContent, reported]
termination_by structural shape => shape

/-- The calls account for what a transformation of an object makes and reports. -/
theorem attributes_eq_traced : ∀ (attributes level : List (AttributeDecl × Shape)) (path : String)
    (place : Location) (members : List (String × Json)),
      transformer.attributes level attributes path members =
        reported (transformer.tracedAttributes level attributes path place members)
  | [], _, _, _, _ => by simp [attributes, tracedAttributes, reported]
  | (decl, shape) :: rest, level, path, place, members => by
    rw [attributes, tracedAttributes]
    cases (get? members decl.name).bind Json.nonNull? with
    | none => exact attributes_eq_traced rest level path place members
    | some value =>
      simp only [content_eq_traced shape _ _ (place ++ [.key decl.name]) value,
        hooked_eq_traced _ (place ++ [.key decl.name]), attributes_eq_traced rest level path place]
      simp [reported]
termination_by structural attributes => attributes

end

/-! ## One member -/

/-- A value after the transformation of its attribute, with the calls. Null stays as it is. -/
def tracedMember (transformer : Transformer) (level : List (AttributeDecl × Shape)) (path : String)
    (place : Location) (attr : AttributeDecl × Shape) (value : Json) : Json × List HookCall :=
  if value.isNull then (value, [])
  else
    let inner := joinPath path attr.1.name
    let innerPlace := place ++ [.key attr.1.name]
    let (value, calls) :=
      transformer.tracedContent (Shape.conversion? level attr.1.name) inner innerPlace attr.2 value
    let (value, hookCalls) := transformer.tracedHook inner innerPlace value
    (value, calls ++ hookCalls)

/-- The first attribute changes its member, the others what is left. -/
theorem tracedAttributes_cons (attr : AttributeDecl × Shape) :
    transformer.tracedAttributes level (attr :: rest) path place members =
      let traced := transformer.tracedMember level path place attr
      let (others, calls) := transformer.tracedAttributes level rest path place
        (Fields.update (fun value => (traced value).1) members attr.1.name)
      (others, ((get? members attr.1.name).elim [] fun value => (traced value).2) ++ calls) := by
  obtain ⟨decl, shape⟩ := attr
  rw [tracedAttributes]
  cases hget : get? members decl.name with
  | none => simp [Fields.update_eq_self, hget]
  | some value =>
    simp only [Option.bind_some, Json.nonNull?_eq]
    cases hnull : value.isNull with
    | true =>
      -- a null is left as it is, without a call
      have hfixed : Fields.update (fun value =>
          (transformer.tracedMember level path place (decl, shape) value).1) members decl.name =
            members := by
        refine Fields.update_eq_self fun other hother => ?_
        obtain rfl := Option.some.inj (hget.symm.trans hother)
        simp [tracedMember, hnull]
      simp only [hfixed]
      simp [tracedMember, hnull]
    | false =>
      rw [← Fields.set_eq_update_of_get? hget]
      simp [tracedMember, hnull]

/-- The members of an object change one after the other. -/
theorem tracedAttributes_fst : (transformer.tracedAttributes level rest path place members).1 =
    Fields.updates (rest.map fun attr =>
      (attr.1.name, fun value => (transformer.tracedMember level path place attr value).1))
        members := by
  induction rest generalizing members with
  | nil => rfl
  | cons attr rest ih => rw [tracedAttributes_cons, List.map_cons, Fields.updates_cons, ← ih]

/-- Where names differ, the calls are those for the members that the object has. -/
theorem tracedAttributes_snd (hnodup : (rest.map (·.1.name)).Nodup) :
    (transformer.tracedAttributes level rest path place members).2 = rest.flatMap fun attr =>
      (get? members attr.1.name).elim [] fun value =>
        (transformer.tracedMember level path place attr value).2 := by
  induction rest generalizing members with
  | nil => rfl
  | cons attr rest ih =>
    obtain ⟨hnot, hrest⟩ := List.nodup_cons.mp hnodup
    rw [tracedAttributes_cons, List.flatMap_cons]
    simp only [ih hrest]
    -- the others do not read what the first one has written
    refine congrArg _ (List.flatMap_congr fun other hother => ?_)
    have hne : other.1.name ≠ attr.1.name := fun heq =>
      hnot (List.mem_map.mpr ⟨other, hother, heq⟩)
    rw [Fields.get?_update, if_neg hne]

/-- Where names differ, every attribute changes its own member. -/
theorem get?_tracedAttributes (hnodup : (rest.map (·.1.name)).Nodup) {attr : AttributeDecl × Shape}
    (hmem : attr ∈ rest) :
    get? (transformer.tracedAttributes level rest path place members).1 attr.1.name =
      (get? members attr.1.name).map fun value =>
        (transformer.tracedMember level path place attr value).1 := by
  rw [tracedAttributes_fst]
  refine Fields.get?_updates ?_ (List.mem_map_of_mem hmem)
  rwa [List.map_map]

/-- Members without an attribute stay as they are. -/
theorem get?_tracedAttributes_of_ne {key : String} (h : ∀ attr ∈ rest, attr.1.name ≠ key) :
    get? (transformer.tracedAttributes level rest path place members).1 key = get? members key := by
  rw [tracedAttributes_fst]
  refine Fields.get?_updates_of_ne fun change hchange => ?_
  obtain ⟨attr, hattr, rfl⟩ := List.mem_map.mp hchange
  exact h attr hattr

/-- The items of a list are transformed each on its own. -/
theorem tracedItems_eq
    (object : Location → List (String × Json) → List (String × Json) × List HookCall)
    (place : Location) (list : List Json) : ∀ index, tracedItems object place index list =
      ((list.zipIdx index).map fun item => (tracedItem object (place ++ [.index item.2]) item.1).1,
        (list.zipIdx index).flatMap fun item =>
          (tracedItem object (place ++ [.index item.2]) item.1).2) := by
  induction list with
  | nil => exact fun _ => rfl
  | cons item rest ih =>
    intro index
    rw [tracedItems, ih, List.zipIdx_cons, List.map_cons, List.flatMap_cons]

end Transformer

/-- The transformation of a record, with the calls of hooks that it makes, in their order. -/
def Flattened.traced (flattened : Flattened) (record : Json) : Json × List HookCall :=
  match record with
  | .object members =>
    if flattened.hasNoTransforms then (record, [])
    else
      let (members, calls) :=
        Transformer.tracedAttributes ⟨flattened.onTransform, record⟩ flattened.attributes
          flattened.attributes "" [] members
      (.object members, calls)
  | record => (record, [])

/-- The calls account for what a transformation of a record makes and reports. -/
theorem Flattened.transform_eq_traced (flattened : Flattened) (record : Json) :
    flattened.transform record = HookCall.reported (flattened.traced record) := by
  cases record with
  | object members =>
    simp only [transform, traced]
    split
    · rfl
    · rw [Transformer.attributes_eq_traced _ _ _ []]
      rfl
  | _ => rfl

end NestedRecord
