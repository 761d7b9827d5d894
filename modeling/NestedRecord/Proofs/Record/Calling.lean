import NestedRecord.Proofs.Record.Hooks

/-!
# One call for every value

Which hooks a transformation calls can be read off the descriptor and the record that is passed in:
each hook once for each value of its attribute that is not null, with that record beside the value.
What has been written in the meantime plays no part in it.

* `Descriptor.HookInstance` are the values for which there are hooks.
* `CallsEach` says that calls are made for some instances, once for each. `append` and `flatMap` put
  calls together that are made one after the other.
* `Descriptor.hookInstance_iff` finds instances along the descriptor, and
  `AttributeDrawn.callsEach_tracedMember` does so along the transformation.
  `Drawn.callsEach_tracedAttributes` is the result for an object.

The instances of an object are split by the first key of their place: those of one attribute are the
value of the attribute itself and what is below it. Calls are split in the same way, so that one
call for every instance is kept from the parts to the whole as long as the parts have different
places. For members that is so because of their names, and for items because of their positions.
-/

namespace NestedRecord

open Fields (get?)

/-! ## Instances -/

/-- A value that is not null, at a place of a record at which an attribute with a hook is
declared. -/
inductive Descriptor.HookInstance (descriptor : Descriptor) (record : Json) :
    Location → Hook → Prop
  | mk {front : Location} {inner : Descriptor} {name : String} {tuple : Tuple Descriptor}
      {value : Json} {hook : Hook} (reaches : descriptor.Reaches front inner)
      (declared : inner.Assigns name tuple) (hooked : tuple.lastHook? .transform = some hook)
      (stands : record.locate? (front ++ [.key name]) = some value)
      (present : value.isNull = false) : HookInstance descriptor record (front ++ [.key name]) hook

/-- The instances of hooks that stand below the value of an attribute. -/
inductive Tuple.InstanceBelow (tuple : Tuple Descriptor) (value : Json) : Location → Hook → Prop
  | object {inner : Descriptor} {place : Location} {hook : Hook}
      (nesting : tuple.nesting = some .object) (nested : tuple.nested = some inner)
      (below : inner.HookInstance value place hook) : InstanceBelow tuple value place hook
  | element {inner : Descriptor} {item : Json} {index : Nat} {place : Location} {hook : Hook}
      (nesting : tuple.nesting = some .array) (nested : tuple.nested = some inner)
      (stands : value.child? (.index index) = some item)
      (below : inner.HookInstance item place hook) :
      InstanceBelow tuple value (.index index :: place) hook

section Instances

variable {descriptor inner : Descriptor} {tuple : Tuple Descriptor} {record value : Json}
  {place : Location} {hook : Hook}

theorem Descriptor.HookInstance.ne_nil (h : descriptor.HookInstance record place hook) :
    place ≠ [] := by
  cases h
  exact List.append_ne_nil_of_right_ne_nil _ (List.cons_ne_nil _ _)

theorem Tuple.InstanceBelow.ne_nil (h : tuple.InstanceBelow value place hook) : place ≠ [] := by
  cases h with
  | object _ _ below => exact below.ne_nil
  | element => exact List.cons_ne_nil _ _

/-- An instance stands at an attribute of the record or below one. -/
theorem Descriptor.hookInstance_iff : descriptor.HookInstance record place hook ↔
    ∃ name tuple value rest, place = .key name :: rest ∧ descriptor.Assigns name tuple ∧
      record.get? name = some value ∧
        (tuple.InstanceBelow value rest hook ∨
          rest = [] ∧ tuple.lastHook? .transform = some hook ∧ value.isNull = false) := by
  constructor
  · rintro ⟨reaches, declared, hooked, stands, present⟩
    -- the first step to the level is the first step of the place
    cases reaches with
    | here =>
      rw [List.nil_append, Json.locate?_key] at stands
      exact ⟨_, _, _, [], rfl, declared, stands, .inr ⟨rfl, hooked, present⟩⟩
    | object declared' nesting nested below =>
      rw [List.cons_append, Json.locate?] at stands
      obtain ⟨content, hcontent, stands⟩ := Option.bind_eq_some_iff.mp stands
      rw [Json.child?_key] at hcontent
      exact ⟨_, _, _, _, rfl, declared', hcontent,
        .inl (.object nesting nested ⟨below, declared, hooked, stands, present⟩)⟩
    | element index declared' nesting nested below =>
      rw [List.cons_append, Json.locate?] at stands
      obtain ⟨content, hcontent, stands⟩ := Option.bind_eq_some_iff.mp stands
      rw [Json.child?_key] at hcontent
      rw [List.cons_append, Json.locate?] at stands
      obtain ⟨item, hitem, stands⟩ := Option.bind_eq_some_iff.mp stands
      exact ⟨_, _, _, _, rfl, declared', hcontent,
        .inl (.element nesting nested hitem ⟨below, declared, hooked, stands, present⟩)⟩
  · rintro ⟨name, tuple, value, rest, rfl, declared, hvalue, hbelow | ⟨rfl, hooked, present⟩⟩
    · have hchild : record.child? (.key name) = some value := by rwa [Json.child?_key]
      cases hbelow with
      | object nesting nested below =>
        obtain ⟨reaches, declared', hooked, stands, present⟩ := below
        exact .mk (.object declared nesting nested reaches) declared' hooked
          (by rw [List.cons_append, Json.locate?_step hchild, stands]) present
      | element nesting nested hitem below =>
        obtain ⟨reaches, declared', hooked, stands, present⟩ := below
        refine .mk (.element _ declared nesting nested reaches) declared' hooked ?_ present
        rw [List.cons_append, Json.locate?_step hchild, List.cons_append, Json.locate?_step hitem,
          stands]
    · show descriptor.HookInstance record ([] ++ [.key name]) hook
      exact .mk .here declared hooked (by rw [List.nil_append, Json.locate?_key, hvalue]) present

/-- There are no instances in what is no object. -/
theorem Descriptor.not_hookInstance_of_not_object (h : record.isObject = false) :
    ¬ descriptor.HookInstance record place hook := by
  rw [hookInstance_iff]
  rintro ⟨name, tuple, value, rest, -, -, hvalue, -⟩
  cases record with
  | object => cases h
  | _ => cases hvalue

theorem Tuple.not_instanceBelow (h : ∀ inner, tuple.nested ≠ some inner) :
    ¬ tuple.InstanceBelow value place hook := by
  rintro (⟨-, nested, -⟩ | ⟨-, nested, -, -⟩) <;> exact h _ nested

/-- Below a nested object stand its own instances. -/
theorem Tuple.instanceBelow_iff_of_object (hnesting : tuple.nesting = some .object)
    (hnested : tuple.nested = some inner) :
    tuple.InstanceBelow value place hook ↔ inner.HookInstance value place hook := by
  constructor
  · rintro (⟨-, nested, below⟩ | ⟨nesting, -, -, -⟩)
    · rwa [Option.some.inj (hnested.symm.trans nested)]
    · rw [hnesting] at nesting
      cases nesting
  · exact .object hnesting hnested

/-- Below a list stand the instances of its items. -/
theorem Tuple.instanceBelow_iff_of_array (hnesting : tuple.nesting = some .array)
    (hnested : tuple.nested = some inner) :
    tuple.InstanceBelow value place hook ↔ ∃ index item rest, place = .index index :: rest ∧
      value.child? (.index index) = some item ∧ inner.HookInstance item rest hook := by
  constructor
  · rintro (⟨nesting, -, -⟩ | ⟨-, nested, stands, below⟩)
    · rw [hnesting] at nesting
      cases nesting
    · obtain rfl := Option.some.inj (hnested.symm.trans nested)
      exact ⟨_, _, _, rfl, stands, below⟩
  · rintro ⟨index, item, rest, rfl, stands, below⟩
    exact .element hnesting hnested stands below

/-- There is nothing below null. -/
theorem Tuple.not_instanceBelow_of_isNull (h : value.isNull = true) :
    ¬ tuple.InstanceBelow value place hook := by
  obtain rfl := Json.isNull_iff.mp h
  rintro (⟨-, -, below⟩ | ⟨-, -, stands, -⟩)
  · exact Descriptor.not_hookInstance_of_not_object rfl below
  · cases stands

end Instances

/-! ## Calls for instances -/

/-- Calls that are made once for each of some instances and for nothing else, all with the same
record beside the value. -/
structure CallsEach (context : Json) (instances : Location → Hook → Prop)
    (calls : List HookCall) : Prop where
  context : ∀ call ∈ calls, call.context = context
  once : (calls.map (·.place)).Nodup
  each : ∀ place hook,
    (∃ call ∈ calls, call.place = place ∧ call.hook = hook) ↔ instances place hook

namespace CallsEach

variable {context : Json} {instances instances' : Location → Hook → Prop}
  {calls calls' : List HookCall}

theorem congr (h : CallsEach context instances calls)
    (hiff : ∀ place hook, instances' place hook ↔ instances place hook) :
    CallsEach context instances' calls :=
  ⟨h.context, h.once, fun place hook => (h.each place hook).trans (hiff place hook).symm⟩

/-- Where there are no instances, nothing is called. -/
theorem nil (h : ∀ place hook, ¬ instances place hook) : CallsEach context instances [] :=
  ⟨nofun, List.nodup_nil, fun place hook => iff_of_false nofun (h place hook)⟩

theorem place_of_mem (h : CallsEach context instances calls) {place : Location}
    (hmem : place ∈ calls.map (·.place)) : ∃ hook, instances place hook := by
  obtain ⟨call, hcall, rfl⟩ := List.mem_map.mp hmem
  exact ⟨call.hook, (h.each _ _).mp ⟨call, hcall, rfl, rfl⟩⟩

/-- Calls for instances at different places. -/
theorem append (h : CallsEach context instances calls) (h' : CallsEach context instances' calls')
    (hapart : ∀ place hook hook', instances place hook → ¬ instances' place hook') :
    CallsEach context (fun place hook => instances place hook ∨ instances' place hook)
      (calls ++ calls') where
  context call hcall := (List.mem_append.mp hcall).elim (h.context call) (h'.context call)
  once := by
    rw [List.map_append]
    refine h.once.append h'.once fun place hmem hmem' => ?_
    obtain ⟨hook, hinstance⟩ := h.place_of_mem hmem
    obtain ⟨hook', hinstance'⟩ := h'.place_of_mem hmem'
    exact hapart place hook hook' hinstance hinstance'
  each place hook := by
    rw [← h.each, ← h'.each, ← exists_or]
    refine exists_congr fun call => ?_
    rw [List.mem_append, or_and_right]

/-- Calls for items one after the other, with instances at different places. -/
theorem flatMap {ι : Type} {items : List ι} {calls : ι → List HookCall}
    {instances : ι → Location → Hook → Prop}
    (h : ∀ item ∈ items, CallsEach context (instances item) (calls item))
    (hapart : items.Pairwise fun item other => ∀ place hook hook',
      instances item place hook → ¬ instances other place hook') :
    CallsEach context (fun place hook => ∃ item ∈ items, instances item place hook)
      (items.flatMap calls) := by
  induction items with
  | nil => exact nil fun place hook => by simp
  | cons item rest ih =>
    obtain ⟨hitem, hrest⟩ := List.forall_mem_cons.mp h
    obtain ⟨hfirst, hapart⟩ := List.pairwise_cons.mp hapart
    rw [List.flatMap_cons]
    refine (hitem.append (ih hrest hapart) fun place hook hook' hinstance => ?_).congr
      fun place hook => List.exists_mem_cons_iff ..
    rintro ⟨other, hother, hinstance'⟩
    exact hfirst other hother place hook hook' hinstance hinstance'

end CallsEach

/-- Instances below a place. -/
def Location.Under (front : Location) (instances : Location → Hook → Prop) (place : Location)
    (hook : Hook) : Prop :=
  ∃ rest, place = front ++ rest ∧ instances rest hook

theorem Location.under_append {front : Location} {step : Step}
    {instances : Location → Hook → Prop} {place : Location} {hook : Hook} :
    Location.Under (front ++ [step]) instances place hook ↔
      ∃ rest, place = front ++ step :: rest ∧ instances rest hook := by
  simp [Under]

open Location (Under under_append)

/-! ## Along the transformation -/

namespace Transformer

variable {transformer : Transformer} {context : Json} {path : String} {place : Location}

/-- The hook of a path, if there is one, is called once. -/
theorem callsEach_tracedHook (transformer : Transformer) (value : Json) :
    CallsEach transformer.context
      (fun other hook => other = place ∧ get? transformer.hooks path = some hook)
      (transformer.tracedHook path place value).2 := by
  rw [tracedHook]
  cases get? transformer.hooks path with
  | none => exact .nil (by simp)
  | some hook =>
    refine ⟨by simp, List.nodup_singleton _, fun other hook' => ?_⟩
    simp [eq_comm]

/-- The content of a nested object is transformed like an item of a list. -/
theorem tracedContent_object (conversion : Option Conversion)
    (nested : List (AttributeDecl × Shape)) (value : Json) :
    transformer.tracedContent conversion path place (.level .object nested) value =
      tracedItem (transformer.tracedAttributes nested nested path) place value := by
  cases value <;> simp only [tracedContent, tracedItem]

/-- An item that is an object has the calls of the object, any other has none. -/
theorem callsEach_tracedItem {inner : Descriptor}
    {object : Location → List (String × Json) → List (String × Json) × List HookCall}
    (h : ∀ place members, CallsEach context
      (Under place (inner.HookInstance (.object members))) (object place members).2)
    (place : Location) (item : Json) :
    CallsEach context (Under place (inner.HookInstance item))
      (tracedItem object place item).2 := by
  cases item with
  | object members => exact h place members
  | _ =>
    refine .nil fun other hook => ?_
    rintro ⟨rest, -, hinstance⟩
    exact Descriptor.not_hookInstance_of_not_object rfl hinstance

/-- The items of a list have different positions. -/
theorem callsEach_tracedItems {inner : Descriptor}
    {object : Location → List (String × Json) → List (String × Json) × List HookCall}
    (h : ∀ place members, CallsEach context
      (Under place (inner.HookInstance (.object members))) (object place members).2)
    (place : Location) (items : List Json) :
    CallsEach context (Under place fun other hook =>
        ∃ index item rest, other = .index index :: rest ∧
          items[index]? = some item ∧ inner.HookInstance item rest hook)
      (tracedItems object place 0 items).2 := by
  -- positions do not repeat, so the places of two items are apart
  have hindices : (items.zipIdx.map (·.2)).Nodup := by
    rw [List.zipIdx_map_snd]
    exact List.nodup_range'
  rw [tracedItems_eq]
  refine (CallsEach.flatMap (fun entry _ => callsEach_tracedItem h _ entry.1)
    ((List.pairwise_map.mp hindices).imp fun {entry other} hne place' hook hook' => ?_)).congr
      fun place' hook => ?_
  · rw [under_append, under_append]
    rintro ⟨rest, rfl, -⟩ ⟨rest', heq, -⟩
    exact hne (Step.index.inj (List.cons.inj (List.append_cancel_left heq)).1)
  · simp only [under_append]
    constructor
    · rintro ⟨_, rfl, index, item, rest, rfl, hitem, hinstance⟩
      exact ⟨(item, index), List.mem_zipIdx_iff_getElem?.mpr hitem, rest, rfl, hinstance⟩
    · rintro ⟨entry, hentry, rest, rfl, hinstance⟩
      exact ⟨_, rfl, entry.2, entry.1, rest, rfl, List.mem_zipIdx_iff_getElem?.mp hentry, hinstance⟩

end Transformer

section Drawings

variable {s : Flattening} {flattened : Flattened} {hooks : Fields Hook} {context : Json}
  {path key : String} {directives : List (Directive Descriptor)} {tuple : Tuple Descriptor}
  {visited : Visited}

/-- What is called for the content of an attribute. -/
theorem AttributeDrawn.callsEach_tracedContent
    (hread : Tuple.ofDirectives directives = .ok tuple)
    (hdrawn : AttributeDrawn s (Drawn s) (key, .tuple directives) visited)
    (hlevel : ∀ {inner child below}, tuple.nested = some inner → Drawn s inner child below →
      ∀ place members, CallsEach context (Under place (inner.HookInstance (.object members)))
        (Transformer.tracedAttributes ⟨hooks, context⟩ below.attributes below.attributes path place
          members).2)
    (conversion : Option Conversion) (place : Location) (value : Json) :
    CallsEach context (Under place (tuple.InstanceBelow value))
      (Transformer.tracedContent ⟨hooks, context⟩ conversion path place visited.shape value).2 := by
  -- without a nested descriptor nothing is below the value
  have hnone (hnested : tuple.nested = none) :
      CallsEach context (Under place (tuple.InstanceBelow value)) [] := by
    refine .nil fun other hook => ?_
    rintro ⟨rest, -, hbelow⟩
    exact Tuple.not_instanceBelow (fun inner => by simp [hnested]) hbelow
  cases hdrawn with
  | scalar read plain =>
    obtain rfl := Except.ok.inj (hread.symm.trans read)
    simpa only [Transformer.tracedContent] using hnone (Tuple.nested_eq_none plain)
  | attachment read nesting nested =>
    obtain rfl := Except.ok.inj (hread.symm.trans read)
    simpa only [Transformer.tracedContent] using hnone nested
  | @level _ child _ _ kind inner node level read nesting nested entered kept drawn =>
    obtain rfl := Except.ok.inj (hread.symm.trans read)
    cases kind with
    | object =>
      rw [Transformer.tracedContent_object]
      refine (Transformer.callsEach_tracedItem (hlevel nested drawn) place value).congr
        fun other hook => exists_congr fun rest => ?_
      rw [Tuple.instanceBelow_iff_of_object nesting nested]
    | array =>
      have hiff (value : Json) (other : Location) (hook : Hook) :
          Under place (tuple.InstanceBelow value) other hook ↔
            Under place (fun other hook => ∃ index item rest, other = .index index :: rest ∧
              value.child? (.index index) = some item ∧ inner.HookInstance item rest hook)
                other hook :=
        exists_congr fun rest => and_congr_right fun _ =>
          Tuple.instanceBelow_iff_of_array nesting nested
      cases value with
      | array items =>
        simp only [Transformer.tracedContent]
        exact (Transformer.callsEach_tracedItems (hlevel nested drawn) place items).congr
          (hiff (.array items))
      | _ =>
        simp only [Transformer.tracedContent]
        refine .nil fun other hook hinstance => ?_
        obtain ⟨-, -, index, item, -, -, hitem, -⟩ := (hiff _ other hook).mp hinstance
        cases hitem

/-- What is called for an attribute: the hooks below its value, and then its own. -/
theorem AttributeDrawn.callsEach_tracedMember {attributes : List (AttributeDecl × Shape)}
    (hread : Tuple.ofDirectives directives = .ok tuple)
    (hdrawn : AttributeDrawn s (Drawn s) (key, .tuple directives) visited)
    (hhook : get? hooks (joinPath path key) = tuple.lastHook? .transform)
    (hlevel : ∀ {inner child below}, tuple.nested = some inner → Drawn s inner child below →
      ∀ place members, CallsEach context (Under place (inner.HookInstance (.object members)))
        (Transformer.tracedAttributes ⟨hooks, context⟩ below.attributes below.attributes
          (joinPath path key) place members).2)
    (place : Location) (value : Json) :
    CallsEach context
      (Under (place ++ [.key key]) fun rest hook => tuple.InstanceBelow value rest hook ∨
        rest = [] ∧ tuple.lastHook? .transform = some hook ∧ value.isNull = false)
      (Transformer.tracedMember ⟨hooks, context⟩ attributes path place
        (visited.decl, visited.shape) value).2 := by
  have hname : visited.decl.name = key := hdrawn.name_eq
  rw [Transformer.tracedMember, hname]
  cases hnull : value.isNull with
  | true =>
    refine .nil fun other hook => ?_
    rintro ⟨rest, -, hbelow | ⟨-, -, hfalse⟩⟩
    · exact Tuple.not_instanceBelow_of_isNull hnull hbelow
    · cases hfalse
  | false =>
    refine ((hdrawn.callsEach_tracedContent hread hlevel _ (place ++ [.key key]) value).append
      (Transformer.callsEach_tracedHook ⟨hooks, context⟩ _) ?_).congr ?_
    · -- what stands below a value does not stand at its own place
      rintro _ hook hook' ⟨rest, rfl, hbelow⟩ ⟨heq, -⟩
      exact hbelow.ne_nil (List.append_right_eq_self.mp heq)
    · intro other hook
      simp only [Under, hhook, and_or_left, exists_or]
      simp

/-- What is called for an object: one call for every instance in it. -/
theorem Drawn.callsEach_tracedAttributes (hends : flattened.EndsIn s)
    (hdistinct : flattened.DistinctNames) :
    ∀ (descriptor : Descriptor) {name : String} {level : Level}, Drawn s descriptor name level →
      ∀ {path : String}, descriptor.HookedAt .transform hooks path → ∀ place members,
        CallsEach context (Under place (descriptor.HookInstance (.object members)))
          (Transformer.tracedAttributes ⟨hooks, context⟩ level.attributes level.attributes path
            place members).2 := by
  refine Descriptor.levels_induction fun declared ih name level hdrawn path hhooks place members =>
    ?_
  have hnodup := hdrawn.nodup_names hends hdistinct
  rw [Transformer.tracedAttributes_snd hnodup]
  -- the instances of an attribute are those at and below its value, if there is one
  have heach : ∀ attr ∈ level.attributes, CallsEach context
      (fun other hook => ∃ tuple value, (Descriptor.mk declared).Assigns attr.1.name tuple ∧
        get? members attr.1.name = some value ∧ Under (place ++ [.key attr.1.name])
          (fun rest hook => tuple.InstanceBelow value rest hook ∨
            rest = [] ∧ tuple.lastHook? .transform = some hook ∧ value.isNull = false) other hook)
      ((get? members attr.1.name).elim [] fun value =>
        (Transformer.tracedMember ⟨hooks, context⟩ level.attributes path place attr value).2) := by
    intro attr hattr
    obtain ⟨directives, tuple, visited, hdeclared, hread, hmem, rfl, hvisited⟩ :=
      hdrawn.exists_assigned hends hdistinct hattr
    cases hget : get? members visited.decl.name with
    | none => exact .nil fun other hook ⟨_, _, _, hsome, _⟩ => nomatch hsome
    | some value =>
      refine (hvisited.callsEach_tracedMember hread (hhooks.own hdeclared) ?_ place value).congr
        fun other hook => ⟨?_, fun hunder => ⟨tuple, value, hdeclared, rfl, hunder⟩⟩
      · intro inner child below hnested hbelow
        exact ih _ hmem directives rfl inner (Tuple.mem_of_nested hread hnested) hbelow
          (hhooks.inside hdeclared hnested)
      · rintro ⟨tuple', value', hdeclared', hsome, hunder⟩
        obtain rfl := hdeclared.unique hdeclared'
        rwa [← Option.some.inj hsome] at hunder
  refine (CallsEach.flatMap heach ?_).congr fun other hook => ?_
  · refine (List.pairwise_map.mp hnodup).imp fun {attr other} hne place' hook hook' => ?_
    rintro ⟨tuple, value, -, -, hunder⟩ ⟨tuple', value', -, -, hunder'⟩
    obtain ⟨rest, rfl, -⟩ := under_append.mp hunder
    obtain ⟨rest', heq, -⟩ := under_append.mp hunder'
    exact hne (Step.key.inj (List.cons.inj (List.append_cancel_left heq)).1)
  · simp only [under_append]
    simp only [Under, Descriptor.hookInstance_iff]
    constructor
    · rintro ⟨_, rfl, key, tuple, value, rest, rfl, hdeclared, hvalue, hinstance⟩
      obtain ⟨attr, hattr, rfl⟩ := hdrawn.exists_attribute hdeclared
      exact ⟨attr, hattr, tuple, value, hdeclared, hvalue, rest, rfl, hinstance⟩
    · rintro ⟨attr, hattr, tuple, value, hdeclared, hvalue, rest, rfl, hinstance⟩
      exact ⟨_, rfl, attr.1.name, tuple, value, rest, rfl, hdeclared, hvalue, hinstance⟩

end Drawings

end NestedRecord
