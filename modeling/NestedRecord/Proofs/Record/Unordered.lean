import NestedRecord.Proofs.Descriptor.Reordering
import NestedRecord.Proofs.Record.Calling
import NestedRecord.Proofs.Record.Demands

/-!
# Transformations in any order

A transformation goes through the attributes of each level in order of declaration and writes while
it reads. The order does not matter all the same: attributes write different members, hooks see the
record that was passed in, and what stands at a declared place depends on what is declared there and
below.

* `Drawn.tracedAttributes_of_idle`: a store without conversions and hooks transforms nothing, so it
  may be left alone as a whole.
* `Descriptor.Unhooked` says that no hook gets hold of a place, `Tuple.Changes` what an attribute
  makes of its values then. `Drawn.exists_change`: that is what happens at the place.
* `Tuple.Rests` says that an attribute asks for no change. `Drawn.locate?_tracedAttributes`: there
  nothing is changed.
* `Drawn.tracedAttributes_eq_of_reordered`: descriptors that differ in the order of siblings
  transform alike.
* `Flattened.transform_reordered` is the result for flattened descriptors.

Attributes of a level have different names where this is used, so each changes a member of its own
and calls no hook twice; what is made of the level is then the same for any order of its attributes.
Below it, siblings may be exchanged at every depth, which is an induction on the descriptor with the
same argument at each level.
-/

namespace NestedRecord

open Fields (get?)
open Walk (scalarDecl)

/-! ## Stores that transform nothing -/

section Idle

variable {s : Flattening} {flattened : Flattened} {descriptor : Descriptor} {name : String}
  {level : Level} {context : Json}

/-- The attributes of a level are those of its node. -/
theorem Drawn.exists_node (hdrawn : Drawn s descriptor name level) :
    ∃ node, get? s.nodes name = some node ∧
      ∀ attr ∈ level.attributes, attr.1 ∈ node.attributes := by
  cases hdrawn with
  | @mk _ _ node visited entered declared drawn =>
    refine ⟨node, entered, fun attr hattr => ?_⟩
    rw [Level.attributes_ofVisited] at hattr
    obtain ⟨known, hknown, rfl⟩ := List.mem_map.mp hattr
    exact declared ▸ List.mem_map_of_mem hknown

/-- Where a conversion is declared, a level has one. -/
theorem Drawn.conversion?_eq_none (hends : flattened.EndsIn s)
    (hidle : ∀ entry ∈ flattened.nodes, entry.2.conversions = [])
    (hdrawn : Drawn s descriptor name level) {attr : AttributeDecl × Shape}
    (hattr : attr ∈ level.attributes) (hscalar : attr.1.child = none) :
    attr.1.conversion? = none := by
  obtain ⟨node, hget, hdeclared⟩ := hdrawn.exists_node
  by_contra hconversion
  exact hends.formed.converting hget (hdeclared attr hattr) hscalar hconversion
    (hidle _ (hends.mem_nodes_iff.mpr hget))

/-- A single value is converted as its attribute declares. -/
theorem AttributeDrawn.conversion?_of_plain {below : Descriptor → String → Level → Prop}
    {key : String} {directives : List (Directive Descriptor)} {tuple : Tuple Descriptor}
    {visited : Visited} (hdrawn : AttributeDrawn s below (key, .tuple directives) visited)
    (hread : Tuple.ofDirectives directives = .ok tuple) (hplain : tuple.isNested = false) :
    visited.decl.child = none ∧ visited.shape = .scalar ∧
      visited.decl.conversion? = tuple.conversion? := by
  obtain rfl := hdrawn.eq_of_plain hread hplain
  exact ⟨rfl, rfl, rfl⟩

/-- Without conversions and hooks the content of an attribute is not changed. -/
theorem AttributeDrawn.tracedContent_of_idle {key : String}
    {directives : List (Directive Descriptor)} {tuple : Tuple Descriptor} {visited : Visited}
    {conversion : Option Conversion} (hread : Tuple.ofDirectives directives = .ok tuple)
    (hdrawn : AttributeDrawn s (Drawn s) (key, .tuple directives) visited)
    (hconversion : tuple.isNested = false → conversion = none)
    (hlevel : ∀ {inner child below}, tuple.nested = some inner → Drawn s inner child below →
      ∀ path place members, Transformer.tracedAttributes ⟨[], context⟩ below.attributes
        below.attributes path place members = (members, []))
    (path : String) (place : Location) (value : Json) :
    Transformer.tracedContent ⟨[], context⟩ conversion path place visited.shape value =
      (value, []) := by
  cases hdrawn with
  | scalar read plain =>
    obtain rfl := Except.ok.inj (hread.symm.trans read)
    rw [hconversion plain]
    simp only [Transformer.tracedContent, Transformer.converted]
  | attachment => simp only [Transformer.tracedContent]
  | @level _ child _ _ kind inner node below read nesting nested entered kept drawn =>
    obtain rfl := Except.ok.inj (hread.symm.trans read)
    have hinner := hlevel nested drawn path
    have hitem (place : Location) (item : Json) : Transformer.tracedItem
        (Transformer.tracedAttributes ⟨[], context⟩ below.attributes below.attributes path)
          place item = (item, []) := by
      cases item <;> simp only [Transformer.tracedItem, hinner]
    cases kind with
    | object => rw [Transformer.tracedContent_object, hitem]
    | array =>
      cases value with
      | array items => simp [Transformer.tracedContent, Transformer.tracedItems_eq, hitem]
      | _ => simp only [Transformer.tracedContent]

/-- Without conversions and hooks nothing is changed and nothing is called. -/
theorem Drawn.tracedAttributes_of_idle (hends : flattened.EndsIn s)
    (hdistinct : flattened.DistinctNames)
    (hidle : ∀ entry ∈ flattened.nodes, entry.2.conversions = []) :
    ∀ (descriptor : Descriptor) {name : String} {level : Level}, Drawn s descriptor name level →
      ∀ path place members, Transformer.tracedAttributes ⟨[], context⟩ level.attributes
        level.attributes path place members = (members, []) := by
  refine Descriptor.levels_induction fun declared ih name level hdrawn path place members => ?_
  have hnodup := hdrawn.nodup_names hends hdistinct
  -- by induction the content stays as it is, and there is no hook for the value
  have hmember : ∀ attr ∈ level.attributes, ∀ value,
      Transformer.tracedMember ⟨[], context⟩ level.attributes path place attr value =
        (value, []) := by
    intro attr hattr value
    obtain ⟨directives, tuple, visited, -, hread, hmem, rfl, hvisited⟩ :=
      hdrawn.exists_assigned hends hdistinct hattr
    have hconversion (hplain : tuple.isNested = false) :
        Shape.conversion? level.attributes visited.decl.name = none := by
      obtain ⟨hchild, hshape, -⟩ := hvisited.conversion?_of_plain hread hplain
      rw [Shape.conversion?_of_mem hnodup (hshape ▸ hattr)]
      exact hdrawn.conversion?_eq_none hends hidle hattr hchild
    have hcontent := hvisited.tracedContent_of_idle hread hconversion
      fun hnested hbelow => ih _ hmem directives rfl _ (Tuple.mem_of_nested hread hnested) hbelow
    simp [Transformer.tracedMember, hcontent, Transformer.tracedHook]
  refine Prod.ext ?_ ?_
  · rw [Transformer.tracedAttributes_fst]
    refine Fields.updates_of_fixed fun change hchange value _ => ?_
    obtain ⟨attr, hattr, rfl⟩ := List.mem_map.mp hchange
    exact congrArg Prod.fst (hmember attr hattr value)
  · rw [Transformer.tracedAttributes_snd hnodup, List.flatMap_eq_nil_iff]
    intro attr hattr
    cases get? members attr.1.name with
    | none => rfl
    | some value => exact congrArg Prod.snd (hmember attr hattr value)

/-- The transformation of a record is that of its attributes. -/
theorem Flattened.traced_object (hends : flattened.EndsIn s) (hdistinct : flattened.DistinctNames)
    (hdrawn : Drawn s descriptor name level) (hattributes : flattened.attributes = level.attributes)
    (members : List (String × Json)) :
    flattened.traced (.object members) =
      let (changed, calls) := Transformer.tracedAttributes
        ⟨flattened.onTransform, .object members⟩ level.attributes level.attributes "" [] members
      (.object changed, calls) := by
  rw [traced, hattributes]
  split
  · next hidle =>
    rw [hasNoTransforms, Bool.and_eq_true, List.isEmpty_iff, List.all_eq_true] at hidle
    rw [hidle.1, hdrawn.tracedAttributes_of_idle hends hdistinct
      (fun entry hentry => List.isEmpty_iff.mp (hidle.2 entry hentry)) descriptor]
  · rfl

end Idle

/-! ## Changes without hooks -/

/-- No hook is declared on the attribute that stands at a place or on one around it. -/
def Descriptor.Unhooked (descriptor : Descriptor) (place : Location) : Prop :=
  ∀ ⦃front inner name tuple⦄, descriptor.Reaches front inner → inner.Assigns name tuple →
    front ++ [.key name] <+: place → tuple.lastHook? .transform = none

/-- An attribute asks for no change of its values: it keeps records of another store, or single
values that are not converted. -/
def Tuple.Rests (tuple : Tuple Descriptor) : Prop :=
  tuple.IsAttached ∨ tuple.isNested = false ∧ tuple.conversion? = none

/-- What an attribute makes of its values without hooks: single values are converted, records of
another store are kept, and so is what is neither an object nor a list where one is declared. -/
structure Tuple.Changes (tuple : Tuple Descriptor) (change : Json → Json) : Prop where
  plain : tuple.isNested = false → ∀ value,
    change value = Transformer.converted tuple.conversion? value
  attached : tuple.IsAttached → ∀ value, change value = value
  misfit : tuple.isNested = true → ∀ value, value.isObject = false → value.isArray = false →
    change value = value

namespace Descriptor.Unhooked

variable {descriptor inner : Descriptor} {name : String} {tuple : Tuple Descriptor}
  {place : Location}

theorem mono {place' : Location} (h : descriptor.Unhooked place) (hbegins : place' <+: place) :
    descriptor.Unhooked place' :=
  fun _ _ _ _ hreaches hdeclared hfront => h hreaches hdeclared (hfront.trans hbegins)

/-- An attribute on the way has no hook. -/
theorem own (h : descriptor.Unhooked (.key name :: place))
    (hdeclared : descriptor.Assigns name tuple) : tuple.lastHook? .transform = none :=
  h .here hdeclared ⟨place, rfl⟩

/-- Neither has what is declared inside a nested object. -/
theorem inside (h : descriptor.Unhooked (.key name :: place))
    (hdeclared : descriptor.Assigns name tuple) (hnesting : tuple.nesting = some .object)
    (hnested : tuple.nested = some inner) : inner.Unhooked place := by
  intro front target key tuple' hreaches hdeclared' hbegins
  refine h (.object hdeclared hnesting hnested hreaches) hdeclared' ?_
  exact List.cons_prefix_cons.mpr ⟨rfl, hbegins⟩

theorem element {index : Nat} (h : descriptor.Unhooked (.key name :: .index index :: place))
    (hdeclared : descriptor.Assigns name tuple) (hnesting : tuple.nesting = some .array)
    (hnested : tuple.nested = some inner) : inner.Unhooked place := by
  intro front target key tuple' hreaches hdeclared' hbegins
  refine h (.element index hdeclared hnesting hnested hreaches) hdeclared' ?_
  exact List.cons_prefix_cons.mpr ⟨rfl, List.cons_prefix_cons.mpr ⟨rfl, hbegins⟩⟩

end Descriptor.Unhooked

section Resting

variable {transformer : Transformer} {level nested : List (AttributeDecl × Shape)} {path : String}
  {attr : AttributeDecl × Shape} {conversion : Option Conversion} {place rest : Location}

/-- What is made of a value by the attributes of a level; only objects have any. -/
def Transformer.remade (transformer : Transformer) (level : List (AttributeDecl × Shape))
    (path : String) (place : Location) (value : Json) : Json :=
  (tracedItem (transformer.tracedAttributes level level path) place value).1

theorem Transformer.converted_null (conversion : Option Conversion) :
    converted conversion .null = .null := by
  cases conversion with
  | none => rfl
  | some conversion => cases conversion <;> rfl

/-- Without a hook of its own a value is changed as its content is. -/
theorem Transformer.tracedMember_of_unhooked
    (h : get? transformer.hooks (joinPath path attr.1.name) = none) (value : Json) :
    (transformer.tracedMember level path place attr value).1 =
      (transformer.tracedContent (Shape.conversion? level attr.1.name) (joinPath path attr.1.name)
        (place ++ [.key attr.1.name]) attr.2 value).1 := by
  obtain ⟨decl, shape⟩ := attr
  cases value with
  | null =>
    rcases shape with - | - | ⟨kind, nested⟩
    · simp [tracedMember, tracedContent, converted_null, Json.isNull]
    · simp [tracedMember, tracedContent, Json.isNull]
    · cases kind <;> simp [tracedMember, tracedContent, Json.isNull]
  | _ => simp [tracedMember, tracedHook, h, Json.isNull]

/-- A nested object is remade by the level below. -/
theorem Transformer.tracedMember_object
    (h : get? transformer.hooks (joinPath path attr.1.name) = none)
    (hshape : attr.2 = .level .object nested) (value : Json) :
    (transformer.tracedMember level path place attr value).1 =
      transformer.remade nested (joinPath path attr.1.name) (place ++ [.key attr.1.name]) value := by
  rw [tracedMember_of_unhooked h, hshape, tracedContent_object]
  rfl

/-- An item of a list is remade by the level below. -/
theorem Transformer.child?_tracedMember_array
    (h : get? transformer.hooks (joinPath path attr.1.name) = none)
    (hshape : attr.2 = .level .array nested) (index : Nat) (value : Json) :
    (transformer.tracedMember level path place attr value).1.child? (.index index) =
      (value.child? (.index index)).map (transformer.remade nested (joinPath path attr.1.name)
        (place ++ [.key attr.1.name, .index index])) := by
  rw [tracedMember_of_unhooked h, hshape]
  cases value with
  | array items =>
    simp only [tracedContent, tracedItems_eq, Json.child?, List.getElem?_map,
      List.getElem?_zipIdx, Nat.zero_add, Option.map_map, List.append_assoc, List.singleton_append]
    rfl
  | _ => simp [tracedContent, Json.child?]

/-- What stands under the name of an attribute is changed by the attribute. -/
theorem Transformer.child?_remade (hnodup : (level.map (·.1.name)).Nodup) (hattr : attr ∈ level)
    (value : Json) :
    (transformer.remade level path place value).child? (.key attr.1.name) =
      (value.child? (.key attr.1.name)).map fun value =>
        (transformer.tracedMember level path place attr value).1 := by
  cases value with
  | object members => exact get?_tracedAttributes hnodup hattr
  | _ => rfl

theorem Transformer.child?_remade_of_ne {key : String} (h : ∀ attr ∈ level, attr.1.name ≠ key)
    (value : Json) :
    (transformer.remade level path place value).child? (.key key) = value.child? (.key key) := by
  cases value with
  | object members => exact get?_tracedAttributes_of_ne h
  | _ => rfl

end Resting

section Drawings

variable {s s' : Flattening} {flattened flattened' : Flattened} {hooks hooks' : Fields Hook}
  {context : Json}

/-- An attribute without a hook of its own changes its values. -/
theorem AttributeDrawn.changes_tracedMember (context : Json) (place : Location)
    {path key : String} {level : List (AttributeDecl × Shape)}
    {directives : List (Directive Descriptor)} {tuple : Tuple Descriptor} {visited : Visited}
    (hdrawn : AttributeDrawn s (Drawn s) (key, .tuple directives) visited)
    (hread : Tuple.ofDirectives directives = .ok tuple)
    (hconversion : tuple.isNested = false →
      Shape.conversion? level visited.decl.name = tuple.conversion?)
    (hhook : get? hooks (joinPath path visited.decl.name) = none) :
    tuple.Changes fun value => (Transformer.tracedMember ⟨hooks, context⟩ level path place
      (visited.decl, visited.shape) value).1 := by
  have hmember (value : Json) :
      (Transformer.tracedMember ⟨hooks, context⟩ level path place (visited.decl, visited.shape)
        value).1 = (Transformer.tracedContent ⟨hooks, context⟩
          (Shape.conversion? level visited.decl.name) (joinPath path visited.decl.name)
            (place ++ [.key visited.decl.name]) visited.shape value).1 :=
    Transformer.tracedMember_of_unhooked hhook value
  simp only [hmember]
  clear hmember
  cases hdrawn with
  | scalar read plain =>
    obtain rfl := Except.ok.inj (hread.symm.trans read)
    refine ⟨fun _ value => ?_, fun hattached => ?_, fun hnested => ?_⟩
    · simp only [Transformer.tracedContent, hconversion plain]
    · simp [Tuple.isNested, hattached.1] at plain
    · rw [hnested] at plain
      cases plain
  | @level _ child _ _ kind inner node below read nesting nested =>
    obtain rfl := Except.ok.inj (hread.symm.trans read)
    refine ⟨fun hplain => ?_, fun hattached => absurd nested hattached.not_nested,
      fun _ value hobject harray => ?_⟩
    · simp [Tuple.isNested, nesting] at hplain
    · cases kind with
      | object => cases value <;> first | rfl | cases hobject
      | array => cases value <;> first | rfl | cases harray
  | attachment read nesting =>
    obtain rfl := Except.ok.inj (hread.symm.trans read)
    refine ⟨fun hplain => ?_, fun _ value => rfl, fun _ value _ _ => rfl⟩
    simp [Tuple.isNested, nesting] at hplain

/-- Where no hook is around, what is made of a record holds at each place what is made of the value
there, by what is declared below it. -/
theorem Drawn.locate?_remade (context : Json) (hends : flattened.EndsIn s)
    (hdistinct : flattened.DistinctNames) :
    ∀ (descriptor : Descriptor) {name : String} {level : Level}, Drawn s descriptor name level →
      ∀ {path : String}, descriptor.HookedAt .transform hooks path →
      ∀ {front : Location} {inner : Descriptor}, descriptor.Reaches front inner →
        descriptor.Unhooked front →
      ∃ name' level' path', Drawn s inner name' level' ∧ inner.HookedAt .transform hooks path' ∧
        ∀ place value,
          (Transformer.remade ⟨hooks, context⟩ level.attributes path place value).locate? front =
            (value.locate? front).map
              (Transformer.remade ⟨hooks, context⟩ level'.attributes path' (place ++ front)) := by
  refine Descriptor.levels_induction fun declared ih name level hdrawn path hhooks front inner
    hreaches hunhooked => ?_
  have hnodup := hdrawn.nodup_names hends hdistinct
  cases hreaches with
  | here =>
    exact ⟨name, level, path, hdrawn, hhooks, fun place value => by simp⟩
  | @object _ _ _ key tuple front hdeclared hnesting hnested hreaches =>
    obtain ⟨attr, hattr, rfl⟩ := hdrawn.exists_attribute hdeclared
    obtain ⟨child, below, directives, hshape, hbelow, hmem, hinner⟩ :=
      hdrawn.exists_below hends hdistinct hattr hdeclared hnesting hnested
    obtain ⟨name', level', path', hdrawn', hhooks', hlocate⟩ :=
      ih _ hmem directives rfl _ hinner hbelow (hhooks.inside hdeclared hnested) hreaches
        (hunhooked.inside hdeclared hnesting hnested)
    have hhook := (hhooks.own hdeclared).trans (hunhooked.own hdeclared)
    refine ⟨name', level', path', hdrawn', hhooks', fun place value => ?_⟩
    rw [Json.locate?, Json.locate?, Transformer.child?_remade hnodup hattr, Option.bind_map,
      Option.map_bind]
    refine congrArg _ (funext fun value => ?_)
    rw [Function.comp, Function.comp, Transformer.tracedMember_object hhook hshape, hlocate,
      List.append_assoc, List.singleton_append]
  | @element _ _ _ key tuple front index hdeclared hnesting hnested hreaches =>
    obtain ⟨attr, hattr, rfl⟩ := hdrawn.exists_attribute hdeclared
    obtain ⟨child, below, directives, hshape, hbelow, hmem, hinner⟩ :=
      hdrawn.exists_below hends hdistinct hattr hdeclared hnesting hnested
    obtain ⟨name', level', path', hdrawn', hhooks', hlocate⟩ :=
      ih _ hmem directives rfl _ hinner hbelow (hhooks.inside hdeclared hnested) hreaches
        (hunhooked.element hdeclared hnesting hnested)
    have hhook := (hhooks.own hdeclared).trans (hunhooked.own hdeclared)
    refine ⟨name', level', path', hdrawn', hhooks', fun place value => ?_⟩
    rw [Json.locate?, Json.locate?, Transformer.child?_remade hnodup hattr, Option.bind_map,
      Option.map_bind]
    refine congrArg _ (funext fun value => ?_)
    rw [Function.comp, Function.comp, Json.locate?, Json.locate?,
      Transformer.child?_tracedMember_array hhook hshape, Option.bind_map, Option.map_bind]
    -- the item is remade with the level below, so the rest of the place is left to the induction
    refine congrArg _ (funext fun item => ?_)
    rw [Function.comp, Function.comp, hlocate, List.append_assoc, List.cons_append,
      List.singleton_append]

/-- Where no hook is around, what stands at a declared place is changed by its attribute. -/
theorem Drawn.exists_change (context : Json) (hends : flattened.EndsIn s)
    (hdistinct : flattened.DistinctNames) {descriptor inner : Descriptor}
    {name key path : String} {level : Level} {front : Location}
    {tuple : Tuple Descriptor} (hdrawn : Drawn s descriptor name level)
    (hhooks : descriptor.HookedAt .transform hooks path) (hreaches : descriptor.Reaches front inner)
    (hunhooked : descriptor.Unhooked (front ++ [.key key])) (hdeclared : inner.Assigns key tuple)
    (place : Location) :
    ∃ change, tuple.Changes change ∧ ∀ value,
      (Transformer.remade ⟨hooks, context⟩ level.attributes path place value).locate?
        (front ++ [.key key]) = (value.locate? (front ++ [.key key])).map change := by
  obtain ⟨name', level', path', hdrawn', hhooks', hlocate⟩ :=
    hdrawn.locate?_remade context hends hdistinct descriptor hhooks hreaches
      (hunhooked.mono (List.prefix_append _ _))
  have hnodup := hdrawn'.nodup_names hends hdistinct
  obtain ⟨attr, hattr, rfl⟩ := hdrawn'.exists_attribute hdeclared
  obtain ⟨directives, tuple', visited, hdeclared', hread, -, rfl, hvisited⟩ :=
    hdrawn'.exists_assigned hends hdistinct hattr
  obtain rfl := hdeclared.unique hdeclared'
  have hhook := (hhooks'.own hdeclared).trans (hunhooked hreaches hdeclared (List.prefix_refl _))
  have hconversion (hplain : tuple.isNested = false) :
      Shape.conversion? level'.attributes visited.decl.name = tuple.conversion? := by
    obtain ⟨-, hshape, hconversion⟩ := hvisited.conversion?_of_plain hread hplain
    rw [Shape.conversion?_of_mem hnodup (hshape ▸ hattr), hconversion]
  have hchanges := hvisited.changes_tracedMember context (place ++ front) hread hconversion hhook
  refine ⟨_, hchanges, fun value => ?_⟩
  rw [Json.locate?_append, hlocate, Json.locate?_append, Option.bind_map, Option.map_bind]
  refine congrArg _ (funext fun value => ?_)
  rw [Function.comp, Function.comp, Json.locate?, Json.locate?,
    Transformer.child?_remade hnodup hattr, Option.bind_map, Option.map_bind]
  rfl

/-- Where no hook is around, what is not declared, records of other stores and single values that
are not converted stay as they are. -/
theorem Drawn.locate?_tracedAttributes (hends : flattened.EndsIn s)
    (hdistinct : flattened.DistinctNames) :
    ∀ (descriptor : Descriptor) {name : String} {level : Level}, Drawn s descriptor name level →
      ∀ {path : String}, descriptor.HookedAt .transform hooks path →
      ∀ {front : Location} {inner : Descriptor} {key : String}, descriptor.Reaches front inner →
        descriptor.Unhooked (front ++ [.key key]) →
        (∀ tuple, inner.Assigns key tuple → tuple.Rests) →
      ∀ place members, (Json.object (Transformer.tracedAttributes ⟨hooks, context⟩ level.attributes
        level.attributes path place members).1).locate? (front ++ [.key key]) =
          (Json.object members).locate? (front ++ [.key key]) := by
  intro descriptor name level hdrawn path hhooks front inner key hreaches hunhooked hrests place
    members
  show (Transformer.remade _ _ path place (.object members)).locate? _ = _
  by_cases hdeclared : ∃ tuple, inner.Assigns key tuple
  · obtain ⟨tuple, hdeclared⟩ := hdeclared
    obtain ⟨change, hchange, hlocate⟩ :=
      hdrawn.exists_change context hends hdistinct hhooks hreaches hunhooked hdeclared place
    have hkept : change = id := by
      funext value
      rcases hrests tuple hdeclared with hattached | ⟨hplain, hnone⟩
      · exact hchange.attached hattached value
      · rw [hchange.plain hplain, hnone]
        rfl
    rw [hlocate, hkept, Option.map_id, id]
  · obtain ⟨name', level', path', hdrawn', -, hlocate⟩ :=
      hdrawn.locate?_remade context hends hdistinct descriptor hhooks hreaches
        (hunhooked.mono (List.prefix_append _ _))
    have hne : ∀ attr ∈ level'.attributes, attr.1.name ≠ key := by
      rintro attr hattr rfl
      obtain ⟨directives, tuple, visited, hassigns, -⟩ :=
        hdrawn'.exists_assigned hends hdistinct hattr
      exact hdeclared ⟨tuple, hassigns⟩
    rw [Json.locate?_append, hlocate, Json.locate?_append, Option.bind_map]
    refine congrArg _ (funext fun value => ?_)
    rw [Function.comp, Json.locate?, Json.locate?, Transformer.child?_remade_of_ne hne]

end Drawings

/-! ## Another order -/

namespace Transformer

variable {transformer transformer' : Transformer} {level level' : List (AttributeDecl × Shape)}
  {nested nested' : List (AttributeDecl × Shape)} {path : String} {place : Location}
  {conversion conversion' : Option Conversion} {attr attr' : AttributeDecl × Shape}

/-- Two levels change objects alike if attributes of one name change values alike. -/
theorem tracedAttributes_fst_eq (hnodup : (level.map (·.1.name)).Nodup)
    (hlength : level'.length = level.length)
    (hsame : ∀ attr ∈ level, ∃ attr' ∈ level', attr'.1.name = attr.1.name ∧ ∀ value,
      (transformer'.tracedMember level' path place attr' value).1 =
        (transformer.tracedMember level path place attr value).1)
    (members : List (String × Json)) :
    (transformer'.tracedAttributes level' level' path place members).1 =
      (transformer.tracedAttributes level level path place members).1 := by
  rw [tracedAttributes_fst, tracedAttributes_fst]
  have hkeys : ((level.map fun attr => (attr.1.name, fun value =>
      (transformer.tracedMember level path place attr value).1)).map (·.1)).Nodup := by
    rwa [List.map_map]
  -- the changes are the same ones in another order
  refine (Fields.updates_perm ?_ hkeys members).symm
  refine (List.subperm_of_subset (.of_map _ hkeys) fun change hchange => ?_).perm_of_length_le
    (by simp [hlength])
  obtain ⟨attr, hattr, rfl⟩ := List.mem_map.mp hchange
  obtain ⟨attr', hattr', hname, hvalue⟩ := hsame attr hattr
  exact List.mem_map.mpr ⟨attr', hattr', Prod.ext hname (funext hvalue)⟩

/-- A member is changed alike by two levels if its content is, and its hook is the same. -/
theorem tracedMember_fst_congr (hname : attr'.1.name = attr.1.name)
    (hcontext : transformer'.context = transformer.context)
    (hhook : get? transformer'.hooks (joinPath path attr.1.name) =
      get? transformer.hooks (joinPath path attr.1.name))
    (hcontent : ∀ place value,
      (transformer'.tracedContent (Shape.conversion? level' attr.1.name)
        (joinPath path attr.1.name) place attr'.2 value).1 =
      (transformer.tracedContent (Shape.conversion? level attr.1.name)
        (joinPath path attr.1.name) place attr.2 value).1) (value : Json) :
    (transformer'.tracedMember level' path place attr' value).1 =
      (transformer.tracedMember level path place attr value).1 := by
  rw [tracedMember, tracedMember, hname]
  split
  · rfl
  · simp only [tracedHook, hhook, hcontent, hcontext]

/-- A nested value is changed alike if the objects inside it are. -/
theorem tracedContent_level_fst_congr (h : ∀ place members,
    (transformer'.tracedAttributes nested' nested' path place members).1 =
      (transformer.tracedAttributes nested nested path place members).1)
    (kind : NodeKind) (place : Location) (value : Json) :
    (transformer'.tracedContent conversion' path place (.level kind nested') value).1 =
      (transformer.tracedContent conversion path place (.level kind nested) value).1 := by
  have hitem (place : Location) (item : Json) :
      (tracedItem (transformer'.tracedAttributes nested' nested' path) place item).1 =
        (tracedItem (transformer.tracedAttributes nested nested path) place item).1 := by
    cases item <;> simp only [tracedItem, h]
  cases kind with
  | object => rw [tracedContent_object, tracedContent_object, hitem]
  | array =>
    cases value with
    | array items => simp only [tracedContent, tracedItems_eq, hitem]
    | _ => simp only [tracedContent]

end Transformer

section Reordering

variable {s s' : Flattening} {flattened flattened' : Flattened} {hooks hooks' : Fields Hook}
  {context : Json}

/-- Contents of attributes that differ in the order of siblings are changed alike. -/
theorem AttributeDrawn.tracedContent_fst_eq {path key : String}
    {directives directives' : List (Directive Descriptor)} {visited visited' : Visited}
    {joint : Tuple { pair : Descriptor × Descriptor // pair.1.Reordered pair.2 }}
    {conversion conversion' : Option Conversion}
    (hread : Tuple.ofDirectives directives = .ok (joint.map (·.1.1)))
    (hread' : Tuple.ofDirectives directives' = .ok (joint.map (·.1.2)))
    (hdrawn : AttributeDrawn s (Drawn s) (key, .tuple directives) visited)
    (hdrawn' : AttributeDrawn s' (Drawn s') (key, .tuple directives') visited')
    (hconversion : joint.isNested = false → conversion' = conversion)
    (hlevel : ∀ {inner inner' child child' below below'}, inner.Reordered inner' →
      (joint.map (·.1.1)).nested = some inner → (joint.map (·.1.2)).nested = some inner' →
      Drawn s inner child below → Drawn s' inner' child' below' → ∀ place members,
        (Transformer.tracedAttributes ⟨hooks', context⟩ below'.attributes below'.attributes path
          place members).1 =
        (Transformer.tracedAttributes ⟨hooks, context⟩ below.attributes below.attributes path
          place members).1)
    (place : Location) (value : Json) :
    (Transformer.tracedContent ⟨hooks', context⟩ conversion' path place visited'.shape value).1 =
      (Transformer.tracedContent ⟨hooks, context⟩ conversion path place visited.shape value).1 := by
  cases hdrawn with
  | scalar read plain =>
    obtain rfl := Except.ok.inj (hread.symm.trans read)
    rw [Tuple.isNested_map] at plain
    obtain rfl := hdrawn'.eq_of_plain hread' (by rwa [Tuple.isNested_map])
    simp only [Transformer.tracedContent, hconversion plain]
  | attachment read nesting nested =>
    obtain rfl := Except.ok.inj (hread.symm.trans read)
    obtain ⟨child', node', -, -, rfl⟩ :=
      hdrawn'.exists_attachment hread' nesting (by simpa [Tuple.map] using nested)
    simp only [Transformer.tracedContent]
  | @level _ child _ _ kind inner node below read nesting nested entered kept drawn =>
    obtain rfl := Except.ok.inj (hread.symm.trans read)
    obtain ⟨⟨⟨_, inner'⟩, hreordered⟩, hjoint, rfl⟩ := Option.map_eq_some_iff.mp nested
    have hnested' : (joint.map (·.1.2)).nested = some inner' := by simp [Tuple.map, hjoint]
    obtain ⟨child', node', below', -, hkind, hbelow', rfl⟩ := hdrawn'.exists_level hread' hnested'
    obtain rfl : kind = node'.kind := Option.some.inj (nesting.symm.trans hkind)
    exact Transformer.tracedContent_level_fst_congr
      (hlevel hreordered nested hnested' drawn hbelow') _ place value

/-- Objects are changed alike by descriptors that differ in the order of siblings. -/
theorem Drawn.tracedAttributes_eq_of_reordered (hends : flattened.EndsIn s)
    (hdistinct : flattened.DistinctNames) (hends' : flattened'.EndsIn s')
    (hdistinct' : flattened'.DistinctNames) :
    ∀ (descriptor : Descriptor) {descriptor' : Descriptor} {name name' : String}
      {level level' : Level}, descriptor.Reordered descriptor' → Drawn s descriptor name level →
      Drawn s' descriptor' name' level' → ∀ {path : String},
      descriptor.HookedAt .transform hooks path → descriptor'.HookedAt .transform hooks' path →
      ∀ place members,
        (Transformer.tracedAttributes ⟨hooks', context⟩ level'.attributes level'.attributes path
          place members).1 =
        (Transformer.tracedAttributes ⟨hooks, context⟩ level.attributes level.attributes path
          place members).1 := by
  refine Descriptor.levels_induction fun declared ih descriptor' name name' level level' hreordered
    hdrawn hdrawn' path hhooks hhooks' place members => ?_
  have hnodup := hdrawn.nodup_names hends hdistinct
  have hnodup' := hdrawn'.nodup_names hends' hdistinct'
  have hlength : level'.attributes.length = level.attributes.length := by
    have hnames := congrArg List.length hdrawn.names_eq
    have hnames' := congrArg List.length hdrawn'.names_eq
    simp only [Descriptor.names, List.length_map] at hnames hnames'
    rw [hnames, hnames', hreordered.length_eq]
  -- attribute by attribute: each has a counterpart of its name in the other descriptor
  refine Transformer.tracedAttributes_fst_eq hnodup hlength (fun attr hattr => ?_) members
  obtain ⟨directives, tuple, visited, hdeclared, hread, hmem, rfl, hvisited⟩ :=
    hdrawn.exists_assigned hends hdistinct hattr
  obtain ⟨directives', hmem', halike⟩ := hreordered.exists_entry hmem
  obtain ⟨joint, rfl, hread'⟩ := Tuple.exists_joint halike hread
  obtain ⟨visited', hvisited', hattr'⟩ := hdrawn'.exists_visited_of_mem hmem'
  have hname : visited'.decl.name = visited.decl.name := hvisited'.name_eq
  have hdeclared' := Descriptor.assigns_of_mem (hdrawn'.names_eq ▸ hnodup') hmem' hread'
  refine ⟨_, hattr', hname, Transformer.tracedMember_fst_congr hname rfl
    ((hhooks'.own hdeclared').trans (hhooks.own hdeclared).symm)
    (hvisited.tracedContent_fst_eq hread hread' hvisited' (fun hplain => ?_) ?_)⟩
  · obtain ⟨-, hshape, hconversion⟩ :=
      hvisited.conversion?_of_plain hread (by rwa [Tuple.isNested_map])
    obtain ⟨-, hshape', hconversion'⟩ :=
      hvisited'.conversion?_of_plain hread' (by rwa [Tuple.isNested_map])
    show Shape.conversion? level'.attributes visited.decl.name =
      Shape.conversion? level.attributes visited.decl.name
    rw [Shape.conversion?_of_mem hnodup (hshape ▸ hattr), hconversion, ← hname,
      Shape.conversion?_of_mem hnodup' (hshape' ▸ hattr'), hconversion']
    rfl
  · intro inner inner' child child' below below' hinner hnested hnested' hbelow hbelow'
    exact ih _ hmem directives rfl inner (Tuple.mem_of_nested hread hnested) hinner hbelow hbelow'
      (hhooks.inside hdeclared hnested) (hhooks'.inside hdeclared' hnested')

end Reordering

/-! ## The result -/

/-- A transformation of records goes by a descriptor; `run` is the transformation with its calls of
hooks. -/
structure Transforms (descriptor : Descriptor) (transform : Json → Json × Journal)
    (run : Json → Json × List HookCall) : Prop where
  /-- the calls account for what is made of a record and for all that is reported -/
  traced : ∀ record, transform record = HookCall.reported (run record)
  /-- every hook is called once for each of its values, with the record as it was passed in -/
  calls : ∀ record, CallsEach record (descriptor.HookInstance record) (run record).2
  /-- what asks for no change, or is not declared, is kept where there is no hook around -/
  kept : ∀ {record front inner name}, descriptor.Reaches front inner →
    descriptor.Unhooked (front ++ [.key name]) → (∀ tuple, inner.Assigns name tuple → tuple.Rests) →
      (transform record).1.locate? (front ++ [.key name]) = record.locate? (front ++ [.key name])

namespace Flattened

variable {flattened flattened' : Flattened} {store store' rootName rootName' : String}
  {descriptor descriptor' : Descriptor}

/-- Where names are plain, a transformation goes by the descriptor, and not by the order of its
attributes. -/
theorem transform_reordered (h : (flatten store rootName descriptor).1 = .ok flattened)
    (h' : (flatten store' rootName' descriptor').1 = .ok flattened') (hplain : flattened.PlainNames)
    (hplain' : flattened'.PlainNames) (hreordered : descriptor.Reordered descriptor') :
    (∀ record, (flattened'.transform record).1 = (flattened.transform record).1) ∧
      Transforms descriptor flattened.transform flattened.traced := by
  obtain ⟨s, level, hends, hdrawn, hattributes, -⟩ := exists_drawn h
  obtain ⟨s', level', hends', hdrawn', hattributes', -⟩ := exists_drawn h'
  obtain ⟨-, hhooks⟩ := hookedAt_of_flatten h hplain
  obtain ⟨-, hhooks'⟩ := hookedAt_of_flatten h' hplain'
  have htraced (members : List (String × Json)) :=
    traced_object hends hplain.distinct hdrawn hattributes members
  refine ⟨fun record => ?same, ⟨flattened.transform_eq_traced, fun record => ?calls, ?kept⟩⟩
  case same =>
    rw [transform_eq_traced, transform_eq_traced]
    cases record with
    | object members =>
      rw [htraced, traced_object hends' hplain'.distinct hdrawn' hattributes']
      exact congrArg Json.object (hdrawn.tracedAttributes_eq_of_reordered hends hplain.distinct
        hends' hplain'.distinct descriptor hreordered hdrawn' hhooks hhooks' [] members)
    | _ => rfl
  case calls =>
    cases record with
    | object members =>
      rw [htraced]
      refine (hdrawn.callsEach_tracedAttributes hends hplain.distinct descriptor hhooks []
        members).congr fun place hook => ?_
      simp [Location.Under]
    | _ => exact .nil fun place hook => Descriptor.not_hookInstance_of_not_object rfl
  case kept =>
    intro record front inner name hreaches hunhooked hrests
    rw [transform_eq_traced]
    cases record with
    | object members =>
      rw [htraced]
      exact hdrawn.locate?_tracedAttributes hends hplain.distinct descriptor hhooks hreaches
        hunhooked hrests [] members
    | _ => rfl

/-- The price of a line, in the currency of the order around it. -/
def priced : Handler := fun value record =>
  match value, record.get? "currency" with
  | .string price, some (.string currency) => .ok (.string (price ++ " " ++ currency))
  | _, _ => .error "no price"

/-- A currency by its symbol. -/
def symbol : Handler := fun value _ =>
  match value with
  | .string "EUR" => .ok (.string "€")
  | _ => .error "unknown currency"

/-- The lines of an order, with prices that are written by a hook. -/
def orderLine : Descriptor :=
  .mk [("line", .tuple [.word "int", .word "<<line>>"]),
    ("count", .tuple [.word "int", .word "toInt"]),
    ("price", .tuple [.word "string", .word "onTransform", .handler priced])]

/-- The same with the price in front. -/
def pricedLine : Descriptor :=
  .mk [("price", .tuple [.word "string", .word "onTransform", .handler priced]),
    ("line", .tuple [.word "int", .word "<<line>>"]),
    ("count", .tuple [.word "int", .word "toInt"])]

/-- Orders with a currency in front of their lines, and deliveries of another store. -/
def ordersByLine : Descriptor :=
  .mk [("id", .tuple [.word "int", .word "<<order>>"]),
    ("currency", .tuple [.word "string", .word "onTransform", .handler symbol]),
    ("lines", .tuple [.word "array", .nested orderLine]),
    ("deliveries", .tuple [.word "array", .word "@deliveries"])]

/-- The same with the currency behind the lines. -/
def ordersByCurrency : Descriptor :=
  .mk [("id", .tuple [.word "int", .word "<<order>>"]),
    ("lines", .tuple [.word "array", .nested pricedLine]),
    ("currency", .tuple [.word "string", .word "onTransform", .handler symbol]),
    ("deliveries", .tuple [.word "array", .word "@deliveries"])]

/-- An order of two lines, the second one without a price. -/
def openOrder : Json :=
  .object [("currency", .string "EUR"), ("deliveries", .ofInt 7), ("lines", .array [
    .object [("line", .ofInt 1), ("count", .string "2.7"), ("price", .string "10")],
    .object [("line", .ofInt 2), ("price", .null), ("note", .string "gift")]])]

/-- The order once it has been transformed: the price shows the currency that was passed in. -/
def settledOrder : Json :=
  .object [("currency", .string "€"), ("deliveries", .ofInt 7), ("lines", .array [
    .object [("line", .ofInt 1), ("count", .ofInt 2), ("price", .string "10 EUR")],
    .object [("line", .ofInt 2), ("price", .null), ("note", .string "gift")]])]

/-- The two descriptors differ in the order of siblings at both levels. -/
theorem reordered_orders : ordersByLine.Reordered ordersByCurrency := by
  have hself (entry : String × Attribute Descriptor) :
      Attribute.Alike Descriptor.Reordered entry entry :=
    Attribute.alike_self entry fun _ _ inner _ => .refl inner
  have hline : orderLine.Reordered pricedLine :=
    .mk (List.forall₂_same.mpr fun entry _ => hself entry) (List.perm_append_singleton _ [_, _])
  have hlines : Attribute.Alike Descriptor.Reordered
      ("lines", .tuple [.word "array", .nested orderLine])
      ("lines", .tuple [.word "array", .nested pricedLine]) :=
    .tuple "lines" (.cons (.word "array") (.cons (.nested hline) .nil))
  exact .mk (.cons (hself _) (.cons (hself _) (.cons hlines (.cons (hself _) .nil))))
    (.cons _ (.swap _ _ _))

/-- Both orders of declaration give one result. The hook of the price is called for the first line
only, and before the one of the currency or behind it. -/
theorem transform_reordered_orders : ∃ flattened flattened',
    (flatten "orders" "main" ordersByLine).1 = .ok flattened ∧
    (flatten "orders" "main" ordersByCurrency).1 = .ok flattened' ∧ flattened.PlainNames ∧
    flattened'.PlainNames ∧ ordersByLine.Reordered ordersByCurrency ∧
    (flattened.transform openOrder).1.same settledOrder = true ∧
    (flattened.traced openOrder).2.map (·.place) =
      [[.key "currency"], [.key "lines", .index 0, .key "price"]] ∧
    (flattened'.traced openOrder).2.map (·.place) =
      [[.key "lines", .index 0, .key "price"], [.key "currency"]] ∧
    (∀ record, (flattened'.transform record).1 = (flattened.transform record).1) ∧
      Transforms ordersByLine flattened.transform flattened.traced := by
  have hfirst : (flatten "orders" "main" ordersByLine).1.toOption.map (fun flattened =>
      (decide flattened.PlainNames, (flattened.transform openOrder).1.same settledOrder,
        (flattened.traced openOrder).2.map (·.place))) =
      some (true, true, [[.key "currency"], [.key "lines", .index 0, .key "price"]]) := by
    decide +kernel
  have hsecond : (flatten "orders" "main" ordersByCurrency).1.toOption.map (fun flattened =>
      (decide flattened.PlainNames, (flattened.traced openOrder).2.map (·.place))) =
      some (true, [[.key "lines", .index 0, .key "price"], [.key "currency"]]) := by
    decide +kernel
  obtain ⟨flattened, hflatten, hall⟩ := Option.map_eq_some_iff.mp hfirst
  obtain ⟨flattened', hflatten', hall'⟩ := Option.map_eq_some_iff.mp hsecond
  simp only [Prod.mk.injEq, decide_eq_true_eq] at hall hall'
  have hok := Except.eq_ok_of_toOption hflatten
  have hok' := Except.eq_ok_of_toOption hflatten'
  exact ⟨flattened, flattened', hok, hok', hall.1, hall'.1, reordered_orders, hall.2.1, hall.2.2,
    hall'.2, transform_reordered hok hok' hall.1 hall'.1 reordered_orders⟩

end Flattened

end NestedRecord
