import NestedRecord.Proofs.Record.Hooks

/-!
# What a descriptor demands of records

What records conform to a descriptor is said here without a walk over them: attribute by attribute,
by what the descriptor declares there. The same demands, seen from the other side, give the places
at which a record breaks them, and these come in an order: that of declarations and of positions in
lists, with what stands inside a value before the value itself.

* `Tuple.Meets` is what is asked of a converted value by itself, `Tuple.Conforms` with all that is
  declared below it, and `Descriptor.Conforms` is a record that conforms.
* `Tuple.BrokenAt` and `Descriptor.BrokenAt` are the places at which demands are broken.
  `Descriptor.conforms_iff`: a record conforms if there are none.
* `Descriptor.Precedes` is their order. `Precedes.asymm` and `Foremost.unique`: at most one of them
  is the first.
* `Tuple.Matches` says that two values agree as far as something is declared of them.
-/

namespace NestedRecord

open Fields (get?)

/-! ## Values -/

/-- What bounds compare: a number, or the length of a text or of a list. -/
inductive Json.Measures : Json → Double → Prop
  | number (n : Number) : Measures (.number n) n.toDouble
  | text (s : String) : Measures (.string s) (.ofInt s.length)
  | list (items : List Json) : Measures (.array items) (.ofInt items.length)

/-- The bounds among the rules of an attribute allow a measure. Only numbers bound. -/
structure Rule.Allow (rules : List Rule) (measure : Double) : Prop where
  min : ∀ bound, .min (.number bound) ∈ rules → measure.lt bound.toDouble = false
  max : ∀ bound, .max (.number bound) ∈ rules → measure.gt bound.toDouble = false

/-- What an object has under a name; null if that is absent. -/
def Fields.orNull (members : Fields Json) (name : String) : Json :=
  (get? members name).getD .null

namespace Tuple

section Demands

variable {ν : Type} (tuple : Tuple ν)

/-- The first conversion declared. -/
def conversion? : Option Conversion :=
  tuple.rules.findSome? fun rule =>
    match rule with
    | .conversion conversion => some conversion
    | _ => none

/-- A value once it has been converted. -/
def convert (value : Json) : Json := tuple.conversion?.elim value (·.apply value)

/-- The attribute holds records of another store, and leaves their shape to it. -/
def IsAttached : Prop := tuple.nesting.isSome = true ∧ tuple.nested = none

/-- The value may be null or absent: the attribute is optional, or a single value that the store
maintains. -/
def MayLack : Prop :=
  .optional ∈ tuple.rules ∨
    tuple.isNested = false ∧ (tuple.computed.isSome = true ∨ tuple.links ≠ [])

/-- A value is of the kind that is declared. -/
structure Fits (value : Json) : Prop where
  scalar : tuple.isNested = false → ∀ type, tuple.scalarType = some type →
    type.accepts value = true
  object : tuple.nesting = some .object → value.isObject = true
  array : tuple.nesting = some .array → value.isArray = true

/-- A converted value is what is declared, apart from what stands below it. -/
structure Meets (record value : Json) : Prop where
  present : value.isNull = false
  fits : tuple.Fits value
  bounded : ∀ measure, value.Measures measure → Rule.Allow tuple.rules measure
  accepted : ∀ hook, tuple.lastHook? .validate = some hook → hook.check? value record = none

/-- A value by itself breaks what is declared. -/
structure Breaks (record value : Json) : Prop where
  shaped : ¬ tuple.IsAttached
  demanded : ¬ (value.isNull = true ∧ tuple.MayLack)
  unmet : ¬ tuple.Meets record (tuple.convert value)

end Demands

/-- A value inside a record conforms to what is declared of it and below it. -/
inductive Conforms (record : Json) : Tuple Descriptor → Json → Prop
  | attached {tuple : Tuple Descriptor} {value : Json} (attached : tuple.IsAttached) :
      Conforms record tuple value
  | lacking {tuple : Tuple Descriptor} {value : Json} (null : value.isNull = true)
      (allowed : tuple.MayLack) : Conforms record tuple value
  | present {tuple : Tuple Descriptor} {value : Json}
      (meets : tuple.Meets record (tuple.convert value))
      (members : ∀ {inner members name tuple'}, tuple.nesting = some .object →
        tuple.nested = some inner → tuple.convert value = .object members →
        inner.Assigns name tuple' → Conforms record tuple' (Fields.orNull members name))
      (items : ∀ {inner items item}, tuple.nesting = some .array → tuple.nested = some inner →
        tuple.convert value = .array items → item ∈ items → item.isObject = true)
      (elements : ∀ {inner items members name tuple'}, tuple.nesting = some .array →
        tuple.nested = some inner → tuple.convert value = .array items → .object members ∈ items →
        inner.Assigns name tuple' → Conforms record tuple' (Fields.orNull members name)) :
      Conforms record tuple value

/-- The places in a value at which it breaks what is declared. -/
inductive BrokenAt (record : Json) : Tuple Descriptor → Json → Location → Prop
  | own {tuple : Tuple Descriptor} {value : Json} (breaks : tuple.Breaks record value) :
      BrokenAt record tuple value []
  | member {tuple tuple' : Tuple Descriptor} {inner : Descriptor} {value : Json}
      {members : List (String × Json)} {name : String} {place : Location}
      (nesting : tuple.nesting = some .object) (nested : tuple.nested = some inner)
      (shaped : tuple.convert value = .object members) (declared : inner.Assigns name tuple')
      (broken : BrokenAt record tuple' (Fields.orNull members name) place) :
      BrokenAt record tuple value (.key name :: place)
  | item {tuple : Tuple Descriptor} {inner : Descriptor} {value item : Json} {items : List Json}
      {index : Nat} (nesting : tuple.nesting = some .array) (nested : tuple.nested = some inner)
      (shaped : tuple.convert value = .array items) (stands : items[index]? = some item)
      (misfit : item.isObject = false) : BrokenAt record tuple value [.index index]
  | element {tuple tuple' : Tuple Descriptor} {inner : Descriptor} {value : Json}
      {items : List Json} {members : List (String × Json)} {index : Nat} {name : String}
      {place : Location} (nesting : tuple.nesting = some .array)
      (nested : tuple.nested = some inner) (shaped : tuple.convert value = .array items)
      (stands : items[index]? = some (.object members)) (declared : inner.Assigns name tuple')
      (broken : BrokenAt record tuple' (Fields.orNull members name) place) :
      BrokenAt record tuple value (.index index :: .key name :: place)

/-- Two values agree as far as something is declared of them: in what a hook sees or no descriptor
describes they are the same, and of what is no object in a list its kind is. -/
inductive Matches : Tuple Descriptor → Json → Json → Prop
  | same {tuple : Tuple Descriptor} {value : Json} : Matches tuple value value
  | attached {tuple : Tuple Descriptor} {value value' : Json} (attached : tuple.IsAttached) :
      Matches tuple value value'
  | object {tuple : Tuple Descriptor} {inner : Descriptor} {members members' : List (String × Json)}
      (nesting : tuple.nesting = some .object) (nested : tuple.nested = some inner)
      (unhooked : tuple.lastHook? .validate = none)
      (below : ∀ {name tuple'}, inner.Assigns name tuple' →
        Matches tuple' (Fields.orNull members name) (Fields.orNull members' name)) :
      Matches tuple (.object members) (.object members')
  | array {tuple : Tuple Descriptor} {inner : Descriptor} {items items' : List Json}
      (nesting : tuple.nesting = some .array) (nested : tuple.nested = some inner)
      (unhooked : tuple.lastHook? .validate = none) (length : items.length = items'.length)
      (kinds : ∀ {index : Nat} {item item' : Json}, items[index]? = some item →
        items'[index]? = some item' →
        item.kindName = item'.kindName)
      (below : ∀ {index : Nat} {members members' : List (String × Json)} {name : String}
        {tuple' : Tuple Descriptor}, items[index]? = some (.object members) →
        items'[index]? = some (.object members') → inner.Assigns name tuple' →
        Matches tuple' (Fields.orNull members name) (Fields.orNull members' name)) :
      Matches tuple (.array items) (.array items')

end Tuple

namespace Descriptor

/-- A record conforms: it is an object, and what it has under the declared names conforms. -/
def Conforms (descriptor : Descriptor) (record : Json) : Prop :=
  ∃ members, record = .object members ∧
    ∀ name tuple, descriptor.Assigns name tuple →
      tuple.Conforms record (Fields.orNull members name)

/-- The places at which an object inside a record breaks what is declared of it. -/
def BrokenIn (descriptor : Descriptor) (record : Json) (members : List (String × Json))
    (place : Location) : Prop :=
  ∃ name tuple rest, place = .key name :: rest ∧ descriptor.Assigns name tuple ∧
    tuple.BrokenAt record (Fields.orNull members name) rest

/-- The places at which an object breaks what is declared of a record. -/
def BrokenAt (descriptor : Descriptor) (members : List (String × Json)) : Location → Prop :=
  descriptor.BrokenIn (.object members) members

end Descriptor

section Conformance

variable {record value : Json} {tuple : Tuple Descriptor} {descriptor inner : Descriptor}

/-- A null is not converted. -/
@[simp] theorem Tuple.convert_null {ν : Type} (tuple : Tuple ν) : tuple.convert .null = .null := by
  rw [convert]
  cases tuple.conversion? with
  | none => rfl
  | some conversion => cases conversion <;> rfl

theorem Tuple.convert_of_isNull (h : value.isNull = true) : tuple.convert value = .null := by
  rw [Json.isNull_iff.mp h, convert_null]

/-- What is attached has no descriptor here. -/
theorem Tuple.IsAttached.not_nested (h : tuple.IsAttached) : tuple.nested ≠ some inner := by
  rw [h.2]
  exact nofun

/-- What stands below a value that conforms conforms, and there is no other item in a list. -/
theorem Tuple.Conforms.inside (h : tuple.Conforms record value)
    (hnested : tuple.nested = some inner)
    (hpresent : (tuple.convert value).isNull = false) :
    (tuple.nesting = some .object → ∀ members, tuple.convert value = .object members →
      ∀ name tuple', inner.Assigns name tuple' →
        tuple'.Conforms record (Fields.orNull members name)) ∧
    (tuple.nesting = some .array → ∀ items, tuple.convert value = .array items →
      ∀ item ∈ items, item.isObject = true ∧ ∀ members, item = .object members →
        ∀ name tuple', inner.Assigns name tuple' →
          tuple'.Conforms record (Fields.orNull members name)) := by
  cases h with
  | attached attached => exact absurd hnested attached.not_nested
  | lacking null =>
    rw [Tuple.convert_of_isNull null] at hpresent
    cases hpresent
  | present _ members items elements =>
    refine ⟨fun hnesting _ hshaped name tuple' hdeclared =>
      members hnesting hnested hshaped hdeclared, fun hnesting _ hshaped item hitem => ?_⟩
    refine ⟨items hnesting hnested hshaped hitem, ?_⟩
    rintro _ rfl name tuple' hdeclared
    exact elements hnesting hnested hshaped hitem hdeclared

/-- What conforms is broken nowhere. -/
theorem Tuple.BrokenAt.not_conforms {place : Location} (h : tuple.BrokenAt record value place) :
    ¬ tuple.Conforms record value := by
  induction h with
  | own breaks =>
    -- each way to conform is excluded by a part of what it means to break
    rintro (attached | ⟨null, allowed⟩ | ⟨meets, -, -, -⟩)
    · exact breaks.shaped attached
    · exact breaks.demanded ⟨null, allowed⟩
    · exact breaks.unmet meets
  | member nesting nested shaped declared _ ih =>
    intro hconforms
    exact ih ((hconforms.inside nested (shaped ▸ rfl)).1 nesting _ shaped _ _ declared)
  | item nesting nested shaped stands misfit =>
    intro hconforms
    have hitem := (hconforms.inside nested (shaped ▸ rfl)).2 nesting _ shaped _
      (List.mem_of_getElem? stands)
    rw [misfit] at hitem
    cases hitem.1
  | element nesting nested shaped stands declared _ ih =>
    intro hconforms
    have hitem := (hconforms.inside nested (shaped ▸ rfl)).2 nesting _ shaped _
      (List.mem_of_getElem? stands)
    exact ih (hitem.2 _ rfl _ _ declared)

/-- What is broken nowhere conforms. -/
theorem Descriptor.conforms_of_unbroken (record : Json) : ∀ (descriptor : Descriptor)
    {name : String} {tuple : Tuple Descriptor}, descriptor.Assigns name tuple → ∀ {value : Json},
      (∀ place, ¬ tuple.BrokenAt record value place) → tuple.Conforms record value := by
  refine levels_induction fun attributes ih name tuple hdeclared value hunbroken => ?_
  obtain ⟨directives, hmem, hread⟩ := hdeclared.exists_mem
  have hinner {inner : Descriptor} (hnested : tuple.nested = some inner) :=
    @ih _ hmem directives rfl inner (Tuple.mem_of_nested hread hnested)
  by_cases hattached : tuple.IsAttached
  · exact .attached hattached
  by_cases hlacking : value.isNull = true ∧ tuple.MayLack
  · exact .lacking hlacking.1 hlacking.2
  -- otherwise the value itself would be broken, at the empty place
  have hmeets : tuple.Meets record (tuple.convert value) :=
    by_contra fun hunmet => hunbroken [] (.own ⟨hattached, hlacking, hunmet⟩)
  refine .present hmeets ?_ ?_ ?_
  · intro inner members key tuple' hnesting hnested hshaped hdeclared'
    exact hinner hnested hdeclared' fun place hbroken =>
      hunbroken _ (.member hnesting hnested hshaped hdeclared' hbroken)
  · intro inner items item hnesting hnested hshaped hitem
    obtain ⟨index, hindex⟩ := List.getElem?_of_mem hitem
    exact Bool.eq_true_of_not_eq_false fun hmisfit =>
      hunbroken _ (.item hnesting hnested hshaped hindex hmisfit)
  · intro inner items members key tuple' hnesting hnested hshaped hitem hdeclared'
    obtain ⟨index, hindex⟩ := List.getElem?_of_mem hitem
    exact hinner hnested hdeclared' fun place hbroken =>
      hunbroken _ (.element hnesting hnested hshaped hindex hdeclared' hbroken)

/-- An object conforms to a descriptor if it breaks it nowhere. -/
theorem Descriptor.conforms_iff {members : List (String × Json)} :
    descriptor.Conforms (.object members) ↔ ∀ place, ¬ descriptor.BrokenAt members place := by
  constructor
  · rintro ⟨members', hsame, hconforms⟩ place ⟨name, tuple, rest, -, hdeclared, hbroken⟩
    obtain rfl := Json.object.inj hsame
    exact hbroken.not_conforms (hconforms name tuple hdeclared)
  · intro hunbroken
    refine ⟨members, rfl, fun name tuple hdeclared => ?_⟩
    refine conforms_of_unbroken _ descriptor hdeclared fun place hbroken => ?_
    exact hunbroken _ ⟨name, tuple, place, rfl, hdeclared, hbroken⟩

end Conformance

/-! ## The order of places -/

/-- A place as messages show it, behind what is shown in front. -/
def Location.shownFrom (shown : String) : Location → String
  | [] => shown
  | .key name :: rest => shownFrom (joinPath shown name) rest
  | .index index :: rest => shownFrom (shown ++ "[" ++ Numeral.natText index ++ "]") rest

/-- A place of a record as messages show it. -/
def Location.shown (place : Location) : String := place.shownFrom ""

/-- One place inside an object comes before another: attributes in order of declaration, items in
their order, and what stands in a value before the value. -/
inductive Descriptor.Precedes : Descriptor → Location → Location → Prop
  | sibling {descriptor : Descriptor} {name name' : String} {rest rest' : Location}
      (order : [name, name'].Sublist descriptor.names) :
      Precedes descriptor (.key name :: rest) (.key name' :: rest')
  | content {descriptor : Descriptor} {name : String} {step : Step} {rest : Location} :
      Precedes descriptor (.key name :: step :: rest) [.key name]
  | member {descriptor inner : Descriptor} {name : String} {tuple : Tuple Descriptor}
      {rest rest' : Location} (declared : descriptor.Assigns name tuple)
      (nested : tuple.nested = some inner) (below : Precedes inner rest rest') :
      Precedes descriptor (.key name :: rest) (.key name :: rest')
  | item {descriptor : Descriptor} {name : String} {index index' : Nat} {rest rest' : Location}
      (order : index < index') :
      Precedes descriptor (.key name :: .index index :: rest) (.key name :: .index index' :: rest')
  | element {descriptor inner : Descriptor} {name : String} {tuple : Tuple Descriptor} {index : Nat}
      {rest rest' : Location} (declared : descriptor.Assigns name tuple)
      (nested : tuple.nested = some inner) (below : Precedes inner rest rest') :
      Precedes descriptor (.key name :: .index index :: rest) (.key name :: .index index :: rest')

/-- The first of some places. -/
structure Foremost (before : Location → Location → Prop) (places : Location → Prop)
    (place : Location) : Prop where
  mem : places place
  first : ∀ other, places other → other ≠ place → before place other

section Order

variable {descriptor : Descriptor} {place place' : Location}

/-- Places inside an object start with a name. -/
theorem Descriptor.Precedes.exists_names (h : descriptor.Precedes place place') :
    ∃ name name' rest rest', place = .key name :: rest ∧ place' = .key name' :: rest' := by
  cases h <;> exact ⟨_, _, _, _, rfl, rfl⟩

/-- Where nothing is repeated, only one of two elements stands in front of the other. -/
theorem not_sublist_swap {α : Type} {list : List α} (h : list.Nodup) {a b : α}
    (hab : [a, b].Sublist list) : ¬ [b, a].Sublist list := by
  induction list with
  | nil => cases hab
  | cons c rest ih =>
    obtain ⟨hnot, hrest⟩ := List.nodup_cons.mp h
    intro hba
    cases hab with
    | cons _ hab =>
      -- where both lists keep the first element, it stands in the rest once more
      cases hba with
      | cons _ hba => exact ih hrest hab hba
      | cons_cons _ hba => exact hnot (hab.subset (by simp))
    | cons_cons _ hab =>
      cases hba with
      | cons _ hba => exact hnot (hba.subset (by simp))
      | cons_cons _ hba => exact hnot (hba.subset (by simp))

/-- Where names differ at each level, places come in one order only. -/
theorem Descriptor.Precedes.asymm (h : descriptor.Precedes place place')
    (hlevels : descriptor.Levels List.Nodup) : ¬ descriptor.Precedes place' place := by
  -- places below one name come in the order of what stands below it,
  -- since no name stands twice at a level
  have hself {descriptor : Descriptor} (hlevels : descriptor.Levels List.Nodup) (name : String) :
      ¬ [name, name].Sublist descriptor.names := by
    obtain ⟨hnodup, -⟩ := hlevels
    exact fun hsub => not_sublist_swap hnodup hsub hsub
  induction h with
  | @sibling descriptor name name' rest rest' order =>
    intro h'
    cases h' with
    | sibling order' =>
      obtain ⟨hnodup, -⟩ := hlevels
      exact not_sublist_swap hnodup order order'
    | _ => exact hself hlevels name order
  | content =>
    intro h'
    cases h' with
    | sibling order' => exact hself hlevels _ order'
    | member _ _ below => obtain ⟨_, _, _, _, hnil, -⟩ := below.exists_names; cases hnil
  | member declared nested below ih =>
    intro h'
    obtain ⟨name, name', rest, rest', rfl, rfl⟩ := below.exists_names
    cases h' with
    | sibling order' => exact hself hlevels _ order'
    | member declared' nested' below' =>
      obtain rfl := declared.unique declared'
      obtain rfl := Option.some.inj (nested.symm.trans nested')
      exact ih (hlevels.inside declared nested) below'
  | item order =>
    intro h'
    cases h' with
    | sibling order' => exact hself hlevels _ order'
    | member _ _ below' => obtain ⟨_, _, _, _, hindex, -⟩ := below'.exists_names; cases hindex
    | item order' => omega
    | element => omega
  | element declared nested below ih =>
    intro h'
    cases h' with
    | sibling order' => exact hself hlevels _ order'
    | member _ _ below' => obtain ⟨_, _, _, _, hindex, -⟩ := below'.exists_names; cases hindex
    | item order' => omega
    | element declared' nested' below' =>
      obtain rfl := declared.unique declared'
      obtain rfl := Option.some.inj (nested.symm.trans nested')
      exact ih (hlevels.inside declared nested) below'

/-- There is at most one first place. -/
theorem Foremost.unique {before : Location → Location → Prop} {places : Location → Prop}
    (hasymm : ∀ {place place'}, before place place' → ¬ before place' place)
    (h : Foremost before places place) (h' : Foremost before places place') : place = place' :=
  by_contra fun hne => hasymm (h.first _ h'.mem (Ne.symm hne)) (h'.first _ h.mem hne)

end Order

end NestedRecord
