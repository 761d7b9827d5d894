import NestedRecord.Proofs.Record.Reporting

/-!
# Validation decides conformance

A record is accepted exactly if it conforms to the descriptor of the store; otherwise the first
place at which it breaks the descriptor is reported. Nothing else plays a part in it, as long as
no hook looks at the record around its value.

* `Hook.IgnoresRecord` is such a hook. `Drawn.attributes?_eq_of_matches`: with these, objects that
  agree in what is declared are checked alike.
* `Decides` and `Overlooks` say what a validation does.
* `Flattened.validate_decides` is the result for a flattened descriptor.

That nothing else plays a part is shown by checking two objects side by side, with a checker made
for each. The objects may differ in what is not declared, and so may the records that hooks are
shown; at every value both checkers then come to the same verdict, with the same report.
-/

namespace NestedRecord

open Fields (get?)

/-! ## Undeclared values -/

/-- A hook does not look at the record around its value. -/
def Hook.IgnoresRecord (hook : Hook) : Prop :=
  ∀ value record record', hook.check? value record' = hook.check? value record

def Hook.isLiteral : Hook → Bool
  | .handler _ => false
  | .literal _ => true

theorem Hook.ignoresRecord_of_isLiteral {hook : Hook} (h : hook.isLiteral = true) :
    hook.IgnoresRecord := by
  cases hook with
  | handler => cases h
  | literal => exact fun _ _ _ => rfl

namespace Checker

variable {checker checker' : Checker} {decl : AttributeDecl} {value value' : Json} {place : Place}
  {attributes : List (AttributeDecl × Shape)}

/-- Values of one kind are checked alike if what they are converted to is. -/
theorem value?_congr {content? content?' : Json → Place → Option Violation}
    {converted converted' : Json} (hkind : value'.kindName = value.kindName)
    (hvalue : decl.conversion?.elim value (·.apply value) = converted)
    (hvalue' : decl.conversion?.elim value' (·.apply value') = converted')
    (hnull : converted'.isNull = converted.isNull)
    (hsame : converted.isNull = false → content?' converted' place = content? converted place ∧
      bounds? decl.rules converted' place = bounds? decl.rules converted place ∧
        checker'.hook? converted' place = checker.hook? converted place) :
    checker'.value? decl content?' value' place = checker.value? decl content? value place := by
  have hmissing : value'.isNull = value.isNull := by
    cases value <;> cases value' <;> simp_all [Json.kindName, Json.isNull]
  simp only [value?, hvalue, hvalue', hmissing, hnull, wrongKind, hkind]
  cases hpresent : converted.isNull with
  | true => simp only [if_true]
  | false =>
    obtain ⟨hcontent, hbounds, hhook⟩ := hsame hpresent
    simp only [hcontent, hbounds, hhook]

/-- Nested values without a hook are checked alike if their contents and measures are. -/
theorem value?_congr_structured {content? content?' : Json → Place → Option Violation}
    (hvalue : (∃ members members', value = .object members ∧ value' = .object members') ∨
      ∃ items items', value = .array items ∧ value' = .array items' ∧ items.length = items'.length)
    (hunhooked : ∀ converted, checker'.hook? converted place = none ∧
      checker.hook? converted place = none)
    (hcontent : content?' value' place = content? value place) :
    checker'.value? decl content?' value' place = checker.value? decl content? value place := by
  have hkind : value'.kindName = value.kindName := by
    rcases hvalue with ⟨_, _, rfl, rfl⟩ | ⟨_, _, rfl, rfl, -⟩ <;> rfl
  cases hconversion : decl.conversion? with
  | none =>
    refine value?_congr hkind (by rw [hconversion, Option.elim_none])
      (by rw [hconversion, Option.elim_none]) ?_ fun _ => ⟨hcontent, ?_, ?_⟩
    · rcases hvalue with ⟨_, _, rfl, rfl⟩ | ⟨_, _, rfl, rfl, -⟩ <;> rfl
    · rcases hvalue with ⟨_, _, rfl, rfl⟩ | ⟨_, _, rfl, rfl, hlength⟩
      · rfl
      · simp only [bounds?, measure?, hlength]
    · rw [(hunhooked _).1, (hunhooked _).2]
  | some conversion =>
    -- no conversion makes anything of objects and lists
    have happly : conversion.apply value = .null ∧ conversion.apply value' = .null := by
      rcases hvalue with ⟨members, members', rfl, rfl⟩ | ⟨items, items', rfl, rfl, -⟩
      · exact ⟨conversion.apply_of_structured (.inl ⟨members, rfl⟩),
          conversion.apply_of_structured (.inl ⟨members', rfl⟩)⟩
      · exact ⟨conversion.apply_of_structured (.inr ⟨items, rfl⟩),
          conversion.apply_of_structured (.inr ⟨items', rfl⟩)⟩
    exact value?_congr hkind (by rw [hconversion, Option.elim_some, happly.1])
      (by rw [hconversion, Option.elim_some, happly.2]) rfl (by simp [Json.isNull])

/-- Items of one kind are checked alike if their attributes are. -/
theorem item?_congr {item item' : Json} (hkind : item'.kindName = item.kindName)
    (hmembers : ∀ members members', item = .object members → item' = .object members' →
      checker'.attributes? attributes members' place =
        checker.attributes? attributes members place) :
    checker'.item? attributes item' place = checker.item? attributes item place := by
  cases item <;> cases item' <;> simp_all [Json.kindName, item?, wrongKind]

/-- Lists of one length are checked alike if their items are. -/
theorem content?_array_congr {items items' : List Json} (hlength : items.length = items'.length)
    (hkinds : ∀ (index : Nat) (item item' : Json), items[index]? = some item →
      items'[index]? = some item' → item'.kindName = item.kindName)
    (hmembers : ∀ (index : Nat) members members', items[index]? = some (.object members) →
      items'[index]? = some (.object members') →
        checker'.attributes? attributes members' (place.element index) =
          checker.attributes? attributes members (place.element index)) :
    checker'.content? decl (.level .array attributes) (.array items') place =
      checker.content? decl (.level .array attributes) (.array items) place := by
  -- as lists of verdicts the two can be compared position by position
  have hfind {f : Json × Nat → Option Violation} (list : List (Json × Nat)) :
      list.findSome? f = (list.map f).findSome? id := by rw [List.findSome?_map, Function.id_comp]
  rw [content?_array, content?_array, hfind, hfind]
  refine congrArg (List.findSome? id) (List.ext_getElem? fun index => ?_)
  simp only [List.getElem?_map, List.getElem?_zipIdx, Option.map_map, Nat.zero_add]
  cases hitem : items[index]? with
  | none =>
    rw [List.getElem?_eq_none_iff, hlength, ← List.getElem?_eq_none_iff] at hitem
    rw [hitem]
    rfl
  | some item =>
    obtain ⟨hindex, -⟩ := List.getElem?_eq_some_iff.mp hitem
    have hitem' := List.getElem?_eq_getElem (hlength ▸ hindex)
    rw [hitem']
    refine congrArg some (item?_congr (hkinds index _ _ hitem hitem') ?_)
    rintro members members' rfl hobject
    exact hmembers index members members' hitem (hobject ▸ hitem')

/-- A nested value is checked alike by two checkers that check objects inside it alike. -/
theorem content?_congr {kind : NodeKind} (hmembers : ∀ place' : Place,
      place'.path = place.path → ∀ members, checker'.attributes? attributes members place' =
        checker.attributes? attributes members place') (value : Json) :
    checker'.content? decl (.level kind attributes) value place =
      checker.content? decl (.level kind attributes) value place := by
  cases kind with
  | object =>
    cases value with
    | object members => simpa only [content?] using hmembers place rfl members
    | _ => simp only [content?]
  | array =>
    cases value with
    | array items =>
      refine content?_array_congr rfl (fun index item item' hitem hitem' => ?_)
        fun index members members' hobject hobject' => ?_
      · rw [Option.some.inj (hitem.symm.trans hitem')]
      · obtain rfl := Json.object.inj (Option.some.inj (hobject.symm.trans hobject'))
        exact hmembers (place.element index) rfl members
    | _ => simp only [content?]

/-- What a hook that ignores the record says of a value does not depend on it. -/
theorem hook?_congr {hooks : Fields Hook} {record record' : Json}
    (hignore : ∀ path hook, get? hooks path = some hook → hook.IgnoresRecord) (value : Json) :
    (Checker.mk hooks record').hook? value place = (Checker.mk hooks record).hook? value place := by
  simp only [hook?]
  cases hhook : get? hooks place.path with
  | none => rfl
  | some hook => rw [Option.bind_some, Option.bind_some, hignore _ _ hhook value record record']

end Checker

section Undeclared

variable {s : Flattening} {flattened : Flattened} {hooks : Fields Hook} {record record' : Json}
  (hignore : ∀ path hook, get? hooks path = some hook → hook.IgnoresRecord)

include hignore

/-- What is found in an attribute depends on what is declared of its value. -/
theorem AttributeDrawn.value?_eq_of_matches {key : String} {place : Place}
    {directives : List (Directive Descriptor)} {tuple : Tuple Descriptor} {visited : Visited}
    {value value' : Json} (hread : Tuple.ofDirectives directives = .ok tuple)
    (hdrawn : AttributeDrawn s (Drawn s) (key, .tuple directives) visited)
    (hforeign : visited.shape.isForeign = false)
    (hhook : get? hooks place.path = tuple.lastHook? .validate)
    (hlevel : ∀ {inner child below}, tuple.nested = some inner → Drawn s inner child below →
      ∀ place' : Place, place'.path = place.path → ∀ {members members'},
        (∀ name tuple', inner.Assigns name tuple' →
          tuple'.Matches (Fields.orNull members name) (Fields.orNull members' name)) →
        (Checker.mk hooks record').attributes? below.attributes members' place' =
          (Checker.mk hooks record).attributes? below.attributes members place')
    (hmatches : tuple.Matches value value') :
    (Checker.mk hooks record').value? visited.decl
        ((Checker.mk hooks record').content? visited.decl visited.shape) value' place =
      (Checker.mk hooks record).value? visited.decl
        ((Checker.mk hooks record).content? visited.decl visited.shape) value place := by
  have hsame {shape : Shape} (hcontent : ∀ value,
      (Checker.mk hooks record').content? visited.decl shape value place =
        (Checker.mk hooks record).content? visited.decl shape value place) (value : Json) :
      (Checker.mk hooks record').value? visited.decl
          ((Checker.mk hooks record').content? visited.decl shape) value place =
        (Checker.mk hooks record).value? visited.decl
          ((Checker.mk hooks record).content? visited.decl shape) value place :=
    Checker.value?_congr rfl rfl rfl rfl fun _ =>
      ⟨hcontent _, rfl, Checker.hook?_congr hignore _⟩
  -- where the values differ no hook looks at them
  have hunhooked (hnone : tuple.lastHook? .validate = none) (value : Json) :
      (Checker.mk hooks record').hook? value place = none ∧
        (Checker.mk hooks record).hook? value place = none := by
    simp [Checker.hook?, hhook, hnone]
  cases hdrawn with
  | scalar read plain =>
    obtain rfl := Except.ok.inj (hread.symm.trans read)
    cases hmatches with
    | same => exact hsame (fun value => by simp only [Checker.content?]) value
    | attached attached => simp [Tuple.isNested, attached.1] at plain
    | object nesting => simp [Tuple.isNested, nesting] at plain
    | array nesting => simp [Tuple.isNested, nesting] at plain
  | @level _ child _ _ kind inner node level read nesting nested entered kept drawn =>
    obtain rfl := Except.ok.inj (hread.symm.trans read)
    cases hmatches with
    | same =>
      refine hsame (fun value => ?_) value
      exact Checker.content?_congr (fun place' hpath members =>
        hlevel nested drawn place' hpath fun _ _ _ => .same) value
    | attached attached => exact absurd nested attached.not_nested
    | object nesting' nested' unhooked below =>
      obtain rfl := Option.some.inj (nesting.symm.trans nesting')
      obtain rfl := Option.some.inj (nested.symm.trans nested')
      refine Checker.value?_congr_structured (.inl ⟨_, _, rfl, rfl⟩) (hunhooked unhooked) ?_
      simp only [Checker.content?]
      exact hlevel nested drawn _ rfl fun _ _ hdeclared => below hdeclared
    | array nesting' nested' unhooked length kinds below =>
      obtain rfl := Option.some.inj (nesting.symm.trans nesting')
      obtain rfl := Option.some.inj (nested.symm.trans nested')
      refine Checker.value?_congr_structured (.inr ⟨_, _, rfl, rfl, length⟩) (hunhooked unhooked) ?_
      refine Checker.content?_array_congr length
        (fun index item item' hitem hitem' => (kinds hitem hitem').symm)
        fun index members members' hmembers hmembers' => ?_
      exact hlevel nested drawn (place.element index) rfl fun _ _ hdeclared =>
        below hmembers hmembers' hdeclared
  | attachment => cases hforeign

/-- What is found in an object depends on what is declared of its members. -/
theorem Drawn.attributes?_eq_of_matches (hends : flattened.EndsIn s)
    (hdistinct : flattened.DistinctNames) :
    ∀ (descriptor : Descriptor) {name : String} {level : Level}, Drawn s descriptor name level →
      ∀ {place : Place}, descriptor.HookedAt .validate hooks place.path →
      ∀ {members members' : List (String × Json)},
        (∀ name tuple, descriptor.Assigns name tuple →
          tuple.Matches (Fields.orNull members name) (Fields.orNull members' name)) →
        (Checker.mk hooks record').attributes? level.attributes members' place =
          (Checker.mk hooks record).attributes? level.attributes members place := by
  refine Descriptor.levels_induction fun declared ih name level hdrawn place hhooks members members'
    hmatches => ?_
  refine Checker.attributes?_congr fun attr hattr hforeign => ?_
  obtain ⟨directives, tuple, visited, hdeclared, hread, hmem, rfl, hvisited⟩ :=
    hdrawn.exists_assigned hends hdistinct hattr
  refine hvisited.value?_eq_of_matches hignore hread hforeign (hhooks.own hdeclared) ?_
    (hmatches _ _ hdeclared)
  intro inner child below hnested hbelow place' hpath members members' hinner
  exact ih _ hmem directives rfl inner (Tuple.mem_of_nested hread hnested) hbelow
    (hpath.symm ▸ hhooks.inside hdeclared hnested) hinner

end Undeclared

/-! ## The result -/

/-- A validation decides whether records conform to a descriptor, and reports the first place at
which one does not. -/
structure Decides (descriptor : Descriptor) (store : String)
    (validate : Json → Except Fault Unit) : Prop where
  accepts : ∀ record, validate record = .ok () ↔ descriptor.Conforms record
  /-- what is no object is refused as a whole -/
  root : ∀ record, record.isObject = false → ∃ violation,
    validate record = .error (.validation store violation) ∧ violation.field = "$root"
  /-- of an object that does not conform the first broken place is reported -/
  first : ∀ members, ¬ descriptor.Conforms (.object members) → ∃ place violation,
    validate (.object members) = .error (.validation store violation) ∧
      Foremost descriptor.Precedes (descriptor.BrokenAt members) place ∧
        violation.field = place.shown
  /-- and only one place is the first -/
  unique : ∀ members {place place'},
    Foremost descriptor.Precedes (descriptor.BrokenAt members) place →
      Foremost descriptor.Precedes (descriptor.BrokenAt members) place' → place = place'

/-- A validation does not depend on what a descriptor does not declare. -/
def Overlooks (descriptor : Descriptor) (validate : Json → Except Fault Unit) : Prop :=
  ∀ members members', (∀ name tuple, descriptor.Assigns name tuple →
    tuple.Matches (Fields.orNull members name) (Fields.orNull members' name)) →
      validate (.object members') = validate (.object members)

namespace Flattened

variable {flattened : Flattened} {store rootName : String} {descriptor : Descriptor}

/-- Where names are plain, validation decides whether records conform to the descriptor; and where
no hook looks at the record as a whole, nothing else matters. -/
theorem validate_decides (h : (flatten store rootName descriptor).1 = .ok flattened)
    (hplain : flattened.PlainNames) :
    Decides descriptor flattened.metadata.storeName flattened.validate ∧
      ((∀ path hook, get? flattened.onValidate path = some hook → hook.IgnoresRecord) →
        Overlooks descriptor flattened.validate) := by
  obtain ⟨s, level, hends, hdrawn, hattributes, -⟩ := exists_drawn h
  obtain ⟨hhooks, -⟩ := hookedAt_of_flatten h hplain
  have hreports (members : List (String × Json)) :
      Reports descriptor.Precedes (descriptor.BrokenAt members) ""
        (Checker.attributes? ⟨flattened.onValidate, .object members⟩ flattened.attributes members
          {}) := by
    rw [hattributes]
    exact hdrawn.reports hends hplain.distinct descriptor hhooks members
  refine ⟨⟨fun record => ?accepts, fun record hobject => ?other, fun members hbroken => ?reports,
    fun members place place' => ?unique⟩, fun hignore members members' hmatches => ?overlooks⟩
  case accepts =>
    rw [validate_eq_ok_iff]
    constructor
    · rintro ⟨members, rfl, hnone⟩
      -- nothing is reported exactly if nothing is broken
      have hunbroken := hreports members
      rw [hnone] at hunbroken
      exact Descriptor.conforms_iff.mpr hunbroken
    · rintro ⟨members, rfl, hconforms⟩
      refine ⟨members, rfl, ?_⟩
      have hfound := hreports members
      cases hviolation : Checker.attributes? ⟨flattened.onValidate, .object members⟩
        flattened.attributes members {} with
      | none => rfl
      | some violation =>
        rw [hviolation] at hfound
        obtain ⟨place, hfirst, -⟩ := hfound
        exact absurd hfirst.mem (Descriptor.conforms_iff.mp ⟨members, rfl, hconforms⟩ place)
  case other =>
    cases record with
    | object => cases hobject
    | _ => exact ⟨_, rfl, rfl⟩
  case reports =>
    have hfound := hreports members
    rw [validate]
    cases hviolation : Checker.attributes? ⟨flattened.onValidate, .object members⟩
      flattened.attributes members {} with
    | none =>
      rw [hviolation] at hfound
      exact absurd (Descriptor.conforms_iff.mpr hfound) hbroken
    | some violation =>
      rw [hviolation] at hfound
      obtain ⟨place, hfirst, hfield⟩ := hfound
      exact ⟨place, violation, rfl, hfirst, hfield⟩
  case unique =>
    -- places of two attributes of one level come in one order, as names differ
    exact Foremost.unique fun hbefore =>
      hbefore.asymm (hdrawn.levels fun hget => hends.nodup_names hplain.distinct hget)
  case overlooks =>
    simp only [validate]
    rw [hattributes, hdrawn.attributes?_eq_of_matches hignore hends hplain.distinct descriptor
      hhooks hmatches]

/-- Consignments of parcels by rail, with a total that is maintained and events of another store. -/
def consignments : Descriptor :=
  .mk [("id", .tuple [.word "int", .word "<<consignment>>"]),
    ("carrier", .tuple [.word "string", .word "onValidate", .word "rail"]),
    ("parcels", .tuple [.word "array", .word "max", .literal (.ofInt 3), .nested (.mk
      [("parcel", .tuple [.word "int", .word "<<parcel>>"]),
       ("weight", .tuple [.word "number", .word "toNumber", .word "min", .literal (.ofInt 1)])])]),
    ("total", .tuple [.word "number", .word "sum", .word "parcels.weight"]),
    ("events", .tuple [.word "array", .word "@events"])]

/-- A consignment of four parcels, of which one is too light and another one is no parcel. -/
def lightConsignment : Json :=
  .object [("events", .ofInt 7), ("parcels", .array [
    .object [("parcel", .ofInt 1), ("weight", .string " 2 ")],
    .object [("parcel", .ofInt 2), ("weight", .ofInt 0)], .string "crate",
    .object [("parcel", .ofInt 4), ("weight", .ofInt 3)]]), ("id", .ofInt 1),
    ("carrier", .string "rail")]

/-- The path that a refusal names. -/
def faultPath? : Except Fault Unit → Option String
  | .ok _ => none
  | .error fault => fault.path?

/-- The first fault is the weight of the second parcel: it stands in front of the item that is no
parcel, and both in front of the number of parcels. -/
theorem validate_decides_consignments : ∃ flattened,
    (flatten "consignments" "main" consignments).1 = .ok flattened ∧ flattened.PlainNames ∧
    Fields.keys flattened.onValidate = ["carrier"] ∧
    (∀ path hook, get? flattened.onValidate path = some hook → hook.IgnoresRecord) ∧
    faultPath? (flattened.validate lightConsignment) = some "parcels[1].weight" ∧
    Decides consignments flattened.metadata.storeName flattened.validate ∧
      Overlooks consignments flattened.validate := by
  have htables : (flatten "consignments" "main" consignments).1.toOption.map (fun flattened =>
      (decide flattened.PlainNames, Fields.keys flattened.onValidate,
        flattened.onValidate.all (·.2.isLiteral),
        faultPath? (flattened.validate lightConsignment))) =
      some (true, ["carrier"], true, some "parcels[1].weight") := by
    decide +kernel
  obtain ⟨flattened, hflatten, hall⟩ := Option.map_eq_some_iff.mp htables
  simp only [Prod.mk.injEq, decide_eq_true_eq, List.all_eq_true] at hall
  have hok := Except.eq_ok_of_toOption hflatten
  have hignore : ∀ path hook, get? flattened.onValidate path = some hook → hook.IgnoresRecord :=
    fun path hook hget => Hook.ignoresRecord_of_isLiteral (hall.2.2.1 _ (Fields.mem_of_get? hget))
  obtain ⟨hdecides, hoverlooks⟩ := validate_decides hok hall.1
  exact ⟨flattened, hok, hall.1, hall.2.1, hignore, hall.2.2.2, hdecides, hoverlooks hignore⟩

end Flattened

end NestedRecord
