import NestedRecord.Proofs.Record.Conforming

/-!
# What validation accepts

Without hooks an object is accepted exactly if each of its declared attributes is, and the value of
an attribute exactly if it can be converted, has the declared content and keeps the bounds.

Validation looks for the first violation, attribute by attribute, and at a value check by check.
That there is none is a statement about all of them at once, in which the order of the checks plays
no part: this is what is brought out here, one equivalence for each function of the checker.

- `Checker.attributes?_eq_none_iff` and `Checker.value?_eq_none_iff` say so of an object and of a
  value.
- `Checker.value?_text_eq_none_iff`, `Checker.value?_object_eq_none_iff` and
  `Checker.value?_array_eq_none_iff` say it of texts and of nested objects and lists; these are not
  converted.
- `Flattened.validate_eq_ok_iff` says it of a record.
- `Rule.AllowLength` is what bounds say of a text.
-/

namespace NestedRecord

open Fields (get?)

/-- The bounds among the rules of an attribute allow a text of a length. -/
structure Rule.AllowLength (rules : List Rule) (length : Nat) : Prop where
  min : ∀ bound, .min (.number bound) ∈ rules → (Double.ofInt length).lt bound.toDouble = false
  max : ∀ bound, .max (.number bound) ∈ rules → (Double.ofInt length).gt bound.toDouble = false

/-- A declaration without a conversion lists none among its rules. -/
theorem AttributeDecl.conversion?_eq_none_iff {decl : AttributeDecl} :
    decl.conversion? = none ↔ ∀ conversion, .conversion conversion ∉ decl.rules := by
  unfold AttributeDecl.conversion?
  rw [List.findSome?_eq_none_iff]
  constructor
  · intro h conversion hmem
    cases h _ hmem
  · intro h rule hrule
    cases rule with
    | conversion conversion => exact absurd hrule (h conversion)
    | _ => rfl

namespace Checker

variable {checker : Checker} {attributes : List (AttributeDecl × Shape)} {decl : AttributeDecl}
  {members : List (String × Json)} {value : Json} {place : Place}

/-! ## Bounds and types -/

/-- Only a number bounds. -/
theorem beyond?_eq_none_iff {measure : Double} {rule : Rule} :
    beyond? measure rule = none ↔
      (∀ bound, rule = .min (.number bound) → measure.lt bound.toDouble = false) ∧
        ∀ bound, rule = .max (.number bound) → measure.gt bound.toDouble = false := by
  cases rule with
  | min bound => cases bound <;> simp [beyond?, Json.number?]
  | max bound => cases bound <;> simp [beyond?, Json.number?]
  | _ => simp [beyond?]

/-- Texts are measured by their length. -/
theorem bounds?_text_eq_none_iff {rules : List Rule} {text : String} :
    bounds? rules (.string text) place = none ↔ Rule.AllowLength rules text.length := by
  have hmeasure : measure? (.string text) = some (.ofInt text.length) := rfl
  simp only [bounds?, hmeasure, Option.bind_some, Option.map_eq_none_iff,
    List.findSome?_eq_none_iff, beyond?_eq_none_iff]
  constructor
  · intro h
    exact ⟨fun bound hbound => (h _ hbound).1 bound rfl,
      fun bound hbound => (h _ hbound).2 bound rfl⟩
  · rintro h rule hrule
    exact ⟨fun bound heq => h.min bound (heq ▸ hrule), fun bound heq => h.max bound (heq ▸ hrule)⟩

theorem type?_eq_none_iff : type? decl value place = none ↔
    ∀ type, decl.scalarType = some type → type.accepts value = true := by
  unfold type?
  cases decl.scalarType <;> simp

/-! ## Values -/

/-- An object is accepted if each attribute is; what is joined is not looked at. -/
theorem attributes?_eq_none_iff :
    checker.attributes? attributes members place = none ↔
      ∀ attr ∈ attributes, attr.2.isForeign = false →
        checker.value? attr.1 (checker.content? attr.1 attr.2)
          ((get? members attr.1.name).getD .null) (place.field attr.1.name) = none := by
  induction attributes with
  | nil => simp [attributes?]
  | cons attr rest ih =>
    obtain ⟨decl, shape⟩ := attr
    rw [List.forall_mem_cons, ← ih, attributes?]
    cases hforeign : shape.isForeign with
    | true => simp
    | false =>
      simp only [Bool.false_eq_true, if_false, forall_const]
      split
      · next violation hviolation => simp [hviolation]
      · next hnone => simp [hnone]

/-- A value is accepted if its conversion is there, has the right content, is within the bounds and
is accepted by the hook. -/
theorem value?_eq_none_iff_of_present {content? : Json → Place → Option Violation}
    (hnull : value.isNull = false) :
    checker.value? decl content? value place = none ↔
      ∃ converted, decl.conversion?.elim value (·.apply value) = converted ∧
        converted.isNull = false ∧ content? converted place = none ∧
          bounds? decl.rules converted place = none ∧ checker.hook? converted place = none := by
  simp only [value?, hnull, Bool.false_eq_true, if_false, exists_eq_left']
  cases hconverted : (decl.conversion?.elim value (·.apply value)).isNull with
  | true => simp
  | false =>
    simp only [Bool.false_eq_true, if_false, true_and]
    split
    · next violation hviolation => simp [hviolation]
    · next hcontent =>
      rw [hcontent]
      split
      · next violation hviolation => simp [hviolation]
      · next hbounds => simp [hbounds]

/-- Without hooks it is accepted if its conversion is there, has the right content and is within the
bounds. -/
theorem value?_eq_none_iff (h : checker.Plain) {content? : Json → Place → Option Violation}
    (hnull : value.isNull = false) :
    checker.value? decl content? value place = none ↔
      ∃ converted, decl.conversion?.elim value (·.apply value) = converted ∧
        converted.isNull = false ∧ content? converted place = none ∧
          bounds? decl.rules converted place = none := by
  simp only [value?_eq_none_iff_of_present hnull, h.hook?, and_true]

/-- A text is accepted without a conversion if it has the type and its length is within the
bounds. -/
theorem value?_text_eq_none_iff (h : checker.Plain) {text : String}
    (hconversion : decl.conversion? = none) :
    checker.value? decl (checker.content? decl .scalar) (.string text) place = none ↔
      (∀ type, decl.scalarType = some type → type.accepts (.string text) = true) ∧
        Rule.AllowLength decl.rules text.length := by
  rw [value?_eq_none_iff h rfl, hconversion, Option.elim_none, ← type?_eq_none_iff,
    ← bounds?_text_eq_none_iff]
  simp only [content?, exists_eq_left']
  exact and_iff_right rfl

/-- An object or a list is accepted for a scalar attribute that has no conversion and no type. -/
theorem untyped_of_structured (h : checker.Plain)
    (hstructured : value.isObject = true ∨ value.isArray = true)
    (hvalid : checker.value? decl (checker.content? decl .scalar) value place = none) :
    decl.conversion? = none ∧ decl.scalarType = none := by
  have hnull : value.isNull = false := by
    cases value <;> first | rfl | (rcases hstructured with h | h <;> cases h)
  obtain ⟨converted, hconverted, hpresent, hcontent, -⟩ := (value?_eq_none_iff h hnull).mp hvalid
  -- a conversion makes null of it, and null is refused
  have hconversion : decl.conversion? = none := by
    cases hconversion : decl.conversion? with
    | none => rfl
    | some conversion =>
      have happly : conversion.apply value = .null := by
        refine conversion.apply_of_structured ?_
        cases value <;> simp_all [Json.isObject, Json.isArray]
      rw [hconversion, Option.elim_some, happly] at hconverted
      subst hconverted
      cases hpresent
  rw [hconversion, Option.elim_none] at hconverted
  subst hconverted
  rw [content?, type?_eq_none_iff] at hcontent
  refine ⟨hconversion, Option.eq_none_iff_forall_not_mem.mpr fun type htype => ?_⟩
  -- no scalar type takes an object or a list
  have haccepts := hcontent type htype
  cases value <;> cases type <;> simp_all [ScalarType.accepts, Json.isObject, Json.isArray]

/-- Objects and lists of a level are not converted. -/
theorem conversion?_eq_none_of_level (h : checker.Plain) {kind : NodeKind}
    (hnull : value.isNull = false)
    (hvalid : checker.value? decl (checker.content? decl (.level kind attributes)) value place =
      none) : decl.conversion? = none := by
  obtain ⟨converted, hconverted, hpresent, hcontent, -⟩ := (value?_eq_none_iff h hnull).mp hvalid
  have hstructured : (∃ members, converted = .object members) ∨
      ∃ items, converted = .array items := by
    cases kind <;> cases converted <;> simp [content?] at hcontent ⊢
  cases hconversion : decl.conversion? with
  | none => rfl
  | some conversion =>
    -- what has been converted would stay as it is, but no conversion gives an object or a list
    rw [hconversion, Option.elim_some] at hconverted
    subst hconverted
    have happly := conversion.apply_apply value hpresent
    rw [conversion.apply_of_structured hstructured] at happly
    rw [← happly] at hpresent
    cases hpresent

/-- What is accepted as an object: nothing is converted or measured. -/
theorem value?_object_eq_none_iff (h : checker.Plain)
    (hnull : value.isNull = false) :
    checker.value? decl (checker.content? decl (.level .object attributes)) value place = none ↔
      decl.conversion? = none ∧ ∃ members, value = .object members ∧
        checker.attributes? attributes members place = none := by
  by_cases hconversion : decl.conversion? = none
  · rw [value?_eq_none_iff h hnull, hconversion]
    simp only [Option.elim_none, exists_eq_left', hnull, true_and]
    cases value with
    | object members => simp [content?, bounds?, measure?]
    | _ => simp [content?]
  · exact iff_of_false (fun hvalid => hconversion (conversion?_eq_none_of_level h hnull hvalid))
      fun hvalid => hconversion hvalid.1

/-- What is accepted as a list of objects. -/
theorem value?_array_eq_none_iff (h : checker.Plain)
    (hnull : value.isNull = false) :
    checker.value? decl (checker.content? decl (.level .array attributes)) value place = none ↔
      decl.conversion? = none ∧ ∃ items, value = .array items ∧
        bounds? decl.rules (.array items) place = none ∧
        ∀ index item, items[index]? = some item → ∃ members, item = .object members ∧
          checker.attributes? attributes members (place.element index) = none := by
  by_cases hconversion : decl.conversion? = none
  · rw [value?_eq_none_iff h hnull, hconversion]
    simp only [Option.elim_none, exists_eq_left', hnull, true_and]
    cases value with
    | array items =>
      -- the checker goes through the items by position, the statement by index
      have hitems : checker.content? decl (.level .array attributes) (.array items) place = none ↔
          ∀ index item, items[index]? = some item → ∃ members, item = .object members ∧
            checker.attributes? attributes members (place.element index) = none := by
        simp only [content?, List.findSome?_eq_none_iff, Prod.forall, List.mem_zipIdx_iff_getElem?]
        rw [forall_comm]
        refine forall_congr' fun index => forall_congr' fun item => imp_congr_right fun _ => ?_
        cases item <;> simp
      simp [hitems, and_comm]
    | _ => simp [content?]
  · exact iff_of_false (fun hvalid => hconversion (conversion?_eq_none_of_level h hnull hvalid))
      fun hvalid => hconversion hvalid.1

end Checker

/-- What is accepted as a record. -/
theorem Flattened.validate_eq_ok_iff {flattened : Flattened} {record : Json} :
    flattened.validate record = .ok () ↔
      ∃ members, record = .object members ∧
        Checker.attributes? ⟨flattened.onValidate, record⟩ flattened.attributes members {} =
          none := by
  cases record with
  | object members =>
    simp only [validate, Json.object.injEq, exists_eq_left']
    split
    · next violation hviolation => simp [hviolation]
    · next hnone => simp [hnone]
  | _ => simp [validate]

end NestedRecord
