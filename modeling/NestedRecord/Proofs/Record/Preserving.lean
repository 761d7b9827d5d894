import NestedRecord.Proofs.Record.Accepted
import NestedRecord.Proofs.Record.Retraction
import NestedRecord.Proofs.Timestamp

/-!
# Clones that stay valid

A clone writes some values of scalar attributes as texts: objects and lists as JSON, and dates in
milliseconds as timestamps. The attribute checks such a text by other rules than the value, so a
record that is accepted can have a clone that is refused, but for these texts only.

- `Descriptor.Everywhere` says something of all values of scalar attributes at declared places;
  `everywhere_iff` follows the descriptor.
- `Tuple.AllowsClone` says that an attribute allows the text that a clone has in place of a value.
- `Checker.value?_scalar_iff`, `Checker.value?_object_iff` and `Checker.value?_array_iff`: the clone
  of an accepted value is accepted exactly if everything below it is allowed.
- `Drawn.clonesValid` puts these together along a descriptor, `Store.validate_clone_iff` for a
  store.

The clone of a value is judged in the same way as the value, where nothing has been written as a
text. So each of the equivalences is about one attribute: everything that its checks ask of the
value is known from the accepted record, and what is left is what they ask of the text. Since
acceptance of an object is acceptance of each attribute, these conditions add up to one for all
declared places.
-/

namespace NestedRecord

open Fields (get?)
open Walk (scalarDecl)

/-! ## What is declared in a record -/

/-- All values of scalar attributes at declared places of a record are as `Q` says. -/
def Descriptor.Everywhere (Q : Tuple Descriptor → Json → Prop) (descriptor : Descriptor)
    (record : Json) : Prop :=
  ∀ ⦃place inner name tuple value⦄, descriptor.Reaches place inner → inner.Assigns name tuple →
    tuple.isNested = false → record.locate? (place ++ [.key name]) = some value → Q tuple value

/-- All values of scalar attributes at declared places below an attribute are as `Q` says. -/
structure Tuple.Throughout (Q : Tuple Descriptor → Json → Prop) (tuple : Tuple Descriptor)
    (value : Json) : Prop where
  plain : tuple.isNested = false → Q tuple value
  object : ∀ inner, tuple.nesting = some .object → tuple.nested = some inner →
    inner.Everywhere Q value
  element : ∀ inner, tuple.nesting = some .array → tuple.nested = some inner →
    ∀ index item, value.child? (.index index) = some item → inner.Everywhere Q item

section Declared

variable {Q : Tuple Descriptor → Json → Prop} {descriptor inner : Descriptor}
  {tuple : Tuple Descriptor} {value : Json}

/-- What is declared in a record is declared below its attributes. -/
theorem Descriptor.everywhere_iff {record : Json} : descriptor.Everywhere Q record ↔
      ∀ name tuple value, descriptor.Assigns name tuple → record.get? name = some value →
        tuple.Throughout Q value := by
  constructor
  · intro h name tuple value hdeclared hvalue
    have hchild : record.child? (.key name) = some value := by rwa [Json.child?_key]
    refine ⟨fun hplain => ?_, fun inner hnesting hnested => ?_,
      fun inner hnesting hnested index item hitem => ?_⟩
    · exact h .here hdeclared hplain (by rw [List.nil_append, Json.locate?_key, hvalue])
    · intro place target key tuple' value' hreaches hdeclared' hplain hlocate
      refine h (.object hdeclared hnesting hnested hreaches) hdeclared' hplain ?_
      rw [List.cons_append, Json.locate?, hchild, Option.bind_some, hlocate]
    · intro place target key tuple' value' hreaches hdeclared' hplain hlocate
      refine h (.element index hdeclared hnesting hnested hreaches) hdeclared' hplain ?_
      rw [List.cons_append, Json.locate?, hchild, Option.bind_some, List.cons_append, Json.locate?,
        hitem, Option.bind_some, hlocate]
  · intro h place target key tuple value hreaches hdeclared hplain hlocate
    -- the first step to the level decides below which attribute the value stands
    cases hreaches with
    | here =>
      rw [List.nil_append, Json.locate?_key] at hlocate
      exact (h _ _ _ hdeclared hlocate).plain hplain
    | object declared nesting nested below =>
      rw [List.cons_append, Json.locate?] at hlocate
      obtain ⟨content, hcontent, hlocate⟩ := Option.bind_eq_some_iff.mp hlocate
      rw [Json.child?_key] at hcontent
      have hbelow := (h _ _ _ declared hcontent).object _ nesting nested
      exact hbelow below hdeclared hplain hlocate
    | element index declared nesting nested below =>
      rw [List.cons_append, Json.locate?] at hlocate
      obtain ⟨content, hcontent, hlocate⟩ := Option.bind_eq_some_iff.mp hlocate
      rw [Json.child?_key] at hcontent
      rw [List.cons_append, Json.locate?] at hlocate
      obtain ⟨item, hitem, hlocate⟩ := Option.bind_eq_some_iff.mp hlocate
      have hbelow := (h _ _ _ declared hcontent).element _ nesting nested index item hitem
      exact hbelow below hdeclared hplain hlocate

/-- What holds throughout a scalar attribute. -/
theorem Tuple.throughout_iff_of_plain (hplain : tuple.isNested = false) :
    tuple.Throughout Q value ↔ Q tuple value := by
  rw [isNested, Bool.or_eq_false_iff, Option.isSome_eq_false_iff, Option.isSome_eq_false_iff,
    Option.isNone_iff_eq_none, Option.isNone_iff_eq_none] at hplain
  constructor
  · intro h
    refine h.plain ?_
    rw [isNested, hplain.1, hplain.2]
    rfl
  · intro h
    refine ⟨fun _ => h, fun inner hnesting => ?_, fun inner hnesting => ?_⟩
    · rw [hplain.1] at hnesting
      cases hnesting
    · rw [hplain.1] at hnesting
      cases hnesting

/-- What holds throughout a nested object holds everywhere in it. -/
theorem Tuple.throughout_iff_of_object (hnesting : tuple.nesting = some .object)
    (hnested : tuple.nested = some inner) :
    tuple.Throughout Q value ↔ inner.Everywhere Q value := by
  constructor
  · exact fun h => h.object inner hnesting hnested
  · refine fun h => ⟨fun hplain => ?_, fun inner' _ hnested' => ?_, fun _ harray => ?_⟩
    · simp [isNested, hnesting] at hplain
    · obtain rfl : inner = inner' := Option.some.inj (hnested.symm.trans hnested')
      exact h
    · rw [hnesting] at harray
      cases harray

/-- What holds throughout a list holds everywhere in its items. -/
theorem Tuple.throughout_iff_of_array (hnesting : tuple.nesting = some .array)
    (hnested : tuple.nested = some inner) :
    tuple.Throughout Q value ↔
      ∀ index item, value.child? (.index index) = some item → inner.Everywhere Q item := by
  constructor
  · exact fun h => h.element inner hnesting hnested
  · refine fun h => ⟨fun hplain => ?_, fun _ hobject => ?_, fun inner' _ hnested' => ?_⟩
    · simp [isNested, hnesting] at hplain
    · rw [hnesting] at hobject
      cases hobject
    · obtain rfl : inner = inner' := Option.some.inj (hnested.symm.trans hnested')
      exact h

/-- Nothing is declared in what is no object. -/
theorem Descriptor.everywhere_of_not_object (h : value.isObject = false) :
    descriptor.Everywhere Q value := by
  rw [everywhere_iff]
  intro name tuple content _ hvalue
  cases value with
  | object => cases h
  | _ => cases hvalue

/-- Below a scalar nothing is declared. -/
theorem Tuple.Throughout.of_scalar (hobject : value.isObject = false)
    (harray : value.isArray = false) (hvalue : Q tuple value) : tuple.Throughout Q value := by
  refine ⟨fun _ => hvalue, fun _ _ _ => Descriptor.everywhere_of_not_object hobject,
    fun _ _ _ index item hitem => ?_⟩
  cases value with
  | array => cases harray
  | _ => cases hitem

/-- What holds in every item, and of the list itself, holds throughout. -/
theorem Tuple.Throughout.of_array {items : List Json} (hvalue : Q tuple (.array items))
    (hitems : ∀ item ∈ items, ∀ inner : Descriptor, inner.Everywhere Q item) :
    tuple.Throughout Q (.array items) := by
  refine ⟨fun _ => hvalue, fun _ _ _ => Descriptor.everywhere_of_not_object rfl,
    fun inner _ _ index item hitem => hitems item (List.mem_of_getElem? hitem) inner⟩

/-- Whatever a descriptor declares stands below some member. -/
theorem Descriptor.Everywhere.of_members {members : List (String × Json)}
    (h : ∀ member ∈ members, ∀ tuple : Tuple Descriptor, tuple.Throughout Q member.2) :
    descriptor.Everywhere Q (.object members) := by
  refine Descriptor.everywhere_iff.mpr fun name tuple value _ hvalue => ?_
  exact h _ (Fields.mem_of_get? hvalue) tuple

end Declared

/-! ## What is asked of clones -/

namespace Tuple

variable (tuple : Tuple Descriptor) (value : Json)

/-- A date in milliseconds is in a year of four digits, if there is a timestamp for it. -/
def DatedPlainly : Prop :=
  ∀ n millis, value = .number n → tuple.scalarType = some .date → n.int64? = some millis →
    (Timestamp.ofMillis? millis).isSome = true →
      0 ≤ Timestamp.year millis ∧ Timestamp.year millis ≤ 9999

/-- A date in milliseconds is plain if it lies in the years 0 to 9999. -/
theorem DatedPlainly.of_whole {tuple : Tuple Descriptor} {millis : Whole}
    (h : 0 ≤ Timestamp.year millis.val ∧ Timestamp.year millis.val ≤ 9999) :
    tuple.DatedPlainly (.number (.whole millis)) := by
  intro n signed hn _ hsigned _
  obtain rfl := Json.number.inj hn
  rw [Number.int64?, Option.ite_none_right_eq_some] at hsigned
  obtain rfl := Option.some.inj hsigned.2
  exact h

/-- If a value is written as a text in clones, then its attribute allows this text. -/
structure AllowsClone : Prop where
  /-- a timestamp is no numeral, and its length is the same for all dates -/
  date : ∀ n, value = .number n → Cloner.Normalises tuple.scalarType value →
    (∀ conversion, .conversion conversion ∉ tuple.rules) ∧ Rule.AllowLength tuple.rules 24
  /-- bounds of the size of a list are bounds of the length of its text -/
  structured : value.isObject = true ∨ value.isArray = true →
    Rule.AllowLength tuple.rules value.render.length

variable {tuple value}

/-- An object or a list is cloned to a text of its JSON, of which only the length counts. -/
theorem allowsClone_iff_of_structured (h : value.isObject = true ∨ value.isArray = true) :
    tuple.AllowsClone value ↔ Rule.AllowLength tuple.rules value.render.length := by
  constructor
  · exact fun hallows => hallows.structured h
  · refine fun hlength => ⟨fun n hn => ?_, fun _ => hlength⟩
    subst hn
    rcases h with h | h <;> cases h

/-- A date in milliseconds is cloned to a text of 24 characters, which nothing can convert. -/
theorem allowsClone_iff_of_number {n : Number}
    (h : Cloner.Normalises tuple.scalarType (.number n)) :
    tuple.AllowsClone (.number n) ↔
      (∀ conversion, .conversion conversion ∉ tuple.rules) ∧ Rule.AllowLength tuple.rules 24 := by
  constructor
  · exact fun hallows => hallows.date n rfl h
  · refine fun hrules => ⟨fun _ _ _ => hrules, fun hstructured => ?_⟩
    rcases hstructured with h | h <;> cases h

/-- Any other value stays as it is. -/
theorem AllowsClone.of_not_normalises (h : ¬ Cloner.Normalises tuple.scalarType value) :
    tuple.AllowsClone value := by
  refine ⟨fun _ _ hnormalises => absurd hnormalises h, fun hstructured => absurd ?_ h⟩
  cases value <;> first | trivial | (rcases hstructured with h | h <;> cases h)

end Tuple

/-! ## Scalars -/

/-- A value that is not normalised is cloned to itself. -/
theorem Cloner.scalar_eq_self {type : Option ScalarType} {value : Json}
    (h : ¬ Cloner.Normalises type value) : Cloner.scalar type value = value := by
  cases value with
  | object members => exact absurd trivial h
  | array items => exact absurd trivial h
  | number n =>
    rw [Cloner.scalar]
    split
    · next hdate =>
      cases hmillis : n.int64?.bind Timestamp.ofMillis? with
      | none => rfl
      | some text => exact absurd ⟨hdate, by rw [hmillis]; rfl⟩ h
    · rfl
  | _ => rfl

/-- What is normalised and neither an object nor a list is a date in milliseconds. -/
theorem Cloner.exists_clock_of_normalises {tuple : Tuple Descriptor} {value : Json}
    (hnormalises : Cloner.Normalises tuple.scalarType value)
    (hscalar : ¬ (value.isObject = true ∨ value.isArray = true))
    (hdated : tuple.DatedPlainly value) :
    ∃ (n : Number) (clock : Timestamp.Clock), value = .number n ∧ tuple.scalarType = some .date ∧
      Cloner.scalar tuple.scalarType value = .string clock.text := by
  cases value with
  | object members => exact absurd (.inl rfl) hscalar
  | array items => exact absurd (.inr rfl) hscalar
  | number n =>
    obtain ⟨hdate, hsome⟩ := hnormalises
    obtain ⟨text, htext⟩ := Option.isSome_iff_exists.mp hsome
    obtain ⟨millis, hmillis, hwritten⟩ := Option.bind_eq_some_iff.mp htext
    obtain ⟨clock, hclock⟩ := Timestamp.exists_clock hwritten
      (hdated n millis rfl hdate hmillis (by rw [hwritten]; rfl))
    refine ⟨n, clock, rfl, hdate, ?_⟩
    rw [Cloner.scalar, if_pos hdate, htext, hclock]
    rfl
  | _ => cases hnormalises

/-- A timestamp that is written cannot be converted. -/
theorem Timestamp.Clock.apply_text (clock : Timestamp.Clock) (conversion : Conversion) :
    conversion.apply (.string clock.text) = .null := by
  cases conversion with
  | toNumber => rw [Conversion.apply, clock.numeral?_text, Option.elim_none]
  | toInt =>
    simp only [Conversion.apply, Conversion.reading?, clock.numeral?_text, Option.bind_none]
  | toBoolean =>
    -- no word for a truth value is as long as a timestamp
    have hne (word : String) (hword : word.length ≠ 24) : clock.text ≠ word :=
      fun heq => hword (heq ▸ clock.length_text)
    simp only [Conversion.apply, clock.trim_text]
    split
    · next heq => exact absurd heq (hne "true" (by decide))
    · next heq => exact absurd heq (hne "1" (by decide))
    · next heq => exact absurd heq (hne "false" (by decide))
    · next heq => exact absurd heq (hne "0" (by decide))
    · rfl

namespace Checker

variable {checker : Checker} {place : Place} {decl : AttributeDecl} {value : Json}

/-- A timestamp is accepted for a date that is not converted and allows its length. -/
theorem value?_timestamp_iff (h : checker.Plain) (hdate : decl.scalarType = some .date)
    (clock : Timestamp.Clock) :
    checker.value? decl (checker.content? decl .scalar) (.string clock.text) place = none ↔
      (∀ conversion, .conversion conversion ∉ decl.rules) ∧ Rule.AllowLength decl.rules 24 := by
  rw [← decl.conversion?_eq_none_iff]
  cases hconversion : decl.conversion? with
  | none =>
    rw [value?_text_eq_none_iff h hconversion, clock.length_text]
    constructor
    · exact fun haccepted => ⟨rfl, haccepted.2⟩
    · refine fun hallows => ⟨fun type htype => ?_, hallows.2⟩
      obtain rfl : ScalarType.date = type := Option.some.inj (hdate.symm.trans htype)
      exact clock.isValid_text
  | some conversion =>
    refine iff_of_false (fun haccepted => ?_) fun hallows => by cases hallows.1
    obtain ⟨converted, hconverted, hpresent, -⟩ := (value?_eq_none_iff h rfl).mp haccepted
    rw [hconversion, Option.elim_some, clock.apply_text] at hconverted
    subst hconverted
    cases hpresent

/-- An object or a list that is accepted for a scalar attribute has a text that is accepted exactly
if its length is within the bounds. -/
theorem value?_structured_iff (h : checker.Plain)
    (hstructured : value.isObject = true ∨ value.isArray = true)
    (hvalid : checker.value? decl (checker.content? decl .scalar) value place = none) :
    checker.value? decl (checker.content? decl .scalar) (Cloner.scalar decl.scalarType value)
        place = none ↔ Rule.AllowLength decl.rules value.render.length := by
  obtain ⟨hconversion, htype⟩ := untyped_of_structured h hstructured hvalid
  have hclone : Cloner.scalar decl.scalarType value = .string value.render := by
    cases value <;> first | rfl | (rcases hstructured with h | h <;> cases h)
  rw [hclone, value?_text_eq_none_iff h hconversion, htype]
  exact and_iff_right fun type htype => by cases htype

/-- The clone of a value is accepted for a scalar attribute exactly if the attribute allows it. -/
theorem value?_scalar_iff (h : checker.Plain) {name : String} {tuple : Tuple Descriptor}
    (hvalid : checker.value? (scalarDecl name tuple)
      (checker.content? (scalarDecl name tuple) .scalar) value place = none)
    (hdated : tuple.DatedPlainly value) :
    checker.value? (scalarDecl name tuple) (checker.content? (scalarDecl name tuple) .scalar)
        (Cloner.scalar tuple.scalarType value) place = none ↔ tuple.AllowsClone value := by
  by_cases hnormalises : Cloner.Normalises tuple.scalarType value
  · by_cases hstructured : value.isObject = true ∨ value.isArray = true
    · rw [Tuple.allowsClone_iff_of_structured hstructured]
      exact value?_structured_iff h hstructured hvalid
    · obtain ⟨n, clock, rfl, hdate, hclone⟩ :=
        Cloner.exists_clock_of_normalises hnormalises hstructured hdated
      rw [hclone, Tuple.allowsClone_iff_of_number hnormalises]
      exact value?_timestamp_iff h hdate clock
  · rw [Cloner.scalar_eq_self hnormalises]
    exact iff_of_true hvalid (.of_not_normalises hnormalises)

end Checker

/-! ## Levels -/

/-- The clone of an object is accepted exactly if everything declared in it may be cloned. -/
def Descriptor.ClonesValid (checker : Checker) (identityKey : String) (descriptor : Descriptor)
    (attributes : List (AttributeDecl × Shape)) : Prop :=
  ∀ members place, checker.attributes? attributes members place = none →
    descriptor.Everywhere Tuple.DatedPlainly (.object members) →
      (checker.attributes? attributes (Cloner.cloned identityKey attributes members) place = none ↔
        descriptor.Everywhere Tuple.AllowsClone (.object members))

section Levels

variable {checker : Checker} {identityKey : String} {s : Flattening} {decl : AttributeDecl}
  {attributes : List (AttributeDecl × Shape)} {inner : Descriptor} {value : Json} {place : Place}

/-- The clone of a nested object is accepted exactly if everything in it may be cloned. -/
theorem Checker.value?_object_iff (h : checker.Plain)
    (hinner : inner.ClonesValid checker identityKey attributes)
    (hvalid : checker.value? decl (checker.content? decl (.level .object attributes)) value place =
      none) (hdated : inner.Everywhere Tuple.DatedPlainly value) :
    checker.value? decl (checker.content? decl (.level .object attributes))
        (Cloner.content identityKey decl.scalarType (.level .object attributes) value) place =
          none ↔ inner.Everywhere Tuple.AllowsClone value := by
  rw [Cloner.content_object]
  by_cases hnull : value.isNull = false
  · obtain ⟨hconversion, members, rfl, hmembers⟩ := (value?_object_eq_none_iff h hnull).mp hvalid
    rw [Cloner.part, value?_object_eq_none_iff h rfl, ← hinner members place hmembers hdated]
    simp [hconversion]
  · obtain rfl := Json.isNull_iff.mp (Bool.not_eq_false _ ▸ hnull)
    exact iff_of_true hvalid (Descriptor.everywhere_of_not_object rfl)

/-- The clone of a nested list is accepted exactly if everything in its elements may be cloned. -/
theorem Checker.value?_array_iff (h : checker.Plain)
    (hinner : inner.ClonesValid checker identityKey attributes)
    (hvalid : checker.value? decl (checker.content? decl (.level .array attributes)) value place =
      none) (hdated : ∀ index item, value.child? (.index index) = some item →
        inner.Everywhere Tuple.DatedPlainly item) :
    checker.value? decl (checker.content? decl (.level .array attributes))
        (Cloner.content identityKey decl.scalarType (.level .array attributes) value) place = none ↔
      ∀ index item, value.child? (.index index) = some item →
        inner.Everywhere Tuple.AllowsClone item := by
  by_cases hnull : value.isNull = false
  · obtain ⟨hconversion, items, rfl, hbounds, hitems⟩ :=
      (value?_array_eq_none_iff h hnull).mp hvalid
    have hlength : bounds? decl.rules (.array (items.map (Cloner.part identityKey attributes)))
        place = none := by
      simpa only [bounds?, measure?, List.length_map] using hbounds
    rw [Cloner.content_array, value?_array_eq_none_iff h rfl]
    constructor
    · rintro ⟨-, items', hsame, -, hclones⟩ index item hitem
      -- the clone of an item is the item at the same index of the clone
      obtain rfl := Json.array.inj hsame
      obtain ⟨members, rfl, hmembers⟩ := hitems index item hitem
      have hmapped : (items.map (Cloner.part identityKey attributes))[index]? =
          some (Cloner.part identityKey attributes (.object members)) := by
        rw [List.getElem?_map, show items[index]? = _ from hitem]
        rfl
      obtain ⟨members', hclone, hvalid'⟩ := hclones index _ hmapped
      obtain rfl := Json.object.inj hclone
      exact (hinner members _ hmembers (hdated index _ hitem)).mp hvalid'
    · intro hallows
      refine ⟨hconversion, _, rfl, hlength, fun index clone hclone => ?_⟩
      rw [List.getElem?_map] at hclone
      obtain ⟨item, hitem, rfl⟩ := Option.map_eq_some_iff.mp hclone
      obtain ⟨members, rfl, hmembers⟩ := hitems index item hitem
      exact ⟨_, rfl, (hinner members _ hmembers (hdated index _ hitem)).mpr (hallows index _ hitem)⟩
  · -- null is cloned to null, and has no items
    obtain rfl := Json.isNull_iff.mp (Bool.not_eq_false _ ▸ hnull)
    exact iff_of_true hvalid fun index item hitem => by cases hitem

/-- The clone of a value is accepted for an attribute exactly if everything below it may be
cloned. -/
theorem AttributeDrawn.value?_iff (h : checker.Plain) {key : String}
    {directives : List (Directive Descriptor)} {tuple : Tuple Descriptor} {visited : Visited}
    (hread : Tuple.ofDirectives directives = .ok tuple)
    (hdrawn : AttributeDrawn s (Drawn s) (key, .tuple directives) visited)
    (hforeign : visited.shape.isForeign = false)
    (hbelow : ∀ inner, .nested inner ∈ directives → ∀ child level, Drawn s inner child level →
      inner.ClonesValid checker identityKey level.attributes)
    (hvalid : checker.value? visited.decl (checker.content? visited.decl visited.shape) value
      place = none) (hdated : tuple.Throughout Tuple.DatedPlainly value) :
    checker.value? visited.decl (checker.content? visited.decl visited.shape)
        (Cloner.content identityKey visited.decl.scalarType visited.shape value) place = none ↔
      tuple.Throughout Tuple.AllowsClone value := by
  cases hdrawn with
  | scalar read plain =>
    obtain rfl := Except.ok.inj (hread.symm.trans read)
    rw [Tuple.throughout_iff_of_plain plain] at hdated ⊢
    rw [Cloner.content]
    exact Checker.value?_scalar_iff h hvalid hdated
  | @level _ child _ _ kind inner node level read nesting nested entered kept drawn =>
    obtain rfl := Except.ok.inj (hread.symm.trans read)
    have hinner := hbelow inner (Tuple.mem_of_nested read nested) child level drawn
    cases kind with
    | object =>
      rw [Tuple.throughout_iff_of_object nesting nested] at hdated ⊢
      exact Checker.value?_object_iff h hinner hvalid hdated
    | array =>
      rw [Tuple.throughout_iff_of_array nesting nested] at hdated ⊢
      exact Checker.value?_array_iff h hinner hvalid hdated
  | attachment => cases hforeign

/-- Nothing is declared below attached records. -/
theorem AttributeDrawn.throughout_of_foreign {Q : Tuple Descriptor → Json → Prop} {key : String}
    {directives : List (Directive Descriptor)} {tuple : Tuple Descriptor} {visited : Visited}
    (hread : Tuple.ofDirectives directives = .ok tuple)
    (hdrawn : AttributeDrawn s (Drawn s) (key, .tuple directives) visited)
    (hforeign : visited.shape.isForeign = true) : tuple.Throughout Q value := by
  cases hdrawn with
  | scalar => cases hforeign
  | level => cases hforeign
  | attachment read nesting nested =>
    obtain rfl := Except.ok.inj (hread.symm.trans read)
    refine ⟨fun hplain => ?_, fun inner _ hnested => ?_, fun inner _ hnested => ?_⟩
    · simp [Tuple.isNested, nesting] at hplain
    · rw [nested] at hnested
      cases hnested
    · rw [nested] at hnested
      cases hnested

/-- Where keys differ, every element is the last one of its key. -/
theorem find?_reverse_of_nodup {α : Type} {key : α → String} {items : List α}
    (h : (items.map key).Nodup) {item : α} (hmem : item ∈ items) :
    items.reverse.find? (key · = key item) = some item := by
  cases hfind : items.reverse.find? (key · = key item) with
  | none => simpa using List.find?_eq_none.mp hfind item (List.mem_reverse.mpr hmem)
  | some other =>
    have hother := List.mem_reverse.mp (List.mem_of_find?_eq_some hfind)
    have hkey : key other = key item := by simpa using List.find?_some hfind
    rw [List.inj_on_of_nodup_map h hother hmem hkey]

/-- Where names differ, every attribute of a level is the last one of its name. -/
theorem Drawn.find?_reverse {flattened : Flattened} (hends : flattened.EndsIn s)
    (hdistinct : flattened.DistinctNames) {descriptor : Descriptor} {name : String} {level : Level}
    (hdrawn : Drawn s descriptor name level) {attr : AttributeDecl × Shape}
    (hattr : attr ∈ level.attributes) :
    level.attributes.reverse.find? (·.1.name = attr.1.name) = some attr := by
  cases Drawn.distinct hends hdistinct descriptor .object hdrawn with
  | level hnodup _ => exact find?_reverse_of_nodup hnodup hattr

/-- Where names differ, an attribute of a level is what the descriptor declares under its name. -/
theorem Drawn.exists_assigned {flattened : Flattened} (hends : flattened.EndsIn s)
    (hdistinct : flattened.DistinctNames) {descriptor : Descriptor} {name : String} {level : Level}
    (hdrawn : Drawn s descriptor name level) {attr : AttributeDecl × Shape}
    (hattr : attr ∈ level.attributes) :
    ∃ directives tuple visited, descriptor.Assigns attr.1.name tuple ∧
      Tuple.ofDirectives directives = .ok tuple ∧
      (attr.1.name, .tuple directives) ∈ descriptor.attributes ∧
      attr = (visited.decl, visited.shape) ∧
      AttributeDrawn s (Drawn s) (attr.1.name, .tuple directives) visited := by
  have hfind := hdrawn.find?_reverse hends hdistinct hattr
  obtain ⟨tuple, hdeclared⟩ := (hdrawn.assigns_iff attr.1.name).mpr (hfind ▸ rfl)
  obtain ⟨directives, visited, hread, hmem, hfind', hvisited⟩ := hdrawn.exists_last hdeclared
  exact ⟨directives, tuple, visited, hdeclared, hread, hmem,
    Option.some.inj (hfind.symm.trans hfind'), hvisited⟩

/-- The clone of an object is accepted exactly if everything declared in it may be cloned. -/
theorem Drawn.clonesValid {flattened : Flattened} (hends : flattened.EndsIn s)
    (hdistinct : flattened.DistinctNames) (h : checker.Plain) :
    ∀ (descriptor : Descriptor) {name : String} {level : Level}, Drawn s descriptor name level →
      descriptor.ClonesValid checker identityKey level.attributes := by
  refine Descriptor.levels_induction fun declared ih name level hdrawn => ?_
  intro members place hvalid hdated
  rw [Checker.attributes?_eq_none_iff] at hvalid
  rw [Descriptor.everywhere_iff] at hdated
  rw [Checker.attributes?_eq_none_iff, Descriptor.everywhere_iff]
  -- what is declared under a name is drawn by the last attribute of the name, which the clone shows
  constructor
  · intro hclones key tuple value hdeclared hvalue
    obtain ⟨directives, visited, hread, hmem, hfind, hattr⟩ := hdrawn.exists_last hdeclared
    obtain rfl : visited.decl.name = key := by simpa using List.find?_some hfind
    have hvisited := List.mem_reverse.mp (List.mem_of_find?_eq_some hfind)
    cases hforeign : visited.shape.isForeign with
    | true => exact hattr.throughout_of_foreign hread hforeign
    | false =>
      have hmember : get? members visited.decl.name = some value := hvalue
      have hvalid' := hvalid _ hvisited hforeign
      have hclone := hclones _ hvisited hforeign
      rw [Cloner.get?_cloned_of_last hfind, hmember] at hclone
      rw [hmember] at hvalid'
      exact (hattr.value?_iff h hread hforeign (fun inner hinner child level hdrawn =>
        ih _ hmem directives rfl inner hinner hdrawn) hvalid'
          (hdated _ _ _ hdeclared hvalue)).mp hclone
  · intro hallows attr hattr' hforeign
    obtain ⟨directives, tuple, visited, hdeclared, hread, hmem, rfl, hattr⟩ :=
      hdrawn.exists_assigned hends hdistinct hattr'
    have hvalid' := hvalid _ hattr' hforeign
    rw [Cloner.get?_cloned_of_last (hdrawn.find?_reverse hends hdistinct hattr')]
    cases hmember : get? members visited.decl.name with
    | none =>
      rw [hmember] at hvalid'
      exact hvalid'
    | some value =>
      rw [hmember] at hvalid'
      exact (hattr.value?_iff h hread hforeign (fun inner hinner child level hdrawn =>
        ih _ hmem directives rfl inner hinner hdrawn) hvalid'
          (hdated _ _ _ hdeclared hmember)).mpr (hallows _ _ _ hdeclared hmember)

end Levels

/-! ## The result -/

namespace Store

/-- Where there are no hooks and no level repeats a name, the clone of an accepted record is
accepted exactly if every attribute allows the text that the clone has in place of its value. -/
theorem validate_clone_iff {config : Config} {name : String} {descriptor : Descriptor}
    {store : Store} (h : (compile config name descriptor).1 = .ok store)
    (hdistinct : store.flattened.DistinctNames) (hhooks : store.flattened.onValidate = [])
    {record : Json} (hvalid : store.validate record = .ok ())
    (hdated : descriptor.Everywhere Tuple.DatedPlainly record) :
    store.validate (store.clone record) = .ok () ↔
      descriptor.Everywhere Tuple.AllowsClone record := by
  obtain ⟨s, level, hends, hdrawn, hattributes, -, hcloner⟩ := exists_drawn h
  have hplain (record : Json) : Checker.Plain ⟨store.flattened.onValidate, record⟩ := hhooks
  have hbelow : ∀ attr ∈ level.attributes, attr.2.Distinct := by
    cases Drawn.distinct hends hdistinct descriptor .object hdrawn with
    | level _ below => exact below
  obtain ⟨members, rfl, hmembers⟩ := Flattened.validate_eq_ok_iff.mp hvalid
  rw [hattributes] at hmembers
  have hclone : store.clone (.object members) =
      .object (Cloner.cloned config.identityKey level.attributes members) := by
    rw [clone, hcloner]
    exact Cloner.clone_of_not rfl
  -- the record as a whole is there for hooks only, so the clone is checked like the record
  rw [validate, Flattened.validate_eq_ok_iff, hclone, hattributes]
  simp only [Json.object.injEq, exists_eq_left']
  rw [Checker.attributes?_eq_of_plain (hplain (.object members)) (hplain _) hbelow]
  exact hdrawn.clonesValid hends hdistinct (hplain _) descriptor members {} hmembers hdated

/-- The diary of a garden, with the days of visits and some notes of any kind. -/
def gardenDiary : Descriptor :=
  .mk [("id", .tuple [.word "int", .word "<<diary>>"]),
    ("begun", .tuple [.word "date", .word "min", .literal (.ofInt 10)]),
    ("notes", .tuple [.word "max", .literal (.ofInt 20)]),
    ("visits", .tuple [.word "array", .nested (.mk
      [("id", .tuple [.word "int", .word "<<visit>>"]), ("at", .tuple [.word "date"])])])]

/-- The store of these diaries. -/
def gardens : Store := compiled "gardens" gardenDiary (by decide +kernel)

/-- A diary with days in milliseconds and a list of notes. -/
def springDiary : Json :=
  .object [("id", .ofInt 1), ("begun", .ofInt 951782400000),
    ("notes", .array [.string "sow", .string "dig"]),
    ("visits", .array [.object [("id", .ofInt 1), ("at", .ofInt 951868800000)]])]

/-- Its days, and all other numbers in it, lie in years of four digits. -/
theorem datedPlainly_springDiary : gardenDiary.Everywhere Tuple.DatedPlainly springDiary := by
  have hnumber (tuple : Tuple Descriptor) {millis : Whole}
      (hyear : 0 ≤ Timestamp.year millis.val ∧ Timestamp.year millis.val ≤ 9999) :
      tuple.Throughout Tuple.DatedPlainly (.number (.whole millis)) :=
    .of_scalar rfl rfl (.of_whole hyear)
  have hlist (tuple : Tuple Descriptor) (items : List Json) : tuple.DatedPlainly (.array items) :=
    fun _ _ h => by cases h
  have hvisit (inner : Descriptor) : inner.Everywhere Tuple.DatedPlainly
      (.object [("id", .ofInt 1), ("at", .ofInt 951868800000)]) := by
    refine .of_members ?_
    simp only [List.forall_mem_cons]
    exact ⟨fun tuple => hnumber tuple (by decide +kernel),
      fun tuple => hnumber tuple (by decide +kernel), by simp⟩
  refine .of_members ?_
  simp only [List.forall_mem_cons]
  refine ⟨fun tuple => hnumber tuple (by decide +kernel),
    fun tuple => hnumber tuple (by decide +kernel), fun tuple => ?notes, fun tuple => ?visits,
    by simp⟩
  case notes =>
    refine .of_array (hlist tuple _) ?_
    simp only [List.forall_mem_cons]
    exact ⟨fun _ => Descriptor.everywhere_of_not_object rfl,
      fun _ => Descriptor.everywhere_of_not_object rfl, by simp⟩
  case visits =>
    refine .of_array (hlist tuple _) ?_
    simp only [List.forall_mem_singleton]
    exact hvisit

/-- The clone of a diary is accepted, and everything declared in it allows its clone. -/
theorem validate_clone_iff_gardens :
    gardens.flattened.DistinctNames ∧ gardens.validate springDiary = .ok () ∧
      gardens.validate (gardens.clone springDiary) = .ok () ∧
        gardenDiary.Everywhere Tuple.AllowsClone springDiary := by
  have hcompile := compile_compiled "gardens" gardenDiary (by decide +kernel)
  have hdistinct : gardens.flattened.DistinctNames :=
    Flattened.PlainNames.distinct (by decide +kernel)
  have hhooks : gardens.flattened.onValidate = [] := List.isEmpty_iff.mp (by decide +kernel)
  have hvalid : gardens.validate springDiary = .ok () :=
    Except.eq_ok_of_toOption (by decide +kernel)
  have hclone : gardens.validate (gardens.clone springDiary) = .ok () :=
    Except.eq_ok_of_toOption (by decide +kernel)
  exact ⟨hdistinct, hvalid, hclone,
    (validate_clone_iff hcompile hdistinct hhooks hvalid datedPlainly_springDiary).mp hclone⟩

/-- Ledgers with attributes whose values clones write as texts that the attributes refuse. -/
def unsettledLedger : Descriptor :=
  .mk [("begun", .tuple [.word "date", .word "min", .literal (.ofInt 100), .word "optional"]),
    ("ended", .tuple [.word "date", .word "toInt", .word "optional"]),
    ("notes", .tuple [.word "max", .literal (.ofInt 3), .word "optional"]),
    ("place", .tuple [.word "object", .nested (.mk [("city", .tuple [.word "string"])]),
      .word "optional"]),
    ("place", .tuple [.word "optional"]),
    ("due", .tuple [.word "date", .word "optional"])]

/-- The store of these ledgers. -/
def ledgers : Store := compiled "ledgers" unsettledLedger (by decide +kernel)

/-- Ledgers with a date whose bound is one of its timestamp, a date whose timestamp cannot be
converted, a list whose bound is one of its text, an object that a second attribute of its name
writes as a text, and a date in a year of five digits. -/
def refusedLedgers : List Json :=
  [.object [("begun", .ofInt 951782400000)], .object [("ended", .ofInt 951782400000)],
    .object [("notes", .array [.ofInt 1, .ofInt 2, .ofInt 3])],
    .object [("place", .object [("city", .string "Bath")])],
    .object [("due", .ofInt 253402300800000)]]

/-- All of these are accepted, and none of their clones is. -/
theorem not_validate_clone : ledgers.IsCompiled ∧ ledgers.flattened.onValidate = [] ∧
    ∀ record ∈ refusedLedgers, ledgers.validate record = .ok () ∧
      ¬ ledgers.validate (ledgers.clone record) = .ok () := by
  have hoptions : ∀ record ∈ refusedLedgers, (ledgers.validate record).toOption = some () ∧
      (ledgers.validate (ledgers.clone record)).toOption = none := by
    decide +kernel
  refine ⟨isCompiled_compiled "ledgers" unsettledLedger _, List.isEmpty_iff.mp (by decide +kernel),
    fun record hrecord => ?_⟩
  obtain ⟨hvalid, hrefused⟩ := hoptions record hrecord
  refine ⟨Except.eq_ok_of_toOption hvalid, fun hclone => ?_⟩
  rw [hclone] at hrefused
  cases hrefused

end Store

end NestedRecord
