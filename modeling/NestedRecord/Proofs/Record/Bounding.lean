import NestedRecord.Proofs.Number.Order
import NestedRecord.Proofs.Record.Reporting
import NestedRecord.Proofs.Record.Retraction

/-!
# Bounds of integers

Validation compares a number and its bounds as doubles. Rounding keeps order, so that nothing within
its bounds is refused; but an integer next to a bound may have the same double, and is accepted then
on the wrong side of it.

- `Whole.SharpMin` and `Whole.SharpMax` are the bounds at which this does not happen;
  `Whole.sharpMin_iff` and `Whole.sharpMax_iff` say so. All bounds below `2⁵³` are of this kind.
- `Descriptor.DeclaresAt` gives the places of attributes, with what is declared of them: those
  that `Descriptor.ReachesBy` leads to if all attributes of a name count.
- `Drawn.accepted_at`: what an accepted object has at these places is within the bounds.
- `Drawn.oversteps`: where a bound is reported, a number is beyond a bound.
- `Flattened.validate_keepsBounds` is the result for records.

The two results for objects are separate inductions, because the accepted side has to show something
of every attribute and the refused side only of the one that is reported. Both follow the drawing of
the descriptor: a nested object or list is passed through as it stands, since a value with content
is not converted. That a report is of a bound is read off its expected part, which begins with a
comparison sign for bounds and with a letter for all else.
-/

namespace NestedRecord

open Fields (get?)
open Walk (scalarDecl nestedDecl)

/-! ## Bounds that rounding respects -/

namespace Whole

/-- As a minimum the integer refuses all smaller ones: the next one below has a smaller double, or
is out of range. -/
def SharpMin (bound : Whole) : Prop :=
  bound.val = -9223372036854775808 ∨
    nearestUnits ((bound.val - 1) * unitsPerOne) < nearestUnits (bound.val * unitsPerOne)

/-- As a maximum the integer refuses all greater ones. -/
def SharpMax (bound : Whole) : Prop :=
  bound.val = 18446744073709551615 ∨
    nearestUnits (bound.val * unitsPerOne) < nearestUnits ((bound.val + 1) * unitsPerOne)

instance (bound : Whole) : Decidable bound.SharpMin := inferInstanceAs (Decidable (_ ∨ _))

instance (bound : Whole) : Decidable bound.SharpMax := inferInstanceAs (Decidable (_ ∨ _))

theorem nearestUnits_le {m n : Int} (h : m ≤ n) :
    nearestUnits (m * unitsPerOne) ≤ nearestUnits (n * unitsPerOne) :=
  nearestUnits_mono (Int.mul_le_mul_of_nonneg_right h (Int.natCast_nonneg _))

/-- Up to `2⁵³` nothing is rounded. -/
theorem nearestUnits_lt {m n : Int} (h : m < n) (hm : m.natAbs ≤ 2 ^ 53) (hn : n.natAbs ≤ 2 ^ 53) :
    nearestUnits (m * unitsPerOne) < nearestUnits (n * unitsPerOne) := by
  rw [nearestUnits_of_natAbs_le hm, nearestUnits_of_natAbs_le hn]
  exact Int.mul_lt_mul_of_pos_right h (Int.natCast_pos.mpr unitsPerOne_pos)

variable {bound : Whole}

/-- Below `2⁵³` neighbours have different doubles, so all bounds are sharp. -/
theorem sharp_of_natAbs_lt (h : bound.val.natAbs < 2 ^ 53) : bound.SharpMin ∧ bound.SharpMax :=
  ⟨.inr (nearestUnits_lt (by omega) (by omega) (by omega)),
    .inr (nearestUnits_lt (by omega) (by omega) (by omega))⟩

/-- A lower bound is sharp exactly if comparing doubles never accepts an integer below it. It is
enough to look at the next integer, since rounding keeps order. -/
theorem sharpMin_iff : bound.SharpMin ↔
    ∀ n : Whole, (Number.whole bound).nearest ≤ (Number.whole n).nearest → bound.val ≤ n.val := by
  constructor
  · rintro (hlast | hless) n hnearest
    · exact hlast ▸ n.inRange.1
    · by_contra hnot
      -- what is smaller is at most the next integer below, which rounds below the bound
      have hbelow := nearestUnits_le (show n.val ≤ bound.val - 1 by omega)
      exact absurd (Int.lt_of_le_of_lt hbelow hless) (Int.not_lt.mpr hnearest)
  · intro h
    by_cases hlast : bound.val = -9223372036854775808
    · exact .inl hlast
    · refine .inr (Int.not_le.mp fun hle => ?_)
      have hrange := bound.inRange
      -- otherwise the integer below the bound would be accepted
      have hself : bound.val ≤ bound.val - 1 := h ⟨bound.val - 1, by omega⟩ hle
      omega

/-- An upper bound is sharp exactly if comparing doubles never accepts an integer above it. -/
theorem sharpMax_iff : bound.SharpMax ↔
    ∀ n : Whole, (Number.whole n).nearest ≤ (Number.whole bound).nearest → n.val ≤ bound.val := by
  constructor
  · rintro (hlast | hless) n hnearest
    · exact hlast ▸ n.inRange.2
    · by_contra hnot
      have habove := nearestUnits_le (show bound.val + 1 ≤ n.val by omega)
      exact absurd (Int.lt_of_lt_of_le hless habove) (Int.not_lt.mpr hnearest)
  · intro h
    by_cases hlast : bound.val = 18446744073709551615
    · exact .inl hlast
    · refine .inr (Int.not_le.mp fun hle => ?_)
      have hrange := bound.inRange
      have hself : bound.val + 1 ≤ bound.val := h ⟨bound.val + 1, by omega⟩ hle
      omega

end Whole

/-! ## Places of attributes -/

namespace Descriptor

/-- What one of the attributes of a name declares. All of them are validated, not only the last. -/
def HasAttribute (descriptor : Descriptor) (name : String) (tuple : Tuple Descriptor) : Prop :=
  ∃ directives, (name, .tuple directives) ∈ descriptor.attributes ∧
    Tuple.ofDirectives directives = .ok tuple

/-- The places of a record at which attributes are declared, each with what is declared there. -/
def DeclaresAt (descriptor : Descriptor) (place : Location) (tuple : Tuple Descriptor) : Prop :=
  ∃ front inner name, descriptor.ReachesBy HasAttribute front inner ∧
    inner.HasAttribute name tuple ∧ place = front ++ [.key name]

namespace DeclaresAt

variable {descriptor inner : Descriptor} {name : String} {tuple tuple' : Tuple Descriptor}
  {place : Location}

theorem own (h : descriptor.HasAttribute name tuple) : descriptor.DeclaresAt [.key name] tuple :=
  ⟨[], descriptor, name, .here, h, rfl⟩

theorem object (hdeclared : descriptor.HasAttribute name tuple)
    (hnesting : tuple.nesting = some .object) (hnested : tuple.nested = some inner)
    (h : inner.DeclaresAt place tuple') : descriptor.DeclaresAt (.key name :: place) tuple' := by
  obtain ⟨front, target, last, hreaches, htarget, rfl⟩ := h
  exact ⟨_, target, last, .object hdeclared hnesting hnested hreaches, htarget, rfl⟩

theorem element (index : Nat) (hdeclared : descriptor.HasAttribute name tuple)
    (hnesting : tuple.nesting = some .array) (hnested : tuple.nested = some inner)
    (h : inner.DeclaresAt place tuple') :
    descriptor.DeclaresAt (.key name :: .index index :: place) tuple' := by
  obtain ⟨front, target, last, hreaches, htarget, rfl⟩ := h
  exact ⟨_, target, last, .element index hdeclared hnesting hnested hreaches, htarget, rfl⟩

end DeclaresAt

end Descriptor

section Places

variable {declares : Descriptor → String → Tuple Descriptor → Prop}
  {descriptor inner : Descriptor} {place front : Location} {key : String} {value found : Json}

theorem Descriptor.ReachesBy.exists_members (h : descriptor.ReachesBy declares front inner)
    (hlocate : value.locate? (front ++ [.key key]) = some found) :
    ∃ members, value = .object members := by
  cases h <;> cases value <;> first | exact ⟨_, rfl⟩ | cases hlocate

/-- What an object has under a name, if something is found there or below. -/
theorem locate?_orNull {members : List (String × Json)} {name : String}
    (h : (Json.object members).locate? (.key name :: place) = some found) :
    (Fields.orNull members name).locate? place = some found := by
  obtain ⟨child, hchild, hrest⟩ := Option.bind_eq_some_iff.mp h
  have hget : Fields.get? members name = some child := hchild
  rw [Fields.orNull, hget]
  exact hrest

/-- Only a list has items. -/
theorem Json.exists_items_of_child? {index : Nat} (h : value.child? (.index index) = some found) :
    ∃ items, value = .array items ∧ items[index]? = some found := by
  cases value with
  | array items => exact ⟨items, rfl, h⟩
  | _ => cases h

end Places

/-! ## Accepted records -/

section Accepted

variable {s : Flattening} {descriptor : Descriptor} {checker : Checker} {tuple : Tuple Descriptor}

/-- A nested object or list that is accepted is checked as it stands. -/
theorem Checker.content?_of_value? {decl : AttributeDecl} {value : Json} {place : Place}
    {content? : Json → Place → Option Violation}
    (hstructured : (∃ members, value = .object members) ∨ ∃ items, value = .array items)
    (h : checker.value? decl content? value place = none) : content? value place = none := by
  have hnull : value.isNull = false := by
    rcases hstructured with ⟨_, rfl⟩ | ⟨_, rfl⟩ <;> rfl
  obtain ⟨converted, hconverted, hpresent, hcontent, -⟩ :=
    (value?_eq_none_iff_of_present hnull).mp h
  cases hconversion : decl.conversion? with
  | none =>
    rw [hconversion, Option.elim_none] at hconverted
    rwa [hconverted]
  | some conversion =>
    -- a conversion would make null of it
    rw [hconversion, Option.elim_some, conversion.apply_of_structured hstructured] at hconverted
    subst hconverted
    cases hpresent

/-- The attribute of a level that a nested declaration gives. -/
theorem Drawn.exists_nested {name key : String} {level : Level} {inner : Descriptor}
    {kind : NodeKind} (hdrawn : Drawn s descriptor name level)
    (hdeclared : descriptor.HasAttribute key tuple) (hnesting : tuple.nesting = some kind)
    (hnested : tuple.nested = some inner) :
    ∃ child below, Drawn s inner child below ∧
      (nestedDecl key tuple child, .level kind below.attributes) ∈ level.attributes := by
  obtain ⟨directives, hmem, hread⟩ := hdeclared
  obtain ⟨visited, hvisited, hattr⟩ := hdrawn.exists_visited_of_mem hmem
  obtain ⟨child, node, below, -, hkind, hbelow, rfl⟩ := hvisited.exists_level hread hnested
  rw [Option.some.inj (hnesting.symm.trans hkind)]
  exact ⟨child, below, hbelow, hattr⟩

/-- In an accepted object every single value that is there has its type, and is within its
bounds. -/
theorem Drawn.accepted_at {front : Location} {inner : Descriptor} {key : String}
    (hreaches : descriptor.ReachesBy Descriptor.HasAttribute front inner)
    (hdeclared : inner.HasAttribute key tuple) (hplain : tuple.isNested = false) :
    ∀ {name : String} {level : Level}, Drawn s descriptor name level → ∀ {above : Place}
      {members : List (String × Json)},
      checker.attributes? level.attributes members above = none → ∀ {value : Json},
      (Json.object members).locate? (front ++ [.key key]) = some value → value.isNull = false →
        tuple.Fits (tuple.convert value) ∧ ∀ measure, (tuple.convert value).Measures measure →
          Rule.Allow tuple.rules measure := by
  -- down the place: an accepted object accepts what is at the first step of it
  induction hreaches with
  | here =>
    intro name level hdrawn above members hnone value hlocate hpresent
    obtain ⟨directives, hmem, hread⟩ := hdeclared
    obtain ⟨visited, hvisited, hattr⟩ := hdrawn.exists_visited_of_mem hmem
    obtain rfl := hvisited.eq_of_plain hread hplain
    have hvalue := Checker.attributes?_eq_none_iff.mp hnone _ hattr rfl
    obtain rfl : Fields.orNull members key = value := Option.some.inj (locate?_orNull hlocate)
    obtain ⟨_, rfl, -, hcontent, hbounds, -⟩ :=
      (Checker.value?_eq_none_iff_of_present hpresent).mp hvalue
    have hdecl := AttributeDecl.renders_scalarDecl key hplain
    rw [hdecl.convert, Checker.content?, Checker.type?_eq_none_iff] at hcontent
    rw [hdecl.convert, hdecl.rules, Checker.bounds?_eq_none_iff] at hbounds
    exact ⟨(Tuple.fits_scalar_iff hplain).mpr hcontent, hbounds⟩
  | object declared nesting nested below ih =>
    intro name level hdrawn above members hnone value hlocate hpresent
    obtain ⟨child, level', hbelow, hattr⟩ := hdrawn.exists_nested declared nesting nested
    have hvalue := Checker.attributes?_eq_none_iff.mp hnone _ hattr rfl
    have hinner := locate?_orNull hlocate
    obtain ⟨members', hmembers⟩ := below.exists_members hinner
    have hcontent := Checker.content?_of_value? (.inl ⟨members', hmembers⟩) hvalue
    rw [hmembers, Checker.content?] at hcontent
    exact ih hdeclared hbelow hcontent (hmembers ▸ hinner) hpresent
  | element index declared nesting nested below ih =>
    intro name level hdrawn above members hnone value hlocate hpresent
    obtain ⟨child, level', hbelow, hattr⟩ := hdrawn.exists_nested declared nesting nested
    have hvalue := Checker.attributes?_eq_none_iff.mp hnone _ hattr rfl
    obtain ⟨item, hitem, hinner⟩ := Option.bind_eq_some_iff.mp (locate?_orNull hlocate)
    obtain ⟨items, hitems, hstands⟩ := Json.exists_items_of_child? hitem
    obtain ⟨members', rfl⟩ := below.exists_members hinner
    have hcontent := Checker.content?_of_value? (.inr ⟨items, hitems⟩) hvalue
    rw [hitems, Checker.content?_array, List.findSome?_eq_none_iff] at hcontent
    exact ih hdeclared hbelow (hcontent (_, index) (List.mem_zipIdx_iff_getElem?.mpr hstands))
      hinner hpresent

end Accepted

/-! ## Reports of bounds -/

/-- A violation says that a value is beyond a bound. -/
def Violation.IsOfBound (violation : Violation) : Prop :=
  ∃ text, violation.expected = ">= " ++ text ∨ violation.expected = "<= " ++ text

/-- Violations of bounds are told from all others by the first character. -/
theorem Violation.not_isOfBound (field expected actual : String)
    (h : expected.toList.head? ≠ some '>' ∧ expected.toList.head? ≠ some '<') :
    ¬ (Violation.mk field expected actual).IsOfBound := by
  rintro ⟨text, rfl | rfl⟩
  · exact h.1 (by rw [String.toList_append]; rfl)
  · exact h.2 (by rw [String.toList_append]; rfl)

/-- A value is beyond a bound, if it is converted to a number. -/
def Tuple.Oversteps (tuple : Tuple Descriptor) (value : Json) : Prop :=
  ∀ n, tuple.convert value = .number n →
    (∃ bound : Number, .min (.number bound) ∈ tuple.rules ∧ n.value < bound.value) ∨
      ∃ bound : Number, .max (.number bound) ∈ tuple.rules ∧ bound.value < n.value

/-- A value has at a declared place, shown as a field, what is beyond a bound there. -/
def Descriptor.OverstepsAt (descriptor : Descriptor) (shown : String) (value : Json)
    (field : String) : Prop :=
  ∃ place tuple found, descriptor.DeclaresAt place tuple ∧ value.locate? place = some found ∧
    field = place.shownFrom shown ∧ tuple.Oversteps found

namespace Checker

variable {checker : Checker} {decl : AttributeDecl} {value : Json} {place : Place}
  {violation : Violation}

/-- What is said of types is not said of bounds. -/
theorem not_isOfBound_of_type? (h : type? decl value place = some violation) :
    ¬ violation.IsOfBound := by
  obtain ⟨type, -, h⟩ := Option.bind_eq_some_iff.mp h
  split at h
  · cases h
  · cases h
    exact Violation.not_isOfBound _ type.name _ (by cases type <;> decide)

/-- What is reported of a bound inside an object or a list is reported of an object in it. -/
theorem exists_members_of_content? {kind : NodeKind} {attributes : List (AttributeDecl × Shape)}
    (h : checker.content? decl (.level kind attributes) value place = some violation)
    (hbound : violation.IsOfBound) :
    (kind = .object ∧ ∃ members, value = .object members ∧
      checker.attributes? attributes members place = some violation) ∨
    (kind = .array ∧ ∃ items index members, value = .array items ∧
      items[index]? = some (.object members) ∧
      checker.attributes? attributes members (place.element index) = some violation) := by
  cases kind with
  | object =>
    cases value with
    | object members =>
      rw [content?] at h
      exact .inl ⟨rfl, members, rfl, h⟩
    | _ =>
      rw [content?_object_of_not rfl] at h
      cases h
      exact absurd hbound (Violation.not_isOfBound _ "object" _ (by decide))
  | array =>
    cases value with
    | array items =>
      rw [content?_array] at h
      obtain ⟨⟨item, index⟩, hitem, h⟩ := List.exists_of_findSome?_eq_some h
      cases item with
      | object members =>
        exact .inr ⟨rfl, items, index, members, rfl, List.mem_zipIdx_iff_getElem?.mp hitem, h⟩
      | _ =>
        cases h
        exact absurd hbound (Violation.not_isOfBound _ "object" _ (by decide))
    | _ =>
      rw [content?_array_of_not rfl] at h
      cases h
      exact absurd hbound (Violation.not_isOfBound _ "array" _ (by decide))

/-- A number that is reported to be beyond a bound is. -/
theorem oversteps_of_bounds? {tuple : Tuple Descriptor}
    (h : bounds? tuple.rules (tuple.convert value) place = some violation) :
    tuple.Oversteps value := by
  intro n hn
  -- a number within its bounds is within them as a double, so that nothing would be reported
  by_contra hwithin
  obtain ⟨hmin, hmax⟩ := not_or.mp hwithin
  have hnone : bounds? tuple.rules (tuple.convert value) place = none := by
    rw [hn, bounds?_eq_none_iff]
    rintro _ ⟨⟩
    refine ⟨fun bound hbound => ?_, fun bound hbound => ?_⟩
    · exact Bool.eq_false_iff.mpr fun hlt =>
        hmin ⟨bound, hbound, Number.value_lt_of_lt_toDouble hlt⟩
    · exact Bool.eq_false_iff.mpr fun hgt =>
        hmax ⟨bound, hbound, Number.value_lt_of_gt_toDouble hgt⟩
  rw [hnone] at h
  cases h

/-- Where a bound is reported of a value, it is by its content or by its own bounds. -/
theorem content?_or_bounds? {content? : Json → Place → Option Violation}
    (h : checker.value? decl content? value place = some violation) (hbound : violation.IsOfBound) :
    value.isNull = false ∧ ∃ converted, decl.conversion?.elim value (·.apply value) = converted ∧
      (content? converted place = some violation ∨
        bounds? decl.rules converted place = some violation) := by
  cases hnull : value.isNull with
  | true =>
    rw [value?, if_pos hnull] at h
    split at h
    · cases h
    · cases h
      exact absurd hbound (Violation.not_isOfBound _ "field to be present" _ (by decide))
  | false =>
    cases hpresent : (decl.conversion?.elim value (·.apply value)).isNull with
    | true =>
      simp only [value?, hnull, hpresent, Bool.false_eq_true, if_false, if_true] at h
      cases h
      refine absurd hbound
        (Violation.not_isOfBound _ (decl.conversion?.elim "value" (·.token)) _ ?_)
      cases decl.conversion? with
      | none => decide
      | some conversion => cases conversion <;> decide
    | false =>
      rw [value?_of_present hnull rfl hpresent] at h
      refine ⟨rfl, _, rfl, ?_⟩
      rcases Option.or_eq_some_iff.mp h with hcontent | ⟨-, h⟩
      · exact .inl hcontent
      · rcases Option.or_eq_some_iff.mp h with hbounds | ⟨-, hhook⟩
        · exact .inr hbounds
        · -- of a hook it would be reported what the hook did not accept
          obtain ⟨hook, -, hhook⟩ := Option.bind_eq_some_iff.mp hhook
          obtain ⟨reason, -, rfl⟩ := Option.map_eq_some_iff.mp hhook
          exact absurd hbound
            (Violation.not_isOfBound _ "value accepted by onValidate" _ (by decide))

end Checker

/-- No conversion makes an object or a list. -/
theorem Tuple.eq_of_convert {tuple : Tuple Descriptor} {value converted : Json}
    (hconverted : tuple.convert value = converted)
    (hstructured : (∃ members, converted = .object members) ∨ ∃ items, converted = .array items) :
    value = converted := by
  rw [convert] at hconverted
  cases hconversion : tuple.conversion? with
  | none => rwa [hconversion, Option.elim_none] at hconverted
  | some conversion =>
    rw [hconversion, Option.elim_some] at hconverted
    -- what has been converted would stay as it is, but of these nothing is left
    have hpresent : (conversion.apply value).isNull = false := by
      rw [hconverted]
      rcases hstructured with ⟨_, rfl⟩ | ⟨_, rfl⟩ <;> rfl
    have hagain := conversion.apply_apply value hpresent
    rw [hconverted, conversion.apply_of_structured hstructured] at hagain
    rcases hstructured with ⟨_, rfl⟩ | ⟨_, rfl⟩ <;> cases hagain

section Reported

variable {s : Flattening} {checker : Checker} {descriptor inner : Descriptor} {name : String}
  {tuple : Tuple Descriptor} {shown field : String} {members : List (String × Json)}

/-- A value that is not null is really there. -/
theorem get?_of_orNull {value : Json} (h : Fields.orNull members name = value)
    (hpresent : value.isNull = false) : get? members name = some value := by
  rw [Fields.orNull] at h
  cases hget : get? members name with
  | none =>
    rw [hget] at h
    subst h
    cases hpresent
  | some found =>
    rw [hget] at h
    exact congrArg some h

namespace Descriptor.OverstepsAt

variable (hdeclared : descriptor.HasAttribute name tuple)
include hdeclared

theorem own {value : Json} (hvalue : get? members name = some value)
    (hoversteps : tuple.Oversteps value) :
    descriptor.OverstepsAt shown (.object members) (joinPath shown name) :=
  ⟨_, tuple, value, .own hdeclared, by simp [Json.locate?, Json.child?, hvalue], rfl, hoversteps⟩

theorem object {value : Json} (hnesting : tuple.nesting = some .object)
    (hnested : tuple.nested = some inner) (hvalue : get? members name = some value)
    (h : inner.OverstepsAt (joinPath shown name) value field) :
    descriptor.OverstepsAt shown (.object members) field := by
  obtain ⟨place, tuple', found, hdeclares, hlocate, hfield, hoversteps⟩ := h
  refine ⟨.key name :: place, tuple', found, .object hdeclared hnesting hnested hdeclares, ?_,
    hfield, hoversteps⟩
  simpa [Json.locate?, Json.child?, hvalue] using hlocate

theorem element {items : List Json} {index : Nat} {item : Json}
    (hnesting : tuple.nesting = some .array) (hnested : tuple.nested = some inner)
    (hvalue : get? members name = some (.array items)) (hitem : items[index]? = some item)
    (h : inner.OverstepsAt (joinPath shown name ++ "[" ++ Numeral.natText index ++ "]") item
      field) : descriptor.OverstepsAt shown (.object members) field := by
  obtain ⟨place, tuple', found, hdeclares, hlocate, hfield, hoversteps⟩ := h
  refine ⟨.key name :: .index index :: place, tuple', found,
    .element index hdeclared hnesting hnested hdeclares, ?_, hfield, hoversteps⟩
  simpa [Json.locate?, Json.child?, hvalue, hitem] using hlocate

end Descriptor.OverstepsAt

/-- Where a bound is reported of an object, a number in it is beyond a bound. -/
theorem Drawn.oversteps : ∀ (descriptor : Descriptor) {name : String} {level : Level},
    Drawn s descriptor name level → ∀ {front : Place} {members : List (String × Json)}
      {violation : Violation},
      checker.attributes? level.attributes members front = some violation → violation.IsOfBound →
        descriptor.OverstepsAt front.shown (.object members) violation.field := by
  -- induction on the nesting of descriptors, since levels inside lists are reached from many places
  refine Descriptor.levels_induction fun declared ih name level hdrawn front members violation h
    hbound => ?_
  rw [Checker.attributes?_eq_findSome?] at h
  obtain ⟨attr, hattr, hfound⟩ := List.exists_of_findSome?_eq_some h
  obtain ⟨⟨key, declaration⟩, hmem, visited, hvisited, rfl⟩ := hdrawn.exists_entry_of_mem hattr
  cases hvisited with
  | @scalar _ directives tuple read plain =>
    have hdecl := AttributeDecl.renders_scalarDecl key plain
    obtain ⟨hpresent, _, rfl, hreport⟩ := Checker.content?_or_bounds? hfound hbound
    rw [hdecl.convert, hdecl.rules, Checker.content?] at hreport
    rcases hreport with htype | hbounds
    · exact absurd hbound (Checker.not_isOfBound_of_type? htype)
    · rw [Checker.field_of_bounds? hbounds]
      exact .own ⟨_, hmem, read⟩ (get?_of_orNull rfl hpresent)
        (Checker.oversteps_of_bounds? hbounds)
  | @level _ child directives tuple kind inner node below read nesting nested entered kept drawn =>
    have hdecl := AttributeDecl.renders_nestedDecl key child nested
    have hinner {place : Place} {members : List (String × Json)} :=
      @ih _ hmem directives rfl inner (Tuple.mem_of_nested read nested) _ _ drawn place members
    obtain ⟨hpresent, converted, hconverted, hreport⟩ := Checker.content?_or_bounds? hfound hbound
    rw [hdecl.convert] at hconverted
    rw [hdecl.rules] at hreport
    rcases hreport with hcontent | hbounds
    · rcases Checker.exists_members_of_content? hcontent hbound with
        ⟨rfl, members', rfl, hmembers⟩ | ⟨rfl, items, index, members', rfl, hitem, hmembers⟩
      · have hvalue := get?_of_orNull (Tuple.eq_of_convert hconverted (.inl ⟨_, rfl⟩)) rfl
        exact .object ⟨_, hmem, read⟩ nesting nested hvalue (hinner hmembers hbound)
      · have hvalue := get?_of_orNull (Tuple.eq_of_convert hconverted (.inr ⟨_, rfl⟩)) rfl
        exact .element ⟨_, hmem, read⟩ nesting nested hvalue hitem (hinner hmembers hbound)
    · rw [Checker.field_of_bounds? hbounds]
      rw [← hconverted] at hbounds
      exact .own ⟨_, hmem, read⟩ (get?_of_orNull rfl hpresent)
        (Checker.oversteps_of_bounds? hbounds)
  | attachment => cases hfound

end Reported

/-! ## The result -/

/-- A validation keeps the bounds of integers, up to rounding. -/
structure KeepsBounds (descriptor : Descriptor) (store : String)
    (validate : Json → Except Fault Unit) : Prop where
  /-- what stands in an accepted record under an attribute for integers is one, and within all
  bounds as a double; integers that are sharp as bounds are kept exactly -/
  accepted : ∀ {record value place tuple}, validate record = .ok () →
    descriptor.DeclaresAt place tuple → tuple.isNested = false → tuple.scalarType = some .int →
    tuple.conversion? = none → record.locate? place = some value → value.isNull = false →
    ∃ n : Whole, value = .number (.whole n) ∧
      (∀ bound : Number, .min (.number bound) ∈ tuple.rules →
        bound.nearest ≤ (Number.whole n).nearest) ∧
      (∀ bound : Number, .max (.number bound) ∈ tuple.rules →
        (Number.whole n).nearest ≤ bound.nearest) ∧
      (∀ bound : Whole, .min (.number (.whole bound)) ∈ tuple.rules → bound.SharpMin →
        bound.val ≤ n.val) ∧
      ∀ bound : Whole, .max (.number (.whole bound)) ∈ tuple.rules → bound.SharpMax →
        n.val ≤ bound.val
  /-- where a bound is reported, the number at the place that is shown is beyond a bound -/
  refused : ∀ {record violation}, validate record = .error (.validation store violation) →
    violation.IsOfBound → ∃ place tuple value, descriptor.DeclaresAt place tuple ∧
      record.locate? place = some value ∧ violation.field = place.shown ∧ tuple.Oversteps value

/-- Only whole numbers are integers. -/
theorem exists_whole_of_accepts_int {value : Json} (h : ScalarType.int.accepts value = true) :
    ∃ n, value = .number (.whole n) := by
  cases value with
  | number number =>
    cases number with
    | whole n => exact ⟨n, rfl⟩
    | real => cases h
  | _ => cases h

namespace Flattened

variable {flattened : Flattened} {store rootName : String} {descriptor : Descriptor}

/-- Bounds are reported of objects only. -/
theorem exists_violation_of_validate {record : Json} {violation : Violation}
    (h : flattened.validate record = .error (.validation store violation))
    (hbound : violation.IsOfBound) :
    ∃ members, record = .object members ∧
      Checker.attributes? ⟨flattened.onValidate, record⟩ flattened.attributes members {} =
        some violation := by
  cases record with
  | object members =>
    rw [validate] at h
    split at h
    · next violation' hviolation =>
      cases h
      exact ⟨members, rfl, hviolation⟩
    · cases h
  | _ =>
    cases h
    exact absurd hbound (Violation.not_isOfBound _ "object" _ (by decide))

/-- Validation compares integers and bounds as doubles: integers within their bounds are never
refused for them, and accepted ones are exactly within all bounds that are sharp. At any other
bound there is an integer on the wrong side that has the same double. -/
theorem validate_keepsBounds (h : (flatten store rootName descriptor).1 = .ok flattened) :
    KeepsBounds descriptor flattened.metadata.storeName flattened.validate ∧
      (∀ bound : Whole, bound.SharpMin ↔ ∀ n : Whole,
        (Number.whole n).toDouble.lt (Number.whole bound).toDouble = false → bound.val ≤ n.val) ∧
      ∀ bound : Whole, bound.SharpMax ↔ ∀ n : Whole,
        (Number.whole n).toDouble.gt (Number.whole bound).toDouble = false → n.val ≤ bound.val := by
  obtain ⟨s, level, -, hdrawn, hattributes, -⟩ := exists_drawn h
  refine ⟨⟨?accepted, ?refused⟩, fun bound => ?_, fun bound => ?_⟩
  case accepted =>
    intro record value place tuple hvalid hdeclares hplain htype hconversion hlocate hpresent
    obtain ⟨members, rfl, hnone⟩ := validate_eq_ok_iff.mp hvalid
    rw [hattributes] at hnone
    obtain ⟨front, inner, key, hreaches, hdeclared, rfl⟩ := hdeclares
    obtain ⟨hfits, hbounds⟩ :=
      hdrawn.accepted_at hreaches hdeclared hplain hnone hlocate hpresent
    rw [Tuple.convert, hconversion, Option.elim_none] at hfits hbounds
    -- without a conversion the value is its own conversion, and integers are whole numbers
    obtain ⟨n, rfl⟩ := exists_whole_of_accepts_int (hfits.scalar hplain _ htype)
    have hallow := hbounds _ (.number (.whole n))
    have hmin (bound : Number) (hbound : .min (.number bound) ∈ tuple.rules) :=
      Number.not_lt_toDouble_iff.mp (hallow.min bound hbound)
    have hmax (bound : Number) (hbound : .max (.number bound) ∈ tuple.rules) :=
      Number.not_gt_toDouble_iff.mp (hallow.max bound hbound)
    exact ⟨n, rfl, hmin, hmax,
      fun bound hbound hsharp => Whole.sharpMin_iff.mp hsharp n (hmin _ hbound),
      fun bound hbound hsharp => Whole.sharpMax_iff.mp hsharp n (hmax _ hbound)⟩
  case refused =>
    intro record violation hrefused hbound
    obtain ⟨members, rfl, hviolation⟩ := exists_violation_of_validate hrefused hbound
    rw [hattributes] at hviolation
    exact hdrawn.oversteps descriptor hviolation hbound
  · simp only [Whole.sharpMin_iff, Number.not_lt_toDouble_iff]
  · simp only [Whole.sharpMax_iff, Number.not_gt_toDouble_iff]

/-- Serial numbers of three digits at least, and of at most `2 ^ 53`. -/
def serialLine : Descriptor :=
  .mk [("serial", .tuple [.word "int", .word "<<serial>>", .word "min", .literal (.ofInt 100),
    .word "max", .literal (.ofInt 9007199254740992)])]

/-- Batches of goods that have serial numbers. -/
def batches : Descriptor :=
  .mk [("id", .tuple [.word "int", .word "<<batch>>"]),
    ("goods", .tuple [.word "array", .nested serialLine])]

/-- What is declared of a serial number. -/
def serially : Tuple Descriptor :=
  { rules := [.type .int, .min (.ofInt 100), .max (.ofInt 9007199254740992)],
    scalarType := some .int, column := some ("serial", true) }

/-- A batch of one good. -/
def batchOf (serial : Int) : Json :=
  .object [("id", .ofInt 1), ("goods", .array [.object [("serial", .ofInt serial)]])]

/-- Where the serial number of the first good stands. -/
def firstSerial : Location := [.key "goods", .index 0, .key "serial"]

theorem batches_declaresAt : batches.DeclaresAt firstSerial serially :=
  .element 0 ⟨_, .tail _ (.head _), rfl⟩ rfl rfl (.own ⟨_, .head _, by cbv⟩)

/-- Below `2⁵³` the bound decides exactly: 100 is accepted and 99 refused, where it stands. -/
theorem validate_keepsBounds_batches : ∃ flattened,
    (flatten "batches" "main" batches).1 = .ok flattened ∧
    KeepsBounds batches flattened.metadata.storeName flattened.validate ∧
    flattened.validate (batchOf 100) = .ok () ∧ batches.DeclaresAt firstSerial serially ∧
    (Whole.clamp 100).SharpMin ∧
    (∃ n : Whole, (batchOf 100).locate? firstSerial = some (.number (.whole n)) ∧ 100 ≤ n.val) ∧
    flattened.validate (batchOf 99) = .error (.validation flattened.metadata.storeName
      ⟨"goods[0].serial", ">= 100", "99"⟩) ∧
    ∃ place tuple value, batches.DeclaresAt place tuple ∧
      (batchOf 99).locate? place = some value ∧ place.shown = "goods[0].serial" ∧
      tuple.Oversteps value := by
  have hruns : (flatten "batches" "main" batches).1.toOption.map (fun flattened =>
      decide (flattened.validate (batchOf 100) = .ok () ∧
        flattened.validate (batchOf 99) = .error (.validation flattened.metadata.storeName
          ⟨"goods[0].serial", ">= 100", "99"⟩))) = some true := by
    decide +kernel
  obtain ⟨flattened, hflatten, hvalidates⟩ := Option.map_eq_some_iff.mp hruns
  obtain ⟨haccepts, hrefuses⟩ := of_decide_eq_true hvalidates
  have hok := Except.eq_ok_of_toOption hflatten
  have hkeeps := (validate_keepsBounds hok).1
  have hsharp : (Whole.clamp 100).SharpMin := (Whole.sharp_of_natAbs_lt (by decide)).1
  obtain ⟨n, hn, -, -, hmin, -⟩ :=
    hkeeps.accepted haccepts batches_declaresAt rfl rfl rfl rfl rfl
  obtain ⟨place, tuple, value, hdeclares, hlocate, hshown, hoversteps⟩ :=
    hkeeps.refused hrefuses ⟨"100", .inl (by decide)⟩
  exact ⟨flattened, hok, hkeeps, haccepts, batches_declaresAt, hsharp,
    ⟨n, congrArg some hn, hmin _ (.tail _ (.head _)) hsharp⟩, hrefuses,
    place, tuple, value, hdeclares, hlocate, hshown.symm, hoversteps⟩

/-- A serial number is accepted although it is greater than the greatest one that is declared. -/
theorem not_validate_keepsBounds : ∃ flattened,
    (flatten "batches" "main" batches).1 = .ok flattened ∧
    flattened.validate (batchOf 9007199254740993) = .ok () ∧
    batches.DeclaresAt firstSerial serially ∧ serially.isNested = false ∧
    serially.scalarType = some .int ∧ serially.conversion? = none ∧
    ∃ n bound : Whole, (batchOf 9007199254740993).locate? firstSerial =
        some (.number (.whole n)) ∧
      .max (.number (.whole bound)) ∈ serially.rules ∧ ¬ n.val ≤ bound.val := by
  have hruns : (flatten "batches" "main" batches).1.toOption.map (fun flattened =>
      flattened.validate (batchOf 9007199254740993)) = some (.ok ()) := by
    decide +kernel
  obtain ⟨flattened, hflatten, haccepts⟩ := Option.map_eq_some_iff.mp hruns
  exact ⟨flattened, Except.eq_ok_of_toOption hflatten, haccepts, batches_declaresAt, rfl, rfl, rfl,
    .clamp 9007199254740993, .clamp 9007199254740992, rfl, .tail _ (.tail _ (.head _)),
    by decide +kernel⟩

end Flattened

end NestedRecord
