import NestedRecord.Proofs.Number.Order
import NestedRecord.Proofs.Record.Unordered

/-!
# Conversions to integers

A number is converted to an integer on the way through a double, and what is too large for 64 signed
bits saturates. Both may write another number than its integer part.

- `Number.integerPart` is the exact integer part, `Number.toInt64` what the conversion writes.
- `Number.exactFor_toInt64_iff`: for which numbers these are the same.
- `Flattened.exists_change`: what a transformation makes of the value at a declared place.
- `Flattened.transform_toInt` is the result for all numbers under converted attributes.

The exact condition has to speak of two things that are independent: whether the number is a double,
and whether its integer part is in the range. The greatest integer of the range is an exception to
both, since saturation gives it back although it is no double.
-/

namespace NestedRecord

open Fields (get?)

/-! ## Integer parts -/

namespace Number

/-- The exact value without its fraction. -/
def integerPart : Number → Int
  | .whole n => n.val
  | .real x => x.truncate

/-- The integer part of the nearest double, saturated. -/
def toInt64 (v : Number) : Whole := .clamp (v.nearest.tdiv unitsPerOne)

/-- A number may be written in place of another one: it is that number, or its integer part. -/
def ExactFor (after v : Number) : Prop :=
  after = v ∨ ∃ n : Whole, after = .whole n ∧ n.val = v.integerPart

/-- The integer part gets through a double and 64 signed bits. The greatest integer of 64 signed
bits does so by saturation only. -/
def FitsInt64 (v : Number) : Prop :=
  (v.IsDouble ∧ -9223372036854775808 ≤ v.integerPart ∧ v.integerPart ≤ 9223372036854775807) ∨
    v.integerPart = 9223372036854775807

variable {v : Number}

/-- A whole number that is written for another one is its integer part. -/
theorem exactFor_whole_iff {n : Whole} : (whole n).ExactFor v ↔ n.val = v.integerPart := by
  constructor
  · rintro (rfl | ⟨m, hm, hval⟩)
    · rfl
    · cases hm
      exact hval
  · exact fun h => .inr ⟨n, rfl, h⟩

/-- The double next to an integer is an integer. -/
theorem exists_nearest_whole (n : Whole) : ∃ q : Int, (whole n).nearest = q * unitsPerOne ∧
    (whole n).nearest.tdiv unitsPerOne = q ∧ ((whole n).IsDouble ↔ q = n.val) := by
  have hne : (unitsPerOne : Int) ≠ 0 := Int.natCast_ne_zero.mpr (Nat.ne_of_gt unitsPerOne_pos)
  obtain ⟨q, hq⟩ : (unitsPerOne : Int) ∣ (whole n).nearest :=
    dvd_nearestUnits (Dvd.intro_left n.val rfl)
  rw [Int.mul_comm] at hq
  refine ⟨q, hq, ?_, ?_⟩
  · rw [hq]
    exact Int.mul_tdiv_cancel q hne
  · rw [IsDouble, hq]
    exact ⟨Int.eq_of_mul_eq_mul_right hne, fun h => h ▸ rfl⟩

/-- The limits of 64 signed bits: the lower one is a double, the upper one is rounded up. -/
theorem nearestUnits_limits :
    nearestUnits (-9223372036854775808 * unitsPerOne) = -9223372036854775808 * unitsPerOne ∧
      nearestUnits (9223372036854775807 * unitsPerOne) = 9223372036854775808 * unitsPerOne := by
  decide +kernel

/-- The conversion writes the integer part of doubles in the range and of one more number. -/
theorem exactFor_toInt64_iff : (whole v.toInt64).ExactFor v ↔ v.FitsInt64 := by
  have hne : (unitsPerOne : Int) ≠ 0 := Int.natCast_ne_zero.mpr (Nat.ne_of_gt unitsPerOne_pos)
  rw [exactFor_whole_iff, FitsInt64]
  show clampInt64 _ = _ ↔ _
  cases v with
  | real x =>
    have hdouble := isDouble_real x
    have htruncate : (real x).nearest.tdiv unitsPerOne = x.truncate := by
      rw [hdouble]
      rfl
    rw [htruncate, integerPart, clampInt64, and_iff_right hdouble]
    omega
  | whole n =>
    obtain ⟨q, hq, htruncate, hdouble⟩ := exists_nearest_whole n
    obtain ⟨hlow, hhigh⟩ := nearestUnits_limits
    -- at the limits of the range rounding decides whether saturation gives the integer back
    have hmin : n.val = -9223372036854775808 → q = n.val := by
      intro h
      rw [nearest, units, h, hlow] at hq
      rw [h]
      exact (Int.eq_of_mul_eq_mul_right hne hq).symm
    have hmax : n.val = 9223372036854775807 → q = 9223372036854775808 := by
      intro h
      rw [nearest, units, h, hhigh] at hq
      exact (Int.eq_of_mul_eq_mul_right hne hq).symm
    have hrange := n.inRange
    rw [htruncate, integerPart, clampInt64, hdouble]
    omega

end Number

/-- What a conversion to integers writes for a number. -/
theorem Transformer.converted_toInt_number (v : Number) :
    converted (some .toInt) (.number v) = .number (.whole v.toInt64) := by
  obtain ⟨x, hx, hunits⟩ := v.exists_toDouble
  have hreading : Conversion.reading? (.number v) = some (.finite x) := congrArg some hx
  rw [converted, Conversion.apply_toInt, hreading]
  show Json.number (.whole (.clamp x.truncate)) = _
  rw [Finite.truncate, hunits]
  rfl

/-! ## Records -/

namespace Descriptor

variable {descriptor inner : Descriptor} {name : String} {tuple : Tuple Descriptor}

/-- An attribute without a hook has none around its place. -/
theorem unhooked_key (hdeclared : descriptor.Assigns name tuple)
    (hnone : tuple.lastHook? .transform = none) : descriptor.Unhooked [.key name] := by
  intro front target key tuple' hreaches hdeclared' hbegins
  cases hreaches with
  | here =>
    obtain ⟨hkey, -⟩ := List.cons_prefix_cons.mp hbegins
    cases hkey
    rwa [hdeclared'.unique hdeclared]
  | _ => simp [List.prefix_iff_eq_append] at hbegins

/-- Where a list has no hook, and nothing in its items around a place has, nothing around the place
in the list has. -/
theorem unhooked_element {place : Location} {index : Nat}
    (hdeclared : descriptor.Assigns name tuple) (hnone : tuple.lastHook? .transform = none)
    (hnested : tuple.nested = some inner) (hbelow : inner.Unhooked place) :
    descriptor.Unhooked (.key name :: .index index :: place) := by
  intro front target key tuple' hreaches hdeclared' hbegins
  -- a hook around the place would stand at the list or further inside
  cases hreaches with
  | here =>
    obtain ⟨hkey, -⟩ := List.cons_prefix_cons.mp hbegins
    cases hkey
    rwa [hdeclared'.unique hdeclared]
  | object declared nesting nested below =>
    obtain ⟨-, hrest⟩ := List.cons_prefix_cons.mp hbegins
    cases below <;> simp at hrest
  | element index declared nesting nested below =>
    obtain ⟨hkey, hrest⟩ := List.cons_prefix_cons.mp hbegins
    obtain ⟨-, hrest⟩ := List.cons_prefix_cons.mp hrest
    cases hkey
    obtain rfl := declared.unique hdeclared
    obtain rfl := Option.some.inj (nested.symm.trans hnested)
    exact hbelow below hdeclared' hrest

end Descriptor

namespace Flattened

variable {flattened : Flattened} {store rootName : String} {descriptor inner : Descriptor}
  {front : Location} {name : String} {tuple : Tuple Descriptor}

/-- Where no hook is around, a transformation changes the value at a declared place as its attribute
does. -/
theorem exists_change (h : (flatten store rootName descriptor).1 = .ok flattened)
    (hplain : flattened.PlainNames) (hreaches : descriptor.Reaches front inner)
    (hdeclared : inner.Assigns name tuple) (hunhooked : descriptor.Unhooked (front ++ [.key name]))
    (record : Json) :
    ∃ change, tuple.Changes change ∧
      (flattened.transform record).1.locate? (front ++ [.key name]) =
        (record.locate? (front ++ [.key name])).map change := by
  obtain ⟨s, level, hends, hdrawn, hattributes, -⟩ := exists_drawn h
  obtain ⟨-, hhooks⟩ := hookedAt_of_flatten h hplain
  obtain ⟨change, hchange, hlocate⟩ := hdrawn.exists_change record hends hplain.distinct hhooks
    hreaches hunhooked hdeclared []
  refine ⟨change, hchange, ?_⟩
  rw [← hlocate, transform_eq_traced]
  cases record with
  | object members =>
    rw [traced_object hends hplain.distinct hdrawn hattributes]
    rfl
  | _ => rfl

/-- A transformation writes the integer part of the nearest double, saturated, for every number that
stands under an attribute converted to integers; a number in place of an object or a list is left
alone. That is the number or its integer part exactly if the integer part is a double within 64
signed bits, or the greatest integer of 64 signed bits. -/
theorem transform_toInt (h : (flatten store rootName descriptor).1 = .ok flattened)
    (hplain : flattened.PlainNames) (hreaches : descriptor.Reaches front inner)
    (hdeclared : inner.Assigns name tuple) (hconversion : tuple.conversion? = some .toInt)
    (hunhooked : descriptor.Unhooked (front ++ [.key name])) {record : Json} {v : Number}
    (hholds : record.locate? (front ++ [.key name]) = some (.number v)) :
    ∃ after, (flattened.transform record).1.locate? (front ++ [.key name]) = some (.number after) ∧
      after = (if tuple.isNested then v else .whole v.toInt64) ∧
      (after.ExactFor v ↔ tuple.isNested = true ∨ v.FitsInt64) := by
  obtain ⟨change, hchange, hlocate⟩ :=
    exists_change h hplain hreaches hdeclared hunhooked record
  rw [hholds, Option.map_some] at hlocate
  cases hnested : tuple.isNested with
  | true =>
    rw [hchange.misfit hnested _ rfl rfl] at hlocate
    exact ⟨v, hlocate, rfl, iff_of_true (.inl rfl) (.inl rfl)⟩
  | false =>
    rw [hchange.plain hnested, hconversion, Transformer.converted_toInt_number] at hlocate
    exact ⟨_, hlocate, rfl, by simp [Number.exactFor_toInt64_iff]⟩

/-- Lines of tallies, with a count that is converted. -/
def tallyLine : Descriptor :=
  .mk [("line", .tuple [.word "int", .word "<<line>>"]),
    ("count", .tuple [.word "int", .word "toInt"])]

/-- Tallies of several lines. -/
def tallied : Descriptor :=
  .mk [("id", .tuple [.word "int", .word "<<tally>>"]),
    ("lines", .tuple [.word "array", .nested tallyLine])]

/-- What is declared of a count. -/
def counted : Tuple Descriptor :=
  { rules := [.type .int, .conversion .toInt], scalarType := some .int }

/-- What is declared of the lines. -/
def lined : Tuple Descriptor := { nesting := some .array, nested := some tallyLine }

/-- A tally of one line. -/
def tallyOf (count : Number) : Json :=
  .object [("lines", .array [.object [("count", .number count)]])]

/-- The double `2.5`. -/
def twoAndHalf : Number := .real ⟨false, 5 * 2 ^ 1073, by decide +kernel⟩

theorem tallied_lines : tallied.Assigns "lines" lined := ⟨_, rfl, rfl⟩

theorem tallyLine_count : tallyLine.Assigns "count" counted := ⟨_, rfl, by cbv⟩

/-- A fraction is dropped inside a list. -/
theorem transform_toInt_tallies : ∃ flattened,
    (flatten "tallies" "main" tallied).1 = .ok flattened ∧ flattened.PlainNames ∧
    tallied.Reaches [.key "lines", .index 0] tallyLine ∧ tallyLine.Assigns "count" counted ∧
    counted.conversion? = some .toInt ∧
    tallied.Unhooked ([.key "lines", .index 0] ++ [.key "count"]) ∧
    (tallyOf twoAndHalf).locate? ([.key "lines", .index 0] ++ [.key "count"]) =
      some (.number twoAndHalf) ∧
    twoAndHalf.FitsInt64 ∧ twoAndHalf.integerPart = 2 ∧
    ∃ after, (flattened.transform (tallyOf twoAndHalf)).1.locate?
      ([.key "lines", .index 0] ++ [.key "count"]) = some (.number after) ∧
      after.ExactFor twoAndHalf := by
  have hruns : (flatten "tallies" "main" tallied).1.toOption.map (fun flattened =>
      decide flattened.PlainNames) = some true := by
    decide +kernel
  obtain ⟨flattened, hflatten, hplain⟩ := Option.map_eq_some_iff.mp hruns
  have hplain := of_decide_eq_true hplain
  have hok := Except.eq_ok_of_toOption hflatten
  have hreaches : tallied.Reaches [.key "lines", .index 0] tallyLine :=
    .element 0 tallied_lines rfl rfl .here
  have hunhooked : tallied.Unhooked ([.key "lines", .index 0] ++ [.key "count"]) :=
    Descriptor.unhooked_element tallied_lines rfl rfl (Descriptor.unhooked_key tallyLine_count rfl)
  have hholds : (tallyOf twoAndHalf).locate? ([.key "lines", .index 0] ++ [.key "count"]) =
      some (.number twoAndHalf) := rfl
  have hfits : twoAndHalf.FitsInt64 := .inl (by decide +kernel)
  obtain ⟨after, hlocate, -, hexact⟩ :=
    transform_toInt hok hplain hreaches tallyLine_count rfl hunhooked hholds
  exact ⟨flattened, hok, hplain, hreaches, tallyLine_count, rfl, hunhooked, hholds, hfits,
    by decide +kernel, after, hlocate, hexact.mpr (.inr hfits)⟩

/-- The number that a transformation leaves in place of the count of the first line. -/
def countAfter (flattened : Flattened) (count : Number) : Option Number :=
  ((flattened.transform (tallyOf count)).1.locate?
    ([.key "lines", .index 0] ++ [.key "count"])).bind Json.number?

/-- An integer that is no double is replaced by another one, and one beyond 64 signed bits by the
greatest of them. -/
theorem not_transform_toInt : ∃ flattened,
    (flatten "tallies" "main" tallied).1 = .ok flattened ∧
    countAfter flattened (.whole (.ofNat 9007199254740993)) =
      some (.whole (.ofNat 9007199254740992)) ∧
    ¬ (Number.whole (.ofNat 9007199254740992)).ExactFor (.whole (.ofNat 9007199254740993)) ∧
    countAfter flattened (.whole (.ofNat 18446744073709551615)) =
      some (.whole (.ofNat 9223372036854775807)) ∧
    ¬ (Number.whole (.ofNat 9223372036854775807)).ExactFor
      (.whole (.ofNat 18446744073709551615)) := by
  have hruns : (flatten "tallies" "main" tallied).1.toOption.map (fun flattened =>
      (countAfter flattened (.whole (.ofNat 9007199254740993)),
        countAfter flattened (.whole (.ofNat 18446744073709551615)))) =
      some (some (.whole (.ofNat 9007199254740992)),
        some (.whole (.ofNat 9223372036854775807))) := by
    decide +kernel
  obtain ⟨flattened, hflatten, hafter⟩ := Option.map_eq_some_iff.mp hruns
  obtain ⟨hrounded, hsaturated⟩ := Prod.mk.inj hafter
  refine ⟨flattened, Except.eq_ok_of_toOption hflatten, hrounded, ?_, hsaturated, ?_⟩ <;>
    · rw [Number.exactFor_whole_iff]
      decide +kernel

end Flattened

end NestedRecord
