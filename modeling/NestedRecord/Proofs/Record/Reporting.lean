import NestedRecord.Proofs.Record.Accepted
import NestedRecord.Proofs.Record.Demands

/-!
# Reports of validation

Validation walks over a record and gives up at the first fault. What it reports is compared here
with what the descriptor demands: the fault stands at the first of all places at which the record
breaks a demand, and there is no fault if there are none.

A check that finds nothing and a check that finds a fault are put into one statement, since both are
needed when checks follow one another: a later check is reached only where the earlier ones find
nothing, and what it finds is the first fault of all only because there is nothing in front. Each
function of the checker then has one such lemma, with its hypotheses about the checks that it makes.

* `Reports` is what a check reports of some places in their order. `Reports.or` and
  `Reports.findSome?` put checks one after the other, `Reports.behind` takes them behind a step.
* `Checker.reports_value?` is a value, given its content; `Checker.reports_scalar`, `reports_object`
  and `reports_array` are the contents.
* `Drawn.reports` puts these together along a descriptor.
-/

namespace NestedRecord

open Fields (get?)
open Walk (scalarDecl nestedDecl)

/-! ## Reports -/

/-- What a check reports: nothing where nothing is broken, else the first broken place. -/
def Reports (before : Location → Location → Prop) (broken : Location → Prop) (shown : String) :
    Option Violation → Prop
  | none => ∀ place, ¬ broken place
  | some violation =>
    ∃ place, Foremost before broken place ∧ violation.field = place.shownFrom shown

namespace Reports

variable {before before' : Location → Location → Prop} {broken broken' : Location → Prop}
  {shown : String} {found : Option Violation}

/-- The report of a value that is broken by itself only. -/
theorem own {violation : Violation} (hown : broken []) (honly : ∀ place, broken place → place = [])
    (hfield : violation.field = shown) : Reports before broken shown (some violation) :=
  ⟨[], ⟨hown, fun other hother hne => absurd (honly other hother) hne⟩, hfield⟩

/-- A report remains one if more places are known to come in front of others, and if the broken ones
are described in another way. -/
theorem mono (h : Reports before broken shown found)
    (hbefore : ∀ place place', before place place' → before' place place')
    (hbroken : ∀ place, broken place ↔ broken' place) :
    Reports before' broken' shown found := by
  cases found with
  | none => exact fun place hplace => h place ((hbroken place).mpr hplace)
  | some violation =>
    obtain ⟨place, hfirst, hfield⟩ := h
    refine ⟨place, ⟨(hbroken place).mp hfirst.mem, fun other hother hne => ?_⟩, hfield⟩
    exact hbefore _ _ (hfirst.first other ((hbroken other).mpr hother) hne)

/-- A second check is made where a first one, of places that come in front, finds nothing. -/
theorem or {early : Location → Prop} {found' : Option Violation}
    (hearly : Reports before early shown found) (hsub : ∀ place, early place → broken place)
    (hbefore : ∀ place place', early place → broken place' → ¬ early place' → before place place')
    (hlate : (∀ place, ¬ early place) → Reports before broken shown found') :
    Reports before broken shown (found.or found') := by
  cases found with
  | none => exact hlate hearly
  | some violation =>
    obtain ⟨place, hfirst, hfield⟩ := hearly
    refine ⟨place, ⟨hsub place hfirst.mem, fun other hother hne => ?_⟩, hfield⟩
    by_cases h : early other
    · exact hfirst.first other h hne
    · exact hbefore place other hfirst.mem hother h

/-- A report of what stands behind a step. -/
theorem behind {step : Step}
    (h : Reports (fun place place' => before (step :: place) (step :: place')) broken
      (Location.shownFrom shown [step]) found) :
    Reports before (fun place => ∃ rest, place = step :: rest ∧ broken rest) shown found := by
  cases found with
  | none =>
    rintro _ ⟨rest, rfl, hbroken⟩
    exact h rest hbroken
  | some violation =>
    obtain ⟨place, hfirst, hfield⟩ := h
    refine ⟨step :: place, ⟨⟨place, rfl, hfirst.mem⟩, ?_⟩, ?_⟩
    · rintro _ ⟨rest, rfl, hbroken⟩ hne
      exact hfirst.first rest hbroken fun heq => hne (heq ▸ rfl)
    · rw [hfield]
      cases step <;> rfl

/-- Checks that are made one after the other, in the order of places. -/
theorem findSome? {α : Type} {items : List α} {check : α → Option Violation}
    {places : α → Location → Prop}
    (hcheck : ∀ item ∈ items, Reports before (places item) shown (check item))
    (horder : items.Pairwise fun item other => ∀ place place', places item place →
      places other place' → before place place') :
    Reports before (fun place => ∃ item ∈ items, places item place) shown
      (items.findSome? check) := by
  induction items with
  | nil => exact fun place ⟨item, hitem, _⟩ => nomatch hitem
  | cons item rest ih =>
    obtain ⟨hitem, hrest⟩ := List.forall_mem_cons.mp hcheck
    obtain ⟨hbefore, horder⟩ := List.pairwise_cons.mp horder
    rw [List.findSome?_cons]
    cases hfound : check item with
    | some violation =>
      rw [hfound] at hitem
      obtain ⟨place, hfirst, hfield⟩ := hitem
      refine ⟨place, ⟨⟨item, List.mem_cons_self, hfirst.mem⟩, ?_⟩, hfield⟩
      rintro place' ⟨other, hother, hplace'⟩ hne
      -- the other broken places belong to the same check or to a later one
      rcases List.mem_cons.mp hother with rfl | hother
      · exact hfirst.first place' hplace' hne
      · exact hbefore other hother _ _ hfirst.mem hplace'
    | none =>
      rw [hfound] at hitem
      refine (ih hrest horder).mono (fun _ _ => id) fun place => ?_
      rw [List.exists_mem_cons_iff, or_iff_right (hitem place)]

end Reports

/-! ## Values -/

section Broken

variable {record value : Json} {tuple : Tuple Descriptor} {inner : Descriptor} {place : Location}

theorem Tuple.brokenAt_nil_iff : tuple.BrokenAt record value [] ↔ tuple.Breaks record value := by
  constructor
  · rintro ⟨breaks⟩
    exact breaks
  · exact .own

theorem Tuple.fits_scalar_iff (hplain : tuple.isNested = false) :
    tuple.Fits value ↔ ∀ type, tuple.scalarType = some type → type.accepts value = true := by
  have hnesting : tuple.nesting = none := by
    rw [Tuple.isNested, Bool.or_eq_false_iff] at hplain
    exact Option.isNone_iff_eq_none.mp (Option.isSome_eq_false_iff.mp hplain.1)
  exact ⟨fun h => h.scalar hplain, fun h => ⟨fun _ => h, by simp [hnesting], by simp [hnesting]⟩⟩

theorem Tuple.fits_object_iff (hnesting : tuple.nesting = some .object) :
    tuple.Fits value ↔ value.isObject = true :=
  ⟨fun h => h.object hnesting, fun h =>
    ⟨by simp [Tuple.isNested, hnesting], fun _ => h, by simp [hnesting]⟩⟩

theorem Tuple.fits_array_iff (hnesting : tuple.nesting = some .array) :
    tuple.Fits value ↔ value.isArray = true :=
  ⟨fun h => h.array hnesting, fun h =>
    ⟨by simp [Tuple.isNested, hnesting], by simp [hnesting], fun _ => h⟩⟩

/-- Only below objects and lists that are declared to be some there are places. -/
theorem Tuple.BrokenAt.eq_nil (h : tuple.BrokenAt record value place)
    (hobject : tuple.nesting = some .object → (tuple.convert value).isObject = false)
    (harray : tuple.nesting = some .array → (tuple.convert value).isArray = false) :
    place = [] := by
  cases h with
  | own => rfl
  | member nesting _ shaped => rw [shaped] at hobject; cases hobject nesting
  | item nesting _ shaped => rw [shaped] at harray; cases harray nesting
  | element nesting _ shaped => rw [shaped] at harray; cases harray nesting

theorem Tuple.BrokenAt.eq_nil_of_plain (h : tuple.BrokenAt record value place)
    (hplain : tuple.isNested = false) : place = [] := by
  refine h.eq_nil (fun hnesting => ?_) fun hnesting => ?_ <;>
    simp [Tuple.isNested, hnesting] at hplain

/-- Nothing stands below a value of the wrong kind. -/
theorem Tuple.BrokenAt.eq_nil_of_misfit (h : tuple.BrokenAt record value place)
    (hmisfit : ¬ tuple.Fits (tuple.convert value)) : place = [] := by
  refine h.eq_nil (fun hnesting => ?_) fun hnesting => ?_
  · rwa [Tuple.fits_object_iff hnesting, Bool.not_eq_true] at hmisfit
  · rwa [Tuple.fits_array_iff hnesting, Bool.not_eq_true] at hmisfit

/-- Nothing stands below a value that conversion leaves nothing of. -/
theorem Tuple.BrokenAt.eq_nil_of_isNull (h : tuple.BrokenAt record value place)
    (hnull : (tuple.convert value).isNull = true) : place = [] := by
  rw [Json.isNull_iff] at hnull
  exact h.eq_nil (fun _ => hnull ▸ rfl) fun _ => hnull ▸ rfl

/-- The places of an item of a list that are broken. -/
def Descriptor.BrokenItem (descriptor : Descriptor) (record item : Json) (place : Location) :
    Prop :=
  item.isObject = false ∧ place = [] ∨
    ∃ members, item = .object members ∧ descriptor.BrokenIn record members place

/-- What is broken below a nested object. -/
theorem Tuple.brokenAt_object_iff (hnesting : tuple.nesting = some .object)
    (hnested : tuple.nested = some inner) {members : List (String × Json)}
    (hshaped : tuple.convert value = .object members) :
    place ≠ [] ∧ tuple.BrokenAt record value place ↔ inner.BrokenIn record members place := by
  constructor
  · rintro ⟨hne, hbroken⟩
    cases hbroken with
    | own => exact absurd rfl hne
    | member nesting nested shaped declared broken =>
      obtain rfl := Option.some.inj (hnested.symm.trans nested)
      obtain rfl := Json.object.inj (hshaped.symm.trans shaped)
      exact ⟨_, _, _, rfl, declared, broken⟩
    | item nesting => rw [hnesting] at nesting; cases nesting
    | element nesting => rw [hnesting] at nesting; cases nesting
  · rintro ⟨name, tuple', rest, rfl, declared, broken⟩
    exact ⟨List.cons_ne_nil _ _, .member hnesting hnested hshaped declared broken⟩

/-- What is broken below a nested list. -/
theorem Tuple.brokenAt_array_iff (hnesting : tuple.nesting = some .array)
    (hnested : tuple.nested = some inner) {items : List Json}
    (hshaped : tuple.convert value = .array items) :
    place ≠ [] ∧ tuple.BrokenAt record value place ↔
      ∃ entry ∈ items.zipIdx, ∃ rest, place = .index entry.2 :: rest ∧
        inner.BrokenItem record entry.1 rest := by
  constructor
  · rintro ⟨hne, hbroken⟩
    cases hbroken with
    | own => exact absurd rfl hne
    | member nesting => rw [hnesting] at nesting; cases nesting
    | item nesting nested shaped stands misfit =>
      obtain rfl := Json.array.inj (hshaped.symm.trans shaped)
      exact ⟨(_, _), List.mem_zipIdx_iff_getElem?.mpr stands, [], rfl, .inl ⟨misfit, rfl⟩⟩
    | element nesting nested shaped stands declared broken =>
      obtain rfl := Option.some.inj (hnested.symm.trans nested)
      obtain rfl := Json.array.inj (hshaped.symm.trans shaped)
      exact ⟨(_, _), List.mem_zipIdx_iff_getElem?.mpr stands, _, rfl,
        .inr ⟨_, rfl, _, _, _, rfl, declared, broken⟩⟩
  · rintro ⟨⟨item, index⟩, hentry, rest, rfl, hitem⟩
    have hstands : items[index]? = some item := List.mem_zipIdx_iff_getElem?.mp hentry
    refine ⟨List.cons_ne_nil _ _, ?_⟩
    rcases hitem with ⟨hmisfit, rfl⟩ | ⟨members, rfl, name, tuple', rest, rfl, declared, broken⟩
    · exact .item hnesting hnested hshaped hstands hmisfit
    · exact .element hnesting hnested hshaped hstands declared broken

end Broken

/-- An attribute of the graph asks what its tuple declares. -/
structure AttributeDecl.Renders (decl : AttributeDecl) (tuple : Tuple Descriptor) : Prop where
  rules : decl.rules = tuple.rules
  lacking : (decl.isOptional || decl.derived) = true ↔ tuple.MayLack

namespace AttributeDecl

variable {decl : AttributeDecl} {tuple : Tuple Descriptor}

/-- An attribute is optional if it says so. -/
theorem isOptional_iff : decl.isOptional = true ↔ .optional ∈ decl.rules := by
  rw [isOptional, List.any_eq_true]
  constructor
  · rintro ⟨rule, hmem, hrule⟩
    cases rule with
    | optional => exact hmem
    | _ => cases hrule
  · exact fun hmem => ⟨_, hmem, rfl⟩

theorem Renders.convert (h : decl.Renders tuple) (value : Json) :
    decl.conversion?.elim value (·.apply value) = tuple.convert value := by
  have hconversion : decl.conversion? = tuple.conversion? := by
    rw [conversion?, h.rules]
    rfl
  rw [hconversion, Tuple.convert]

/-- The declaration of a single value keeps what its tuple asks for. -/
theorem renders_scalarDecl (name : String) (hplain : tuple.isNested = false) :
    (scalarDecl name tuple).Renders tuple := by
  refine ⟨rfl, ?_⟩
  rw [Bool.or_eq_true, isOptional_iff, Tuple.MayLack, hplain]
  simp [scalarDecl]

theorem renders_nestedDecl (name child : String) {inner : Descriptor}
    (hnested : tuple.nested = some inner) : (nestedDecl name tuple child).Renders tuple := by
  refine ⟨rfl, ?_⟩
  rw [Bool.or_eq_true, isOptional_iff, Tuple.MayLack, Tuple.isNested, hnested]
  simp [nestedDecl, hnested]

end AttributeDecl

namespace Checker

variable {checker : Checker} {decl : AttributeDecl} {tuple : Tuple Descriptor} {value : Json}
  {place : Place} {before : Location → Location → Prop}

/-! ## Bounds and hooks -/

/-- Bounds find nothing if they allow each measure of the value; a value has one at most. -/
theorem bounds?_eq_none_iff {rules : List Rule} :
    bounds? rules value place = none ↔
      ∀ measure, value.Measures measure → Rule.Allow rules measure := by
  -- a rule finds nothing if it is no bound, or one that is kept
  have hallow (measure : Double) :
      rules.findSome? (beyond? measure) = none ↔ Rule.Allow rules measure := by
    simp only [List.findSome?_eq_none_iff, beyond?_eq_none_iff]
    constructor
    · intro h
      exact ⟨fun bound hbound => (h _ hbound).1 bound rfl,
        fun bound hbound => (h _ hbound).2 bound rfl⟩
    · rintro h rule hrule
      exact ⟨fun bound heq => h.min bound (heq ▸ hrule), fun bound heq => h.max bound (heq ▸ hrule)⟩
  have hmeasure (measure : Double) : measure? value = some measure ↔ value.Measures measure := by
    constructor
    · intro h
      cases value with
      | number n => exact Option.some.inj h ▸ .number n
      | string s => exact Option.some.inj h ▸ .text s
      | array items => exact Option.some.inj h ▸ .list items
      | _ => cases h
    · rintro (_ | _ | _) <;> simp only [measure?]
  simp only [← hmeasure, ← hallow, bounds?, Option.bind_eq_none_iff, Option.map_eq_none_iff]

theorem hook?_eq_none_iff {declared : Option Hook}
    (hhook : get? checker.hooks place.path = declared) :
    checker.hook? value place = none ↔
      ∀ hook, declared = some hook → hook.check? value checker.record = none := by
  rw [hook?, hhook]
  simp

/-- Bounds are reported where the value stands. -/
theorem field_of_bounds? {rules : List Rule} {violation : Violation}
    (h : bounds? rules value place = some violation) : violation.field = place.shown := by
  obtain ⟨measure, -, h⟩ := Option.bind_eq_some_iff.mp h
  obtain ⟨bound, -, rfl⟩ := Option.map_eq_some_iff.mp h
  rfl

theorem field_of_hook? {violation : Violation} (h : checker.hook? value place = some violation) :
    violation.field = place.shown := by
  obtain ⟨hook, -, h⟩ := Option.bind_eq_some_iff.mp h
  obtain ⟨reason, -, rfl⟩ := Option.map_eq_some_iff.mp h
  rfl

/-! ## Attributes -/

/-- What a check of the content of an attribute reports: its kind, and what stands below it. -/
def ReportsContent (before : Location → Location → Prop) (tuple : Tuple Descriptor)
    (record value : Json) (shown : String) (found : Option Violation) : Prop :=
  Reports before (fun place => place = [] ∧ ¬ tuple.Fits (tuple.convert value) ∨
    place ≠ [] ∧ tuple.BrokenAt record value place) shown found

/-- A value that is there is checked by itself once its content has been. -/
theorem value?_of_present {content? : Json → Place → Option Violation} {converted : Json}
    (hnull : value.isNull = false)
    (hvalue : decl.conversion?.elim value (·.apply value) = converted)
    (hpresent : converted.isNull = false) :
    checker.value? decl content? value place = (content? converted place).or
      ((bounds? decl.rules converted place).or (checker.hook? converted place)) := by
  rw [value?, if_neg (by simp [hnull]), hvalue]
  simp only [hpresent, Bool.false_eq_true, if_false]
  cases content? converted place with
  | some violation => rfl
  | none => cases bounds? decl.rules converted place <;> rfl

/-- The bounds and the hook of a value whose content is as declared. -/
theorem reports_own (hbreaks : tuple.Breaks checker.record value ↔
      ¬ tuple.Meets checker.record (tuple.convert value))
    (hhook : get? checker.hooks place.path = tuple.lastHook? .validate)
    (hpresent : (tuple.convert value).isNull = false) (hfits : tuple.Fits (tuple.convert value))
    (honly : ∀ place', tuple.BrokenAt checker.record value place' → place' = []) :
    Reports before (tuple.BrokenAt checker.record value) place.shown
      ((bounds? tuple.rules (tuple.convert value) place).or
        (checker.hook? (tuple.convert value) place)) := by
  -- as the content fits and is there, only bounds and the hook are left to break
  have hbroken : tuple.BrokenAt checker.record value [] ↔
      ¬ (bounds? tuple.rules (tuple.convert value) place = none ∧
        checker.hook? (tuple.convert value) place = none) := by
    rw [Tuple.brokenAt_nil_iff, hbreaks, bounds?_eq_none_iff, hook?_eq_none_iff hhook]
    exact not_congr ⟨fun h => ⟨h.bounded, h.accepted⟩, fun h => ⟨hpresent, hfits, h.1, h.2⟩⟩
  cases hbounds : bounds? tuple.rules (tuple.convert value) place with
  | some violation =>
    exact .own (hbroken.mpr (by simp [hbounds])) honly (field_of_bounds? hbounds)
  | none =>
    cases hhooked : checker.hook? (tuple.convert value) place with
    | some violation =>
      exact .own (hbroken.mpr (by simp [hhooked])) honly (field_of_hook? hhooked)
    | none =>
      intro place' hplace
      obtain rfl := honly place' hplace
      exact hbroken.mp hplace ⟨hbounds, hhooked⟩

/-- Checking a value reports the first place in it that is broken, if checking its content does. -/
theorem reports_value? (hdecl : decl.Renders tuple) (hshaped : ¬ tuple.IsAttached)
    (hhook : get? checker.hooks place.path = tuple.lastHook? .validate)
    (hbefore : ∀ step rest, before (step :: rest) [])
    {content? : Json → Place → Option Violation}
    (hcontent : ReportsContent before tuple checker.record value place.shown
      (content? (tuple.convert value) place)) :
    Reports before (tuple.BrokenAt checker.record value) place.shown
      (checker.value? decl content? value place) := by
  have hbreaks : tuple.Breaks checker.record value ↔
      ¬ (value.isNull = true ∧ tuple.MayLack) ∧
        ¬ tuple.Meets checker.record (tuple.convert value) :=
    ⟨fun h => ⟨h.demanded, h.unmet⟩, fun h => ⟨hshaped, h.1, h.2⟩⟩
  cases hpresent : (tuple.convert value).isNull with
  | true =>
    -- nothing stands below, so all that can be broken is the value itself
    have hfault {violation : Violation} (hdemanded : ¬ (value.isNull = true ∧ tuple.MayLack))
        (hfield : violation.field = place.shown) :
        Reports before (tuple.BrokenAt checker.record value) place.shown (some violation) := by
      refine .own ?_ (fun place hplace => hplace.eq_nil_of_isNull hpresent) hfield
      refine Tuple.brokenAt_nil_iff.mpr (hbreaks.mpr ⟨hdemanded, fun hmeets => ?_⟩)
      rw [hmeets.present] at hpresent
      cases hpresent
    rw [value?, hdecl.convert]
    cases hnull : value.isNull with
    | true =>
      rw [if_pos rfl]
      split
      · next hlack =>
        intro place' hbroken
        obtain rfl := hbroken.eq_nil_of_isNull hpresent
        exact (hbreaks.mp (Tuple.brokenAt_nil_iff.mp hbroken)).1 ⟨hnull, hdecl.lacking.mp hlack⟩
      · next hlack => exact hfault (fun h => hlack (hdecl.lacking.mpr h.2)) rfl
    | false =>
      simp only [Bool.false_eq_true, if_false, hpresent, if_true]
      exact hfault (by simp [hnull]) rfl
  | false =>
    have hnull : value.isNull = false := by
      refine Bool.eq_false_iff.mpr fun hnull => ?_
      rw [tuple.convert_of_isNull hnull] at hpresent
      cases hpresent
    rw [value?_of_present hnull (hdecl.convert value) hpresent, hdecl.rules]
    have hunmet : tuple.Breaks checker.record value ↔
        ¬ tuple.Meets checker.record (tuple.convert value) := by
      rw [hbreaks, and_iff_right (by simp [hnull])]
    refine hcontent.or ?_ ?_ fun hclean => reports_own hunmet hhook hpresent ?_ ?_
    · rintro place' (⟨rfl, hmisfit⟩ | ⟨-, hbroken⟩)
      · exact Tuple.brokenAt_nil_iff.mpr (hunmet.mpr fun hmeets => hmisfit hmeets.fits)
      · exact hbroken
    · intro place' other hplace hother hlate
      obtain rfl : other = [] := by_contra fun hne => hlate (.inr ⟨hne, hother⟩)
      cases place' with
      | nil => exact absurd hplace hlate
      | cons step rest => exact hbefore step rest
    · exact by_contra fun hmisfit => hclean [] (.inl ⟨rfl, hmisfit⟩)
    · exact fun place' hbroken => by_contra fun hne => hclean place' (.inr ⟨hne, hbroken⟩)

/-! ## Contents -/

/-- The content of a single value is its type. -/
theorem reports_scalar (hplain : tuple.isNested = false)
    (htype : decl.scalarType = tuple.scalarType) :
    ReportsContent before tuple checker.record value place.shown
      (checker.content? decl .scalar (tuple.convert value) place) := by
  have hfits : tuple.Fits (tuple.convert value) ↔
      type? decl (tuple.convert value) place = none := by
    rw [type?_eq_none_iff, htype, Tuple.fits_scalar_iff hplain]
  rw [content?]
  cases hfound : type? decl (tuple.convert value) place with
  | none =>
    rintro place' (⟨rfl, hmisfit⟩ | ⟨hne, hbroken⟩)
    · exact hmisfit (hfits.mpr hfound)
    · exact hne (hbroken.eq_nil_of_plain hplain)
  | some violation =>
    refine .own (.inl ⟨rfl, by simp [hfits, hfound]⟩) ?_ ?_
    · rintro place' (⟨rfl, -⟩ | ⟨-, hbroken⟩)
      · rfl
      · exact hbroken.eq_nil_of_plain hplain
    · obtain ⟨type, -, h⟩ := Option.bind_eq_some_iff.mp hfound
      split at h
      · cases h
      · cases h
        rfl

/-- The report of a value that is no object or no list, but should be one. -/
theorem reports_wrongKind (expected : String) (hmisfit : ¬ tuple.Fits (tuple.convert value)) :
    ReportsContent before tuple checker.record value place.shown
      (some (wrongKind place expected (tuple.convert value))) := by
  refine .own (.inl ⟨rfl, hmisfit⟩) ?_ rfl
  rintro place' (⟨rfl, -⟩ | ⟨-, hbroken⟩)
  · rfl
  · exact hbroken.eq_nil_of_misfit hmisfit

variable {inner : Descriptor} {attributes : List (AttributeDecl × Shape)}

theorem content?_object_of_not (h : value.isObject = false) :
    checker.content? decl (.level .object attributes) value place =
      some (wrongKind place "object" value) := by
  cases value with
  | object => cases h
  | _ =>
    rw [content?]
    intro _ hshaped
    cases hshaped

theorem content?_array_of_not (h : value.isArray = false) :
    checker.content? decl (.level .array attributes) value place =
      some (wrongKind place "array" value) := by
  cases value with
  | array => cases h
  | _ =>
    rw [content?]
    intro _ hshaped
    cases hshaped

/-- The content of a nested object is that of its attributes. -/
theorem reports_object (hnesting : tuple.nesting = some .object)
    (hnested : tuple.nested = some inner)
    (hinner : ∀ members, Reports before (inner.BrokenIn checker.record members) place.shown
      (checker.attributes? attributes members place)) :
    ReportsContent before tuple checker.record value place.shown
      (checker.content? decl (.level .object attributes) (tuple.convert value) place) := by
  cases hobject : (tuple.convert value).isObject with
  | true =>
    obtain ⟨members, hshaped⟩ := Json.exists_members hobject
    have hfits := (Tuple.fits_object_iff hnesting).mpr hobject
    rw [hshaped, content?]
    refine (hinner members).mono (fun _ _ => id) fun place' => ?_
    rw [Tuple.brokenAt_object_iff hnesting hnested hshaped, or_iff_right fun h => h.2 hfits]
  | false =>
    rw [content?_object_of_not hobject]
    exact reports_wrongKind "object" (by simp [Tuple.fits_object_iff hnesting, hobject])

/-- The first violation of an item of a list. -/
def item? (checker : Checker) (attributes : List (AttributeDecl × Shape)) (item : Json)
    (place : Place) : Option Violation :=
  match item with
  | .object members => checker.attributes? attributes members place
  | item => some (wrongKind place "object" item)

theorem content?_array (items : List Json) :
    checker.content? decl (.level .array attributes) (.array items) place =
      items.zipIdx.findSome? fun entry =>
        checker.item? attributes entry.1 (place.element entry.2) := by
  rw [content?]
  rfl

/-- An item is an object of the level, or is broken by itself. -/
theorem reports_item (item : Json)
    (hinner : ∀ members, Reports before (inner.BrokenIn checker.record members) place.shown
      (checker.attributes? attributes members place)) :
    Reports before (inner.BrokenItem checker.record item) place.shown
      (checker.item? attributes item place) := by
  cases hobject : item.isObject with
  | true =>
    obtain ⟨members, rfl⟩ := Json.exists_members hobject
    refine (hinner members).mono (fun _ _ => id) fun place' => ?_
    simp [Descriptor.BrokenItem, Json.isObject]
  | false =>
    have hbroken (place' : Location) :
        inner.BrokenItem checker.record item place' ↔ place' = [] := by
      refine ⟨?_, fun hnil => .inl ⟨hobject, hnil⟩⟩
      rintro (⟨-, hnil⟩ | ⟨members, rfl, -⟩)
      · exact hnil
      · cases hobject
    cases item with
    | object => cases hobject
    | _ => exact .own ((hbroken []).mpr rfl) (fun place' => (hbroken place').mp) rfl

/-- The content of a list is that of its items, in order of their positions. -/
theorem reports_array (hnesting : tuple.nesting = some .array) (hnested : tuple.nested = some inner)
    (hinner : ∀ index members, Reports
      (fun place place' => before (.index index :: place) (.index index :: place'))
      (inner.BrokenIn checker.record members) (place.element index).shown
        (checker.attributes? attributes members (place.element index)))
    (hbefore : ∀ {index index'} rest rest', index < index' →
      before (.index index :: rest) (.index index' :: rest')) :
    ReportsContent before tuple checker.record value place.shown
      (checker.content? decl (.level .array attributes) (tuple.convert value) place) := by
  cases harray : (tuple.convert value).isArray with
  | true =>
    obtain ⟨items, hshaped⟩ := Json.exists_items harray
    have hfits := (Tuple.fits_array_iff hnesting).mpr harray
    -- positions grow along the list, so places in earlier items come in front
    have horder : items.zipIdx.Pairwise fun item other => ∀ place place',
        (∃ rest, place = .index item.2 :: rest ∧ inner.BrokenItem checker.record item.1 rest) →
        (∃ rest, place' = .index other.2 :: rest ∧ inner.BrokenItem checker.record other.1 rest) →
          before place place' := by
      have hindices : (items.zipIdx.map (·.2)).Pairwise (· < ·) := by
        rw [List.zipIdx_map_snd]
        exact List.pairwise_lt_range'
      refine (List.pairwise_map.mp hindices).imp fun {item other} hlt place place' => ?_
      rintro ⟨rest, rfl, -⟩ ⟨rest', rfl, -⟩
      exact hbefore rest rest' hlt
    rw [hshaped, content?_array]
    refine (Reports.findSome? (fun entry _ => .behind ?_) horder).mono (fun _ _ => id)
      fun place' => ?_
    · exact reports_item entry.1 (hinner entry.2)
    · rw [Tuple.brokenAt_array_iff hnesting hnested hshaped, or_iff_right fun h => h.2 hfits]
  | false =>
    rw [content?_array_of_not harray]
    exact reports_wrongKind "array" (by simp [Tuple.fits_array_iff hnesting, harray])

/-- The attributes of an object are checked one after the other. -/
theorem attributes?_eq_findSome? (members : List (String × Json)) :
    checker.attributes? attributes members place = attributes.findSome? fun attr =>
      if attr.2.isForeign then none
      else checker.value? attr.1 (checker.content? attr.1 attr.2)
        (Fields.orNull members attr.1.name) (place.field attr.1.name) := by
  induction attributes with
  | nil => rw [attributes?, List.findSome?_nil]
  | cons attr rest ih =>
    obtain ⟨decl, shape⟩ := attr
    rw [attributes?, List.findSome?_cons, ih]
    simp only [Fields.orNull]
    generalize (if shape.isForeign = true then none else _) = found
    cases found <;> rfl

end Checker

/-! ## Levels -/

section Levels

variable {s : Flattening} {flattened : Flattened} {checker : Checker} {place : Place}

/-- What is reported of an attribute, given the reports of the level below it. -/
theorem AttributeDrawn.reports (before : Location → Location → Prop) (value : Json) {key : String}
    {directives : List (Directive Descriptor)} {tuple : Tuple Descriptor} {visited : Visited}
    (hread : Tuple.ofDirectives directives = .ok tuple)
    (hdrawn : AttributeDrawn s (Drawn s) (key, .tuple directives) visited)
    (hhook : get? checker.hooks place.path = tuple.lastHook? .validate)
    (hcontent : ∀ step rest, before (step :: rest) [])
    (hitems : ∀ {index index'} rest rest', index < index' →
      before (.index index :: rest) (.index index' :: rest'))
    (hobject : ∀ {inner child level}, tuple.nested = some inner → Drawn s inner child level →
      ∀ members, Reports before (inner.BrokenIn checker.record members) place.shown
        (checker.attributes? level.attributes members place))
    (helement : ∀ {inner child level}, tuple.nested = some inner → Drawn s inner child level →
      ∀ index members, Reports
        (fun place place' => before (.index index :: place) (.index index :: place'))
        (inner.BrokenIn checker.record members) (place.element index).shown
          (checker.attributes? level.attributes members (place.element index))) :
    Reports before (tuple.BrokenAt checker.record value) place.shown
      (if visited.shape.isForeign then none
        else checker.value? visited.decl (checker.content? visited.decl visited.shape) value
          place) := by
  cases hdrawn with
  | scalar read plain =>
    obtain rfl := Except.ok.inj (hread.symm.trans read)
    have hshaped : ¬ tuple.IsAttached := by
      rintro ⟨hnesting, -⟩
      simp [Tuple.isNested, hnesting] at plain
    exact Checker.reports_value? (AttributeDecl.renders_scalarDecl key plain) hshaped hhook hcontent
      (Checker.reports_scalar plain rfl)
  | @level _ child _ _ kind inner node level read nesting nested entered kept drawn =>
    obtain rfl := Except.ok.inj (hread.symm.trans read)
    refine Checker.reports_value? (AttributeDecl.renders_nestedDecl key child nested)
      (fun hattached => hattached.not_nested nested) hhook hcontent ?_
    cases kind with
    | object => exact Checker.reports_object nesting nested (hobject nested drawn)
    | array => exact Checker.reports_array nesting nested (helement nested drawn) hitems
  | attachment read nesting nested =>
    obtain rfl := Except.ok.inj (hread.symm.trans read)
    -- attached records are that store's business
    have hattached : tuple.IsAttached := ⟨nesting ▸ rfl, nested⟩
    intro place' hbroken
    cases hbroken with
    | own breaks => exact breaks.shaped hattached
    | member _ nested' => exact hattached.not_nested nested'
    | item _ nested' => exact hattached.not_nested nested'
    | element _ nested' => exact hattached.not_nested nested'

/-- The names of a level stand in the order of its attributes. -/
theorem Drawn.pairwise_names {descriptor : Descriptor} {name : String} {level : Level}
    (hdrawn : Drawn s descriptor name level) :
    level.attributes.Pairwise fun attr other =>
      [attr.1.name, other.1.name].Sublist descriptor.names := by
  rw [List.pairwise_iff_forall_sublist, ← hdrawn.names_eq]
  exact fun {attr other} hsub => hsub.map fun attr : AttributeDecl × Shape => attr.1.name

/-- Checking an object reports the first place at which it breaks its descriptor. -/
theorem Drawn.reports (hends : flattened.EndsIn s) (hdistinct : flattened.DistinctNames) :
    ∀ (descriptor : Descriptor) {name : String} {level : Level}, Drawn s descriptor name level →
      ∀ {place : Place}, descriptor.HookedAt .validate checker.hooks place.path →
      ∀ members, Reports descriptor.Precedes (descriptor.BrokenIn checker.record members)
        place.shown (checker.attributes? level.attributes members place) := by
  refine Descriptor.levels_induction fun declared ih name level hdrawn place hhooks members => ?_
  have horder : level.attributes.Pairwise fun attr other => ∀ place place' : Location,
      (∃ rest, place = .key attr.1.name :: rest ∧ ∃ tuple,
        (Descriptor.mk declared).Assigns attr.1.name tuple ∧
          tuple.BrokenAt checker.record (Fields.orNull members attr.1.name) rest) →
      (∃ rest, place' = .key other.1.name :: rest ∧ ∃ tuple,
        (Descriptor.mk declared).Assigns other.1.name tuple ∧
          tuple.BrokenAt checker.record (Fields.orNull members other.1.name) rest) →
        (Descriptor.mk declared).Precedes place place' := by
    refine hdrawn.pairwise_names.imp fun hsub place place' => ?_
    rintro ⟨rest, rfl, -⟩ ⟨rest', rfl, -⟩
    exact .sibling hsub
  -- the first attribute that reports anything, since attributes are checked in their order
  rw [Checker.attributes?_eq_findSome?]
  refine (Reports.findSome? (fun attr hattr => .behind ?_) horder).mono (fun _ _ => id)
    fun place' => ?_
  · obtain ⟨directives, tuple, visited, hdeclared, hread, hmem, rfl, hvisited⟩ :=
      hdrawn.exists_assigned hends hdistinct hattr
    have hlevel {inner : Descriptor} {child : String} {below : Level}
        (hnested : tuple.nested = some inner) (hbelow : Drawn s inner child below) (place' : Place)
        (hpath : place'.path = joinPath place.path visited.decl.name) :=
      @ih _ hmem directives rfl inner (Tuple.mem_of_nested hread hnested) _ _ hbelow place'
        (hpath.symm ▸ hhooks.inside hdeclared hnested)
    have hreports := hvisited.reports (fun place place' => (Descriptor.mk declared).Precedes
        (.key visited.decl.name :: place) (.key visited.decl.name :: place'))
      (Fields.orNull members visited.decl.name) hread (hhooks.own hdeclared) (fun _ _ => .content)
      (fun _ _ => .item)
      (fun hnested hbelow members => (hlevel hnested hbelow _ rfl members).mono
        (fun _ _ => .member hdeclared hnested) fun _ => Iff.rfl)
      (fun hnested hbelow index members =>
        (hlevel hnested hbelow ((place.field visited.decl.name).element index) rfl members).mono
          (fun _ _ => .element hdeclared hnested) fun _ => Iff.rfl)
    refine hreports.mono (fun _ _ => id) fun place' => ?_
    constructor
    · exact fun hbroken => ⟨tuple, hdeclared, hbroken⟩
    · rintro ⟨tuple', hdeclared', hbroken⟩
      rwa [hdeclared.unique hdeclared']
  · constructor
    · rintro ⟨attr, -, rest, rfl, tuple, hdeclared, hbroken⟩
      exact ⟨_, tuple, rest, rfl, hdeclared, hbroken⟩
    · rintro ⟨name', tuple, rest, rfl, hdeclared, hbroken⟩
      obtain ⟨attr, hattr, rfl⟩ := hdrawn.exists_attribute hdeclared
      exact ⟨attr, hattr, rest, rfl, tuple, hdeclared, hbroken⟩

end Levels

end NestedRecord
