import NestedRecord.Proofs.Path.Declared
import NestedRecord.Proofs.Record.Conversion
import NestedRecord.Proofs.Record.Tracing
import NestedRecord.Proofs.Store.Compiled

/-!
# Transforming and validating agree

A store converts the values of a record when it is written, and validation converts them once more
before it checks them. Where there are no hooks the two agree: what validation says of a record does
not depend on whether it has been transformed, and there is nothing left to transform afterwards.

* `Shape.Distinct` says that no level of a shape repeats a name.
* `Transformer.Plain` are the transformers without hooks; `Transformer.member` is what they make
  of one attribute, `get?_attributes` what of a whole object.
* `Shape.Distinct.settles` and `Shape.Distinct.agrees` are the two results for a shape.
* `Store.IsCompiled.validate_transform` is the result for a store.

Conversions are idempotent where they succeed and leave the value as it is where they fail, so a
value can be converted any number of times without a difference to the checks. The rest carries this
through objects and lists. Names have to be distinct for it: of two attributes with one name the
transformation follows the last conversion that is declared, and validation the one of each.
-/

namespace NestedRecord

open Fields (get? has)

/-- No level repeats the name of an attribute. -/
inductive Shape.Distinct : Shape → Prop
  | scalar : Distinct .scalar
  | foreign : Distinct .foreign
  | level {kind : NodeKind} {attributes : List (AttributeDecl × Shape)}
      (names : (attributes.map (·.1.name)).Nodup) (below : ∀ attr ∈ attributes, attr.2.Distinct) :
      Distinct (.level kind attributes)

/-- Where no name is repeated, a scalar attribute is converted as it declares. -/
theorem Shape.conversion?_of_mem {attributes : List (AttributeDecl × Shape)}
    (hnodup : (attributes.map (·.1.name)).Nodup) {decl : AttributeDecl}
    (hmem : (decl, .scalar) ∈ attributes) :
    Shape.conversion? attributes decl.name = decl.conversion? := by
  -- the attribute is the only one of its name, so it is the one that is found
  have hother : ∀ attr ∈ attributes.reverse, attr.1.name = decl.name → attr = (decl, .scalar) :=
    fun attr hattr hname =>
      List.inj_on_of_nodup_map hnodup (List.mem_reverse.mp hattr) hmem hname
  cases hconversion : decl.conversion? with
  | none =>
    refine List.findSome?_eq_none_iff.mpr fun ⟨other, shape⟩ hattr => ?_
    simp only
    split
    · next hboth =>
      rw [Bool.and_eq_true, beq_iff_eq] at hboth
      cases hother _ hattr hboth.2
      exact hconversion
    · rfl
  | some conversion =>
    obtain ⟨front, back, hsplit, hnot⟩ := List.eq_append_cons_of_mem (List.mem_reverse.mpr hmem)
    have hfront : ∀ attr ∈ front, attr.1.name ≠ decl.name := fun attr hattr hname =>
      hnot (hother attr (hsplit ▸ List.mem_append_left _ hattr) hname ▸ hattr)
    rw [conversion?, hsplit, List.findSome?_append, List.findSome?_eq_none_iff.mpr, Option.none_or,
      List.findSome?_cons]
    · simp [Shape.isScalar, hconversion]
    · intro attr hattr
      simp [hfront attr hattr]

namespace Transformer

variable {transformer : Transformer} {level rest : List (AttributeDecl × Shape)} {path : String}
  {members : List (String × Json)}

/-- A transformer without hooks. -/
def Plain (transformer : Transformer) : Prop := transformer.hooks = []

/-- The value of an attribute after its transformation; null stays as it is. -/
def member (transformer : Transformer) (level : List (AttributeDecl × Shape)) (path : String)
    (attr : AttributeDecl × Shape) (value : Json) : Json :=
  if value.isNull then value
  else (transformer.content (Shape.conversion? level attr.1.name) (joinPath path attr.1.name)
    attr.2 value).1

/-- Without hooks a member is its converted content. -/
theorem Plain.tracedMember_fst (h : transformer.Plain) (place : Location)
    (attr : AttributeDecl × Shape) (value : Json) :
    (transformer.tracedMember level path place attr value).1 =
      transformer.member level path attr value := by
  rw [Plain] at h
  rw [tracedMember, member, content_eq_traced _ _ _ (place ++ [.key attr.1.name])]
  split
  · rfl
  · simp [tracedHook, h, HookCall.reported]

/-- Each attribute of an object is transformed. -/
theorem get?_attributes (h : transformer.Plain) (hnodup : (rest.map (·.1.name)).Nodup)
    {attr : AttributeDecl × Shape} (hmem : attr ∈ rest) :
    get? (transformer.attributes level rest path members).1 attr.1.name =
      (get? members attr.1.name).map (transformer.member level path attr) := by
  rw [attributes_eq_traced rest level path []]
  exact (get?_tracedAttributes hnodup hmem).trans
    (congrArg (Option.map · _) (funext (h.tracedMember_fst [] attr)))

/-- An object whose attributes are settled is not transformed. -/
theorem attributes_of_settled (h : transformer.Plain)
    (hsettled : ∀ attr ∈ rest, ∀ value, get? members attr.1.name = some value →
      transformer.member level path attr value = value) :
    (transformer.attributes level rest path members).1 = members := by
  rw [attributes_eq_traced rest level path []]
  refine tracedAttributes_fst.trans (Fields.updates_of_fixed fun change hchange value hget => ?_)
  obtain ⟨attr, hattr, rfl⟩ := List.mem_map.mp hchange
  exact (h.tracedMember_fst [] attr value).trans (hsettled attr hattr value hget)

/-- The items of a list are transformed on their own. -/
theorem items_eq_map (object : List (String × Json) → List (String × Json) × Journal)
    (list : List Json) :
    (items object list).1 = list.map fun item =>
      match item with
      | .object members => .object (object members).1
      | item => item := by
  induction list with
  | nil => rfl
  | cons item rest ih =>
    rw [List.map_cons, ← ih]
    cases item <;> simp only [items]

/-- A value that cannot be converted stays as it is. -/
theorem converted_some (conversion : Conversion) (value : Json) :
    converted (some conversion) value =
      if (conversion.apply value).isNull then value else conversion.apply value := by
  rw [converted, Json.nonNull?_eq]
  split <;> rfl

/-- Converting twice is converting once. -/
theorem converted_converted (conversion : Option Conversion) (value : Json) :
    converted conversion (converted conversion value) = converted conversion value := by
  cases conversion with
  | none => rfl
  | some conversion =>
    cases hnull : (conversion.apply value).isNull with
    | true => simp only [converted_some, hnull, if_true]
    | false =>
      simp only [converted_some, hnull, Bool.false_eq_true, if_false,
        conversion.apply_apply value hnull, ite_self]

end Transformer

/-- What is under an attribute of this shape is settled once it has been transformed. -/
def Shape.Settles (transformer transformer' : Transformer) (shape : Shape) : Prop :=
  ∀ (conversion : Option Conversion) (path path' : String) (value : Json),
    (transformer'.content conversion path' shape
      (transformer.content conversion path shape value).1).1 =
        (transformer.content conversion path shape value).1

section Settling

variable {transformer transformer' : Transformer} {attributes : List (AttributeDecl × Shape)}

/-- An object is settled after one transformation, if its attributes are. -/
theorem Transformer.attributes_attributes (h : transformer.Plain) (h' : transformer'.Plain)
    (names : (attributes.map (·.1.name)).Nodup)
    (hsettles : ∀ attr ∈ attributes, attr.2.Settles transformer transformer') (path path' : String)
    (members : List (String × Json)) :
    (transformer'.attributes attributes attributes path'
      (transformer.attributes attributes attributes path members).1).1 =
        (transformer.attributes attributes attributes path members).1 := by
  refine Transformer.attributes_of_settled h' fun attr hattr value hget => ?_
  rw [Transformer.get?_attributes h names hattr] at hget
  obtain ⟨original, -, rfl⟩ := Option.map_eq_some_iff.mp hget
  unfold Transformer.member
  split
  · rfl
  · split
    · rfl
    · exact hsettles attr hattr _ _ _ _

/-- What has been transformed is not transformed any further. -/
theorem Shape.Distinct.settles {shape : Shape} (hshape : shape.Distinct) (h : transformer.Plain)
    (h' : transformer'.Plain) : shape.Settles transformer transformer' := by
  induction hshape with
  | scalar =>
    intro conversion path path' value
    simp only [Transformer.content]
    exact Transformer.converted_converted conversion value
  | foreign =>
    intro conversion path path' value
    simp only [Transformer.content]
  | @level kind attributes names below ih =>
    -- the members of an object are settled by induction; items are objects or stay
    have hobject := Transformer.attributes_attributes h h' names ih
    intro conversion path path' value
    cases kind with
    | object => cases value <;> simp only [Transformer.content, hobject]
    | array =>
      cases value with
      | array items =>
        simp only [Transformer.content, Transformer.items_eq_map, List.map_map]
        refine congrArg Json.array (List.map_congr_left fun item _ => ?_)
        cases item <;> simp only [Function.comp, hobject]
      | _ => simp only [Transformer.content]

end Settling

namespace Checker

variable {checker checker' : Checker}

/-- A checker without hooks. -/
def Plain (checker : Checker) : Prop := checker.hooks = []

theorem Plain.hook? (h : checker.Plain) (value : Json) (place : Place) :
    checker.hook? value place = none := by
  rw [Plain] at h
  rw [Checker.hook?, h]
  rfl

/-- Objects whose attributes are judged alike are judged alike. -/
theorem attributes?_congr {attributes : List (AttributeDecl × Shape)}
    {members members' : List (String × Json)} {place : Place}
    (h : ∀ attr ∈ attributes, attr.2.isForeign = false →
      checker'.value? attr.1 (checker'.content? attr.1 attr.2)
          ((get? members' attr.1.name).getD .null) (place.field attr.1.name) =
        checker.value? attr.1 (checker.content? attr.1 attr.2)
          ((get? members attr.1.name).getD .null) (place.field attr.1.name)) :
    checker'.attributes? attributes members' place =
      checker.attributes? attributes members place := by
  induction attributes with
  | nil => rfl
  | cons attr rest ih =>
    obtain ⟨decl, shape⟩ := attr
    obtain ⟨hfirst, hrest⟩ := List.forall_mem_cons.mp h
    rw [attributes?, attributes?, ih hrest]
    cases hforeign : shape.isForeign with
    | true => rfl
    | false => rw [hfirst hforeign]

/-- The record as a whole is there for hooks only. -/
theorem content?_eq_of_plain (h : checker.Plain) (h' : checker'.Plain) {shape : Shape}
    (hshape : shape.Distinct) :
    ∀ decl : AttributeDecl, checker'.content? decl shape = checker.content? decl shape := by
  induction hshape with
  | scalar =>
    intro decl
    funext value place
    simp only [content?]
  | foreign =>
    intro decl
    funext value place
    simp only [content?]
  | @level kind attributes names below ih =>
    have hobject : ∀ (members : List (String × Json)) (place : Place),
        checker'.attributes? attributes members place =
          checker.attributes? attributes members place := by
      intro members place
      refine attributes?_congr fun attr hattr _ => ?_
      simp only [value?, ih attr hattr, h.hook?, h'.hook?]
    intro decl
    funext value place
    cases kind with
    | object => cases value <;> simp only [content?, hobject]
    | array => cases value <;> simp only [content?, hobject]

/-- Without hooks it does not matter which record a checker was made for. -/
theorem attributes?_eq_of_plain (h : checker.Plain) (h' : checker'.Plain)
    {attributes : List (AttributeDecl × Shape)} (hbelow : ∀ attr ∈ attributes, attr.2.Distinct)
    (members : List (String × Json)) (place : Place) :
    checker'.attributes? attributes members place =
      checker.attributes? attributes members place := by
  refine attributes?_congr fun attr hattr _ => ?_
  simp only [value?, content?_eq_of_plain h h' (hbelow attr hattr), h.hook?, h'.hook?]

/-- The violation of a scalar does not depend on whether it has been converted. -/
theorem value?_converted (decl : AttributeDecl) (value : Json) (place : Place) :
    checker.value? decl (checker.content? decl .scalar)
        (Transformer.converted decl.conversion? value) place =
      checker.value? decl (checker.content? decl .scalar) value place := by
  cases hconversion : decl.conversion? with
  | none => rfl
  | some conversion =>
    cases hconverted : (conversion.apply value).isNull with
    | true => simp only [Transformer.converted_some, hconverted, if_true]
    | false =>
      -- null is converted to null only, so the value was there
      have hnull : value.isNull = false := by
        cases value with
        | null => cases conversion <;> cases hconverted
        | _ => rfl
      simp only [Transformer.converted_some, value?, hconversion, Option.elim_some, hnull,
        hconverted, conversion.apply_apply value hconverted, Bool.false_eq_true, if_false]

/-- Two nested values of one kind and measure are refused for the same reason, if their contents
are. -/
theorem value?_of_structured (h : checker.Plain) {decl : AttributeDecl}
    {content? : Json → Place → Option Violation} {value value' : Json} {place : Place}
    (hvalue : (∃ members members', value = .object members ∧ value' = .object members') ∨
      ∃ items items', value = .array items ∧ value' = .array items' ∧ items'.length = items.length)
    (hcontent : content? value' place = content? value place) :
    checker.value? decl content? value' place = checker.value? decl content? value place := by
  have hnull : value.isNull = false ∧ value'.isNull = false := by
    rcases hvalue with ⟨_, _, rfl, rfl⟩ | ⟨_, _, rfl, rfl, -⟩ <;> exact ⟨rfl, rfl⟩
  have hmeasure : measure? value' = measure? value := by
    rcases hvalue with ⟨_, _, rfl, rfl⟩ | ⟨_, _, rfl, rfl, hlength⟩
    · rfl
    · simp only [measure?, hlength]
  have hkind : value'.kindName = value.kindName := by
    rcases hvalue with ⟨_, _, rfl, rfl⟩ | ⟨_, _, rfl, rfl, -⟩ <;> rfl
  cases hconversion : decl.conversion? with
  | none =>
    simp only [value?, hconversion, Option.elim_none, hnull, h.hook?, hcontent, bounds?, hmeasure,
      Bool.false_eq_true, if_false]
  | some conversion =>
    -- with a conversion both are refused, as values of the wrong kind
    have happly : conversion.apply value = .null ∧ conversion.apply value' = .null := by
      rcases hvalue with ⟨_, _, rfl, rfl⟩ | ⟨_, _, rfl, rfl, -⟩
      · exact ⟨conversion.apply_of_structured (.inl ⟨_, rfl⟩),
          conversion.apply_of_structured (.inl ⟨_, rfl⟩)⟩
      · exact ⟨conversion.apply_of_structured (.inr ⟨_, rfl⟩),
          conversion.apply_of_structured (.inr ⟨_, rfl⟩)⟩
    simp only [value?, hconversion, Option.elim_some, hnull, happly, wrongKind, hkind]

end Checker

/-- Validation finds the same fault in an attribute of this shape before and after it is
transformed. -/
def Shape.Agrees (transformer : Transformer) (checker : Checker) (shape : Shape) : Prop :=
  ∀ (decl : AttributeDecl) (conversion : Option Conversion) (path : String) (value : Json)
    (place : Place), (shape.isScalar = true → conversion = decl.conversion?) →
    checker.value? decl (checker.content? decl shape)
        (transformer.content conversion path shape value).1 place =
      checker.value? decl (checker.content? decl shape) value place

section Agreement

variable {transformer : Transformer} {checker : Checker} {attributes : List (AttributeDecl × Shape)}

/-- An object and its transformation are judged alike, if their attributes are. -/
theorem Checker.attributes?_attributes (ht : transformer.Plain)
    (names : (attributes.map (·.1.name)).Nodup)
    (hagrees : ∀ attr ∈ attributes, attr.2.Agrees transformer checker) (path : String)
    (members : List (String × Json)) (place : Place) :
    checker.attributes? attributes
        (transformer.attributes attributes attributes path members).1 place =
      checker.attributes? attributes members place := by
  refine Checker.attributes?_congr fun attr hattr _ => ?_
  rw [Transformer.get?_attributes ht names hattr]
  cases get? members attr.1.name with
  | none => rfl
  | some value =>
    simp only [Option.map_some, Option.getD_some, Transformer.member]
    split
    · rfl
    · refine hagrees attr hattr _ _ _ _ _ fun hscalar => ?_
      obtain ⟨decl, shape⟩ := attr
      obtain rfl : shape = .scalar := by cases shape <;> first | rfl | cases hscalar
      exact Shape.conversion?_of_mem names hattr

/-- What validation says of an attribute does not depend on whether it has been transformed. -/
theorem Shape.Distinct.agrees {shape : Shape} (hshape : shape.Distinct) (ht : transformer.Plain)
    (h : checker.Plain) : shape.Agrees transformer checker := by
  induction hshape with
  | scalar =>
    intro decl conversion path value place hconversion
    rw [hconversion rfl, Transformer.content]
    exact Checker.value?_converted decl value place
  | foreign =>
    intro decl conversion path value place _
    rw [Transformer.content]
  | @level kind attributes names below ih =>
    have hobject := Checker.attributes?_attributes ht names ih
    intro decl conversion path value place _
    cases kind with
    | object =>
      cases value with
      | object members =>
        simp only [Transformer.content]
        refine Checker.value?_of_structured h (.inl ⟨_, _, rfl, rfl⟩) ?_
        simp only [Checker.content?, hobject]
      | _ => simp only [Transformer.content]
    | array =>
      cases value with
      | array items =>
        simp only [Transformer.content, Transformer.items_eq_map]
        refine Checker.value?_of_structured h (.inr ⟨_, _, rfl, rfl, List.length_map _⟩) ?_
        simp only [Checker.content?, List.zipIdx_map, List.findSome?_map]
        refine congrArg (List.findSome? · items.zipIdx) (funext fun entry => ?_)
        obtain ⟨item, index⟩ := entry
        cases item <;> simp only [Function.comp, Prod.map, hobject, id]
      | _ => simp only [Transformer.content]

end Agreement

/-! ## Stores -/

/-- The levels of a drawing repeat no name, if those of the graph do not. -/
theorem Drawn.distinct {flattened : Flattened} {s : Flattening} (h : flattened.EndsIn s)
    (hdistinct : flattened.DistinctNames) :
    ∀ (descriptor : Descriptor) (kind : NodeKind) {key : String} {level : Level},
      Drawn s descriptor key level → (Shape.level kind level.attributes).Distinct := by
  refine Descriptor.levels_induction fun attributes ih kind key level hdrawn => ?_
  cases hdrawn with
  | @mk _ _ node visited entered declared drawn =>
    rw [Level.attributes_ofVisited]
    refine .level ?_ fun attr hattr => ?_
    · have hnames := h.nodup_names hdistinct entered
      rw [declared, List.map_map] at hnames
      rw [List.map_map]
      exact hnames
    · obtain ⟨known, hknown, rfl⟩ := List.mem_map.mp hattr
      obtain ⟨entry, hentry, hvisited⟩ := exists_of_forall₂_right drawn hknown
      cases hvisited with
      | scalar => exact .scalar
      | attachment => exact .foreign
      | level read nesting nested entered kept drawn =>
        exact ih _ hentry _ rfl _ (Tuple.mem_of_nested read nested) _ drawn

/-- What the transformation of an object is, if there is something to transform. -/
theorem Flattened.transform_object {flattened : Flattened}
    (h : flattened.hasNoTransforms = false) (members : List (String × Json)) :
    (flattened.transform (.object members)).1 =
      .object (Transformer.attributes ⟨flattened.onTransform, .object members⟩ flattened.attributes
        flattened.attributes "" members).1 := by
  simp only [transform, h, Bool.false_eq_true, if_false]

/-- Transforming and validating agree where no level repeats a name and there are no hooks. -/
theorem Flattened.agrees_of_distinct {flattened : Flattened}
    (hdistinct : (Shape.level .object flattened.attributes).Distinct)
    (htransform : flattened.onTransform = []) (hvalidate : flattened.onValidate = [])
    (record : Json) :
    flattened.validate (flattened.transform record).1 = flattened.validate record ∧
      (flattened.transform (flattened.transform record).1).1 = (flattened.transform record).1 := by
  have hplain (record : Json) : Transformer.Plain ⟨flattened.onTransform, record⟩ := htransform
  have hchecks (record : Json) : Checker.Plain ⟨flattened.onValidate, record⟩ := hvalidate
  cases hdistinct with
  | level names below =>
    cases record with
    | object members =>
      cases hnone : flattened.hasNoTransforms with
      | true =>
        have hsame : (flattened.transform (.object members)).1 = .object members := by
          simp only [transform, hnone, if_true]
        simp only [hsame, and_self]
      | false =>
        rw [transform_object hnone]
        constructor
        · simp only [validate]
          rw [Checker.attributes?_eq_of_plain (hchecks (.object members)) (hchecks _) below,
            Checker.attributes?_attributes (hplain _) names fun attr hattr =>
              (below attr hattr).agrees (hplain _) (hchecks _)]
        · rw [transform_object hnone, Transformer.attributes_attributes (hplain _) (hplain _) names
            fun attr hattr => (below attr hattr).settles (hplain _) (hplain _)]
    | _ => exact ⟨rfl, rfl⟩

/-- Where there are no hooks, a record and its transformation are refused for the same reason or
accepted both, and a second transformation changes nothing. -/
theorem Store.IsCompiled.validate_transform {store : Store} (h : store.IsCompiled)
    (hplain : store.flattened.PlainNames) (htransform : store.flattened.onTransform = [])
    (hvalidate : store.flattened.onValidate = []) (record : Json) :
    store.validate (store.transform record).1 = store.validate record ∧
      (store.transform (store.transform record).1).1 = (store.transform record).1 := by
  obtain ⟨⟨name, rootName, descriptor, hflatten⟩, -⟩ := h.exists_flatten
  obtain ⟨s, level, hends, hdrawn, hattributes, -⟩ := Flattened.exists_drawn hflatten
  have hdistinct := Drawn.distinct hends hplain.distinct descriptor .object hdrawn
  rw [← hattributes] at hdistinct
  exact Flattened.agrees_of_distinct hdistinct htransform hvalidate record

namespace Store.IsCompiled

/-- Readings of a meter, whose values are converted. -/
def readingsOfMeter : Descriptor :=
  .mk [("meter", .tuple [.word "int", .word "<<meter>>", .word "toInt"]),
    ("active", .tuple [.word "boolean", .word "toBoolean", .word "optional"]),
    ("readings", .tuple [.word "array", .nested (.mk
      [("line", .tuple [.word "int", .word "<<line>>"]),
       ("value", .tuple [.word "number", .word "toNumber"])])])]

/-- The store of these readings. -/
def meters : Store := compiled "meters" readingsOfMeter (by decide +kernel)

/-- A record of a meter whose number saturates, with a reading that is no number. -/
def saturated : Json :=
  .object [("meter", .string "1e300"), ("active", .string " true "),
    ("readings", .array [.object [("line", .ofInt 1), ("value", .string " 2.0 ")],
      .object [("line", .ofInt 2), ("value", .string "inf")]])]

/-- What is left of it once it has been converted. -/
def settled : Json :=
  .object [("meter", .ofInt 9223372036854775807), ("active", .bool true),
    ("readings", .array [.object [("line", .ofInt 1), ("value", .ofDouble (.ofInt 2))],
      .object [("line", .ofInt 2), ("value", .string "inf")]])]

/-- A reading that is no number stays what it is, and is refused before and after. -/
theorem validate_transform_saturated : meters.IsCompiled ∧
    (meters.transform saturated).1.same settled = true ∧
    (meters.validate saturated).toOption = none ∧
    meters.validate (meters.transform saturated).1 = meters.validate saturated ∧
      (meters.transform (meters.transform saturated).1).1 = (meters.transform saturated).1 := by
  have hcompiled : meters.IsCompiled := isCompiled_compiled "meters" readingsOfMeter _
  have hagrees := validate_transform hcompiled (by decide +kernel)
    (List.isEmpty_iff.mp (by decide +kernel)) (List.isEmpty_iff.mp (by decide +kernel)) saturated
  exact ⟨hcompiled, by decide +kernel, by decide +kernel, hagrees⟩

end Store.IsCompiled

end NestedRecord
