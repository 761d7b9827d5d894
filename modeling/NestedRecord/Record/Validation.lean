import NestedRecord.Graph.Flatten

/-!
# Validation

A record conforms to its store when every declared attribute is present, unless it is
optional or maintained by the store, has its type once converted, keeps its bounds and is
accepted by its hook; nested objects and lists likewise.

* `Checker.attributes?` walks over the attributes of an object in order of declaration
  and gives the first violation.
* `Flattened.validate` validates a record of a store.
-/

namespace NestedRecord

/-- The place of a value in a record. -/
structure Place where
  /-- the path with the positions in lists, as messages show it -/
  shown : String := ""
  /-- the path of names, under which hooks stand -/
  path : String := ""

namespace Place

/-- The place of an attribute. -/
def field (place : Place) (name : String) : Place :=
  ⟨joinPath place.shown name, joinPath place.path name⟩

/-- The place of an element of a list. -/
def element (place : Place) (index : Nat) : Place :=
  { place with shown := place.shown ++ "[" ++ Numeral.natText index ++ "]" }

end Place

/-- What a record is checked against. -/
structure Checker where
  hooks : Fields Hook
  /-- the record as a whole, which hooks get as their context -/
  record : Json

namespace Checker

/-- A value of the wrong kind. -/
def wrongKind (place : Place) (expected : String) (actual : Json) : Violation :=
  ⟨place.shown, expected, actual.kindName⟩

/-! ## Bounds -/

/-- What bounds measure: a number, the length of a text or of a list. -/
def measure? : Json → Option Double
  | .number n => some n.toDouble
  | .string s => some (.ofInt s.length)
  | .array items => some (.ofInt items.length)
  | _ => none

/-- A measure as messages show it: a whole one as an integer of 64 bits, any other one
positionally. -/
def measureText : Double → String
  | .finite x =>
    if x.isWhole then Numeral.intText (clampInt64 x.truncate) else x.toPlainText
  | .infinite negative => if negative then "-inf" else "inf"
  | .nan => "NaN"

/-- The bound that a rule sets, with its sign in messages and whether a measure is beyond
it. Only a number bounds. -/
def beyond? (measure : Double) : Rule → Option String
  | .min bound =>
    bound.number?.bind fun n =>
      if measure.lt n.toDouble then some (">= " ++ bound.render) else none
  | .max bound =>
    bound.number?.bind fun n =>
      if measure.gt n.toDouble then some ("<= " ++ bound.render) else none
  | _ => none

/-- The first bound that a value breaks. -/
def bounds? (rules : List Rule) (value : Json) (place : Place) : Option Violation :=
  (measure? value).bind fun measure =>
    (rules.findSome? (beyond? measure)).map fun bound =>
      ⟨place.shown, bound, measureText measure⟩

/-! ## Attributes -/

/-- The reason why the hook of an attribute refuses a value. -/
def hook? (checker : Checker) (value : Json) (place : Place) : Option Violation :=
  (Fields.get? checker.hooks place.path).bind fun hook =>
    (hook.check? value checker.record).map fun reason =>
      ⟨place.shown, "value accepted by onValidate", reason⟩

/-- The violation of a single value's type. -/
def type? (decl : AttributeDecl) (value : Json) (place : Place) : Option Violation :=
  decl.scalarType.bind fun type =>
    if type.accepts value then none else some (wrongKind place type.name value)

/-- The first violation of an attribute's value. A null is missing unless it may be;
`content?` checks the type or the nested attributes of the converted value, and bounds
and hook come last. -/
def value? (checker : Checker) (decl : AttributeDecl)
    (content? : Json → Place → Option Violation) (value : Json) (place : Place) :
    Option Violation :=
  if value.isNull then
    if decl.isOptional || decl.derived then none else some (.missing place.shown)
  else
    let converted := decl.conversion?.elim value (·.apply value)
    if converted.isNull then
      some (wrongKind place (decl.conversion?.elim "value" (·.token)) value)
    else
      match content? converted place with
      | some violation => some violation
      | none =>
        match bounds? decl.rules converted place with
        | some violation => some violation
        | none => checker.hook? converted place

mutual

/-- The first violation of the content of an attribute. -/
def content? (checker : Checker) (decl : AttributeDecl) :
    Shape → Json → Place → Option Violation
  | .scalar, value, place => type? decl value place
  | .foreign, _, _ => none
  | .level .object attributes, value, place =>
    match value with
    | .object members => attributes? checker attributes members place
    | value => some (wrongKind place "object" value)
  | .level .array attributes, value, place =>
    match value with
    | .array items =>
      items.zipIdx.findSome? fun (item, index) =>
        match item with
        | .object members => attributes? checker attributes members (place.element index)
        | item => some (wrongKind (place.element index) "object" item)
    | value => some (wrongKind place "array" value)
termination_by structural shape => shape

/-- The first violation of an object's attributes, in order of declaration. Records of a
joined store are that store's business. -/
def attributes? (checker : Checker) :
    List (AttributeDecl × Shape) → List (String × Json) → Place → Option Violation
  | [], _, _ => none
  | (decl, shape) :: rest, members, place =>
    let value := (Fields.get? members decl.name).getD .null
    let violation :=
      if shape.isForeign then none
      else checker.value? decl (content? checker decl shape) value (place.field decl.name)
    match violation with
    | some violation => some violation
    | none => attributes? checker rest members place
termination_by structural attributes => attributes

end

end Checker

/-- Validates a record of a store; the first violation is reported. -/
def Flattened.validate (flattened : Flattened) (record : Json) : Except Fault Unit :=
  let store := flattened.metadata.storeName
  match record with
  | .object members =>
    match Checker.attributes? ⟨flattened.onValidate, record⟩ flattened.attributes members {} with
    | some violation => .error (.validation store violation)
    | none => .ok ()
  | record => .error (.validation store ⟨"$root", "object", record.kindName⟩)

end NestedRecord
