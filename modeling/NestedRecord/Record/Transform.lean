import NestedRecord.Graph.Flatten

/-!
# Write transforms

Before a record is stored, each attribute's conversion and then its hook are applied,
nested attributes first. Hooks get the record as it was passed in. A hook that fails is
reported and leaves null; a value that a conversion cannot handle stays as it is, so that
validation can refuse it.

* `Transformer.attributes` walks over the attributes of an object.
* `Flattened.transform` transforms a record of a store.
-/

namespace NestedRecord

/-- What is applied to a record. -/
structure Transformer where
  hooks : Fields Hook
  /-- the record as it was passed in, which hooks get as their context -/
  context : Json

namespace Transformer

/-- The value after its conversion, if that succeeds. -/
def converted (conversion : Option Conversion) (value : Json) : Json :=
  match conversion with
  | none => value
  | some conversion => ((conversion.apply value).nonNull?).getD value

/-- The value after the hook of its path. -/
def hooked (transformer : Transformer) (path : String) (value : Json) : Json × Journal :=
  match Fields.get? transformer.hooks path with
  | none => (value, [])
  | some hook =>
    match hook.apply value transformer.context with
    | .ok replacement => (replacement, [])
    | .error reason =>
      let failure : HandlerFailure := ⟨"onTransform", path, reason⟩
      (.null, [.recovered ["onTransform", path] failure.message])

/-- Applies a transformation to each object of a list, one after the other; other items
stay as they are. -/
def items (object : List (String × Json) → List (String × Json) × Journal) :
    List Json → List Json × Journal
  | [] => ([], [])
  | item :: rest =>
    let (item, journal) :=
      match item with
      | .object members =>
        let (members, journal) := object members
        (Json.object members, journal)
      | item => (item, [])
    let (rest, restJournal) := items object rest
    (item :: rest, journal ++ restJournal)

mutual

/-- The value of an attribute after the transformations of what stands under it. -/
def content (transformer : Transformer) (conversion : Option Conversion) (path : String) :
    Shape → Json → Json × Journal
  | .scalar, value => (converted conversion value, [])
  | .foreign, value => (value, [])
  | .level .object nested, value =>
    match value with
    | .object members =>
      let (members, journal) := attributes transformer nested nested path members
      (.object members, journal)
    | value => (value, [])
  | .level .array nested, value =>
    match value with
    | .array list =>
      let (list, journal) := items (attributes transformer nested nested path) list
      (.array list, journal)
    | value => (value, [])
termination_by structural shape => shape

/-- Transforms the attributes of an object in order of declaration; absent and null ones
stay as they are. `level` holds all attributes of the object. -/
def attributes (transformer : Transformer) (level : List (AttributeDecl × Shape)) :
    List (AttributeDecl × Shape) → String → List (String × Json) →
      List (String × Json) × Journal
  | [], _, members => (members, [])
  | (decl, shape) :: rest, place, members =>
    match (Fields.get? members decl.name).bind Json.nonNull? with
    | none => attributes transformer level rest place members
    | some value =>
      let path := joinPath place decl.name
      -- by the whole level: what is declared last under the name converts
      let (value, journal) :=
        content transformer (Shape.conversion? level decl.name) path shape value
      let (value, hookJournal) := transformer.hooked path value
      let (members, restJournal) :=
        attributes transformer level rest place (Fields.set members decl.name value)
      (members, journal ++ hookJournal ++ restJournal)
termination_by structural attributes => attributes

end

end Transformer

/-- Whether a store declares neither conversions nor transformation hooks. -/
def Flattened.hasNoTransforms (flattened : Flattened) : Bool :=
  flattened.onTransform.isEmpty && flattened.nodes.all fun entry => entry.2.conversions.isEmpty

/-- Transforms a record of a store; anything but an object stays as it is. -/
def Flattened.transform (flattened : Flattened) (record : Json) : Json × Journal :=
  match record with
  | .object members =>
    if flattened.hasNoTransforms then (record, [])
    else
      let (members, journal) :=
        Transformer.attributes ⟨flattened.onTransform, record⟩ flattened.attributes
          flattened.attributes "" members
      (.object members, journal)
  | record => (record, [])

end NestedRecord
