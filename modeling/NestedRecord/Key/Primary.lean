import NestedRecord.Key.Composite
import NestedRecord.Procedure.Blueprint

/-!
# Primary keys

The key of a record is the value of its key attribute, or one text made of the values of
several.

* `PrimaryKey.read?` gives the key of a record.
* `PrimaryKey.write?` writes a key into a record, or nothing at all.
* `PrimaryKey.write` does so in place, one name after the other.
* `PrimaryKey.compile` finds the key attributes of a store. They are scalars outside of
  lists.
-/

namespace NestedRecord

/-- An attribute of a key. -/
structure KeyAttribute where
  /-- the names from the record to the attribute -/
  path : List String
  type : Option ScalarType
deriving DecidableEq

namespace KeyAttribute

/-- The text of a value inside a composite key. -/
def partText? : Json → Option String
  | .null => none
  | .string s => some s
  | value => some value.render

/-- The text of the attribute of a record, if it has a value. -/
def text? (record : Json) (attr : KeyAttribute) : Option String :=
  (record.at? attr.path).bind partText?

end KeyAttribute

/-- The key of a store's records. -/
structure PrimaryKey where
  attributes : List KeyAttribute
  separator : String
deriving DecidableEq

namespace PrimaryKey

/-- Whether keys are texts of several parts. -/
def isComposite (key : PrimaryKey) : Bool := decide (1 < key.attributes.length)

/-- The dotted paths of the key attributes, in order of declaration. -/
def paths (key : PrimaryKey) : List String := key.attributes.map (ofSegments ·.path)

/-! ## Reading -/

/-- The key of a record. There is none if the store has no key attribute or one of them
has no value. -/
def read? (key : PrimaryKey) (record : Json) : Option Json :=
  match key.attributes with
  | [] => none
  | [single] => (record.at? single.path).bind Json.nonNull?
  | several =>
    (several.mapM (KeyAttribute.text? record)).map fun parts =>
      .string (CompositeKey.encode key.separator parts)

/-! ## Writing -/

/-- The value of a part for an attribute of the given type. A part that does not read as
that type stays a text. -/
def partValue (type : Option ScalarType) (part : String) : Json :=
  match type with
  | some .int | some .number => ((Numeral.parse? part).map Json.ofDouble).getD (.string part)
  | some .boolean =>
    if part = "true" then .bool true
    else if part = "false" then .bool false
    else .string part
  | _ => .string part

/-- Writes a value below an object's members. Objects on the way are added where there is
none or null. -/
def place? (value : Json) : List String → Json → Option Json
  | [name], .object members => some (.object (Fields.set members name value))
  | name :: next :: rest, .object members =>
    let inner :=
      match Fields.get? members name with
      | none | some .null => .object []
      | some inner => inner
    (place? value (next :: rest) inner).map fun inner =>
      .object (Fields.set members name inner)
  | _, _ => none

/-- Writes the value of a part into a record. -/
def writePart? (record : Json) (entry : KeyAttribute × String) : Option Json :=
  place? (partValue entry.1.type entry.2) entry.1.path record

/-- Writes a key into a record. A composite key must be a text with one part for each
attribute. -/
def write? (key : PrimaryKey) (record value : Json) : Option Json :=
  match key.attributes with
  | [] => none
  | [single] => place? value single.path record
  | several =>
    match value with
    | .string text =>
      let parts := CompositeKey.decode key.separator text
      if parts.length = several.length then (several.zip parts).foldlM writePart? record
      else none
    | _ => none

/-! ## Writing in place -/

/-- Writes a value below an object's members, name by name: the record as it is left, and
whether the value has been written. Where there is no object or null on the way an object is
added before the write goes on inside it, and is not taken back. -/
def place (value : Json) : List String → Json → Json × Bool
  | [name], .object members => (.object (Fields.set members name value), true)
  | name :: next :: rest, .object members =>
    let inner :=
      match Fields.get? members name with
      | none | some .null => .object []
      | some inner => inner
    let (inner, written) := place value (next :: rest) inner
    (.object (Fields.set members name inner), written)
  | _, record => (record, false)

/-- Writes parts one after the other, up to the first one that cannot be written. -/
def placeParts : List (KeyAttribute × String) → Json → Json × Bool
  | [], record => (record, true)
  | (attr, part) :: rest, record =>
    let (record, written) := place (partValue attr.type part) attr.path record
    if written then placeParts rest record else (record, false)

/-- Writes a key into a record: the record as it is left, and whether the key has been
written. The parts of a composite key are written into a copy, which takes the record's place
once all of them are. -/
def write (key : PrimaryKey) (record value : Json) : Json × Bool :=
  match key.attributes with
  | [] => (record, false)
  | [single] => place value single.path record
  | several =>
    match value with
    | .string text =>
      let parts := CompositeKey.decode key.separator text
      if parts.length = several.length then
        let (staged, written) := placeParts (several.zip parts) record
        -- parts that came before one that cannot be written are not kept
        (if written then staged else record, written)
      else (record, false)
    | _ => (record, false)

/-! ## Compilation -/

/-- A key attribute with its path resolved. -/
def resolve (blueprint : Blueprint) (path : String) : Except Fault KeyAttribute := do
  let resolved ← blueprint.demand path (blueprint.resolveStrict path)
  if !resolved.isScalar || decide (0 < resolved.depth) then
    throw (blueprint.fault path "primary key must be a scalar outside arrays")
  return ⟨resolved.leaf, resolved.scalarType?⟩

/-- The key of a store. -/
def compile (blueprint : Blueprint) : Except Fault PrimaryKey := do
  let attributes ← blueprint.metadata.primaryKey.mapM (resolve blueprint)
  return ⟨attributes, blueprint.config.keySeparator⟩

end PrimaryKey

end NestedRecord
