import NestedRecord.Procedure.Blueprint
import NestedRecord.Timestamp

/-!
# Clones

The clone of a record holds what its store declares and nothing else.

* `Cloner.members` copies the identity and the declared attributes of an object. Nested
  objects and lists are cloned in turn, records of joined stores are kept as they are, and
  scalars become scalars.
* `Cloner.record` clones a record of a store, `Cloner.clone` also a list of them.
* `Cloner.compile` reads off the graph of a store which attributes are kept.
-/

namespace NestedRecord

/-- What clones of a store's records keep. -/
structure Cloner where
  identityKey : String
  /-- the attributes of the root with their shapes -/
  attributes : List (AttributeDecl × Shape)

namespace Cloner

/-- The clone of a single value: an object or a list becomes its text, and milliseconds
of a date its timestamp. -/
def scalar (type : Option ScalarType) (value : Json) : Json :=
  match value with
  | .object _ | .array _ => .string value.render
  | .number n =>
    if type = some .date then
      ((n.int64?.bind Timestamp.ofMillis?).map Json.string).getD value
    else value
  | value => value

/-- The identity of an object as the first member of its clone. -/
def identity (identityKey : String) (source : List (String × Json)) : List (String × Json) :=
  match Fields.get? source identityKey with
  | some value => [(identityKey, value)]
  | none => []

mutual

/-- The clone of the content of an attribute; null where the kinds do not agree. -/
def content (identityKey : String) (type : Option ScalarType) : Shape → Json → Json
  | .scalar, value => scalar type value
  | .foreign, value => value
  | .level .object attributes, value =>
    match value with
    | .object source =>
      .object (members identityKey attributes source (identity identityKey source))
    | _ => .null
  | .level .array attributes, value =>
    match value with
    | .array items =>
      .array (items.map fun item =>
        match item with
        | .object source =>
          .object (members identityKey attributes source (identity identityKey source))
        | _ => .null)
    | _ => .null
termination_by structural shape => shape

/-- Adds the clones of the declared attributes that an object has, in order of
declaration. -/
def members (identityKey : String) :
    List (AttributeDecl × Shape) → List (String × Json) → List (String × Json) →
      List (String × Json)
  | [], _, clone => clone
  | (decl, shape) :: rest, source, clone =>
    let clone :=
      match Fields.get? source decl.name with
      | some value =>
        Fields.set clone decl.name (content identityKey decl.scalarType shape value)
      | none => clone
    members identityKey rest source clone
termination_by structural attributes => attributes

end

/-- The clone of a record; null for anything but an object. -/
def record (cloner : Cloner) (record : Json) : Json :=
  content cloner.identityKey none (.level .object cloner.attributes) record

/-- The clone of a record or of every record of a list. -/
def clone (cloner : Cloner) (input : Json) : Json :=
  match input with
  | .array records => .array (records.map cloner.record)
  | record => cloner.record record

/-! ## Compilation -/

/-- The shape under an attribute; `below` gives the attributes of a declared level. -/
def shapeOf (blueprint : Blueprint)
    (below : String → Except Fault (List (AttributeDecl × Shape))) (decl : AttributeDecl) :
    Except Fault Shape :=
  match decl.child with
  | none => .ok .scalar
  | some child =>
    if Fields.has blueprint.flattened.virtualNodes child then .ok .foreign
    else
      match Fields.get? blueprint.flattened.nodes child with
      | none => .error (blueprint.fault decl.name "nested node is missing")
      | some node => do return .level node.kind (← below child)

/-- The attributes of the level of a name with their shapes, if there are at most `height`
levels on every way down from it. -/
def attributesOf (blueprint : Blueprint) :
    Nat → String → Except Fault (List (AttributeDecl × Shape))
  | 0, name => .error (.build blueprint.store "clone" ("no way down from '" ++ name ++ "' ends") "")
  | height + 1, name =>
    match Fields.get? blueprint.flattened.nodes name with
    | none => .error (blueprint.fault name "node is missing from the compilation")
    | some node => node.attributes.mapM fun decl => do
      return (decl, ← shapeOf blueprint (attributesOf blueprint height) decl)

/-- What clones of a store's records keep. A way down the graph has at most as many levels
as there are. -/
def compile (blueprint : Blueprint) : Except Fault Cloner := do
  let flattened := blueprint.flattened
  let attributes ← attributesOf blueprint flattened.nodes.length flattened.root
  return { identityKey := blueprint.config.identityKey, attributes }

end Cloner

end NestedRecord
