import NestedRecord.Filter.Comparison
import NestedRecord.Procedure.Blueprint
import NestedRecord.Text.Like

/-!
# Filters

A filter tests one attribute of a record against a value. Inside lists it searches for an
element that passes, and stops at the first one.

* `FilterDeclaration` is a filter as it is declared; `FilterDeclaration.ofJson?` reads
  one.
* `Filter.compile` builds the search, `Filter.search` runs it.
-/

namespace NestedRecord

/-- A filter as it is declared. -/
structure FilterDeclaration where
  /-- the store that the compared value comes from -/
  source : String
  sourceAttribute : String
  /-- the dotted path of the tested attribute -/
  localAttribute : String
  operator : FilterOperator
  /-- a required filter compares for equality, whatever its operator -/
  isRequired : Bool := false
deriving DecidableEq

namespace FilterDeclaration

/-- The operator that is applied. -/
def applied (declaration : FilterDeclaration) : FilterOperator :=
  if declaration.isRequired then .eq else declaration.operator

/-- Reads the parts of a declaration. -/
def ofParts? (source sourceAttribute localAttribute operator : Json)
    (isRequired : Option Json) : Option FilterDeclaration := do
  let source ← source.string?
  let sourceAttribute ← sourceAttribute.string?
  let localAttribute ← localAttribute.string?
  let operator ← FilterOperator.ofJson? operator
  let isRequired ← (isRequired.map Json.bool?).getD (some false)
  some { source, sourceAttribute, localAttribute, operator, isRequired }

/-- Reads a declaration: an object with its parts, or a list of them in order. -/
def ofJson? : Json → Option FilterDeclaration
  | .object members => do
    let source ← Fields.get? members "source"
    let sourceAttribute ← Fields.get? members "sourceAttribute"
    let localAttribute ← Fields.get? members "localAttribute"
    let operator ← Fields.get? members "operator"
    ofParts? source sourceAttribute localAttribute operator (Fields.get? members "isRequired")
  | .array [source, sourceAttribute, localAttribute, operator] =>
    ofParts? source sourceAttribute localAttribute operator none
  | .array [source, sourceAttribute, localAttribute, operator, isRequired] =>
    ofParts? source sourceAttribute localAttribute operator (some isRequired)
  | _ => none

def toJson (declaration : FilterDeclaration) : Json :=
  .object
    [("source", .string declaration.source),
     ("sourceAttribute", .string declaration.sourceAttribute),
     ("localAttribute", .string declaration.localAttribute),
     ("operator", .string declaration.operator.symbol),
     ("isRequired", .bool declaration.isRequired)]

end FilterDeclaration

/-- A compiled filter. Its fragment is the names from the innermost element to the tested
attribute. -/
structure Filter where
  declaration : FilterDeclaration
  /-- the operator that is applied -/
  operator : FilterOperator
  /-- whether the attribute lies in a list -/
  isExistential : Bool
  program : Program (List String)

namespace Filter

/-- The state of a search. -/
structure Search (μ : Type) where
  found : Bool := false
  matcher : μ

/-- Tests the attribute at the cursor. -/
def testAt {μ : Type} (operator : FilterOperator) (like : PatternTest μ)
    (record expected : Json) (leaf : List String) (cursor : Cursor) (search : Search μ) :
    Search μ :=
  match cursor.get? record leaf with
  | none => search
  | some actual =>
    let (holds, matcher) := operator.testAny like search.matcher actual expected
    { found := search.found || holds, matcher }

/-- Searches a record for an attribute that passes against a value. -/
def search {μ : Type} (filter : Filter) (like : PatternTest μ) (matcher : μ)
    (record expected : Json) : Bool × μ :=
  -- the first value that passes settles the search
  let machine : Machine (List String) (Search μ) :=
    { act := testAt filter.operator like record expected
      record := fun _ => record
      isSettled := Search.found }
  let result := filter.program.run machine { matcher }
  (result.found, result.matcher)

/-- Searches a record with a matcher of LIKE patterns. -/
def test (filter : Filter) (matcher : LikeMatcher) (record expected : Json) :
    Bool × LikeMatcher :=
  filter.search LikeMatcher.test matcher record expected

/-- Compiles a filter for a store. -/
def compile (blueprint : Blueprint) (declaration : FilterDeclaration) :
    Except Fault Filter := do
  let path := declaration.localAttribute
  let resolved ← blueprint.demand path (blueprint.resolveStrict path)
  if !resolved.isScalar then
    throw (blueprint.fault path "filters compare scalar attributes only")
  let operator := declaration.applied
  if operator = .like && !resolved.scalarType?.any (·.isTextual) then
    let declared := resolved.scalarType?.elim "untyped" (·.name)
    throw (blueprint.fault path ("ILIKE requires a string attribute, found " ++ declared))
  let empty : Scaffold (List String) := { name := blueprint.store ++ ".filter(" ++ path ++ ")" }
  let label := "test " ++ resolved.expression ++ " " ++ operator.symbol ++ " value"
  let program ← blueprint.finish "filter" (empty.add resolved.loops .body label resolved.leaf)
  return { declaration, operator, isExistential := decide (0 < resolved.depth), program }

end Filter

end NestedRecord
