import NestedRecord.Procedure.Blueprint
import NestedRecord.Procedure.Environment

/-!
# Computed fields

A computed field is the result of a handler on the object that owns it.
`ComputedFields.compile` builds the procedure that evaluates all of them in a record,
`ComputedFields.run` runs it.
-/

namespace NestedRecord

namespace ComputedFields

/-- A computed field with its path resolved. -/
structure Field where
  path : String
  /-- the names from the innermost element to the owning object -/
  owner : List String
  name : String
  handler : Handler

/-- The state of a run. -/
structure State where
  record : Json
  journal : Journal := []

/-- Evaluates a field at the cursor, where there is an object to own it. -/
def evaluate (constants : Json) (field : Field) (cursor : Cursor) (state : State) : State :=
  match cursor.get? state.record field.owner with
  | some (.object members) =>
    let (value, journal) :=
      applyTransformer "computed" field.path (some field.handler) (.object members) constants
    let record := cursor.setAt? state.record cursor.depth (field.owner ++ [field.name]) value
    { record := record.getD state.record, journal := state.journal ++ journal }
  | _ => state

/-- Adds the fragment of a computed field. -/
def addFragment (blueprint : Blueprint) (scaffold : Scaffold Field) (computed : Computed) :
    Except Fault (Scaffold Field) := do
  let resolved ← blueprint.demand computed.path (blueprint.resolveStrict computed.path)
  match resolved.leaf.getLast? with
  | none => throw (blueprint.fault computed.path "computed field has no name")
  | some name =>
    let field : Field :=
      { path := computed.path, owner := resolved.leaf.dropLast, name
        handler := computed.handler }
    return scaffold.add resolved.loops .body ("compute " ++ resolved.expression) field

/-- Compiles the procedure of a store. -/
def compile (blueprint : Blueprint) : Except Fault (Program Field) := do
  let empty : Scaffold Field := { name := blueprint.store ++ ".computeds" }
  let scaffold ← blueprint.metadata.computeds.foldlM (addFragment blueprint) empty
  blueprint.finish "computeds" scaffold

/-- Evaluates every computed field of a record. -/
def run (program : Program Field) (constants record : Json) : Json × Journal :=
  let state := program.run { act := evaluate constants, record := State.record } { record }
  (state.record, state.journal)

end ComputedFields

end NestedRecord
