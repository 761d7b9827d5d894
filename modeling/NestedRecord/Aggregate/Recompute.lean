import NestedRecord.Procedure.Blueprint
import NestedRecord.Procedure.Environment

/-!
# Recomputing aggregates

One procedure recomputes all local aggregates of a record. Each aggregate contributes two
fragments:

* a reset before the first list that its source crosses below its target, which writes
  the start value, so that an empty or absent list leaves the target there;
* a fold for every source value, which adds the value to a running state and writes the
  state's value to the target.

`Recompute.compile` builds the procedure, `Recompute.run` runs it on a record.
-/

namespace NestedRecord

namespace Recompute

/-- A local aggregate with its paths resolved. -/
structure Fold where
  target : String
  op : AggregateOp
  /-- the number of lists around the target -/
  depth : Nat
  targetLeaf : List String
  sourceLeaf : List String
  transformer : Option Handler

/-- What the fragments do. -/
inductive Action where
  | reset (fold : Fold)
  | add (fold : Fold)

/-- The state of a run. -/
structure State where
  record : Json
  /-- the running state of each target -/
  running : Fields AggregateState := []
  journal : Journal := []

/-- Writes the value of a target at the element that owns it, if there is one. -/
def State.write (state : State) (fold : Fold) (cursor : Cursor) (value : Json) : State :=
  { state with
    record := (cursor.setAt? state.record fold.depth fold.targetLeaf value).getD state.record }

/-- Starts an aggregate anew for the element that owns its target. -/
def reset (environment : Environment) (fold : Fold) (cursor : Cursor) (state : State) :
    State :=
  let start : AggregateState :=
    match environment.kinds.get? fold.op with
    | some kind => kind.init
    | none => { value := .null }
  { state with running := Fields.set state.running fold.target start }.write fold cursor
    start.value

/-- Adds the source value at the cursor. An absent value counts as null; a kind that is
not registered is reported. -/
def add (environment : Environment) (fold : Fold) (cursor : Cursor) (state : State) :
    State :=
  let raw := (cursor.get? state.record fold.sourceLeaf).getD .null
  let (value, journal) :=
    applyTransformer "aggregate" fold.target fold.transformer raw environment.constants
  let state := { state with journal := state.journal ++ journal }
  match environment.kinds.get? fold.op with
  | none =>
    let notice : Notice := .recovered ["aggregate", fold.target]
      ("aggregate kind '" ++ fold.op.keyword ++ "' is not registered")
    { state with journal := state.journal ++ [notice] }
  | some kind =>
    let next := kind.add ((Fields.get? state.running fold.target).getD kind.init) value
    { state with running := Fields.set state.running fold.target next }.write fold cursor
      next.value

def act (environment : Environment) : Action → Cursor → State → State
  | .reset fold => reset environment fold
  | .add fold => add environment fold

/-! ## Compilation -/

/-- Resolves an aggregate: target and source are scalars, and the source lies in the
lists around the target. -/
def resolve (blueprint : Blueprint) (aggregate : LocalAggregate) :
    Except Fault (ResolvedPath × ResolvedPath) := do
  let target := aggregate.target
  let resolved ← blueprint.demand target (blueprint.resolveStrict target)
  if !resolved.isScalar then
    throw (blueprint.fault target "aggregate target must be a scalar attribute")
  let source ← blueprint.demand target (blueprint.resolveLenient aggregate.source)
  if !source.isScalar then
    throw (blueprint.fault target
      ("aggregate source '" ++ aggregate.source ++ "' must be a scalar attribute"))
  if source.loops.take resolved.depth ≠ resolved.loops then
    throw (blueprint.fault target
      ("aggregate source '" ++ aggregate.source ++ "' is outside the scope of its target"))
  return (resolved, source)

/-- Adds the fragments of an aggregate. -/
def addFragments (aggregate : LocalAggregate) (target source : ResolvedPath)
    (scaffold : Scaffold Action) : Scaffold Action :=
  let fold : Fold :=
    { target := aggregate.target, op := aggregate.op, depth := target.depth
      targetLeaf := target.leaf, sourceLeaf := source.leaf
      transformer := aggregate.transformer }
  let resetLabel :=
    "reset " ++ target.expression ++ " to start of " ++ aggregate.op.keyword
  let addLabel :=
    "fold " ++ source.expression ++ " into " ++ target.expression ++
      " (" ++ aggregate.op.keyword ++ ")"
  -- before the outermost list between target and source, or right before the fold
  let scaffold :=
    if target.depth < source.depth then
      scaffold.add (source.loops.take (target.depth + 1)) .pre resetLabel (.reset fold)
    else scaffold.add source.loops .body resetLabel (.reset fold)
  scaffold.add source.loops .body addLabel (.add fold)

/-- Compiles the procedure of a store. -/
def compile (blueprint : Blueprint) : Except Fault (Program Action) := do
  let empty : Scaffold Action := { name := blueprint.store ++ ".aggregate" }
  let scaffold ← blueprint.metadata.localAggregates.foldlM (fun scaffold aggregate => do
    let (target, source) ← resolve blueprint aggregate
    return addFragments aggregate target source scaffold) empty
  blueprint.finish "aggregate" scaffold

/-- Recomputes every local aggregate of a record. -/
def run (program : Program Action) (environment : Environment) (record : Json) :
    Json × Journal :=
  let state := program.run { act := act environment, record := State.record } { record }
  (state.record, state.journal)

end Recompute

end NestedRecord
