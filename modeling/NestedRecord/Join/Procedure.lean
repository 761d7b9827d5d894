import NestedRecord.Join.Attached
import NestedRecord.Procedure.Blueprint
import NestedRecord.Procedure.Environment

/-!
# Join procedures

For every joined store, three procedures keep a record in step with that store's records:
`insert` and `delete` take one of them, `set` takes all.

* An attachment holds the foreign records themselves. The local aggregates over it whose
  targets lie in its scope or an enclosing one are kept current in the same pass, by
  deltas to a persisted state, or by folding the attachment anew when there is none.
* An external aggregate folds one value of every foreign record and keeps nothing else.

`JoinProcedures.compile` builds the procedures of a store, `JoinProcedures.run` applies a
delta with them.
-/

namespace NestedRecord

namespace Joining

/-- A local aggregate over the records of an attachment. -/
structure Inlined where
  target : String
  op : AggregateOp
  /-- the number of lists around the target -/
  depth : Nat
  targetLeaf : List String
  /-- the names from the target's element down to the attachment, lists passed through -/
  route : List String
  /-- the names of the folded value inside one record -/
  source : List String
  transformer : Option Handler

/-- An attachment with its paths resolved. -/
structure Attachment where
  leaf : List String
  many : Bool
  inlined : List Inlined

/-- An external aggregate with its target resolved. -/
structure Feed where
  leaf : List String
  aggregate : ExternalAggregate

/-- What the fragments do. -/
inductive Action where
  | attach (attachment : Attachment)
  | feed (feed : Feed)

/-- The state of a run. -/
structure State where
  record : Json
  states : AggregateStates
  journal : Journal := []

/-- What a run has at hand besides the record. -/
structure Surroundings extends Environment where
  delta : Delta
  identityKey : String

/-- Writes a value below the element of the list number `depth`, where that is possible. -/
def State.write (state : State) (cursor : Cursor) (depth : Nat) (leaf : List String)
    (value : Json) : State :=
  { state with record := (cursor.setAt? state.record depth leaf value).getD state.record }

/-! ## Local aggregates over an attachment -/

/-- The value folded for one attached record. -/
def Inlined.value (inlined : Inlined) (constants record : Json) : Json × Journal :=
  let raw := (record.at? inlined.source).getD .null
  applyTransformer "join" inlined.target inlined.transformer raw constants

/-- The values one name below given values, the elements of a list in its place. -/
def stepDown (reached : List Json) (name : String) : List Json :=
  reached.flatMap fun value =>
    match value.get? name with
    | none => []
    | some (.array items) => items
    | some value => [value]

/-- The records that the target's element holds below the route. -/
def Inlined.attached (inlined : Inlined) (cursor : Cursor) (record : Json) : List Json :=
  let element := (cursor.getAt? record inlined.depth []).toList
  (inlined.route.foldl stepDown element).filter Json.isObject

/-- Adds the value of one record to a state. -/
def Inlined.addRecord (inlined : Inlined) (kind : AggregateKind) (constants : Json)
    (state : AggregateState × Journal) (record : Json) : AggregateState × Journal :=
  let (value, journal) := inlined.value constants record
  (kind.add state.1 value, state.2 ++ journal)

/-- Takes the value of one record out of a state. -/
def Inlined.removeRecord (inlined : Inlined) (kind : AggregateKind) (constants : Json)
    (state : AggregateState × Journal) (record : Json) : AggregateState × Journal :=
  let (value, journal) := inlined.value constants record
  (kind.remove state.1 value, state.2 ++ journal)

/-- Whether states are folded anew. -/
def rebuilds : Delta → Bool
  | .set _ => true
  | _ => false

/-- The state of an aggregate after a change of its attachment: the persisted one with the
delta, or all attached records folded anew. -/
def Inlined.next (inlined : Inlined) (surroundings : Surroundings) (kind : AggregateKind)
    (cursor : Cursor) (state : State) (persisted : Option AggregateState)
    (change : Attached.Change) : AggregateState × Journal :=
  let constants := surroundings.constants
  match persisted, rebuilds surroundings.delta with
  | some persisted, false =>
    -- the record replaced leaves before the incoming one enters
    let without := change.removed.toList.foldl (inlined.removeRecord kind constants) (persisted, [])
    change.added.toList.foldl (inlined.addRecord kind constants) without
  | _, _ =>
    (inlined.attached cursor state.record).foldl (inlined.addRecord kind constants)
      (kind.init, [])

/-- Brings an aggregate up to date after a change of its attachment. -/
def Inlined.refresh (inlined : Inlined) (surroundings : Surroundings) (cursor : Cursor)
    (change : Attached.Change) (state : State) : State :=
  match surroundings.kinds.get? inlined.op with
  | none => state
  | some kind =>
    let pointer := cursor.pointerAt inlined.depth inlined.targetLeaf
    let persisted := Fields.get? state.states pointer
    let (next, journal) := inlined.next surroundings kind cursor state persisted change
    -- the state is kept even where the target has no place to be written to
    let written := state.write cursor inlined.depth inlined.targetLeaf next.value
    { written with
      states := Fields.set state.states pointer next
      journal := state.journal ++ journal }

/-- Applies the delta to an attachment at the cursor. A deletion leaves an absent
attachment absent; the other deltas create it where its parent is an object. -/
def attach (surroundings : Surroundings) (attachment : Attachment) (cursor : Cursor)
    (state : State) : State :=
  let present := cursor.get? state.record attachment.leaf
  let change :=
    Attached.change? attachment.many surroundings.identityKey (present.getD .null)
      surroundings.delta
  match change with
  | none => state
  | some change =>
    match cursor.setAt? state.record cursor.depth attachment.leaf change.content with
    | none => state
    | some record =>
      attachment.inlined.foldl
        (fun state inlined => inlined.refresh surroundings cursor change state)
        { state with record }

/-! ## External aggregates -/

/-- The value folded for one foreign record. -/
def Feed.value (feed : Feed) (constants record : Json) : Json × Journal :=
  let aggregate := feed.aggregate
  applyTransformer "join" aggregate.target aggregate.transformer
    (aggregate.sourceValue record) constants

/-- The state of an external aggregate after the delta. -/
def Feed.next (feed : Feed) (surroundings : Surroundings) (kind : AggregateKind)
    (previous : AggregateState) : AggregateState × Journal :=
  let constants := surroundings.constants
  match surroundings.delta with
  | .insert record =>
    let (value, journal) := feed.value constants record
    (kind.add previous value, journal)
  | .delete record =>
    let (value, journal) := feed.value constants record
    (kind.remove previous value, journal)
  | .set records =>
    records.foldl (fun (state : AggregateState × Journal) record =>
      let (value, journal) := feed.value constants record
      (kind.add state.1 value, state.2 ++ journal)) (kind.init, [])

/-- Applies the delta to an external aggregate at the cursor. -/
def supply (surroundings : Surroundings) (feed : Feed) (cursor : Cursor) (state : State) :
    State :=
  match surroundings.kinds.get? feed.aggregate.op with
  | none => state
  | some kind =>
    let pointer := cursor.pointerAt cursor.depth feed.leaf
    let previous := (Fields.get? state.states pointer).getD kind.init
    let (next, journal) := feed.next surroundings kind previous
    let written := state.write cursor cursor.depth feed.leaf next.value
    { written with
      states := Fields.set state.states pointer next
      journal := state.journal ++ journal }

def act (surroundings : Surroundings) : Action → Cursor → State → State
  | .attach attachment => attach surroundings attachment
  | .feed feed => supply surroundings feed

end Joining

/-- The procedures of one joined store. -/
structure JoinProcedures where
  store : String
  insert : Program Joining.Action
  delete : Program Joining.Action
  set : Program Joining.Action

namespace Joining

/-! ## Compilation -/

/-- Which of the three procedures is meant. -/
inductive Mode where
  | insert
  | delete
  | set
deriving DecidableEq

def Mode.name : Mode → String
  | .insert => "insert"
  | .delete => "delete"
  | .set => "set"

/-- What a procedure does to an attachment, in plans. -/
def Mode.verb : Mode → String
  | .insert => "splice into"
  | .delete => "remove from"
  | .set => "reseed"

/-- A local aggregate over an attachment, if its source lies there and its target in the
attachment's scope or an enclosing one. -/
def inlined? (blueprint : Blueprint) (attachment : ResolvedPath)
    (aggregate : LocalAggregate) : Option Inlined :=
  match after? (attachment.path.toList ++ ['.']) aggregate.source.toList with
  | none => none
  | some rest =>
    match blueprint.resolveStrict aggregate.target with
    | .error _ => none
    | .ok target =>
      if !target.isScalar || !target.loops.isPrefixOf attachment.loops then none
      else
        some
          { target := aggregate.target, op := aggregate.op, depth := target.depth
            targetLeaf := target.leaf
            route :=
              (attachment.loops.drop target.depth).flatMap (·.access) ++ attachment.leaf
            source := segments (String.ofList rest)
            transformer := aggregate.transformer }

/-- A fragment with the loops that it needs and its label. -/
structure Placed where
  loops : List Loop
  label : String
  action : Action

/-- The fragment of an attachment. -/
def placeAttachment (blueprint : Blueprint) (mode : Mode) (join : Join) :
    Except Fault Placed := do
  let resolved ← blueprint.demand join.path (blueprint.resolveLenient join.path)
  if resolved.isScalar then
    throw (blueprint.fault join.path "join attachment must be an object or array")
  let many := join.cardinality == .many
  let label :=
    mode.verb ++ " " ++ resolved.expression ++ (if many then " (many)" else " (one)")
  let inlined := blueprint.metadata.localAggregates.filterMap (inlined? blueprint resolved)
  return ⟨resolved.loops, label, .attach ⟨resolved.leaf, many, inlined⟩⟩

/-- The fragment of an external aggregate; none if another store has taken over its
target. -/
def placeFeed (blueprint : Blueprint) (store : String) (join : Join) :
    Except Fault (Option Placed) := do
  let aggregates := (Fields.get? blueprint.metadata.externals store).getD []
  match aggregates.find? (·.target = join.path) with
  | none => return none
  | some aggregate =>
    let target := aggregate.target
    let resolved ← blueprint.demand target (blueprint.resolveStrict target)
    if !resolved.isScalar then
      throw (blueprint.fault target "aggregate target must be a scalar attribute")
    let label := aggregate.op.keyword ++ " " ++ resolved.expression ++ " of @" ++ aggregate.store
    return some ⟨resolved.loops, label, .feed ⟨resolved.leaf, aggregate⟩⟩

/-- The fragment of a join in one of the procedures. -/
def place (blueprint : Blueprint) (store : String) (mode : Mode) (join : Join) :
    Except Fault (Option Placed) :=
  match join.cardinality with
  | .aggregate => placeFeed blueprint store join
  | .one | .many => (placeAttachment blueprint mode join).map some

/-- The scaffold of one procedure of a joined store. -/
def scaffold (blueprint : Blueprint) (store : String) (mode : Mode) :
    Except Fault (Scaffold Action) := do
  let empty : Scaffold Action :=
    { name := blueprint.store ++ ".joins." ++ store ++ "." ++ mode.name }
  let joins := (Fields.get? blueprint.metadata.joins store).getD []
  joins.foldlM (fun scaffold join => do
    match ← place blueprint store mode join with
    | none => return scaffold
    | some placed => return scaffold.add placed.loops .body placed.label placed.action) empty

/-- Compiles one procedure of a joined store. -/
def compile (blueprint : Blueprint) (store : String) (mode : Mode) :
    Except Fault (Program Action) := do
  blueprint.finish ("join " ++ mode.name) (← scaffold blueprint store mode)

end Joining

namespace JoinProcedures

/-- Compiles the procedures of one joined store. -/
def compile (blueprint : Blueprint) (store : String) : Except Fault JoinProcedures := do
  let insert ← Joining.compile blueprint store .insert
  let delete ← Joining.compile blueprint store .delete
  let set ← Joining.compile blueprint store .set
  return { store, insert, delete, set }

/-- Compiles the procedures of every joined store, in order of declaration. -/
def compileAll (blueprint : Blueprint) : Except Fault (List JoinProcedures) :=
  blueprint.metadata.joinedStores.mapM (compile blueprint)

/-- The procedure for a delta. -/
def program (procedures : JoinProcedures) : Delta → Program Joining.Action
  | .insert _ => procedures.insert
  | .delete _ => procedures.delete
  | .set _ => procedures.set

/-- Applies a delta of the joined store to a record and its persisted states. -/
def run (procedures : JoinProcedures) (surroundings : Joining.Surroundings)
    (record : Json) (states : AggregateStates) : Joining.State :=
  (procedures.program surroundings.delta).run
    { act := Joining.act surroundings, record := Joining.State.record } { record, states }

end JoinProcedures

end NestedRecord
