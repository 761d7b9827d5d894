import NestedRecord.Aggregate.Recompute
import NestedRecord.Computed
import NestedRecord.Filter.Search
import NestedRecord.Join.Procedure
import NestedRecord.Key.Primary
import NestedRecord.Record.Clone
import NestedRecord.Record.Transform
import NestedRecord.Record.Validation
import NestedRecord.Reference

/-!
# Stores

A store is a descriptor with everything compiled from it.

* `Store.compile` flattens a descriptor and compiles its procedures.
* `Store.plans` are the plans of all procedures.
* The remaining operations work on records of the store: keys, aggregates, computed
  fields, joins, references, transforms, validation, clones and filters.
-/

namespace NestedRecord

/-- A compiled store. -/
structure Store where
  blueprint : Blueprint
  key : PrimaryKey
  aggregates : Program Recompute.Action
  computeds : Program ComputedFields.Field
  /-- the reference to each referenced store -/
  references : Fields Reference
  /-- the procedures of the joined stores, in order of declaration -/
  joins : List JoinProcedures
  cloner : Cloner

namespace Store

def name (store : Store) : String := store.blueprint.store

def flattened (store : Store) : Flattened := store.blueprint.flattened

def metadata (store : Store) : Metadata := store.blueprint.metadata

def config (store : Store) : Config := store.blueprint.config

/-! ## Compilation -/

/-- The plans of the procedures of a joined store. -/
def joinPlans (procedures : JoinProcedures) : List (String × String) :=
  let name := "joins." ++ procedures.store
  [(name ++ ".insert", procedures.insert.plan), (name ++ ".delete", procedures.delete.plan),
   (name ++ ".set", procedures.set.plan)]

/-- The plans of the procedures of a referenced store. -/
def referencePlans (entry : String × Reference) : List (String × String) :=
  let name := "references." ++ entry.1
  [(name ++ ".get", entry.2.collect.plan), (name ++ ".update", entry.2.replace.plan)]

/-- The procedures with their plans. -/
def plans (store : Store) : List (String × String) :=
  [("aggregate", store.aggregates.plan), ("computeds", store.computeds.plan)] ++
    store.joins.flatMap joinPlans ++ store.references.flatMap referencePlans

/-- Compiles the procedures of a flattened store. Of two references to one store the
later counts. -/
def ofBlueprint (blueprint : Blueprint) : Except Fault Store := do
  let key ← PrimaryKey.compile blueprint
  let aggregates ← Recompute.compile blueprint
  let computeds ← ComputedFields.compile blueprint
  let references ← blueprint.metadata.references.mapM fun (path, store) => do
    return (store, ← Reference.compile blueprint path store)
  let joins ← JoinProcedures.compileAll blueprint
  let cloner ← Cloner.compile blueprint
  return { blueprint, key, aggregates, computeds, references := .ofPairs references, joins, cloner }

/-- The report of a compilation: the size of the store, then each procedure's plan. -/
def report (store : Store) : Journal :=
  let compiled : Notice := .event .info "STORE_COMPILED"
    [("store", store.name),
     ("nodes", Numeral.natText store.flattened.nodes.length),
     ("aggregates", Numeral.natText store.metadata.aggregates.length),
     ("joins", Numeral.natText store.joins.length)]
  compiled :: store.plans.map fun (procedure, plan) =>
    .event .trace "PROCEDURE_PLAN"
      [("store", store.name), ("procedure", procedure), ("plan", plan)]

/-- Compiles the store of a descriptor. The journal stands whether or not that
succeeds. -/
def compile (config : Config) (name : String) (descriptor : Descriptor) :
    Except Fault Store × Journal :=
  -- the walk reports what it replaces even when the descriptor is refused in the end
  match flatten name config.rootName descriptor with
  | (.error fault, journal) => (.error fault, journal)
  | (.ok flattened, journal) =>
    match ofBlueprint { flattened, config } with
    | .error fault => (.error fault, journal)
    | .ok store => (.ok store, journal ++ if config.logCompilation then store.report else [])

/-! ## Records -/

/-- A record that has every attribute and the declared defaults. -/
def defaultRecord (store : Store) : Json := store.flattened.defaultValue

/-- The key of a record. -/
def key? (store : Store) (record : Json) : Option Json := store.key.read? record

/-- A record with another key. -/
def withKey? (store : Store) (record key : Json) : Option Json := store.key.write? record key

/-- Writes a key into a record: the record afterwards, and whether the key has been written. -/
def setKey (store : Store) (record key : Json) : Json × Bool := store.key.write record key

/-- Recomputes the local aggregates of a record. -/
def aggregate (store : Store) (environment : Environment) (record : Json) : Json × Journal :=
  Recompute.run store.aggregates environment record

/-- Evaluates the computed fields of a record. -/
def compute (store : Store) (environment : Environment) (record : Json) : Json × Journal :=
  ComputedFields.run store.computeds environment.constants record

/-- Applies the conversions and transformation hooks to a record. -/
def transform (store : Store) (record : Json) : Json × Journal :=
  store.flattened.transform record

/-- Checks a record. -/
def validate (store : Store) (record : Json) : Except Fault Unit :=
  store.flattened.validate record

/-- Clones a record or a list of records. -/
def clone (store : Store) (input : Json) : Json := store.cloner.clone input

/-- Compiles a filter. -/
def filter (store : Store) (declaration : FilterDeclaration) : Except Fault Filter :=
  Filter.compile store.blueprint declaration

/-! ## Joins -/

/-- The procedures of a joined store. -/
def joined? (store : Store) (foreign : String) : Option JoinProcedures :=
  store.joins.find? (·.store = foreign)

/-- Runs the procedures of a joined store on a record and its persisted states. -/
def runJoin (store : Store) (environment : Environment) (delta : Delta) (record : Json)
    (states : AggregateStates) (procedures : JoinProcedures) : Joining.State :=
  procedures.run { environment with delta, identityKey := store.config.identityKey } record
    states

/-- Applies a delta of a store, if that store is joined. -/
def join? (store : Store) (environment : Environment) (foreign : String) (delta : Delta)
    (record : Json) (states : AggregateStates) : Option Joining.State :=
  (store.joined? foreign).map (store.runJoin environment delta record states)

/-- Sets the records of every joined store; one without records has none. -/
def joinAll (store : Store) (environment : Environment) (snapshot : Fields (List Json))
    (record : Json) (states : AggregateStates) : Joining.State :=
  store.joins.foldl (fun state procedures =>
    let delta := Delta.set ((Fields.get? snapshot procedures.store).getD [])
    let next := store.runJoin environment delta state.record state.states procedures
    { next with journal := state.journal ++ next.journal }) { record, states }

/-! ## References -/

/-- The reference to a store. -/
def reference? (store : Store) (foreign : String) : Option Reference :=
  Fields.get? store.references foreign

/-- The keys of the records of a store that a record embeds. -/
def referencedKeys (store : Store) (foreign : String) (keyOf : Option KeyFunction)
    (record : Json) : List Json :=
  (store.reference? foreign).elim [] (·.keys keyOf record)

end Store

end NestedRecord
