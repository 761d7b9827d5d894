import NestedRecord.Descriptor.Tuple

/-!
# Metadata

What is known about a store besides its shape: keys, columns, aggregates, joins,
references and computed fields.

* `LocalAggregate` folds values of the record itself, `ExternalAggregate` values of
  another store's records.
* `Metadata.declareLocal` and `Metadata.promote` register the aggregate of a target. A
  target has one aggregate: the one registered last.
-/

namespace NestedRecord

/-- An aggregate over values of the same record. -/
structure LocalAggregate where
  target : String
  op : AggregateOp
  source : String
  transformer : Option Handler

/-- An aggregate over records of another store. -/
structure ExternalAggregate where
  target : String
  op : AggregateOp
  store : String
  /-- the attribute read from each record, the whole record if there is none -/
  sourceAttribute : Option String
  transformer : Option Handler

/-- The value that is folded for one record of the other store. -/
def ExternalAggregate.sourceValue (aggregate : ExternalAggregate) (record : Json) : Json :=
  match aggregate.sourceAttribute with
  | some path => (record.at? (segments path)).getD .null
  | none => record

/-- How records of another store are kept. -/
inductive Cardinality where
  /-- one record -/
  | one
  /-- a list of records -/
  | many
  /-- not at all: they only feed an aggregate -/
  | aggregate
deriving DecidableEq

/-- Where another store's records arrive. -/
structure Join where
  store : String
  path : String
  cardinality : Cardinality
deriving DecidableEq

/-- A field computed from the object that owns it. -/
structure Computed where
  path : String
  handler : Handler

/-- What is known about a store besides its shape. -/
structure Metadata where
  storeName : String
  /-- the key attributes of the root, in order of declaration -/
  primaryKey : List String := []
  /-- the column of each annotated attribute -/
  columns : Fields String := []
  /-- the number of lists around each column's attribute -/
  sortGroup : Fields Nat := []
  /-- the key columns, by the number of lists around them -/
  sortMandatory : List String := []
  aggregates : Fields LocalAggregate := []
  /-- the targets of `aggregates` in order of evaluation -/
  aggregatesSort : List String := []
  externals : Fields (List ExternalAggregate) := []
  joins : Fields (List Join) := []
  /-- the store referenced at each path -/
  references : Fields String := []
  computeds : List Computed := []

namespace Metadata

/-- The joined stores in order of declaration. -/
def joinedStores (metadata : Metadata) : List String := Fields.keys metadata.joins

def isJoined (metadata : Metadata) (store : String) : Bool := Fields.has metadata.joins store

/-- The local aggregates in order of evaluation. -/
def localAggregates (metadata : Metadata) : List LocalAggregate :=
  metadata.aggregatesSort.filterMap (Fields.get? metadata.aggregates)

/-- The first external aggregate of a target and the store it stands under. -/
def external? (metadata : Metadata) (target : String) : Option (String × ExternalAggregate) :=
  metadata.externals.findSome? fun (store, aggregates) =>
    (aggregates.find? (·.target = target)).map fun aggregate => (store, aggregate)

/-- Takes the external aggregate of a target out, together with its join, and drops
the stores under which nothing is left. -/
def removeExternal (metadata : Metadata) (target : String) : Metadata :=
  match metadata.external? target with
  | none => metadata
  | some (store, _) =>
    let externals := Fields.update (·.eraseP (·.target = target)) metadata.externals store
    -- an attachment at the same path is no marker, and stays
    let joins :=
      Fields.update (·.filter fun join => ¬(join.cardinality = .aggregate ∧ join.path = target))
        metadata.joins store
    { metadata with
      externals := externals.filter fun entry => !entry.2.isEmpty
      joins := joins.filter fun entry => !entry.2.isEmpty }

/-- Registers a local aggregate. A target that had one keeps its place in the order of
evaluation. -/
def declareLocal (metadata : Metadata) (aggregate : LocalAggregate) : Metadata :=
  let metadata := metadata.removeExternal aggregate.target
  let sort :=
    if Fields.has metadata.aggregates aggregate.target then metadata.aggregatesSort
    else metadata.aggregatesSort ++ [aggregate.target]
  { metadata with
    aggregatesSort := sort
    aggregates := Fields.set metadata.aggregates aggregate.target aggregate }

/-- Adds a place where records of another store arrive. -/
def addJoin (metadata : Metadata) (join : Join) : Metadata :=
  { metadata with joins := Fields.push metadata.joins join.store join }

/-- Registers an external aggregate in place of any other aggregate of its target. -/
def promote (metadata : Metadata) (aggregate : ExternalAggregate) : Metadata :=
  let withoutLocal :=
    { metadata with
      aggregates := Fields.erase metadata.aggregates aggregate.target
      aggregatesSort := metadata.aggregatesSort.filter (· ≠ aggregate.target) }
  let cleared := withoutLocal.removeExternal aggregate.target
  let joined := cleared.addJoin ⟨aggregate.store, aggregate.target, .aggregate⟩
  { joined with externals := Fields.push joined.externals aggregate.store aggregate }

end Metadata

end NestedRecord
