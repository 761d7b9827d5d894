import NestedRecord.Graph.Metadata
import NestedRecord.Graph.Node

/-!
# Graphs as JSON

The forms in which levels and metadata are shown. Tables are lists of pairs, so that
their order is kept; handlers are left out.
-/

namespace NestedRecord

/-- A table as a list of pairs. -/
def Fields.toJson {α : Type} (value : α → Json) (fields : Fields α) : Json :=
  .array (fields.map fun (key, x) => .array [.string key, value x])

def NodeKind.name : NodeKind → String
  | .object => "object"
  | .array => "array"

def Rule.toJson : Rule → Json
  | .type scalar => .object [("rule", .string "type"), ("value", .string scalar.name)]
  | .conversion change =>
    .object [("rule", .string "conversion"), ("value", .string change.token)]
  | .optional => .object [("rule", .string "optional")]
  | .min bound => .object [("rule", .string "min"), ("value", bound)]
  | .max bound => .object [("rule", .string "max"), ("value", bound)]

def AttributeDecl.toJson (decl : AttributeDecl) : Json :=
  .object
    [("name", .string decl.name),
     ("scalarType", .ofString? (decl.scalarType.map (·.name))),
     ("rules", .array (decl.rules.map Rule.toJson)),
     ("child", .ofString? decl.child),
     ("column", .ofString? decl.column),
     ("derived", .bool decl.derived)]

def Node.toJson (node : Node) : Json :=
  .object
    [("uniqueName", .string node.uniqueName),
     ("parentName", .ofString? node.parentName),
     ("attrNameInParent", .ofString? node.nameInParent),
     ("kind", .string node.kind.name),
     ("nestingLevel", .ofNat node.nestingLevel),
     ("declaredAttributes", .array (node.attributes.map (·.toJson))),
     ("transformMap", Fields.toJson (fun c : Conversion => .string c.token) node.conversions),
     ("primaryKeyAttributes", .ofStrings node.primaryKey),
     ("childArrayNames", .ofStrings node.childArrays),
     ("arrayAncestors", .ofStrings node.arrayAncestors),
     ("isVirtual", .bool node.isVirtual),
     ("joinedStore", .ofString? node.joinedStore)]

/-- Levels in order. -/
def Nodes.toJson (nodes : Nodes) : Json := .array (nodes.map fun entry => entry.2.toJson)

def LocalAggregate.toJson (aggregate : LocalAggregate) : Json :=
  .object
    [("target", .string aggregate.target), ("op", .string aggregate.op.keyword),
     ("source", .string aggregate.source)]

def ExternalAggregate.toJson (aggregate : ExternalAggregate) : Json :=
  .object
    [("target", .string aggregate.target), ("op", .string aggregate.op.keyword),
     ("store", .string aggregate.store), ("sourceAttribute", .ofString? aggregate.sourceAttribute)]

def Cardinality.name : Cardinality → String
  | .one => "one"
  | .many => "many"
  | .aggregate => "aggregate"

def Join.toJson (join : Join) : Json :=
  .object
    [("store", .string join.store), ("path", .string join.path),
     ("cardinality", .string join.cardinality.name)]

def Metadata.toJson (metadata : Metadata) : Json :=
  .object
    [("storeName", .string metadata.storeName),
     ("primaryKey", .ofStrings metadata.primaryKey),
     ("jsonToSQL", Fields.toJson Json.string metadata.columns),
     ("sortGroup", Fields.toJson Json.ofNat metadata.sortGroup),
     ("sortMandatory", .ofStrings metadata.sortMandatory),
     ("aggregates", Fields.toJson LocalAggregate.toJson metadata.aggregates),
     ("aggregatesSort", .ofStrings metadata.aggregatesSort),
     ("externalAggregates",
       Fields.toJson (fun list : List ExternalAggregate => .array (list.map (·.toJson)))
         metadata.externals),
     ("joins", Fields.toJson (fun list : List Join => .array (list.map (·.toJson)))
       metadata.joins),
     ("references", Fields.toJson Json.string metadata.references),
     ("computeds",
       .array (metadata.computeds.map fun computed => .object [("path", .string computed.path)]))]

end NestedRecord
