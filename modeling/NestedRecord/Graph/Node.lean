import NestedRecord.Descriptor.Tuple

/-!
# Nodes

The levels of a descriptor become the nodes of a graph: one node for the store's own
object and one for every nested object or list, each under a name of its own.

* `AttributeDecl` is a declared attribute of a node.
* `Node` is one level; `Node.root` and `Node.childOf` make them.
* `Nodes` holds nodes by name, in the order in which they were made.
-/

namespace NestedRecord

/-- A declared attribute of a node. -/
structure AttributeDecl where
  name : String
  scalarType : Option ScalarType := none
  /-- what is asked of its values, in order of declaration -/
  rules : List Rule := []
  /-- the node that it leads to -/
  child : Option String := none
  column : Option String := none
  /-- whether the value is maintained here and not supplied -/
  derived : Bool := false

namespace AttributeDecl

/-- Whether the attribute may be null or absent. -/
def isOptional (decl : AttributeDecl) : Bool :=
  decl.rules.any fun rule =>
    match rule with
    | .optional => true
    | _ => false

/-- The first conversion declared. -/
def conversion? (decl : AttributeDecl) : Option Conversion :=
  decl.rules.findSome? fun rule =>
    match rule with
    | .conversion conversion => some conversion
    | _ => none

end AttributeDecl

/-- One level of a descriptor. -/
structure Node where
  uniqueName : String
  parentName : Option String := none
  nameInParent : Option String := none
  kind : NodeKind := .object
  /-- the number of lists from the root down to this level, itself included -/
  nestingLevel : Nat := 0
  attributes : List AttributeDecl := []
  /-- the conversions of scalar attributes -/
  conversions : Fields Conversion := []
  /-- the paths of key attributes, relative to one element of this level -/
  primaryKey : List String := []
  /-- the nested lists whose nearest enclosing level this is -/
  childArrays : List String := []
  /-- the lists around this level, outermost first -/
  arrayAncestors : List String := []
  /-- whether the shape belongs to another store, so that any attribute resolves -/
  isVirtual : Bool := false
  joinedStore : Option String := none

namespace Node

/-- The level of the store's own object. -/
def root (uniqueName : String) : Node := { uniqueName }

def isArray (node : Node) : Bool := node.kind == .array

/-- A level below `parent`, under the attribute `name`. -/
def childOf (parent : Node) (uniqueName name : String) (kind : NodeKind) : Node where
  uniqueName := uniqueName
  parentName := some parent.uniqueName
  nameInParent := some name
  kind := kind
  nestingLevel := parent.nestingLevel + (if kind = .array then 1 else 0)
  arrayAncestors :=
    parent.arrayAncestors ++ (if parent.isArray then [parent.uniqueName] else [])

/-- The first attribute of a name. -/
def attribute? (node : Node) (name : String) : Option AttributeDecl :=
  node.attributes.find? (·.name = name)

end Node

/-- Nodes by their unique names, the root first. -/
abbrev Nodes := Fields Node

end NestedRecord
