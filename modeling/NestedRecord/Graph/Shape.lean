import NestedRecord.Graph.Node

/-!
# Shapes

The graph addresses levels by name. Whatever walks over a record wants them as a tree
instead: each attribute with the shape of what stands under it.

* `Shape` is that tree.
* `Shape.conversion?` is the conversion of a scalar attribute of a level.
-/

namespace NestedRecord

/-- What stands under an attribute. -/
inductive Shape where
  /-- a single value -/
  | scalar
  /-- records of another store, kept as they are -/
  | foreign
  /-- an object with declared attributes, or a list of such objects -/
  | level (kind : NodeKind) (attributes : List (AttributeDecl × Shape))

namespace Shape

def isForeign : Shape → Bool
  | .foreign => true
  | _ => false

def isScalar : Shape → Bool
  | .scalar => true
  | _ => false

/-- The conversion of the scalar attributes of a name: the first one of the last
attribute of that name that declares any. -/
def conversion? (attributes : List (AttributeDecl × Shape)) (name : String) :
    Option Conversion :=
  attributes.reverse.findSome? fun (decl, shape) =>
    if shape.isScalar && decl.name == name then decl.conversion? else none

end Shape

end NestedRecord
