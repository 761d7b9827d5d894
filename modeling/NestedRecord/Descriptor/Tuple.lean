import NestedRecord.Descriptor.Token

/-!
# Tuples

A tuple is what its tokens say about one attribute, sorted by concern.

* `Rule` is what an attribute asks of its values.
* `Tuple.add` takes in one token; most concerns may be named only once.
* `Tuple.ofDirectives` reads the directives of an attribute.
-/

namespace NestedRecord

/-- What an attribute asks of its values. -/
inductive Rule where
  | type (type : ScalarType)
  | conversion (conversion : Conversion)
  | optional
  | min (bound : Json)
  | max (bound : Json)

/-- What ties an attribute to values elsewhere. -/
inductive Link where
  | aggregate (op : AggregateOp) (path : String) (transformer : Option Handler)
  | join (store : String) (path : Option String)

/-- What a tuple says about its attribute; `ν` stands for nested descriptors. -/
structure Tuple (ν : Type) where
  /-- the rules in order of declaration -/
  rules : List Rule := []
  /-- the first type named -/
  scalarType : Option ScalarType := none
  /-- the last of `array` and `object` -/
  nesting : Option NodeKind := none
  nested : Option ν := none
  /-- the storage column and whether it is part of a key -/
  column : Option (String × Bool) := none
  /-- the first literal that no word takes -/
  fallback : Option Json := none
  hooks : List (HookKind × Hook) := []
  links : List Link := []
  computed : Option Handler := none
  reference : Option String := none

namespace Tuple

variable {ν : Type}

/-- Takes in one token. -/
def add (tuple : Tuple ν) : Token ν → Except String (Tuple ν)
  | .type type =>
    .ok { tuple with
      scalarType := tuple.scalarType.or (some type), rules := tuple.rules ++ [.type type] }
  | .conversion conversion =>
    .ok { tuple with rules := tuple.rules ++ [.conversion conversion] }
  | .optional => .ok { tuple with rules := tuple.rules ++ [.optional] }
  | .nesting kind => .ok { tuple with nesting := some kind }
  | .bound .min value => .ok { tuple with rules := tuple.rules ++ [.min value] }
  | .bound .max value => .ok { tuple with rules := tuple.rules ++ [.max value] }
  | .column name primary =>
    if tuple.column.isSome then .error "more than one column annotation"
    else .ok { tuple with column := some (name, primary) }
  | .aggregate op path transformer =>
    .ok { tuple with links := tuple.links ++ [.aggregate op path transformer] }
  | .join store path => .ok { tuple with links := tuple.links ++ [.join store path] }
  | .reference store =>
    if tuple.reference.isSome then .error "more than one 'ref'"
    else .ok { tuple with reference := some store }
  | .hook kind hook => .ok { tuple with hooks := tuple.hooks ++ [(kind, hook)] }
  | .handler handler =>
    if tuple.computed.isSome then .error "more than one computed handler"
    else .ok { tuple with computed := some handler }
  | .literal value => .ok { tuple with fallback := tuple.fallback.or (some value) }
  | .nested descriptor =>
    if tuple.nested.isSome then .error "more than one nested descriptor"
    else .ok { tuple with nested := some descriptor }

/-- Reads the directives of an attribute; the first broken rule ends the reading. -/
def ofDirectives (directives : List (Directive ν)) : Except String (Tuple ν) :=
  (Token.ofDirectives directives).foldlM (fun tuple token => token.bind tuple.add) {}

/-- Whether the attribute is declared as nested. -/
def isNested (tuple : Tuple ν) : Bool := tuple.nesting.isSome || tuple.nested.isSome

end Tuple

end NestedRecord
