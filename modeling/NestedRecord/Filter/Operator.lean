import NestedRecord.Json.Basic

/-!
# Filter operators

How a filter compares an attribute with a value: for equality, by order, or by a
pattern.
-/

namespace NestedRecord

/-- The comparison that a filter makes. -/
inductive FilterOperator where
  | eq
  | gt
  | ge
  | lt
  | le
  /-- match a pattern up to case -/
  | like
deriving DecidableEq

namespace FilterOperator

def symbol : FilterOperator → String
  | .eq => "="
  | .gt => ">"
  | .ge => ">="
  | .lt => "<"
  | .le => "<="
  | .like => "ILIKE"

def ofSymbol? : String → Option FilterOperator
  | "=" => some .eq
  | ">" => some .gt
  | ">=" => some .ge
  | "<" => some .lt
  | "<=" => some .le
  | "ILIKE" => some .like
  | _ => none

/-- Reads an operator: its symbol, or an object with the symbol as its only key and
null under it. -/
def ofJson? : Json → Option FilterOperator
  | .string symbol => ofSymbol? symbol
  | .object [(symbol, .null)] => ofSymbol? symbol
  | _ => none

end FilterOperator

end NestedRecord
