import NestedRecord.Aggregate.Kind
import NestedRecord.Descriptor.Basic
import NestedRecord.Fault
import NestedRecord.Journal

/-!
# Environments

What the caller of a procedure supplies besides the record.

* `Environment` holds the aggregate kinds and the constants that transformers get.
* `applyTransformer` runs a handler inside a procedure. A failure is reported and leaves
  null.
-/

namespace NestedRecord

/-- What procedures run in. -/
structure Environment where
  kinds : AggregateKinds := .builtIn
  /-- the context of the transformers -/
  constants : Json := .null

/-- The value that a procedure uses in place of `value`: the transformer's result, or
null with a report when the transformer fails. -/
def applyTransformer (procedure path : String) (transformer : Option Handler)
    (value constants : Json) : Json × Journal :=
  match transformer with
  | none => (value, [])
  | some handler =>
    match handler value constants with
    | .ok result => (result, [])
    | .error reason =>
      let failure : HandlerFailure := ⟨procedure, path, reason⟩
      (.null, [.recovered [procedure, path] failure.message])

end NestedRecord
