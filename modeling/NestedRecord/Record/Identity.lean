import NestedRecord.Json.Basic

/-!
# Identity of records

A record may carry an identity under a key that all stores share.

* `identity?` reads it; null is no identity.
* `sameRecord` says when two records are the same: by their identities, or by their
  content when neither has one.
-/

namespace NestedRecord

/-- The identity of a record, if it has one. -/
def identity? (identityKey : String) (record : Json) : Option Json :=
  (record.get? identityKey).bind Json.nonNull?

/-- Whether two records are the same: equal identities, or equal content when neither has
an identity. -/
def sameRecord (identityKey : String) (a b : Json) : Bool :=
  match identity? identityKey a, identity? identityKey b with
  | some x, some y => x.same y
  | none, none => a.same b
  | _, _ => false

end NestedRecord
