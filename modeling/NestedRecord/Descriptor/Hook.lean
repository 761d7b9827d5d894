import NestedRecord.Descriptor.Basic

/-!
# Hooks

A hook stands behind `onValidate` or `onTransform`: a handler, or a literal that
takes the handler's place.

* `Hook.apply` gives the replacement of a value.
* `Hook.check?` gives the reason why a value is refused.
-/

namespace NestedRecord

/-- What stands behind `onValidate` or `onTransform`. -/
inductive Hook where
  | handler (handler : Handler)
  | literal (value : Json)

/-- When a hook is called. -/
inductive HookKind where
  | validate
  | transform
deriving DecidableEq

namespace HookKind

def keyword : HookKind → String
  | .validate => "onValidate"
  | .transform => "onTransform"

end HookKind

namespace Hook

/-- The replacement of a value inside a record; a literal replaces every value. -/
def apply (hook : Hook) (value record : Json) : Except String Json :=
  match hook with
  | .handler call => call value record
  | .literal replacement => .ok replacement

/-- The reason why a value inside a record is refused, if it is. A literal accepts
only values equal to it. -/
def check? (hook : Hook) (value record : Json) : Option String :=
  match hook with
  | .handler call =>
    match call value record with
    | .ok _ => none
    | .error reason => some reason
  | .literal expected =>
    if expected.same value then none
    else some ("expected " ++ expected.render ++ ", found " ++ value.render)

end Hook

end NestedRecord
