/-!
# Faults

Everything that can go wrong with a store, as causes. `Fault.message` is the one
place where they are put into words.

* `Violation` says which field of a record breaks which rule.
* `Fault` is a failure that is reported to the caller.
* `HandlerFailure` is a failed handler; the value degrades to null and the failure
  only reaches the journal.
-/

namespace NestedRecord

/-- A field of a record that is not what the store declares. -/
structure Violation where
  field : String
  expected : String
  actual : String
deriving DecidableEq

namespace Violation

/-- A declared field is absent or null. -/
def missing (field : String) : Violation := ⟨field, "field to be present", "missing"⟩

def message (v : Violation) : String :=
  "field '" ++ v.field ++ "': expected " ++ v.expected ++ ", got " ++ v.actual

end Violation

/-- Why a store cannot be compiled, registered or loaded, or a record not accepted. -/
inductive Fault where
  /-- an attribute of the descriptor breaks a rule -/
  | configuration (store path rule : String)
  /-- the fragments of a procedure do not fit together -/
  | build (store procedure cause plan : String)
  /-- a record breaks a rule -/
  | validation (store : String) (violation : Violation)
  | alreadyRegistered (store : String)
  /-- a file cannot be read -/
  | load (file reason : String)
deriving DecidableEq

namespace Fault

/-- A code that stays the same when the wording changes. -/
def code : Fault → String
  | .configuration .. => "STORE_CONFIGURATION"
  | .build .. => "STORE_BUILD_FAILED"
  | .validation .. => "STORE_VALIDATION_FAILED"
  | .alreadyRegistered .. => "STORE_ALREADY_REGISTERED"
  | .load .. => "STORE_LOAD_FAILED"

/-- Whether the store itself is unusable. The other faults reject one request. -/
def isFatal : Fault → Bool
  | .validation .. | .alreadyRegistered .. => false
  | _ => true

/-- The path of the offending attribute or field, if there is one. -/
def path? : Fault → Option String
  | .configuration _ path _ => some path
  | .validation _ violation => some violation.field
  | _ => none

def message : Fault → String
  | .configuration store path rule =>
    "[" ++ store ++ "] attribute '" ++ path ++ "': " ++ rule
  | .build store procedure cause plan =>
    "[" ++ store ++ "] cannot build " ++ procedure ++ ": " ++ cause ++ "\n" ++ plan
  | .validation store violation =>
    "[" ++ store ++ "] record validation failed: " ++ violation.message
  | .alreadyRegistered store => "store '" ++ store ++ "' is already registered"
  | .load file reason => "cannot load descriptor '" ++ file ++ "': " ++ reason

end Fault

/-- A handler that failed while a procedure was running. -/
structure HandlerFailure where
  procedure : String
  path : String
  reason : String
deriving DecidableEq

namespace HandlerFailure

def message (failure : HandlerFailure) : String :=
  failure.procedure ++ " handler for '" ++ failure.path ++ "' failed: " ++ failure.reason

end HandlerFailure

end NestedRecord
