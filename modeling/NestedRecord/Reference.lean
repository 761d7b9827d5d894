import NestedRecord.Procedure.Blueprint
import NestedRecord.Record.Identity

/-!
# References

A reference embeds copies of another store's records.

* `Reference.keys` collects the keys of the embedded copies, each once.
* `Reference.overwrite` replaces the copies of one record after it has changed in its own
  store, and counts them.
* `Reference.compile` builds both procedures.
-/

namespace NestedRecord

/-- The key of a record in its own store. -/
abbrev KeyFunction := Json → Option Json

/-- The procedures of one reference. Their fragments are the names from the innermost
element to the embedded copy. -/
structure Reference where
  path : String
  /-- the store whose records are embedded -/
  store : String
  identityKey : String
  collect : Program (List String)
  replace : Program (List String)

namespace Reference

/-- The object embedded at the cursor. -/
def embedded? (record : Json) (leaf : List String) (cursor : Cursor) : Option Json :=
  match cursor.get? record leaf with
  | some (.object members) => some (.object members)
  | _ => none

/-! ## Keys -/

/-- The state of a collection. -/
structure Collection where
  record : Json
  /-- the keys so far, in order of their first appearance -/
  keys : List Json := []

/-- Adds a key that is not null and not there yet. -/
def addKey (keys : List Json) (key : Json) : List Json :=
  if key.isNull || keys.any key.same then keys else keys ++ [key]

/-- Adds the key of the copy at the cursor. -/
def collectKey (keyOf : KeyFunction) (leaf : List String) (cursor : Cursor)
    (state : Collection) : Collection :=
  match (embedded? state.record leaf cursor).bind keyOf with
  | some key => { state with keys := addKey state.keys key }
  | none => state

/-- The keys of the copies in a record; none without a key function. -/
def keys (reference : Reference) (keyOf : Option KeyFunction) (record : Json) : List Json :=
  match keyOf with
  | none => []
  | some keyOf =>
    let machine : Machine (List String) Collection :=
      { act := collectKey keyOf, record := Collection.record }
    (reference.collect.run machine { record }).keys

/-! ## Replacement -/

/-- The record whose copies are replaced. -/
structure Parent where
  content : Json
  identityKey : String
  keyOf : KeyFunction

namespace Parent

/-- The key of the parent; null is no key. -/
def key? (parent : Parent) : Option Json := (parent.keyOf parent.content).bind Json.nonNull?

/-- Whether a copy is one of the parent: by identity when both have one, otherwise by
key. -/
def matchesCopy (parent : Parent) (copy : Json) : Bool :=
  match identity? parent.identityKey copy, identity? parent.identityKey parent.content with
  | some x, some y => x.same y
  | _, _ =>
    match parent.key?, parent.keyOf copy with
    | some key, some copyKey => copyKey.same key
    | _, _ => false

end Parent

/-- The state of a replacement. -/
structure Replacement where
  record : Json
  /-- the number of copies replaced -/
  count : Nat := 0

/-- Replaces the copy at the cursor if it is one of the parent. -/
def replaceCopy (parent : Parent) (leaf : List String) (cursor : Cursor)
    (state : Replacement) : Replacement :=
  match embedded? state.record leaf cursor with
  | none => state
  | some copy =>
    if parent.matchesCopy copy then
      match cursor.setAt? state.record cursor.depth leaf parent.content with
      | some record => ⟨record, state.count + 1⟩
      | none => state
    else state

/-- Replaces the copies of a parent in a record and counts them. -/
def overwrite (reference : Reference) (keyOf : Option KeyFunction) (parent record : Json) :
    Replacement :=
  let parent : Parent :=
    { content := parent, identityKey := reference.identityKey
      keyOf := keyOf.getD fun _ => none }
  let machine : Machine (List String) Replacement :=
    { act := replaceCopy parent, record := Replacement.record }
  reference.replace.run machine { record }

/-! ## Compilation -/

/-- Compiles the reference at a path to a store. -/
def compile (blueprint : Blueprint) (path store : String) : Except Fault Reference := do
  let resolved ← blueprint.demand path (blueprint.resolveStrict path)
  if resolved.isScalar then
    throw (blueprint.fault path ("reference to @" ++ store ++ " must be an object or array"))
  let (loops, leaf) := resolved.elementLoops
  let name := blueprint.store ++ ".references." ++ path
  let collect : Scaffold (List String) := { name := name ++ ".get" }
  let replace : Scaffold (List String) := { name := name ++ ".update" }
  let collectLabel := "collect key of " ++ resolved.expression
  let replaceLabel := "overwrite " ++ resolved.expression ++ " when it matches"
  let collect ← blueprint.finish "references get" (collect.add loops .body collectLabel leaf)
  let replace ←
    blueprint.finish "references update" (replace.add loops .body replaceLabel leaf)
  return { path, store, identityKey := blueprint.config.identityKey, collect, replace }

end Reference

end NestedRecord
