import NestedRecord.Json.Basic

/-!
# Locations

A location is the way from a value down to one of its parts: keys of objects and
positions in lists.

* `Json.locate?` reads the part at a location, `Json.modifyAt?` changes it.
* `Json.upsert?` changes the value below an object's members; only the last key may be
  absent, and is then added.
* `Location.pointer` writes a location as a JSON pointer.
-/

namespace NestedRecord

/-- One step from a value to a part of it. -/
inductive Step where
  | key (key : String)
  | index (index : Nat)
deriving DecidableEq

/-- The way from a value to one of its parts. -/
abbrev Location := List Step

namespace Json

/-- The part that one step leads to. -/
def child? : Json → Step → Option Json
  | .object members, .key key => Fields.get? members key
  | .array items, .index index => items[index]?
  | _, _ => none

/-- The part at a location. -/
def locate? : Json → Location → Option Json
  | value, [] => some value
  | value, step :: rest => (value.child? step).bind (locate? · rest)

/-- Changes the part that one step leads to. -/
def modifyChild? (f : Json → Option Json) : Json → Step → Option Json
  | .object members, .key key => (Fields.modify? f members key).map .object
  | .array items, .index index =>
    (items[index]?).bind fun item => (f item).map fun item => .array (items.set index item)
  | _, _ => none

/-- Changes the part at a location. -/
def modifyAt? (f : Json → Option Json) : Location → Json → Option Json
  | [], value => f value
  | step :: rest, value => modifyChild? (modifyAt? f rest) value step

/-- Changes the value below an object's members, one key after the other. All keys but the
last must be there; an absent last key counts as null and is added at the end. -/
def upsert? (f : Json → Json) : List String → Json → Option Json
  | [], value => some (f value)
  | [key], .object members =>
    some (.object (Fields.set members key (f ((Fields.get? members key).getD .null))))
  | [_], _ => none
  | key :: next :: rest, value => modifyChild? (upsert? f (next :: rest)) value (.key key)

end Json

namespace Location

/-- A key inside a pointer: `~` and `/` are escaped. -/
def escapeKey (key : String) : String :=
  String.ofList (key.toList.flatMap fun c =>
    if c = '~' then ['~', '0'] else if c = '/' then ['~', '1'] else [c])

def stepText : Step → String
  | .key key => escapeKey key
  | .index index => Numeral.natText index

/-- The location as a JSON pointer: a slash before every step. -/
def pointer (location : Location) : String :=
  String.join (location.map fun step => "/" ++ stepText step)

end Location

end NestedRecord
