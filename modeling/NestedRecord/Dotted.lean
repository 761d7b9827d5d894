/-!
# Dotted paths

The place of an attribute is written as the names on the way to it, joined by points.

* `splitAtChar` cuts a list of characters at every separator.
* `segments` are the names of a dotted path.
* `joinPath` appends a name, `parentPath` and `lastSegment` take it off again.
-/

namespace NestedRecord

/-- The pieces between the separators; there is one more piece than separators. -/
def splitAtChar (separator : Char) : List Char → List (List Char)
  | [] => [[]]
  | c :: rest =>
    if c = separator then [] :: splitAtChar separator rest
    else
      match splitAtChar separator rest with
      | piece :: pieces => (c :: piece) :: pieces
      | [] => [[c]]

/-- The names of a dotted path. -/
def segments (path : String) : List String := (splitAtChar '.' path.toList).map String.ofList

/-- Names joined by points. -/
def ofSegments (names : List String) : String := ".".intercalate names

/-- The path of a name below a place; the empty path is the root. -/
def joinPath (place name : String) : String := if place.isEmpty then name else place ++ "." ++ name

/-- The path without its last name, empty for a single name. -/
def parentPath (path : String) : String := ofSegments (segments path).dropLast

/-- The last name of a path. -/
def lastSegment (path : String) : String := ((segments path).getLast?).getD path

/-- What stands before and behind the first separator. -/
def splitFirst? (separator : Char) : List Char → Option (List Char × List Char)
  | [] => none
  | c :: rest =>
    if c = separator then some ([], rest)
    else (splitFirst? separator rest).map fun (front, back) => (c :: front, back)

/-- What follows a given beginning. -/
def after? (front : List Char) : List Char → Option (List Char)
  | cs =>
    match front, cs with
    | [], cs => some cs
    | _ :: _, [] => none
    | f :: front, c :: cs => if f = c then after? front cs else none

end NestedRecord
