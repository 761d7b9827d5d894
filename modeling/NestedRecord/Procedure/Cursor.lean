import NestedRecord.Json.Location

/-!
# Cursors

A cursor is the position of a running procedure inside a record: the lists it has
entered, and the element of each it stands at.

* `Cursor.enter` and `Cursor.leave` move one list down and up again.
* `Cursor.location` is the element of an enclosing list, counted from the outermost.
* `Cursor.getAt?`, `Cursor.updateAt?` and `Cursor.setAt?` read and write names below it.
-/

namespace NestedRecord

/-- A list that has been entered. -/
structure Entered where
  /-- the names from the enclosing element down to the list -/
  access : List String
  /-- the element -/
  index : Nat
deriving DecidableEq

/-- The position of a procedure in a record: the lists entered, outermost first. -/
structure Cursor where
  entered : List Entered := []
deriving DecidableEq

namespace Cursor

/-- The number of lists entered. -/
def depth (cursor : Cursor) : Nat := cursor.entered.length

/-- Goes to an element of the list that `access` leads to. -/
def enter (cursor : Cursor) (access : List String) (index : Nat) : Cursor :=
  ⟨cursor.entered ++ [⟨access, index⟩]⟩

/-- Goes back to the enclosing element; at the record it stays. -/
def leave (cursor : Cursor) : Cursor := ⟨cursor.entered.dropLast⟩

/-- The way from an element to an element of a list below it. -/
def Entered.location (entered : Entered) : Location :=
  entered.access.map .key ++ [.index entered.index]

/-- Where the element of the list number `depth` is; the record itself for `0`, and the
current element when no list is that deep. -/
def location (cursor : Cursor) (depth : Nat) : Location :=
  (cursor.entered.take depth).flatMap Entered.location

/-- The position in the list number `depth`. -/
def index? (cursor : Cursor) (depth : Nat) : Option Nat :=
  ((cursor.entered.take depth).getLast?).map (·.index)

/-- Reads names below the element of the list number `depth`. -/
def getAt? (cursor : Cursor) (record : Json) (depth : Nat) (names : List String) : Option Json :=
  (record.locate? (cursor.location depth)).bind (·.at? names)

/-- Reads names below the current element. -/
def get? (cursor : Cursor) (record : Json) (names : List String) : Option Json :=
  cursor.getAt? record cursor.depth names

/-- Changes a value that is there, below the current element. -/
def modify? (cursor : Cursor) (f : Json → Option Json) (record : Json) (names : List String) :
    Option Json :=
  record.modifyAt? f (cursor.location cursor.depth ++ names.map .key)

/-- Changes the value below the element of the list number `depth`. Its parent must be an
object; an absent value counts as null and is added. -/
def updateAt? (cursor : Cursor) (f : Json → Json) (record : Json) (depth : Nat)
    (names : List String) : Option Json :=
  record.modifyAt? (Json.upsert? f names) (cursor.location depth)

/-- Writes a value below the element of the list number `depth`. -/
def setAt? (cursor : Cursor) (record : Json) (depth : Nat) (names : List String)
    (value : Json) : Option Json :=
  cursor.updateAt? (fun _ => value) record depth names

/-- The pointer of names below the element of the list number `depth`. -/
def pointerAt (cursor : Cursor) (depth : Nat) (names : List String) : String :=
  Location.pointer (cursor.location depth ++ names.map .key)

end Cursor

end NestedRecord
