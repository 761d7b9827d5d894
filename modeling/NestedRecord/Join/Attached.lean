import NestedRecord.Record.Identity

/-!
# Attached records

An attachment holds records of another store: a list of them, or at most one.

* `Delta` is what happens to the records of a joined store.
* `Attached.insert` and `Attached.delete` work on a list of attached records.
* `Attached.change?` applies a delta to the content of an attachment and tells which
  record left and which one came.
-/

namespace NestedRecord

/-- What happens to the records of a joined store. -/
inductive Delta where
  | insert (record : Json)
  | delete (record : Json)
  /-- all records at once -/
  | set (records : List Json)

namespace Attached

/-- Puts a record in place of the first one that is the same, or at the end. The record
that it replaces is given too. -/
def insert (identityKey : String) (incoming : Json) : List Json → List Json × Option Json
  | [] => ([incoming], none)
  | record :: rest =>
    if sameRecord identityKey record incoming then (incoming :: rest, some record)
    else
      let (rest, replaced) := insert identityKey incoming rest
      (record :: rest, replaced)

/-- Takes out the first record that is the same, if there is one. -/
def delete (identityKey : String) (outgoing : Json) : List Json → Option (List Json × Json)
  | [] => none
  | record :: rest =>
    if sameRecord identityKey record outgoing then some (rest, record)
    else (delete identityKey outgoing rest).map fun (rest, removed) => (record :: rest, removed)

/-- A changed attachment. -/
structure Change where
  content : Json
  removed : Option Json := none
  added : Option Json := none

/-- Applies a delta to a list of attached records; null counts as empty for an insertion
only. Nothing changes where there is no list, and a deletion needs a record to delete. -/
def changeMany? (identityKey : String) (content : Json) : Delta → Option Change
  | .insert incoming =>
    match content with
    | .null => some { content := .array [incoming], added := some incoming }
    | .array records =>
      let (records, removed) := insert identityKey incoming records
      some { content := .array records, removed, added := some incoming }
    | _ => none
  | .delete outgoing =>
    match content with
    | .array records =>
      (delete identityKey outgoing records).map fun (records, removed) =>
        { content := .array records, removed := some removed }
    | _ => none
  | .set records => some { content := .array records }

/-- Applies a delta to a single attached record. A deletion needs the same record. -/
def changeOne? (identityKey : String) (content : Json) : Delta → Option Change
  | .insert incoming =>
    some { content := incoming, removed := content.nonNull?, added := some incoming }
  | .delete outgoing =>
    if content.isNull || !sameRecord identityKey content outgoing then none
    else some { content := .null, removed := some content }
  | .set records => some { content := records.head?.getD .null }

/-- Applies a delta to the content of an attachment. -/
def change? (many : Bool) (identityKey : String) (content : Json) (delta : Delta) :
    Option Change :=
  if many then changeMany? identityKey content delta else changeOne? identityKey content delta

end Attached

end NestedRecord
