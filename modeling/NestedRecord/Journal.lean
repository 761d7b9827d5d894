import NestedRecord.Json.Basic
import NestedRecord.Sorting

/-!
# Journals

What compilation and compiled procedures report is a list of notices, oldest first.

* `Notice` is one report: a named event with fields, or a failure that was recovered
  from, with labels that locate it.
* `Notice.entry` is the form in which notices are kept and shown.
* `eventLine` writes an event as one line of JSON, and `LineLog` chooses which
  notices are written where.
-/

namespace NestedRecord

/-- How important a notice is, in ascending order. -/
inductive Severity where
  | trace
  | info
  | warn
  | error
deriving DecidableEq

namespace Severity

def name : Severity → String
  | .trace => "TRACE"
  | .info => "INFO"
  | .warn => "WARN"
  | .error => "ERROR"

def ofName? : String → Option Severity
  | "TRACE" => some .trace
  | "INFO" => some .info
  | "WARN" => some .warn
  | "ERROR" => some .error
  | _ => none

def rank : Severity → Nat
  | .trace => 0
  | .info => 1
  | .warn => 2
  | .error => 3

end Severity

/-- A report. -/
inductive Notice where
  | event (severity : Severity) (name : String) (fields : List (String × String))
  /-- a failure that was recovered from -/
  | recovered (labels : List String) (message : String)
deriving DecidableEq

/-- The reports of a run, oldest first. -/
abbrev Journal := List Notice

/-- A notice as it is kept in memory. -/
structure Entry where
  severity : Severity
  event : String
  labels : List String
  message : String
deriving DecidableEq

namespace Notice

/-- The name under which recovered failures are reported. -/
def recoveredEvent : String := "PROCEDURE_RECOVERED"

/-- The notice as an entry: the fields of an event become labels. -/
def entry : Notice → Entry
  | .event severity name fields =>
    ⟨severity, name, fields.map fun field => field.1 ++ "=" ++ field.2, ""⟩
  | .recovered labels message => ⟨.warn, recoveredEvent, labels, message⟩

/-- Severity, name and fields of the notice when it is written as an event. -/
def asEvent : Notice → Severity × String × List (String × String)
  | .event severity name fields => (severity, name, fields)
  | .recovered labels message =>
    (.warn, recoveredEvent, [("labels", ".".intercalate labels), ("error", message)])

end Notice

/-- An event as one line of JSON: its name and severity first, then the fields by key.
Of fields with one key the last is written, in the place of the first. -/
def eventLine (severity : Severity) (name : String) (fields : List (String × String)) : String :=
  let sorted := stableSort (fun a b => textLe a.1 b.1) fields
  let members := ("event", name) :: ("severity", severity.name) :: sorted
  let object := Fields.ofPairs (members.map fun member => (member.1, Json.string member.2))
  (Json.object object).render ++ "\n"

/-- Where a line is written. -/
inductive Stream where
  | output
  | errors
deriving DecidableEq

/-- Writes notices as lines, those below a least severity left out. -/
structure LineLog where
  least : Severity := .info

namespace LineLog

/-- The line of a notice and where it goes; none for a notice below the least severity. -/
def write? (log : LineLog) (notice : Notice) : Option (Stream × String) :=
  let (severity, name, fields) := notice.asEvent
  if severity.rank < log.least.rank then none
  else
    let stream := if severity = .error then Stream.errors else .output
    some (stream, eventLine severity name fields)

/-- All that is written to one stream. -/
def written (log : LineLog) (stream : Stream) (notices : List Notice) : String :=
  String.join ((notices.filterMap log.write?).filterMap fun (target, line) =>
    if target = stream then some line else none)

end LineLog

end NestedRecord
