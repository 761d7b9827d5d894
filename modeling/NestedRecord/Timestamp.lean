import NestedRecord.Number.Numeral

/-!
# Timestamps

Instants are written as a calendar date, a time of day and an offset. The calendar
is the Gregorian one, extended over all years.

* `Timestamp.isValid` says whether a text is such a date and time.
* `Timestamp.ofMillis?` writes a count of milliseconds since the start of 1970 in
  UTC, for the years from -262143 to 262142.
-/

namespace NestedRecord

namespace Timestamp

/-! ## The calendar -/

def isLeapYear (year : Int) : Bool :=
  year % 4 == 0 && (year % 100 != 0 || year % 400 == 0)

/-- The number of days of a month, none for a month that does not exist. -/
def daysInMonth (year : Int) (month : Nat) : Nat :=
  match month with
  | 1 | 3 | 5 | 7 | 8 | 10 | 12 => 31
  | 4 | 6 | 9 | 11 => 30
  | 2 => if isLeapYear year then 29 else 28
  | _ => 0

/-- A date of the calendar. -/
structure Date where
  year : Int
  month : Nat
  day : Nat
deriving DecidableEq

/-- The date that lies `days` after the first of January 1970. Years are counted
from March, so that a leap day is the last of its year; 400 years have 146097 days. -/
def Date.ofDays (days : Int) : Date :=
  -- from the first of March of the year 0 to the first of January 1970
  let shifted := days + 719468
  let cycle := Int.fdiv shifted 146097
  let dayOfCycle := (Int.fmod shifted 146097).toNat
  let yearOfCycle :=
    -- without the leap days before it, every year has 365 days
    (dayOfCycle - dayOfCycle / 1460 + dayOfCycle / 36524 - dayOfCycle / 146096) / 365
  let dayOfYear := dayOfCycle - (365 * yearOfCycle + yearOfCycle / 4 - yearOfCycle / 100)
  -- from March on, five months in a row have 153 days
  let monthFromMarch := (5 * dayOfYear + 2) / 153
  let day := dayOfYear - (153 * monthFromMarch + 2) / 5 + 1
  let month := if monthFromMarch < 10 then monthFromMarch + 3 else monthFromMarch - 9
  let year := yearOfCycle + 400 * cycle
  ⟨if month ≤ 2 then year + 1 else year, month, day⟩

/-! ## Reading -/

open Numeral

/-- The value of a fixed number of digits at the front, and what follows them. -/
def digits? (count : Nat) (cs : List Char) : Option (Nat × List Char) :=
  let front := cs.take count
  if front.length = count ∧ front.all isDigit then some (digitsValue front, cs.drop count)
  else none

/-- What follows a given character. -/
def after? (c : Char) : List Char → Option (List Char)
  | [] => none
  | d :: rest => if d = c then some rest else none

/-- What follows an optional fraction of a second: a point and at least one digit. -/
def afterFraction? : List Char → Option (List Char)
  | '.' :: rest =>
    let (fraction, rest) := spanDigits rest
    if fraction.isEmpty then none else some rest
  | cs => some cs

/-- Whether the text is an offset: `Z`, or a sign, hours below 24 and minutes. -/
def isOffset : List Char → Bool
  | [] => false
  | c :: rest =>
    if c = 'Z' ∨ c = 'z' then rest.isEmpty
    else if c = '+' ∨ c = '-' ∨ c = '\u2212' then
      let fields := do
        let (hours, rest) ← digits? 2 rest
        let (minutes, rest) ← (after? ':' rest).bind (digits? 2)
        some (hours, minutes, rest)
      match fields with
      | some (hours, minutes, []) => decide (hours < 24) && decide (minutes < 60)
      | _ => false
    else false

/-- The instant written by a text as far as its offset: the date, hour, minute and
second, and what follows. -/
def fields? (cs : List Char) : Option (Date × Nat × Nat × Nat × List Char) := do
  let (year, rest) ← digits? 4 cs
  let (month, rest) ← (after? '-' rest).bind (digits? 2)
  let (day, rest) ← (after? '-' rest).bind (digits? 2)
  match rest with
  | [] => none
  | c :: rest =>
    if c = 'T' ∨ c = 't' ∨ c = ' ' then
      let (hour, rest) ← digits? 2 rest
      let (minute, rest) ← (after? ':' rest).bind (digits? 2)
      let (second, rest) ← (after? ':' rest).bind (digits? 2)
      let rest ← afterFraction? rest
      some (⟨year, month, day⟩, hour, minute, second, rest)
    else none

/-- Whether a text is a date and time with an offset: the date exists, the time is on
a clock (a leap second may stand in any minute), and nothing else is written. -/
def isValid (text : String) : Bool :=
  match fields? text.toList with
  | none => false
  | some (date, hour, minute, second, offset) =>
    decide (1 ≤ date.day) && decide (date.day ≤ daysInMonth date.year date.month) &&
      decide (hour < 24) && decide (minute < 60) && decide (second ≤ 60) && isOffset offset

/-! ## Writing -/

/-- A natural number with leading zeros up to a width. -/
def padded (width n : Nat) : String :=
  let digits := Nat.toDigits 10 n
  String.ofList (List.replicate (width - digits.length) '0' ++ digits)

/-- A year: four digits, and with a sign outside `0` to `9999`. -/
def yearText (year : Int) : String :=
  let sign := if year < 0 then "-" else if 9999 < year then "+" else ""
  sign ++ padded 4 year.natAbs

/-- The instant a count of milliseconds after the start of 1970, in UTC. -/
def ofMillis? (millis : Int) : Option String :=
  if -8334601228800000 ≤ millis ∧ millis ≤ 8210266876799999 then
    let date := Date.ofDays (Int.fdiv millis 86400000)
    let ofDay := (Int.fmod millis 86400000).toNat
    some (yearText date.year ++ "-" ++ padded 2 date.month ++ "-" ++ padded 2 date.day ++
      "T" ++ padded 2 (ofDay / 3600000) ++ ":" ++ padded 2 (ofDay / 60000 % 60) ++
      ":" ++ padded 2 (ofDay / 1000 % 60) ++ "." ++ padded 3 (ofDay % 1000) ++ "Z")
  else none

end Timestamp

end NestedRecord
