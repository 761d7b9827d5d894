import Mathlib.Tactic.IntervalCases
import NestedRecord.Proofs.Number.Numeral
import NestedRecord.Scalar

/-!
# Timestamps that are written

Milliseconds are written as a date and a time in UTC. Where the year has four digits the text is
read as the same date and time again, so it is a valid timestamp; and it is no numeral.

The calendar is computed from a count of days without tables, over years that begin in March so that
the leap day comes last. That a date exists is a statement about this arithmetic: the day of the
year is at most 365, and it is 365 only before a leap year, so that the 29th of February is given to
leap years and no month has a day too many.

- `Date.exists_ofDays`: the calendar has the date that is counted from a number of days.
- `Clock` is what a clock shows in such a year; `Clock.text` is how it is written, always with
  24 characters.
- `Clock.isValid_text` and `Clock.numeral?_text`: the text is a timestamp and no numeral.
- `exists_clock`: these are the timestamps of milliseconds.
-/

namespace NestedRecord

/-- A text is kept if there are no blanks at its ends. -/
theorem Text.trim_eq_self {text : String} {first last : Char} {rest front : List Char}
    (hfirst : text.toList = first :: rest) (hlast : text.toList = front ++ [last])
    (hfirstBlank : isBlank first = false) (hlastBlank : isBlank last = false) :
    trim text = text := by
  unfold trim
  rw [hfirst, List.dropWhile_cons_of_neg (Bool.eq_false_iff.mp hfirstBlank), ← hfirst, hlast,
    List.reverse_append, List.reverse_singleton, List.singleton_append,
    List.dropWhile_cons_of_neg (Bool.eq_false_iff.mp hlastBlank), List.reverse_cons,
    List.reverse_reverse, ← hlast, String.ofList_toList]

theorem Numeral.isBlank_of_isDigit {c : Char} (h : isDigit c = true) : Text.isBlank c = false := by
  have hrange : 48 ≤ c.toNat ∧ c.toNat ≤ 57 := by
    simpa [isDigit, Char.le_def, UInt32.le_iff_toNat_le] using h
  simp [Text.isBlank, Text.blankRanges]
  omega

namespace Timestamp

open Numeral

/-! ## The calendar -/

/-- Every fourth year is a leap year, save every hundredth that is not a four hundredth. -/
theorem isLeapYear_iff (year : Int) :
    isLeapYear year = true ↔ year % 4 = 0 ∧ (year % 100 = 0 → year % 400 = 0) := by
  simp [isLeapYear, or_iff_not_imp_left]

/-- A date that the calendar has. -/
structure Date.Exists (date : Date) : Prop where
  day_pos : 1 ≤ date.day
  day_le : date.day ≤ daysInMonth date.year date.month

theorem Date.Exists.month_le {date : Date} (h : date.Exists) : date.month ≤ 12 := by
  have hpos := Nat.le_trans h.day_pos h.day_le
  unfold daysInMonth at hpos
  split at hpos <;> omega

theorem daysInMonth_le (year : Int) (month : Nat) : daysInMonth year month ≤ 31 := by
  unfold daysInMonth
  split <;> (try split) <;> omega

/-- The day of a year in a cycle of 400 years that begin in March. A leap day is the last day of its
year, so only the year before a leap year has 366 days. -/
theorem dayOfYear_le {day year dayOfYear : Nat} (hday : day < 146097)
    (hyear : (day - day / 1460 + day / 36524 - day / 146096) / 365 = year)
    (hdayOfYear : day - (365 * year + year / 4 - year / 100) = dayOfYear) :
    dayOfYear ≤ 364 ∨
      dayOfYear = 365 ∧ (year + 1) % 4 = 0 ∧ ((year + 1) % 100 = 0 → (year + 1) % 400 = 0) := by
  by_cases hlast : day = 146096
  · subst hlast
    omega
  -- a century has 36524 days, four years without a turn of the century have 1461
  obtain ⟨century, four, rest, hsplit, hcentury, hfour, hrest, hend⟩ : ∃ century four rest,
      day = 36524 * century + 1461 * four + rest ∧ century ≤ 3 ∧ four ≤ 24 ∧ rest ≤ 1460 ∧
        1461 * four + rest < 36524 :=
    ⟨day / 36524, day % 36524 / 1461, day % 36524 % 1461, by omega, by omega, by omega, by omega,
      by omega⟩
  have hcenturies : day / 36524 = century := by omega
  have hcycles : day / 146096 = 0 := by omega
  -- `day / 1460` runs ahead of the leap days by one at the end of four years
  obtain ⟨ahead, hahead, hfours⟩ : ∃ ahead, (ahead = 0 ∧ rest < 1460 ∨ ahead = 1 ∧ 1364 ≤ rest) ∧
      day / 1460 = 25 * century + four + ahead := by
    by_cases h : 24 * century + four + rest < 1460
    · exact ⟨0, by omega, by omega⟩
    · exact ⟨1, by omega, by omega⟩
  obtain ⟨within, hwithin⟩ : ∃ within, (rest - ahead) / 365 = within := ⟨_, rfl⟩
  have hthree : within ≤ 3 := by omega
  have hyears : year = 100 * century + 4 * four + within := by
    rw [← hyear, hcenturies, hcycles, hfours]
    omega
  have hrests : dayOfYear = rest - 365 * within := by
    have hleaps : year / 4 = 25 * century + four := by omega
    have hskipped : year / 100 = century := by omega
    rw [← hdayOfYear, hleaps, hskipped, hyears]
    omega
  by_cases hleap : within = 3 ∧ rest = 1460
  · have hnext : year + 1 = 100 * century + 4 * (four + 1) := by omega
    omega
  · exact .inl (by omega)

/-- The months of a year that begins in March. -/
theorem day_le_daysInMonth {dayOfYear fromMarch : Nat} {year : Int} (hdays : dayOfYear ≤ 365)
    (hmonth : (5 * dayOfYear + 2) / 153 = fromMarch)
    (hleap : dayOfYear = 365 → isLeapYear (year + 1) = true) :
    dayOfYear - (153 * fromMarch + 2) / 5 + 1 ≤ daysInMonth
      (if (if fromMarch < 10 then fromMarch + 3 else fromMarch - 9) ≤ 2 then year + 1 else year)
      (if fromMarch < 10 then fromMarch + 3 else fromMarch - 9) := by
  have hle : fromMarch ≤ 11 := by omega
  by_cases hlast : fromMarch = 11
  · subst hlast
    show dayOfYear - 337 + 1 ≤ if isLeapYear (year + 1) then 29 else 28
    split
    · omega
    · next hplain =>
      have hne : dayOfYear ≠ 365 := fun hlast => hplain (hleap hlast)
      omega
  · interval_cases fromMarch <;> simp [daysInMonth] <;> omega

/-- The calendar has a date for every number of days. -/
theorem Date.exists_ofDays (days : Int) : (Date.ofDays days).Exists := by
  -- the steps of the computation are named, so that each is an equation for `omega`
  obtain ⟨cycle, hcycle⟩ : ∃ cycle, Int.fdiv (days + 719468) 146097 = cycle := ⟨_, rfl⟩
  obtain ⟨day, hday⟩ : ∃ day, (Int.fmod (days + 719468) 146097).toNat = day := ⟨_, rfl⟩
  obtain ⟨year, hyear⟩ : ∃ year, (day - day / 1460 + day / 36524 - day / 146096) / 365 = year :=
    ⟨_, rfl⟩
  obtain ⟨dayOfYear, hdayOfYear⟩ : ∃ dayOfYear,
    day - (365 * year + year / 4 - year / 100) = dayOfYear := ⟨_, rfl⟩
  have hlt : day < 146097 := by
    have hmod := Int.fmod_lt_of_pos (days + 719468) (show (0 : Int) < 146097 by decide)
    omega
  have hbound := dayOfYear_le hlt hyear hdayOfYear
  constructor
  · simp only [ofDays, hcycle, hday, hyear, hdayOfYear]
    omega
  · simp only [ofDays, hcycle, hday, hyear, hdayOfYear]
    refine day_le_daysInMonth (by omega) rfl fun hlast => ?_
    rw [isLeapYear_iff]
    omega

/-- The year in UTC. -/
def year (millis : Int) : Int := (Date.ofDays (Int.fdiv millis 86400000)).year

/-! ## Padded numbers -/

section Padded

variable {width n : Nat}

theorem isDigit_of_mem_padded {c : Char} (hc : c ∈ (padded width n).toList) : isDigit c = true := by
  rw [padded, String.toList_ofList] at hc
  rcases List.mem_append.mp hc with hc | hc
  · rw [(List.mem_replicate.mp hc).2]
    rfl
  · exact isDigit_of_mem_toDigits hc

variable (h : n < 10 ^ width) (hwidth : 0 < width)

include h hwidth

theorem length_padded : (padded width n).toList.length = width := by
  have hlength := (Nat.length_toDigits_le_iff (b := 10) (by decide) hwidth).mpr h
  rw [padded, String.toList_ofList, List.length_append, List.length_replicate]
  omega

theorem padded_ne_nil : (padded width n).toList ≠ [] :=
  List.ne_nil_of_length_pos (by rwa [length_padded h hwidth])

/-- A padded number is read back. -/
theorem digits?_padded (rest : List Char) :
    digits? width ((padded width n).toList ++ rest) = some (n, rest) := by
  have hlength := length_padded h hwidth
  have hdigits : (padded width n).toList.all isDigit = true :=
    List.all_eq_true.mpr fun c hc => isDigit_of_mem_padded hc
  have hvalue : digitsValue (padded width n).toList = n := by
    rw [padded, String.toList_ofList, digitsValue_replicate_zero, digitsValue_toDigits]
  unfold digits?
  simp only [List.take_left' hlength, List.drop_left' hlength]
  rw [if_pos ⟨hlength, hdigits⟩, hvalue]

end Padded

/-! ## Clocks -/

/-- What a clock shows in UTC, in a year of four digits. -/
structure Clock where
  year : Nat
  month : Nat
  day : Nat
  hour : Nat
  minute : Nat
  second : Nat
  milli : Nat
  year_lt : year < 10 ^ 4
  exists_date : Date.Exists ⟨year, month, day⟩
  hour_lt : hour < 24
  minute_lt : minute < 60
  second_lt : second < 60
  milli_lt : milli < 10 ^ 3

namespace Clock

variable (clock : Clock)

/-- How a clock is written. -/
def text : String :=
  padded 4 clock.year ++ "-" ++ padded 2 clock.month ++ "-" ++ padded 2 clock.day ++
    "T" ++ padded 2 clock.hour ++ ":" ++ padded 2 clock.minute ++
    ":" ++ padded 2 clock.second ++ "." ++ padded 3 clock.milli ++ "Z"

/-- Each field of a clock fits its width. -/
theorem fits : clock.month < 10 ^ 2 ∧ clock.day < 10 ^ 2 ∧ clock.hour < 10 ^ 2 ∧
    clock.minute < 10 ^ 2 ∧ clock.second < 10 ^ 2 := by
  have hmonth : clock.month ≤ 12 := clock.exists_date.month_le
  have hday : clock.day ≤ 31 :=
    Nat.le_trans clock.exists_date.day_le (daysInMonth_le clock.year clock.month)
  have hhour := clock.hour_lt
  have hminute := clock.minute_lt
  have hsecond := clock.second_lt
  omega

/-- The characters of a timestamp, field by field. -/
theorem toList_text : clock.text.toList =
    (padded 4 clock.year).toList ++ '-' :: ((padded 2 clock.month).toList ++ '-' ::
      ((padded 2 clock.day).toList ++ 'T' :: ((padded 2 clock.hour).toList ++ ':' ::
        ((padded 2 clock.minute).toList ++ ':' :: ((padded 2 clock.second).toList ++ '.' ::
          ((padded 3 clock.milli).toList ++ ['Z'])))))) := by
  simp [text]

/-- Timestamps are of one length. -/
theorem length_text : clock.text.length = 24 := by
  obtain ⟨hmonth, hday, hhour, hminute, hsecond⟩ := clock.fits
  rw [← String.length_toList, toList_text]
  simp only [List.length_append, List.length_cons, List.length_nil,
    length_padded clock.year_lt (by decide), length_padded hmonth (by decide),
    length_padded hday (by decide), length_padded hhour (by decide),
    length_padded hminute (by decide), length_padded hsecond (by decide),
    length_padded clock.milli_lt (by decide)]

/-- The fields of a clock are read back. -/
theorem fields?_text : fields? clock.text.toList =
    some (⟨clock.year, clock.month, clock.day⟩, clock.hour, clock.minute, clock.second, ['Z']) := by
  obtain ⟨hmonth, hday, hhour, hminute, hsecond⟩ := clock.fits
  have hfraction :
      afterFraction? ('.' :: ((padded 3 clock.milli).toList ++ ['Z'])) = some ['Z'] := by
    rw [afterFraction?, spanDigits_append (fun c hc => isDigit_of_mem_padded hc) (by decide)]
    simp [padded_ne_nil clock.milli_lt (by decide)]
  rw [toList_text, fields?]
  simp only [digits?_padded clock.year_lt (by decide), digits?_padded hmonth (by decide),
    digits?_padded hday (by decide), digits?_padded hhour (by decide),
    digits?_padded hminute (by decide), digits?_padded hsecond (by decide), after?, hfraction,
    Option.bind_eq_bind, Option.bind_some, if_true, true_or]

/-- A timestamp that is written is valid. -/
theorem isValid_text : isValid clock.text = true := by
  have hsecond : clock.second ≤ 60 := Nat.le_of_lt clock.second_lt
  unfold isValid
  rw [fields?_text]
  simp only [Bool.and_eq_true, decide_eq_true_eq]
  exact ⟨⟨⟨⟨⟨clock.exists_date.day_pos, clock.exists_date.day_le⟩, clock.hour_lt⟩,
    clock.minute_lt⟩, hsecond⟩, rfl⟩

/-- There is no blank at the ends of a timestamp. -/
theorem trim_text : Text.trim clock.text = clock.text := by
  obtain ⟨first, others, hyear⟩ :=
    List.exists_cons_of_ne_nil (padded_ne_nil clock.year_lt (by decide))
  have hdigit : isDigit first = true :=
    isDigit_of_mem_padded (by rw [hyear]; exact List.mem_cons_self)
  have hfirst := clock.toList_text
  rw [hyear, List.cons_append] at hfirst
  exact Text.trim_eq_self hfirst String.toList_append (isBlank_of_isDigit hdigit) rfl

/-- A timestamp is no numeral. -/
theorem numeral?_text : Conversion.numeral? clock.text = none := by
  rw [Conversion.numeral?, trim_text, ← String.ofList_toList (s := clock.text), toList_text]
  exact parse?_eq_none (fun c hc => isDigit_of_mem_padded hc)
    (padded_ne_nil clock.year_lt (by decide)) (by decide) (by decide) (by decide)

end Clock

/-- In years of four digits the timestamp of milliseconds is what a clock shows. -/
theorem exists_clock {millis : Int} {text : String} (h : ofMillis? millis = some text)
    (hyear : 0 ≤ year millis ∧ year millis ≤ 9999) : ∃ clock : Clock, clock.text = text := by
  obtain ⟨hlow, hhigh⟩ := hyear
  obtain ⟨ofDay, hofDay⟩ : ∃ ofDay, (Int.fmod millis 86400000).toNat = ofDay := ⟨_, rfl⟩
  have hday : ofDay < 86400000 := by
    have hmod := Int.fmod_lt_of_pos millis (show (0 : Int) < 86400000 by decide)
    omega
  have hdate := Date.exists_ofDays (Int.fdiv millis 86400000)
  unfold year at hlow hhigh
  unfold ofMillis? at h
  simp only [hofDay] at h
  generalize Date.ofDays (Int.fdiv millis 86400000) = date at hlow hhigh hdate h
  obtain ⟨year, month, day⟩ := date
  lift year to Nat using hlow
  have hyear : year < 10 ^ 4 := by
    simp only at hhigh
    omega
  -- only years of four digits are written without a sign
  have hyearText : yearText (year : Int) = padded 4 year := by
    have hsign : ¬ ((year : Int) < 0) ∧ ¬ (9999 < (year : Int)) := by omega
    rw [yearText, if_neg hsign.1, if_neg hsign.2, String.empty_append, Int.natAbs_natCast]
  split at h
  · rw [hyearText] at h
    exact ⟨⟨year, month, day, ofDay / 3600000, ofDay / 60000 % 60, ofDay / 1000 % 60,
      ofDay % 1000, hyear, hdate, by omega, by omega, by omega, by omega⟩, Option.some.inj h⟩
  · cases h

end Timestamp

end NestedRecord
