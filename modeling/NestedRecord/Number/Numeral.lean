import NestedRecord.Number.Decimal

/-!
# Numerals

How numbers are read from and written to text.

* `Numeral.parse?` reads a numeral: an optional sign and either `inf`,
  `infinity` or `nan` in any case, or decimal digits with an optional point and
  an optional exponent. Magnitudes out of range become infinite or zero.
* `Finite.toJsonText` writes the shortest digits that read back: positionally
  from `10⁻⁵` up to `10¹⁶`, always with a fraction, and otherwise with a signed
  exponent.
* `Finite.toPlainText` writes them positionally whatever the exponent.
-/

namespace NestedRecord

namespace Numeral

def isDigit (c : Char) : Bool := decide ('0' ≤ c) && decide (c ≤ '9')

/-- The natural number written by decimal digits, most significant first. -/
def digitsValue (digits : List Char) : Nat :=
  digits.foldl (fun n c => 10 * n + (c.toNat - '0'.toNat)) 0

/-- The digits at the front and what follows them. -/
def spanDigits (cs : List Char) : List Char × List Char :=
  (cs.takeWhile isDigit, cs.dropWhile isDigit)

/-- An optional sign: whether it is a minus, and what follows it. -/
def splitSign : List Char → Bool × List Char
  | '-' :: rest => (true, rest)
  | '+' :: rest => (false, rest)
  | cs => (false, cs)

/-- An exponent after its letter: an optional sign and at least one digit. -/
def parseExponent? (cs : List Char) : Option Int :=
  let (negative, rest) := splitSign cs
  if rest.isEmpty || !rest.all isDigit then none
  else
    let n : Int := digitsValue rest
    some (if negative then -n else n)

/-- Digits with an optional point (a digit on at least one side) and an optional
exponent. -/
def parseDecimal? (cs : List Char) : Option Decimal :=
  let (whole, rest) := spanDigits cs
  let (fraction, rest) :=
    match rest with
    | '.' :: rest => spanDigits rest
    | rest => ([], rest)
  if whole.isEmpty && fraction.isEmpty then none
  else
    let decimal (exponent : Int) : Decimal :=
      ⟨digitsValue (whole ++ fraction), exponent - fraction.length⟩
    match rest with
    | [] => some (decimal 0)
    | c :: rest => if c = 'e' ∨ c = 'E' then (parseExponent? rest).map decimal else none

/-- Reads a numeral; nothing may stand before or after it. -/
def parse? (text : String) : Option Double :=
  let (negative, rest) := splitSign text.toList
  let word := String.ofList (rest.map Char.toLower)
  if word = "inf" ∨ word = "infinity" then some (.infinite negative)
  else if word = "nan" then some .nan
  else (parseDecimal? rest).map (·.toDouble negative)

/-- The decimal digits of a natural number. -/
def natText (n : Nat) : String := String.ofList (Nat.toDigits 10 n)

/-- An integer in decimal. -/
def intText (n : Int) : String := if n < 0 then "-" ++ natText n.natAbs else natText n.natAbs

/-- Digits with the point placed so that they mean `digits · 10 ^ exponent`; a
whole number gets the fraction `whole`. -/
def positional (digits : List Char) (exponent : Int) (whole : List Char) : List Char :=
  if 0 ≤ exponent then digits ++ List.replicate exponent.toNat '0' ++ whole
  else
    let places := (-exponent).toNat
    let padded := List.replicate (places + 1 - digits.length) '0' ++ digits
    padded.take (padded.length - places) ++ '.' :: padded.drop (padded.length - places)

/-- One digit, the others behind a point, and the exponent with its sign. -/
def scientific (digits : List Char) (exponent : Int) : List Char :=
  let sign := if exponent < 0 then '-' else '+'
  let mantissa :=
    match digits with
    | first :: second :: rest => first :: '.' :: second :: rest
    | digits => digits
  mantissa ++ 'e' :: sign :: Nat.toDigits 10 exponent.natAbs

end Numeral

namespace Finite

open Numeral

/-- The number as JSON text. The leading digit's exponent decides the form:
positional from `-5` to `15`, otherwise scientific. -/
def toJsonText (x : Finite) : String :=
  let d := x.shortest .toEven
  let digits := Nat.toDigits 10 d.digits
  let leading := d.exponent + digits.length - 1
  let body :=
    if -5 ≤ leading ∧ leading < 16 then positional digits d.exponent ['.', '0']
    else scientific digits leading
  String.ofList (if x.negative then '-' :: body else body)

/-- The number in positional notation, a whole number without a fraction. -/
def toPlainText (x : Finite) : String :=
  let d := x.shortest .up
  let body := positional (Nat.toDigits 10 d.digits) d.exponent []
  String.ofList (if x.negative then '-' :: body else body)

end Finite

end NestedRecord
