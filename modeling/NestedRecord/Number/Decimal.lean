import NestedRecord.Number.Double

/-!
# Decimals and binary64 numbers

A `Decimal` is `digits · 10 ^ exponent`. Two exact functions link decimals and
binary64 numbers:

* `Decimal.toDouble` reads a decimal: the nearest binary64 number, ties to even.
* `Finite.shortest` writes a magnitude: the decimal with the fewest digits that
  reads back, and of several such decimals the nearest one.

`Decimal.readsBack` is the test both rest on: a decimal reads back as a magnitude
when it lies in the interval between the midpoints to the two neighbours, ends
included exactly when the magnitude's last significant bit is even.
-/

namespace NestedRecord

/-- The non-negative number `digits · 10 ^ exponent`. -/
structure Decimal where
  digits : Nat
  exponent : Int
deriving DecidableEq

namespace Decimal

/-- The number of decimal digits of a natural number; `0` has one. -/
def digitCount (n : Nat) : Nat := (Nat.toDigits 10 n).length

/-- The binary64 number nearest to a decimal, ties to even. A decimal of at least
`10³¹⁰` is infinite and one below `10⁻³³⁰` is zero, which spares the large powers
of ten. -/
def toDouble (negative : Bool) (d : Decimal) : Double :=
  let magnitude := d.exponent + digitCount d.digits
  if d.digits = 0 ∨ magnitude < -330 then .finite ⟨negative, 0, representable_zero⟩
  else if 311 < magnitude then .infinite negative
  else
    Double.ofUnits negative (d.digits * Nat.pow 10 d.exponent.toNat * unitsPerOne)
      (Nat.pow 10 (-d.exponent).toNat)

/-- The order of a decimal and of a quarter of `quarters` units, exactly. -/
def compareQuarters (d : Decimal) (quarters : Nat) : Ordering :=
  compare (4 * d.digits * Nat.pow 10 d.exponent.toNat * unitsPerOne)
    (quarters * Nat.pow 10 (-d.exponent).toNat)

/-- Whether a decimal lies in the interval of numbers that round to `units`. Just
above a power of two the neighbour below is half as far as the one above. -/
def readsBack (d : Decimal) (units : Nat) : Bool :=
  let gap := Nat.pow 2 (units.log2 - 52)
  let narrow := decide (53 ≤ units.log2) && units == Nat.pow 2 units.log2
  -- in quarters of a unit, so that both ends are whole
  let low := 4 * units - (if narrow then gap else 2 * gap)
  let high := 4 * units + 2 * gap
  let ends := units / gap % 2 == 0
  let atLow := d.compareQuarters low
  let atHigh := d.compareQuarters high
  (atLow == .gt || (ends && atLow == .eq)) && (atHigh == .lt || (ends && atHigh == .eq))

/-- Moves the trailing zeros of the digits into the exponent, at most `fuel` of
them. -/
def stripZeros : Nat → Decimal → Decimal
  | 0, d => d
  | fuel + 1, d =>
    if d.digits ≠ 0 ∧ d.digits % 10 = 0 then stripZeros fuel ⟨d.digits / 10, d.exponent + 1⟩
    else d

end Decimal

/-- Which of two equally near decimals is taken. -/
inductive TieRule where
  /-- the one with the even last digit -/
  | toEven
  /-- the larger one -/
  | up
deriving DecidableEq

namespace Finite

/-- The least `k` with the magnitude below `10 ^ k`. The binary logarithm gives a
first guess that is never too large, and three corrections suffice. -/
def decimalScale (units : Nat) : Int :=
  let guess := ((units.log2 : Int) - 1074) * 30103 / 100000
  let below (k : Int) : Bool := Decimal.compareQuarters ⟨1, k⟩ (4 * units) == .gt
  if below guess then guess
  else if below (guess + 1) then guess + 1
  else if below (guess + 2) then guess + 2
  else guess + 3

/-- The neighbours of the magnitude on the grid of multiples of `10 ^ exponent`:
the nearer of those that read back. -/
def nearestOnGrid? (tie : TieRule) (units : Nat) (exponent : Int) : Option Decimal :=
  let num := units * Nat.pow 10 (-exponent).toNat
  let den := unitsPerOne * Nat.pow 10 exponent.toNat
  let below := num / den
  let lower : Decimal := ⟨below, exponent⟩
  let upper : Decimal := ⟨below + 1, exponent⟩
  if lower.readsBack units then
    if upper.readsBack units then
      if 2 * (num % den) < den then some lower
      else if den < 2 * (num % den) then some upper
      else
        match tie with
        | .toEven => if below % 2 = 0 then some lower else some upper
        | .up => some upper
    else some lower
  else if upper.readsBack units then some upper
  else none

/-- The fewest decimal digits that read back as the magnitude of `x`, and of
several decimals of that length the nearest. Seventeen digits always suffice; the
exact value stands behind the search. Trailing zeros are in the exponent. -/
def shortest (tie : TieRule) (x : Finite) : Decimal :=
  if x.units = 0 then ⟨0, 0⟩
  else
    let scale := decimalScale x.units
    let found := (List.range 17).findSome? fun n =>
      nearestOnGrid? tie x.units (scale - (n + 1 : Nat))
    let exact : Decimal := ⟨x.units * Nat.pow 5 1074, -1074⟩
    let d := found.getD exact
    d.stripZeros (Decimal.digitCount d.digits)

end Finite

end NestedRecord
