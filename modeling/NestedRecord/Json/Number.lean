import NestedRecord.Number.Numeral

/-!
# JSON numbers

A JSON number is either a whole number of the signed or unsigned 64-bit range or a
finite binary64 number. The two kinds stay apart: `1` and `1.0` are different
values, and only `Number.toDouble` brings them together.

* `Whole` is an integer between `-2⁶³` and `2⁶⁴ - 1`.
* `Number.same` is equality of values within one kind.
* `Number.ofDouble?` keeps whole doubles below `9 · 10¹⁵` whole.
-/

namespace NestedRecord

/-- An integer that fits 64 bits, signed or unsigned. -/
structure Whole where
  val : Int
  inRange : -9223372036854775808 ≤ val ∧ val ≤ 18446744073709551615
deriving DecidableEq

namespace Whole

/-- The integer, if it fits. -/
def ofInt? (n : Int) : Option Whole :=
  if h : -9223372036854775808 ≤ n ∧ n ≤ 18446744073709551615 then some ⟨n, h⟩ else none

/-- The nearest integer of the signed 64-bit range. -/
def clamp (n : Int) : Whole :=
  ⟨clampInt64 n, by unfold clampInt64; omega⟩

/-- The nearest natural number of the unsigned 64-bit range. -/
def ofNat (n : Nat) : Whole := ⟨min n 18446744073709551615, by omega⟩

/-- Whether the integer fits 64 signed bits. -/
def isSigned (n : Whole) : Bool := decide (n.val ≤ 9223372036854775807)

instance : Inhabited Whole := ⟨ofNat 0⟩

end Whole

/-- A JSON number. -/
inductive Number where
  /-- a number written without fraction and exponent -/
  | whole (n : Whole)
  /-- any other number -/
  | real (x : Finite)
deriving DecidableEq

namespace Number

instance : Inhabited Number := ⟨.whole default⟩

/-- The nearest binary64 number. -/
def toDouble : Number → Double
  | .whole n => .ofInt n.val
  | .real x => .finite x

/-- The integer of a whole number that fits 64 signed bits. -/
def int64? : Number → Option Int
  | .whole n => if n.isSigned then some n.val else none
  | .real _ => none

def isWhole : Number → Bool
  | .whole _ => true
  | .real _ => false

/-- Equality within one kind: a whole number never equals a real one, and `-0.0`
equals `0.0`. -/
def same : Number → Number → Bool
  | .whole m, .whole n => m.val == n.val
  | .real x, .real y => x.same y
  | _, _ => false

/-- The JSON number of a double: whole when it has no fraction and a magnitude below
`9 · 10¹⁵`, and none for NaN and the infinities. -/
def ofDouble? (x : Double) : Option Number :=
  x.finite?.map fun x =>
    if x.isWhole && decide (x.truncate.natAbs < 9000000000000000) then .whole (.clamp x.truncate)
    else .real x

/-- The number as JSON text. -/
def toText : Number → String
  | .whole n => Numeral.intText n.val
  | .real x => x.toJsonText

end Number

end NestedRecord
