/-!
# Binary64 numbers

Every finite binary64 number is a whole number of *units* of `2⁻¹⁰⁷⁴`, the
least positive one. We keep exactly that: a sign and a natural number of units.
Arithmetic is then exact arithmetic on naturals and integers followed by one
rounding, so nothing here depends on the machine.

* `Representable` says which unit counts are binary64 magnitudes: at most 53
  significant bits, below the overflow threshold.
* `roundUnits` rounds an exact quotient of naturals to the grid of binary64
  magnitudes, to nearest with ties to even; `representable_roundUnits` shows
  that what it returns is representable unless it overflows.
* `Finite` is a finite number, `Double` adds the infinities and one NaN.
* `Double.add`, `sub`, `mul` and `div` round the exact result once. Sums and means are made
  with them, and reading a decimal by scaling is described with them.
* `Double.compare?` orders numbers by value, so `-0 = 0`, and leaves NaN unordered.
-/

namespace NestedRecord

/-- The number of units in `1`. -/
def unitsPerOne : Nat := Nat.pow 2 1074

/-- The number of units in `2¹⁰²⁴`, the least magnitude that overflows. -/
def overflowUnits : Nat := Nat.pow 2 2098

/-- The unit counts that are binary64 magnitudes: below `2¹⁰²⁴` and with at most
53 significant bits. -/
def Representable (units : Nat) : Prop :=
  units < overflowUnits ∧ Nat.pow 2 (units.log2 - 52) ∣ units

instance (units : Nat) : Decidable (Representable units) :=
  inferInstanceAs (Decidable (_ ∧ _))

theorem overflowUnits_pos : 0 < overflowUnits := by
  unfold overflowUnits
  generalize 2098 = exponent
  exact Nat.two_pow_pos exponent

theorem representable_zero : Representable 0 :=
  ⟨overflowUnits_pos, Nat.dvd_zero _⟩

/-- A significand of 53 bits (or the next power of two) on any grid is
representable as long as it does not overflow. -/
theorem representable_of_le {significand exponent : Nat}
    (hs : significand ≤ Nat.pow 2 53)
    (hb : significand * Nat.pow 2 exponent < overflowUnits) :
    Representable (significand * Nat.pow 2 exponent) := by
  refine ⟨hb, ?_⟩
  simp only [Nat.pow_eq] at hs ⊢
  by_cases h0 : significand = 0
  · subst h0; rw [Nat.zero_mul]; exact Nat.dvd_zero _
  rcases Nat.lt_or_eq_of_le hs with hlt | rfl
  · refine Nat.dvd_trans (Nat.pow_dvd_pow 2 ?_) (Nat.dvd_mul_left _ _)
    have hne : significand * 2 ^ exponent ≠ 0 :=
      Nat.mul_ne_zero h0 (Nat.ne_of_gt (Nat.two_pow_pos exponent))
    have : (significand * 2 ^ exponent).log2 < 53 + exponent := by
      rw [Nat.log2_lt hne, Nat.pow_add]
      exact Nat.mul_lt_mul_of_pos_right hlt (Nat.two_pow_pos exponent)
    omega
  · rw [← Nat.pow_add]
    exact Nat.pow_dvd_pow 2 (by rw [Nat.log2_two_pow]; omega)

/-! ## Rounding -/

/-- The natural number nearest to `num / den`, the even one of two equally near. -/
def roundHalfEven (num den : Nat) : Nat :=
  let quotient := num / den
  let remainder := num % den
  if 2 * remainder < den then quotient
  else if den < 2 * remainder then quotient + 1
  else if quotient % 2 = 0 then quotient else quotient + 1

theorem roundHalfEven_le (num den : Nat) : roundHalfEven num den ≤ num / den + 1 := by
  unfold roundHalfEven
  dsimp only
  split
  · omega
  · split
    · omega
    · split <;> omega

/-- The exponent of the grid on which `num / den` units are rounded: the spacing
that leaves 53 significant bits, never finer than one unit. -/
def gridExponent (num den : Nat) : Nat := (num / den).log2 - 52

/-- `num / den` units rounded to 53 significant bits; the result may overflow. -/
def roundUnits (num den : Nat) : Nat :=
  roundHalfEven num (den * Nat.pow 2 (gridExponent num den)) * Nat.pow 2 (gridExponent num den)

/-- On its grid a quotient has at most 53 bits. -/
theorem div_grid_lt (num den : Nat) :
    num / (den * Nat.pow 2 (gridExponent num den)) < Nat.pow 2 53 := by
  simp only [Nat.pow_eq]
  rw [← Nat.div_div_eq_div_mul, Nat.div_lt_iff_lt_mul (Nat.two_pow_pos _)]
  by_cases h0 : num / den = 0
  · rw [h0]; exact Nat.mul_pos (Nat.two_pow_pos _) (Nat.two_pow_pos _)
  · rw [← Nat.pow_add, ← Nat.log2_lt h0]
    unfold gridExponent
    omega

theorem representable_roundUnits {num den : Nat} (h : roundUnits num den < overflowUnits) :
    Representable (roundUnits num den) :=
  representable_of_le
    (Nat.le_trans (roundHalfEven_le _ _) (Nat.succ_le_of_lt (div_grid_lt num den))) h

/-! ## Numbers -/

/-- A finite binary64 number. Both zeros exist and differ in their sign only. -/
structure Finite where
  /-- whether the sign bit is set -/
  negative : Bool
  /-- the magnitude in units of `2⁻¹⁰⁷⁴` -/
  units : Nat
  representable : Representable units
deriving DecidableEq

/-- A binary64 number. -/
inductive Double where
  | finite (x : Finite)
  | infinite (negative : Bool)
  | nan
deriving DecidableEq

namespace Finite

/-- Positive zero. -/
def zero : Finite := ⟨false, 0, representable_zero⟩

instance : Inhabited Finite := ⟨zero⟩

/-- The value as a signed number of units; both zeros give `0`. -/
def signedUnits (x : Finite) : Int := if x.negative then -(x.units : Int) else x.units

def neg (x : Finite) : Finite := { x with negative := !x.negative }

/-- The integer part, rounding toward zero. -/
def truncate (x : Finite) : Int := x.signedUnits.tdiv unitsPerOne

/-- Whether the number has no fractional part. -/
def isWhole (x : Finite) : Bool := x.units % unitsPerOne == 0

/-- Equality of values: `-0` equals `0`. -/
def same (x y : Finite) : Bool := x.signedUnits == y.signedUnits

end Finite

namespace Double

instance : Inhabited Double := ⟨.nan⟩

def zero : Double := .finite .zero

/-- The number nearest to `num / den` units of the given sign; too large a
magnitude gives an infinity. -/
def ofUnits (negative : Bool) (num den : Nat) : Double :=
  if h : roundUnits num den < overflowUnits then
    .finite ⟨negative, roundUnits num den, representable_roundUnits h⟩
  else .infinite negative

/-- The number nearest to an integer. -/
def ofInt (n : Int) : Double := ofUnits (decide (n < 0)) (n.natAbs * unitsPerOne) 1

def neg : Double → Double
  | .finite x => .finite x.neg
  | .infinite negative => .infinite (!negative)
  | .nan => .nan

/-- The sum, rounded once. An exact zero is negative only if both summands are
negative zeros. -/
def add : Double → Double → Double
  | .nan, _ | _, .nan => .nan
  | .infinite a, .infinite b => if a == b then .infinite a else .nan
  | .infinite a, .finite _ => .infinite a
  | .finite _, .infinite b => .infinite b
  | .finite x, .finite y =>
    let sum := x.signedUnits + y.signedUnits
    let negative := if sum = 0 then x.negative && y.negative else decide (sum < 0)
    ofUnits negative sum.natAbs 1

def sub (x y : Double) : Double := x.add y.neg

/-- The product, rounded once. -/
def mul : Double → Double → Double
  | .nan, _ | _, .nan => .nan
  | .infinite a, .infinite b => .infinite (a ^^ b)
  | .infinite a, .finite y => if y.units = 0 then .nan else .infinite (a ^^ y.negative)
  | .finite x, .infinite b => if x.units = 0 then .nan else .infinite (x.negative ^^ b)
  | .finite x, .finite y => ofUnits (x.negative ^^ y.negative) (x.units * y.units) unitsPerOne

/-- The quotient, rounded once. -/
def div : Double → Double → Double
  | .nan, _ | _, .nan => .nan
  | .infinite _, .infinite _ => .nan
  | .infinite a, .finite y => .infinite (a ^^ y.negative)
  | .finite x, .infinite b => .finite ⟨x.negative ^^ b, 0, representable_zero⟩
  | .finite x, .finite y =>
    if y.units = 0 then
      if x.units = 0 then .nan else .infinite (x.negative ^^ y.negative)
    else ofUnits (x.negative ^^ y.negative) (x.units * unitsPerOne) y.units

/-- The order of two numbers by value; NaN is not comparable with anything. -/
def compare? : Double → Double → Option Ordering
  | .nan, _ | _, .nan => none
  | .infinite a, .infinite b =>
    some (if a == b then .eq else if a then .lt else .gt)
  | .infinite a, .finite _ => some (if a then .lt else .gt)
  | .finite _, .infinite b => some (if b then .gt else .lt)
  | .finite x, .finite y => some (compare x.signedUnits y.signedUnits)

/-- Equality of values: `-0` equals `0`, and NaN equals nothing. -/
def same (x y : Double) : Bool := x.compare? y == some .eq

def lt (x y : Double) : Bool := x.compare? y == some .lt

def gt (x y : Double) : Bool := x.compare? y == some .gt

/-- The finite number, if it is one. -/
def finite? : Double → Option Finite
  | .finite x => some x
  | _ => none

end Double

/-! ## Signed 64-bit saturation -/

/-- The nearest integer of the signed 64-bit range. -/
def clampInt64 (n : Int) : Int := max (-9223372036854775808) (min n 9223372036854775807)

end NestedRecord
