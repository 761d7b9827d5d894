import Mathlib.Algebra.Order.Ring.Nat
import Mathlib.Algebra.Ring.Int.Defs
import NestedRecord.Json.Basic

/-!
# Whole numbers as doubles

Up to `2⁵³` every integer is a double, and sums and differences of such doubles are those of
the integers, rounded once.

Counters and positions are integers that a program keeps in doubles. Within this bound nothing is
lost by it, and that is shown by looking at units: an integer is a multiple of the units of one,
which is representable, and rounding leaves what is representable alone.

- `roundUnits_of_representable`: rounding leaves representable magnitudes as they are.
- `Double.ofInt_eq_finite`: the units of such an integer.
- `Double.ofInt_add` and `Double.ofInt_sub`: exact arithmetic; a difference of equals is
  `+0`, never `-0`.
- `Double.lt_ofInt` and `Double.same_ofInt`: the order of the doubles is that of the integers.
-/

namespace NestedRecord

theorem unitsPerOne_pos : 0 < unitsPerOne := by
  unfold unitsPerOne
  generalize 1074 = exponent
  exact Nat.two_pow_pos exponent

/-- What lies on its grid is not rounded. -/
theorem roundUnits_of_dvd {units : Nat} (h : Nat.pow 2 (gridExponent units 1) ∣ units) :
    roundUnits units 1 = units := by
  have hpos : 0 < Nat.pow 2 (gridExponent units 1) := Nat.two_pow_pos _
  have hmod : units % Nat.pow 2 (gridExponent units 1) = 0 := Nat.mod_eq_zero_of_dvd h
  unfold roundUnits roundHalfEven
  rw [Nat.one_mul]
  simp only [hmod, Nat.mul_zero, hpos, if_true]
  exact Nat.div_mul_cancel h

theorem roundUnits_of_representable {units : Nat} (h : Representable units) :
    roundUnits units 1 = units := by
  refine roundUnits_of_dvd ?_
  rw [gridExponent, Nat.div_one]
  exact h.2

/-- Up to `2⁵³` every natural number is representable. -/
theorem representable_mul_unitsPerOne {n : Nat} (h : n ≤ 2 ^ 53) :
    Representable (n * unitsPerOne) := by
  have hbound : ∀ low high, 53 + low < high → n * Nat.pow 2 low < Nat.pow 2 high := by
    intro low high hlow
    calc n * 2 ^ low ≤ 2 ^ 53 * 2 ^ low := Nat.mul_le_mul_right _ h
      _ = 2 ^ (53 + low) := (Nat.pow_add 2 53 low).symm
      _ < 2 ^ high := Nat.pow_lt_pow_right (by omega) hlow
  exact @representable_of_le n 1074 h (hbound 1074 2098 (by omega))

theorem Finite.natAbs_signedUnits (x : Finite) : x.signedUnits.natAbs = x.units := by
  unfold signedUnits
  split <;> simp

/-- The integer part of a number that is an integer. -/
theorem Finite.truncate_of_signedUnits {x : Finite} {n : Int}
    (h : x.signedUnits = n * unitsPerOne) : x.truncate = n := by
  have hpos : (unitsPerOne : Int) ≠ 0 := Int.natCast_ne_zero.mpr (Nat.ne_of_gt unitsPerOne_pos)
  rw [truncate, h]
  exact Int.mul_tdiv_cancel n hpos

namespace Double

variable {m n : Int}

/-- A representable magnitude is kept, with its sign. -/
theorem ofUnits_of_representable {units : Nat} (h : Representable units) (negative : Bool) :
    ofUnits negative units 1 = .finite ⟨negative, units, h⟩ := by
  unfold ofUnits
  have hround := roundUnits_of_representable h
  rw [dif_pos (by rw [hround]; exact h.1)]
  simp only [hround]

/-- An integer up to `2⁵³` is kept as it is. -/
theorem ofInt_eq_finite (h : n.natAbs ≤ 2 ^ 53) :
    ofInt n = .finite ⟨decide (n < 0), n.natAbs * unitsPerOne,
      representable_mul_unitsPerOne h⟩ :=
  ofUnits_of_representable _ _

/-- An integer has as many units as it says. -/
theorem signedUnits_ofInt (h : n.natAbs ≤ 2 ^ 53) :
    Finite.signedUnits ⟨decide (n < 0), n.natAbs * unitsPerOne, representable_mul_unitsPerOne h⟩ =
      n * unitsPerOne := by
  unfold Finite.signedUnits
  by_cases hn : n < 0
  · simp only [hn, decide_true, if_true, Int.natCast_mul, Int.ofNat_natAbs_of_nonpos (Int.le_of_lt hn)]
    rw [Int.neg_mul, Int.neg_neg]
  · simp only [hn, decide_false, Bool.false_eq_true, if_false, Int.natCast_mul]
    rw [Int.natAbs_of_nonneg (Int.not_lt.mp hn)]

theorem mul_unitsPerOne_eq_zero : n * (unitsPerOne : Int) = 0 ↔ n = 0 := by
  have hpos : (unitsPerOne : Int) ≠ 0 := Int.natCast_ne_zero.mpr (Nat.ne_of_gt unitsPerOne_pos)
  rw [Int.mul_eq_zero]
  exact ⟨fun h => h.resolve_right hpos, .inl⟩

theorem mul_unitsPerOne_neg : n * (unitsPerOne : Int) < 0 ↔ n < 0 := by
  have hpos : (0 : Int) < unitsPerOne := Int.natCast_pos.mpr unitsPerOne_pos
  constructor
  · intro h
    rcases Int.lt_or_le n 0 with hn | hn
    · exact hn
    · have hnonneg := Int.mul_nonneg hn (Int.le_of_lt hpos)
      omega
  · exact fun h => Int.mul_neg_of_neg_of_pos h hpos

theorem ofInt_zero : ofInt 0 = .zero := by
  rw [ofInt_eq_finite (by decide)]
  unfold zero Finite.zero
  simp

/-- Sums are rounded once, from the exact sum. -/
theorem ofInt_add (hm : m.natAbs ≤ 2 ^ 53) (hn : n.natAbs ≤ 2 ^ 53) :
    (ofInt m).add (ofInt n) = ofInt (m + n) := by
  rw [ofInt_eq_finite hm, ofInt_eq_finite hn]
  show ofUnits _ (Int.natAbs _) 1 = ofInt (m + n)
  rw [signedUnits_ofInt hm, signedUnits_ofInt hn, ← Int.add_mul, Int.natAbs_mul, Int.natAbs_natCast]
  unfold ofInt
  congr 1
  by_cases hzero : m + n = 0
  · rw [if_pos (mul_unitsPerOne_eq_zero.mpr hzero)]
    have hnotboth : ¬ (m < 0 ∧ n < 0) := by omega
    have hnotneg : ¬ (m + n < 0) := by omega
    simp only [hnotneg, decide_false]
    simpa using fun h => Int.not_lt.mp fun h' => hnotboth ⟨h, h'⟩
  · rw [if_neg (fun h => hzero (mul_unitsPerOne_eq_zero.mp h))]
    simp only [mul_unitsPerOne_neg]

/-- Differences are rounded once, from the exact difference. -/
theorem ofInt_sub (hm : m.natAbs ≤ 2 ^ 53) (hn : n.natAbs ≤ 2 ^ 53) :
    (ofInt m).sub (ofInt n) = ofInt (m - n) := by
  rw [ofInt_eq_finite hm, ofInt_eq_finite hn, sub, neg, add]
  have hneg : ∀ x : Finite, x.neg.signedUnits = -x.signedUnits := by
    rintro ⟨negative, units, h⟩
    cases negative <;> simp [Finite.neg, Finite.signedUnits]
  rw [hneg, signedUnits_ofInt hm, signedUnits_ofInt hn, ← Int.sub_eq_add_neg, ← Int.sub_mul,
    Int.natAbs_mul, Int.natAbs_natCast]
  unfold ofInt
  congr 1
  -- the sign of a difference of equals comes from rounding, and is the positive one
  by_cases hzero : m - n = 0
  · rw [if_pos (mul_unitsPerOne_eq_zero.mpr hzero)]
    have hsame : m = n := by omega
    subst hsame
    simp [Finite.neg]
  · rw [if_neg (fun h => hzero (mul_unitsPerOne_eq_zero.mp h))]
    simp only [mul_unitsPerOne_neg]

/-- Integers are compared as they are. -/
theorem compare?_ofInt (hm : m.natAbs ≤ 2 ^ 53) (hn : n.natAbs ≤ 2 ^ 53) :
    (ofInt m).compare? (ofInt n) = some (compare m n) := by
  have hpos : (0 : Int) < unitsPerOne := Int.natCast_pos.mpr unitsPerOne_pos
  rw [ofInt_eq_finite hm, ofInt_eq_finite hn]
  show some (compare _ _) = _
  rw [signedUnits_ofInt hm, signedUnits_ofInt hn]
  have hlt : m * (unitsPerOne : Int) < n * unitsPerOne ↔ m < n :=
    ⟨fun h => Int.lt_of_mul_lt_mul_right h (Int.le_of_lt hpos),
      fun h => Int.mul_lt_mul_of_pos_right h hpos⟩
  simp only [compare, compareOfLessAndEq, hlt, Int.mul_eq_mul_right_iff (Int.ne_of_gt hpos)]

theorem lt_ofInt (hm : m.natAbs ≤ 2 ^ 53) (hn : n.natAbs ≤ 2 ^ 53) :
    (ofInt m).lt (ofInt n) = decide (m < n) := by
  unfold lt
  rw [compare?_ofInt hm hn]
  rcases Int.lt_trichotomy m n with h | h | h
  · simp [compare, compareOfLessAndEq, h]
  · simp [compare, compareOfLessAndEq, h]
  · have hnot : ¬ m < n := by omega
    have hne : m ≠ n := by omega
    simp [compare, compareOfLessAndEq, hnot, hne]

theorem same_ofInt (hm : m.natAbs ≤ 2 ^ 53) (hn : n.natAbs ≤ 2 ^ 53) :
    (ofInt m).same (ofInt n) = decide (m = n) := by
  unfold same
  rw [compare?_ofInt hm hn]
  rcases Int.lt_trichotomy m n with h | h | h
  · have hne : m ≠ n := by omega
    simp [compare, compareOfLessAndEq, h, hne]
  · simp [compare, compareOfLessAndEq, h]
  · have hnot : ¬ m < n := by omega
    have hne : m ≠ n := by omega
    simp [compare, compareOfLessAndEq, hnot, hne]

end Double

/-- Zero is written as a whole number. -/
theorem Json.ofDouble_zero : Json.ofDouble .zero = .ofNat 0 := by
  unfold Json.ofDouble Number.ofDouble? Double.zero
  simp only [Double.finite?, Option.map_some]
  have htruncate : Finite.zero.truncate = 0 := by
    rw [Finite.truncate, Finite.signedUnits, Finite.zero]
    exact Int.zero_tdiv _
  have hwhole : Finite.zero.isWhole = true := by simp [Finite.isWhole, Finite.zero]
  rw [htruncate, hwhole]
  rfl

end NestedRecord
