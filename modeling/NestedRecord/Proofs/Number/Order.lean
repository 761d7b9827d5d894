import Mathlib.Algebra.Order.Field.Basic
import Mathlib.Algebra.Order.Field.Rat
import NestedRecord.Proofs.Number.Rounding

/-!
# Rounding keeps the order of numbers

JSON numbers have exact values, and the doubles next to them stand in the same order: of two
numbers the smaller one never gets the greater double. Only that two numbers may get the same
double makes a comparison of doubles differ from one of values.

- `roundUnits_mono`: rounding a magnitude is monotone.
- `nearestUnits` is rounding of signed units; it keeps order, signs and integers.
- `Number.value` is the exact value of a number, `Number.nearest` its double, in units.
- `Number.compare?_toDouble`: doubles of numbers are always comparable, by their units.

The only obstacle is that larger magnitudes lie on coarser grids. Where two magnitudes have the same
grid, rounding is division with a rest and so monotone; where they have not, a power of two lies
between them, which is on both grids and is not crossed from either side.
-/

namespace NestedRecord

/-! ## Magnitudes -/

/-- Rounding to a natural number leads at least to the quotient. -/
theorem le_roundHalfEven (num den : Nat) : num / den ≤ roundHalfEven num den := by
  unfold roundHalfEven
  dsimp only
  split
  · exact Nat.le_refl _
  · split
    · exact Nat.le_succ _
    · split
      · exact Nat.le_refl _
      · exact Nat.le_succ _

/-- With one denominator it is monotone. -/
theorem roundHalfEven_mono {a b : Nat} (den : Nat) (h : a ≤ b) :
    roundHalfEven a den ≤ roundHalfEven b den := by
  have hquotients : a / den ≤ b / den := Nat.div_le_div_right h
  rcases Nat.lt_or_eq_of_le hquotients with hless | hsame
  · exact (roundHalfEven_le a den).trans
      ((Nat.succ_le_of_lt hless).trans (le_roundHalfEven b den))
  · -- equal quotients: the remainders are in order, and they alone decide
    have hremainders : a % den ≤ b % den := by
      have ha := Nat.div_add_mod a den
      have hb := Nat.div_add_mod b den
      rw [hsame] at ha
      omega
    unfold roundHalfEven
    dsimp only
    rw [hsame]
    repeat' split
    all_goals omega

/-- Grids become coarser with the magnitude. -/
theorem gridExponent_mono {a b : Nat} (den : Nat) (h : a ≤ b) :
    gridExponent a den ≤ gridExponent b den := by
  refine Nat.sub_le_sub_right ?_ 52
  have hquotients : a / den ≤ b / den := Nat.div_le_div_right h
  by_cases hzero : a / den = 0
  · rw [hzero]
    exact Nat.zero_le _
  · have hne : b / den ≠ 0 :=
      Nat.ne_of_gt (Nat.lt_of_lt_of_le (Nat.pos_of_ne_zero hzero) hquotients)
    exact (Nat.le_log2 hne).mpr ((Nat.log2_self_le hzero).trans hquotients)

/-- Rounding leads at most to the power of two above. -/
theorem roundUnits_le (num den : Nat) :
    roundUnits num den ≤ 2 ^ 53 * 2 ^ gridExponent num den :=
  Nat.mul_le_mul_right _
    ((roundHalfEven_le _ _).trans (Nat.succ_le_of_lt (div_grid_lt num den)))

/-- On a grid coarser than the units rounding never leads below the power of two. -/
theorem le_roundUnits {num den : Nat} (h : gridExponent num den ≠ 0) :
    2 ^ 52 * 2 ^ gridExponent num den ≤ roundUnits num den := by
  refine Nat.mul_le_mul_right _ (Nat.le_trans ?_ (le_roundHalfEven _ _))
  have hne : num / den ≠ 0 := by
    intro hzero
    rw [gridExponent, hzero] at h
    exact h rfl
  have hlog : 52 + gridExponent num den = (num / den).log2 := by
    unfold gridExponent at h ⊢
    omega
  rw [Nat.pow_eq, ← Nat.div_div_eq_div_mul, Nat.le_div_iff_mul_le (Nat.two_pow_pos _),
    ← Nat.pow_add, hlog]
  exact Nat.log2_self_le hne

/-- Rounding is monotone: what is rounded on a finer grid stays below the coarser one. -/
theorem roundUnits_mono {a b : Nat} (den : Nat) (h : a ≤ b) :
    roundUnits a den ≤ roundUnits b den := by
  rcases Nat.lt_or_eq_of_le (gridExponent_mono den h) with hfiner | hsame
  · have hstep : 2 * 2 ^ gridExponent a den ≤ 2 ^ gridExponent b den := by
      rw [← Nat.pow_succ']
      exact Nat.pow_le_pow_right (by decide) hfiner
    calc roundUnits a den ≤ 2 ^ 53 * 2 ^ gridExponent a den := roundUnits_le a den
      _ = 2 ^ 52 * (2 * 2 ^ gridExponent a den) := by rw [← Nat.mul_assoc, ← Nat.pow_succ]
      _ ≤ 2 ^ 52 * 2 ^ gridExponent b den := Nat.mul_le_mul_left _ hstep
      _ ≤ roundUnits b den := le_roundUnits (by omega)
  · unfold roundUnits
    rw [hsame]
    exact Nat.mul_le_mul_right _ (roundHalfEven_mono _ h)

/-- Multiples of a power of two are rounded to multiples of it. -/
theorem dvd_roundUnits {units exponent : Nat} (h : 2 ^ exponent ∣ units) :
    2 ^ exponent ∣ roundUnits units 1 := by
  by_cases hcoarse : exponent ≤ gridExponent units 1
  · exact (Nat.pow_dvd_pow 2 hcoarse).trans (Nat.dvd_mul_left _ _)
  · -- the grid is finer, so that nothing is rounded
    have hfine : Nat.pow 2 (gridExponent units 1) ∣ units :=
      (Nat.pow_dvd_pow 2 (by omega)).trans h
    rwa [roundUnits_of_dvd hfine]

/-! ## Signed magnitudes -/

/-- Signed units, rounded as if no magnitude were too large. -/
def nearestUnits (units : Int) : Int := units.sign * roundUnits units.natAbs 1

theorem nearestUnits_of_nonneg {units : Int} (h : 0 ≤ units) :
    nearestUnits units = roundUnits units.natAbs 1 := by
  unfold nearestUnits
  rcases Int.lt_or_eq_of_le h with hpos | rfl
  · rw [Int.sign_eq_one_of_pos hpos, Int.one_mul]
  · rw [Int.sign_zero, Int.zero_mul, Int.natAbs_zero,
      roundUnits_of_representable representable_zero]
    rfl

theorem nearestUnits_neg (units : Int) : nearestUnits (-units) = -nearestUnits units := by
  unfold nearestUnits
  rw [Int.sign_neg, Int.natAbs_neg, Int.neg_mul]

/-- Rounding is monotone for both signs. -/
theorem nearestUnits_mono {a b : Int} (h : a ≤ b) : nearestUnits a ≤ nearestUnits b := by
  have hnonneg : ∀ {a b : Int}, 0 ≤ a → a ≤ b → nearestUnits a ≤ nearestUnits b := by
    intro a b ha h
    rw [nearestUnits_of_nonneg ha, nearestUnits_of_nonneg (ha.trans h)]
    exact_mod_cast roundUnits_mono 1 (by omega : a.natAbs ≤ b.natAbs)
  rcases Int.le_total 0 a with ha | ha
  · exact hnonneg ha h
  rcases Int.le_total 0 b with hb | hb
  · -- the signs differ: zero lies between both
    have hbelow := hnonneg (Int.le_refl 0) (Int.neg_nonneg_of_nonpos ha)
    have habove := hnonneg (Int.le_refl 0) hb
    rw [nearestUnits_neg] at hbelow
    have hzero : nearestUnits 0 = 0 := Int.zero_mul _
    omega
  · have hmirrored := hnonneg (Int.neg_nonneg_of_nonpos hb) (Int.neg_le_neg h)
    rw [nearestUnits_neg, nearestUnits_neg] at hmirrored
    exact Int.le_of_neg_le_neg hmirrored

theorem nearestUnits_of_representable {units : Int} (h : Representable units.natAbs) :
    nearestUnits units = units := by
  rw [nearestUnits, roundUnits_of_representable h, Int.sign_mul_natAbs]

/-- Integers of 53 bits are doubles. -/
theorem nearestUnits_of_natAbs_le {n : Int} (h : n.natAbs ≤ 2 ^ 53) :
    nearestUnits (n * unitsPerOne) = n * unitsPerOne := by
  refine nearestUnits_of_representable ?_
  rw [Int.natAbs_mul, Int.natAbs_natCast]
  exact representable_mul_unitsPerOne h

theorem unitsPerOne_eq_pow : ∃ exponent, unitsPerOne = 2 ^ exponent := by
  unfold unitsPerOne
  generalize 1074 = exponent
  exact ⟨exponent, rfl⟩

/-- Integers are rounded to integers. -/
theorem dvd_nearestUnits {units : Int} (h : (unitsPerOne : Int) ∣ units) :
    (unitsPerOne : Int) ∣ nearestUnits units := by
  obtain ⟨exponent, hone⟩ := unitsPerOne_eq_pow
  rw [hone] at h ⊢
  refine Int.dvd_mul_of_dvd_right (Int.natCast_dvd_natCast.mpr (dvd_roundUnits ?_))
  exact Int.natCast_dvd.mp h

namespace Double

theorem ofUnits_of_lt {num den : Nat} (h : roundUnits num den < overflowUnits) (negative : Bool) :
    ofUnits negative num den =
      .finite ⟨negative, roundUnits num den, representable_roundUnits h⟩ := by
  unfold ofUnits
  rw [dif_pos h]

/-- Integers of 64 bits never overflow. -/
theorem exists_ofInt {n : Int} (h : n.natAbs ≤ 18446744073709551616) :
    ∃ x : Finite, ofInt n = .finite x ∧ x.signedUnits = nearestUnits (n * unitsPerOne) := by
  have hlimit : Representable (18446744073709551616 * unitsPerOne) := by decide +kernel
  have hle : roundUnits (n.natAbs * unitsPerOne) 1 ≤ 18446744073709551616 * unitsPerOne := by
    rw [← roundUnits_of_representable hlimit]
    exact roundUnits_mono 1 (Nat.mul_le_mul_right _ h)
  have hbound : roundUnits (n.natAbs * unitsPerOne) 1 < overflowUnits :=
    Nat.lt_of_le_of_lt hle hlimit.1
  refine ⟨_, ofUnits_of_lt hbound _, ?_⟩
  have hpos : (0 : Int) < unitsPerOne := Int.natCast_pos.mpr unitsPerOne_pos
  unfold Finite.signedUnits nearestUnits
  rw [Int.natAbs_mul, Int.natAbs_natCast, Int.sign_mul, Int.sign_eq_one_of_pos hpos, Int.mul_one]
  rcases Int.lt_trichotomy n 0 with hneg | rfl | hn
  · simp only [hneg, decide_true, if_true, Int.sign_eq_neg_one_of_neg hneg, Int.neg_one_mul]
  · simp [roundUnits_of_representable representable_zero]
  · simp only [Int.not_lt.mpr (Int.le_of_lt hn), decide_false, Bool.false_eq_true, if_false,
      Int.sign_eq_one_of_pos hn, Int.one_mul]

end Double

/-! ## Values of numbers -/

/-- The exact value of a finite double. -/
def Finite.value (x : Finite) : ℚ := x.signedUnits / unitsPerOne

namespace Number

/-- The exact value. -/
def value : Number → ℚ
  | .whole n => n.val
  | .real x => x.value

/-- The exact value in units of `2⁻¹⁰⁷⁴`. -/
def units : Number → Int
  | .whole n => n.val * unitsPerOne
  | .real x => x.signedUnits

/-- The units of the nearest double. -/
def nearest (n : Number) : Int := nearestUnits n.units

/-- The number is a double. -/
def IsDouble (n : Number) : Prop := n.nearest = n.units

instance (n : Number) : Decidable n.IsDouble := inferInstanceAs (Decidable (_ = _))

/-- The value of a number is counted in units. -/
theorem value_eq (n : Number) : n.value = (n.units : ℚ) / unitsPerOne := by
  have hne : (unitsPerOne : ℚ) ≠ 0 := Nat.cast_ne_zero.mpr (Nat.ne_of_gt unitsPerOne_pos)
  cases n with
  | whole n =>
    rw [value, units, Int.cast_mul, Int.cast_natCast]
    exact (mul_div_cancel_right₀ _ hne).symm
  | real x => rfl

variable {m n : Number}

theorem value_lt : m.value < n.value ↔ m.units < n.units := by
  have hpos : (0 : ℚ) < unitsPerOne := Nat.cast_pos.mpr unitsPerOne_pos
  rw [value_eq, value_eq, div_lt_div_iff_of_pos_right hpos, Int.cast_lt]

theorem value_le : m.value ≤ n.value ↔ m.units ≤ n.units := by
  rw [← not_lt, value_lt, Int.not_lt]

theorem value_inj : m.value = n.value ↔ m.units = n.units := by
  rw [le_antisymm_iff, value_le, value_le, Int.le_antisymm_iff]

theorem nearest_mono (h : m.units ≤ n.units) : m.nearest ≤ n.nearest :=
  nearestUnits_mono h

/-- Where the doubles differ, the numbers stand in the same order. -/
theorem units_lt_of_nearest_lt (h : m.nearest < n.nearest) : m.units < n.units :=
  Int.not_le.mp fun hle => Int.not_lt.mpr (nearest_mono hle) h

/-- A number that is read as a double is one. -/
theorem isDouble_real (x : Finite) : (real x).IsDouble := by
  refine nearestUnits_of_representable ?_
  rw [units, x.natAbs_signedUnits]
  exact x.representable

theorem isDouble_whole {n : Whole} (h : n.val.natAbs ≤ 2 ^ 53) : (whole n).IsDouble :=
  nearestUnits_of_natAbs_le h

/-- An integer beyond `2⁵³` is never rounded below it. -/
theorem le_natAbs_nearest {n : Whole} (h : 2 ^ 53 ≤ n.val.natAbs) :
    2 ^ 53 * unitsPerOne ≤ (whole n).nearest.natAbs := by
  have hlimit : nearestUnits (2 ^ 53 * unitsPerOne) = 2 ^ 53 * unitsPerOne :=
    nearestUnits_of_natAbs_le (by decide)
  have hunit : (0 : Int) ≤ unitsPerOne := Int.natCast_nonneg _
  have hcast : ((2 ^ 53 * unitsPerOne : Nat) : Int) = 2 ^ 53 * unitsPerOne := by push_cast; rfl
  rw [nearest, units]
  rcases Int.le_total 0 n.val with hpos | hneg
  · have habove := nearestUnits_mono
      (Int.mul_le_mul_of_nonneg_right (by omega : 2 ^ 53 ≤ n.val) hunit)
    omega
  · have hbelow := nearestUnits_mono
      (Int.mul_le_mul_of_nonneg_right (by omega : n.val ≤ -(2 ^ 53)) hunit)
    rw [Int.neg_mul, nearestUnits_neg] at hbelow
    omega

/-- Every number has a finite double next to it. -/
theorem exists_toDouble (n : Number) :
    ∃ x : Finite, n.toDouble = .finite x ∧ x.signedUnits = n.nearest := by
  cases n with
  | whole n =>
    have hrange := n.inRange
    exact Double.exists_ofInt (by omega)
  | real x => exact ⟨x, rfl, (isDouble_real x).symm⟩

/-- Doubles of numbers are compared by their units, and never incomparable. -/
theorem compare?_toDouble (m n : Number) :
    m.toDouble.compare? n.toDouble = some (compare m.nearest n.nearest) := by
  obtain ⟨x, hx, hm⟩ := m.exists_toDouble
  obtain ⟨y, hy, hn⟩ := n.exists_toDouble
  rw [hx, hy, Double.compare?, hm, hn]

theorem lt_toDouble_iff {m n : Number} :
    m.toDouble.lt n.toDouble = true ↔ m.nearest < n.nearest := by
  rw [Double.lt, compare?_toDouble]
  simp [Int.compare_eq_lt]

theorem gt_toDouble_iff {m n : Number} :
    m.toDouble.gt n.toDouble = true ↔ n.nearest < m.nearest := by
  rw [Double.gt, compare?_toDouble]
  simp [Int.compare_eq_gt]

theorem not_lt_toDouble_iff {m n : Number} :
    m.toDouble.lt n.toDouble = false ↔ n.nearest ≤ m.nearest := by
  rw [← Bool.not_eq_true, lt_toDouble_iff, Int.not_lt]

theorem not_gt_toDouble_iff {m n : Number} :
    m.toDouble.gt n.toDouble = false ↔ m.nearest ≤ n.nearest := by
  rw [← Bool.not_eq_true, gt_toDouble_iff, Int.not_lt]

/-- What is less as a double is less. -/
theorem value_lt_of_lt_toDouble {m n : Number} (h : m.toDouble.lt n.toDouble = true) :
    m.value < n.value :=
  value_lt.mpr (units_lt_of_nearest_lt (lt_toDouble_iff.mp h))

theorem value_lt_of_gt_toDouble {m n : Number} (h : m.toDouble.gt n.toDouble = true) :
    n.value < m.value :=
  value_lt.mpr (units_lt_of_nearest_lt (gt_toDouble_iff.mp h))

end Number

end NestedRecord
