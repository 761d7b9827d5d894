import NestedRecord.Proofs.Number.Shortest

/-!
# Decimals read by scaling

`Decimal.toDouble` rounds once, from the exact quotient. There is a quicker way, which parsers of
JSON text take unless they are asked for the nearest number: the digits become a double, and this is
multiplied or divided by a power of ten. That rounds up to three times, so the two ways part on
decimals with many digits, by a last place. They agree as long as the digits and the power of ten
are doubles themselves: then only the product or the quotient is rounded.

No statement about documents or stores depends on which way is taken, as none says to which double
a literal is read.

- `Decimal.scaled` is the quick way, for digits of up to 64 bits and exponents of up to 308.
- `Decimal.representable_pow`: powers of ten up to `10²²` are doubles, since their odd part is
  small.
- `Decimal.scaled_eq_toDouble`: the two ways agree on up to 53 bits of digits and on exponents of up
  to 22, so on all numbers with fifteen digits that are neither very large nor very small.
-/

namespace NestedRecord

namespace Double

/-- Nothing is rounded to nothing. -/
theorem ofUnits_zero (negative : Bool) (den : Nat) :
    ofUnits negative 0 den = .finite ⟨negative, 0, representable_zero⟩ := by
  have hround : roundUnits 0 den = 0 := by
    unfold roundUnits roundHalfEven
    simp
  unfold ofUnits
  rw [dif_pos (by rw [hround]; exact overflowUnits_pos)]
  simp only [hround]

/-- A sign is put on after rounding or before. -/
theorem neg_ofUnits (num den : Nat) : (ofUnits false num den).neg = ofUnits true num den := by
  unfold ofUnits
  split <;> rfl

end Double

namespace Decimal

variable {d : Decimal}

/-- The double of the digits, multiplied or divided by the double of a power of ten. -/
def scaled (negative : Bool) (d : Decimal) : Double :=
  let digits := Double.ofInt d.digits
  let power := Double.ofInt ((10 ^ d.exponent.natAbs : Nat) : Int)
  let magnitude := if d.exponent < 0 then digits.div power else digits.mul power
  if negative then magnitude.neg else magnitude

/-- A power of ten has as many bits as the power of five, and `5²²` has fewer than 53. -/
theorem representable_pow {k : Nat} (h : k ≤ 22) : Representable (10 ^ k * unitsPerOne) := by
  have hodd : 5 ^ k ≤ Nat.pow 2 53 :=
    (Nat.pow_le_pow_right (by decide) h).trans (by decide : 5 ^ 22 ≤ 2 ^ 53)
  have hsplit : 10 ^ k * unitsPerOne = 5 ^ k * Nat.pow 2 (k + 1074) := by
    unfold unitsPerOne
    generalize 1074 = low
    show 10 ^ k * 2 ^ low = 5 ^ k * 2 ^ (k + low)
    rw [Nat.pow_add, ← Nat.mul_assoc, ← Nat.mul_pow]
  -- stated for any exponents, so that no power of this size is computed
  have hbound : ∀ low high, 53 + low < high → 5 ^ k * Nat.pow 2 low < Nat.pow 2 high := by
    intro low high hlow
    calc 5 ^ k * 2 ^ low ≤ 2 ^ 53 * 2 ^ low := Nat.mul_le_mul_right _ hodd
      _ = 2 ^ (53 + low) := (Nat.pow_add 2 53 low).symm
      _ < 2 ^ high := Nat.pow_lt_pow_right (by decide) hlow
  rw [hsplit]
  refine representable_of_le hodd ?_
  unfold overflowUnits
  exact hbound _ _ (by omega)

/-- The double of a natural number that is one. -/
theorem ofInt_of_representable {n : Nat} (h : Representable (n * unitsPerOne)) :
    Double.ofInt n = .finite ⟨false, n * unitsPerOne, h⟩ := by
  unfold Double.ofInt
  rw [Int.natAbs_natCast, Double.ofUnits_of_representable h,
    decide_eq_false (Int.not_lt.mpr (Int.natCast_nonneg n))]

/-- A short decimal is read as its quotient, rounded once. -/
theorem toDouble_eq_ofUnits_of_le (negative : Bool) (hdigits : d.digits ≤ 2 ^ 53)
    (hexponent : d.exponent.natAbs ≤ 22) :
    d.toDouble negative = .ofUnits negative d.num d.den := by
  by_cases hzero : d.digits = 0
  · rw [toDouble, if_pos (.inl hzero), num, hzero, Nat.zero_mul, Nat.zero_mul, Double.ofUnits_zero]
  · have hcount : digitCount d.digits - 1 < 16 := by
      refine (Nat.pow_lt_pow_iff_right (a := 10) (by decide)).mp ?_
      exact ((pow_le_of_digitCount hzero).trans hdigits).trans_lt (by decide)
    exact toDouble_eq_ofUnits negative hzero (by omega) (by omega)

section Exact

variable {n power : Nat} (hn : Representable (n * unitsPerOne))
  (hpower : Representable (power * unitsPerOne))

include hn hpower

/-- The product of two natural numbers that are doubles is rounded once. -/
theorem ofInt_mul_ofInt :
    (Double.ofInt n).mul (Double.ofInt power) = .ofUnits false (n * power * unitsPerOne) 1 := by
  rw [ofInt_of_representable hn, ofInt_of_representable hpower]
  show Double.ofUnits false (n * unitsPerOne * (power * unitsPerOne)) unitsPerOne = _
  have hnum : n * unitsPerOne * (power * unitsPerOne) =
      unitsPerOne * (n * power * unitsPerOne) := by
    generalize unitsPerOne = units
    ac_rfl
  calc Double.ofUnits false (n * unitsPerOne * (power * unitsPerOne)) unitsPerOne
      = .ofUnits false (unitsPerOne * (n * power * unitsPerOne)) (unitsPerOne * 1) := by
        rw [hnum, Nat.mul_one]
    _ = .ofUnits false (n * power * unitsPerOne) 1 := Double.ofUnits_mul_left unitsPerOne_pos ..

/-- So is their quotient. -/
theorem ofInt_div_ofInt (hpos : 0 < power) :
    (Double.ofInt n).div (Double.ofInt power) = .ofUnits false (n * unitsPerOne) power := by
  rw [ofInt_of_representable hn, ofInt_of_representable hpower, Double.div,
    if_neg (Nat.ne_of_gt (Nat.mul_pos hpos unitsPerOne_pos)), Bool.xor_self]
  calc Double.ofUnits false (n * unitsPerOne * unitsPerOne) (power * unitsPerOne)
      = .ofUnits false (unitsPerOne * (n * unitsPerOne)) (unitsPerOne * power) := by
        rw [Nat.mul_comm _ unitsPerOne, Nat.mul_comm power]
    _ = .ofUnits false (n * unitsPerOne) power := Double.ofUnits_mul_left unitsPerOne_pos ..

end Exact

/-- Where the digits and the power of ten are doubles, scaling rounds once, as reading does. -/
theorem scaled_eq_toDouble (negative : Bool) (hdigits : d.digits ≤ 2 ^ 53)
    (hexponent : d.exponent.natAbs ≤ 22) : d.scaled negative = d.toDouble negative := by
  have hn := representable_mul_unitsPerOne hdigits
  have hpower := representable_pow hexponent
  have hmagnitude : (if d.exponent < 0 then
      (Double.ofInt d.digits).div (Double.ofInt ((10 ^ d.exponent.natAbs : Nat) : Int))
      else (Double.ofInt d.digits).mul (Double.ofInt ((10 ^ d.exponent.natAbs : Nat) : Int))) =
      .ofUnits false d.num d.den := by
    unfold num den
    split
    · next hnegative =>
      have hup : d.exponent.toNat = 0 := by omega
      have hdown : (-d.exponent).toNat = d.exponent.natAbs := by omega
      rw [ofInt_div_ofInt hn hpower (Nat.pow_pos (by decide)), hup, hdown, Nat.pow_zero,
        Nat.mul_one]
    · next hnonnegative =>
      have hup : d.exponent.toNat = d.exponent.natAbs := by omega
      have hdown : (-d.exponent).toNat = 0 := by omega
      rw [ofInt_mul_ofInt hn hpower, hup, hdown, Nat.pow_zero]
  rw [toDouble_eq_ofUnits_of_le negative hdigits hexponent, scaled]
  simp only [hmagnitude]
  cases negative with
  | false => rw [if_neg Bool.false_ne_true]
  | true => rw [if_pos rfl, Double.neg_ofUnits]

/-- With sixteen digits the two ways can part: 97.45365320034685 becomes 97.45365320034684. -/
example : (⟨9745365320034685, -14⟩ : Decimal).scaled false =
      (⟨9745365320034684, -14⟩ : Decimal).toDouble false ∧
    (⟨9745365320034685, -14⟩ : Decimal).scaled false ≠
      (⟨9745365320034685, -14⟩ : Decimal).toDouble false := by
  decide +kernel

end Decimal

end NestedRecord
