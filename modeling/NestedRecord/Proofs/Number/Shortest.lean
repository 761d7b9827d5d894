import Mathlib.Tactic.Ring
import NestedRecord.Proofs.Number.Numeral
import NestedRecord.Proofs.Number.Rounding

/-!
# Doubles are read back from their texts

The text of a double is its shortest decimal that reads back as the double, and it does read back:
whichever decimal the search ends with, it lies in the interval of the double, and no notation
changes the value of the decimal.

- `Decimal.nearest_of_readsBack` and `Decimal.toDouble_of_nearest`: what the test of the search is
  worth.
- `Decimal.toDouble_shift`: trailing zeros do not change what a decimal is read as.
- `Finite.toDouble_shortest`: the shortest decimal reads back.
- `Finite.parse?_toJsonText` is the result for the text.

The search tries all numbers of digits, from one to seventeen, and ends with the exact value of the
double if none of them reads back. So nothing has to be shown about how many digits are enough: what
the search returns has been tested, or is exact.
-/

namespace NestedRecord

namespace Decimal

variable {d : Decimal} {units : Nat}

/-! ## Decimals as quotients -/

/-- The numerator of a decimal, in units. -/
def num (d : Decimal) : Nat := d.digits * 10 ^ d.exponent.toNat * unitsPerOne

/-- The denominator of a decimal. -/
def den (d : Decimal) : Nat := 10 ^ (-d.exponent).toNat

theorem den_pos (d : Decimal) : 0 < d.den := Nat.pow_pos (by decide)

theorem compareQuarters_eq (d : Decimal) (quarters : Nat) :
    d.compareQuarters quarters = compare (4 * d.num) (quarters * d.den) := by
  simp only [compareQuarters, num, den, Nat.pow_eq, Nat.mul_assoc]

/-- A decimal that reads back lies in the interval of the magnitude. -/
theorem nearest_of_readsBack (hne : units ≠ 0) (h : d.readsBack units = true) :
    Nearest units d.num d.den := by
  have hreach : (if (decide (53 ≤ units.log2) && units == Nat.pow 2 units.log2) = true
      then Nat.pow 2 (units.log2 - 52) else 2 * Nat.pow 2 (units.log2 - 52)) = reach units := by
    unfold reach
    congr 1
    simp only [IsNarrow, Nat.pow_eq, Bool.and_eq_true, decide_eq_true_eq, beq_iff_eq]
  have hless : reach units ≤ 4 * units := by
    have := reach_le units
    have := gap_le hne
    omega
  have hlow : (4 * units - reach units) * d.den = 4 * (units * d.den) - reach units * d.den := by
    rw [Nat.sub_mul, Nat.mul_assoc]
  have hhigh : (4 * units + 2 * gap units) * d.den =
      4 * (units * d.den) + 2 * gap units * d.den := by
    rw [Nat.add_mul, Nat.mul_assoc 4]
  have hroom : reach units * d.den ≤ 4 * (units * d.den) := by
    rw [← Nat.mul_assoc]
    exact Nat.mul_le_mul_right _ hless
  have hgap : Nat.pow 2 (units.log2 - 52) = gap units := rfl
  unfold readsBack at h
  dsimp only at h
  rw [hreach, hgap, compareQuarters_eq, compareQuarters_eq, hlow, hhigh] at h
  simp only [Bool.and_eq_true, Bool.or_eq_true, beq_iff_eq, Nat.compare_eq_gt,
    Nat.compare_eq_lt, Nat.compare_eq_eq] at h
  obtain ⟨hatLow, hatHigh⟩ := h
  -- an end of the interval is reached only by a magnitude whose last bit is even
  refine ⟨d.den_pos, by omega, by omega, fun hends => ?_⟩
  rcases hatLow with hatLow | hatLow
  · rcases hatHigh with hatHigh | hatHigh
    · omega
    · exact hatHigh.1
  · exact hatLow.1

/-! ## Decimals within reach -/

theorem digitCount_pos (n : Nat) : 0 < digitCount n :=
  List.length_pos_iff.mpr Nat.toDigits_ne_nil

/-- A number is below the power of ten that its digits count. -/
theorem lt_pow_digitCount (n : Nat) : n < 10 ^ digitCount n :=
  (Nat.length_toDigits_le_iff (by decide) (digitCount_pos n)).mp (Nat.le_refl _)

/-- It is not below the one before. -/
theorem pow_le_of_digitCount {n : Nat} (h : n ≠ 0) : 10 ^ (digitCount n - 1) ≤ n := by
  by_contra hless
  by_cases hone : digitCount n = 1
  · rw [hone] at hless
    simp only [Nat.sub_self, Nat.pow_zero] at hless
    omega
  · have hpos := digitCount_pos n
    have hcount := (Nat.length_toDigits_le_iff (b := 10) (by decide) (by omega)).mpr
      (Nat.not_le.mp hless)
    have hlength : (Nat.toDigits 10 n).length = digitCount n := rfl
    omega

theorem two_mul_unitsPerOne_le : 2 * unitsPerOne ≤ 10 ^ 330 := by decide +kernel

theorem overflowUnits_le : 6 * overflowUnits ≤ 4 * (10 ^ 311 * unitsPerOne) := by decide +kernel

/-- What lies in the interval of a magnitude is not far below all of them. -/
theorem le_magnitude_of_nearest (cut : Nat) (hcut : 2 * unitsPerOne ≤ 10 ^ cut) (hne : units ≠ 0)
    (h : Nearest units d.num d.den) : -(cut : Int) ≤ d.exponent + digitCount d.digits := by
  by_contra hsmall
  -- the decimal would be less than half a unit, and no magnitude but zero reaches down to there
  obtain ⟨places, hplaces⟩ : ∃ places : Nat, d.exponent = -(places : Int) :=
    ⟨(-d.exponent).toNat, by omega⟩
  have hnum : d.num = d.digits * unitsPerOne := by
    rw [num, hplaces, show (-(places : Int)).toNat = 0 by omega, Nat.pow_zero, Nat.mul_one]
  have hden : 10 ^ digitCount d.digits * 10 ^ cut ≤ d.den := by
    rw [den, ← Nat.pow_add]
    exact Nat.pow_le_pow_right (by decide) (by omega)
  have hless : d.num * 2 < d.den := by
    calc d.num * 2 = d.digits * (2 * unitsPerOne) := by rw [hnum, Nat.mul_assoc, Nat.mul_comm 2]
      _ < 10 ^ digitCount d.digits * 10 ^ cut :=
        Nat.mul_lt_mul_of_lt_of_le (lt_pow_digitCount _) hcut
          (Nat.pow_pos (by decide))
      _ ≤ d.den := hden
  have hreach := reach_mul_le_self d.den hne
  have hone : 1 * d.den ≤ units * d.den := Nat.mul_le_mul_right _ (Nat.one_le_iff_ne_zero.mpr hne)
  have hlow := h.low
  omega

/-- What lies in the interval of a magnitude is not far above all of them. -/
theorem magnitude_le_of_nearest (cut : Nat)
    (hcut : 6 * overflowUnits ≤ 4 * (10 ^ cut * unitsPerOne)) (hne : units ≠ 0)
    (hbound : units < overflowUnits) (hdigits : d.digits ≠ 0) (h : Nearest units d.num d.den) :
    d.exponent + digitCount d.digits ≤ cut := by
  by_contra hlarge
  -- the decimal would lie above one and a half times the overflow, out of reach of any magnitude
  have hpower : 10 ^ cut * d.den ≤ d.digits * 10 ^ d.exponent.toNat := by
    calc 10 ^ cut * d.den = 10 ^ (cut + (-d.exponent).toNat) := by rw [den, Nat.pow_add]
      _ ≤ 10 ^ (digitCount d.digits - 1 + d.exponent.toNat) :=
        Nat.pow_le_pow_right (by decide) (by omega)
      _ = 10 ^ (digitCount d.digits - 1) * 10 ^ d.exponent.toNat := Nat.pow_add ..
      _ ≤ d.digits * 10 ^ d.exponent.toNat :=
        Nat.mul_le_mul_right _ (pow_le_of_digitCount hdigits)
  have hnum : 10 ^ cut * unitsPerOne * d.den ≤ d.num := by
    rw [num, Nat.mul_right_comm]
    exact Nat.mul_le_mul_right _ hpower
  have hoverflow : 6 * (overflowUnits * d.den) ≤ 4 * (10 ^ cut * unitsPerOne * d.den) := by
    rw [← Nat.mul_assoc, ← Nat.mul_assoc 4]
    exact Nat.mul_le_mul_right _ hcut
  have hgap : gap units * d.den ≤ units * d.den := Nat.mul_le_mul_right _ (gap_le hne)
  have hless : units * d.den < overflowUnits * d.den :=
    Nat.mul_lt_mul_of_pos_right hbound d.den_pos
  have hhigh := h.high
  rw [Nat.mul_assoc 2] at hhigh
  omega

/-- A decimal whose digits are zero lies in the interval of zero only. -/
theorem digits_ne_zero_of_nearest (hne : units ≠ 0) (h : Nearest units d.num d.den) :
    d.digits ≠ 0 := by
  intro hzero
  have hnum : d.num = 0 := by rw [num, hzero, Nat.zero_mul, Nat.zero_mul]
  have hreach := reach_mul_le_self d.den hne
  have hpos : 0 < units * d.den := Nat.mul_pos (Nat.pos_of_ne_zero hne) d.den_pos
  have hlow := h.low
  omega

/-- A decimal that is neither too small nor too large is read as its quotient, rounded once. -/
theorem toDouble_eq_ofUnits (negative : Bool) (hdigits : d.digits ≠ 0)
    (hlow : -330 ≤ d.exponent + digitCount d.digits)
    (hhigh : d.exponent + digitCount d.digits ≤ 311) :
    d.toDouble negative = .ofUnits negative d.num d.den := by
  unfold toDouble
  dsimp only
  rw [if_neg (by omega), if_neg (by omega)]
  rfl

/-- A decimal in the interval of a double is read as the double. -/
theorem toDouble_of_nearest {x : Finite} (hne : x.units ≠ 0) (h : Nearest x.units d.num d.den) :
    d.toDouble x.negative = .finite x := by
  have hdigits := digits_ne_zero_of_nearest hne h
  have hlow := le_magnitude_of_nearest 330 two_mul_unitsPerOne_le hne h
  have hhigh :=
    magnitude_le_of_nearest 311 overflowUnits_le hne x.representable.1 hdigits h
  rw [toDouble_eq_ofUnits x.negative hdigits (by omega) (by omega)]
  exact Double.ofUnits_of_nearest h

/-! ## Trailing zeros -/

/-- A zero at the end is one more digit. -/
theorem digitCount_ten_mul {n : Nat} (h : n ≠ 0) : digitCount (10 * n) = digitCount n + 1 := by
  have hle (count : Nat) (hcount : 0 < count) : digitCount (10 * n) ≤ count + 1 ↔
      digitCount n ≤ count := by
    rw [digitCount, digitCount, Nat.length_toDigits_le_iff (by decide) (by omega),
      Nat.length_toDigits_le_iff (by decide) hcount, Nat.pow_succ']
    omega
  have hpos := digitCount_pos n
  refine Nat.le_antisymm ((hle _ hpos).mpr (Nat.le_refl _)) ?_
  by_contra hless
  by_cases hone : digitCount n = 1
  · have hten := pow_le_of_digitCount (n := 10 * n) (by omega)
    have hlt := lt_pow_digitCount (10 * n)
    have hcount : digitCount (10 * n) = 1 := by
      have := digitCount_pos (10 * n)
      omega
    rw [hcount] at hlt
    omega
  · have := (hle (digitCount n - 1) (by omega)).mp (by omega)
    omega

/-- Ten times the digits with an exponent less by one are the same quotient. -/
theorem ofUnits_ten_mul (negative : Bool) (digits : Nat) (exponent : Int) :
    Double.ofUnits negative (num ⟨10 * digits, exponent⟩) (den ⟨10 * digits, exponent⟩) =
      Double.ofUnits negative (num ⟨digits, exponent + 1⟩) (den ⟨digits, exponent + 1⟩) := by
  -- the ten goes to the denominator if there is one, and to the numerator otherwise
  rcases Int.lt_or_le exponent 0 with hneg | hpos
  · obtain ⟨places, hplaces⟩ : ∃ places : Nat, exponent = -(places + 1 : Nat) :=
      ⟨(-exponent - 1).toNat, by omega⟩
    have hnum : num ⟨10 * digits, exponent⟩ = 10 * num ⟨digits, exponent + 1⟩ := by
      simp only [num, show exponent.toNat = 0 by omega,
        show (exponent + 1).toNat = 0 by omega, Nat.pow_zero, Nat.mul_one, Nat.mul_assoc]
    have hden : den ⟨10 * digits, exponent⟩ = 10 * den ⟨digits, exponent + 1⟩ := by
      simp only [den, show (-exponent).toNat = places + 1 by omega,
        show (-(exponent + 1)).toNat = places by omega, Nat.pow_succ']
    rw [hnum, hden, Double.ofUnits_mul_left (by decide)]
  · have hnum : num ⟨10 * digits, exponent⟩ = num ⟨digits, exponent + 1⟩ := by
      simp only [num, show (exponent + 1).toNat = exponent.toNat + 1 by omega, Nat.pow_succ',
        Nat.mul_assoc, Nat.mul_left_comm]
    have hden : den ⟨10 * digits, exponent⟩ = den ⟨digits, exponent + 1⟩ := by
      simp only [den, show (-exponent).toNat = 0 by omega,
        show (-(exponent + 1)).toNat = 0 by omega]
    rw [hnum, hden]

/-- A zero at the end of the digits counts for one of the exponent. -/
theorem toDouble_ten_mul (negative : Bool) (digits : Nat) (exponent : Int) :
    toDouble negative ⟨10 * digits, exponent⟩ = toDouble negative ⟨digits, exponent + 1⟩ := by
  by_cases hdigits : digits = 0
  · subst hdigits
    simp [toDouble]
  have hcount : (digitCount (10 * digits) : Int) = digitCount digits + 1 := by
    rw [digitCount_ten_mul hdigits]
    rfl
  have hmagnitude : exponent + (digitCount (10 * digits) : Int) =
      exponent + 1 + digitCount digits := by omega
  have hunits := ofUnits_ten_mul negative digits exponent
  simp only [num, den] at hunits
  simp only [toDouble, hmagnitude, hdigits, Nat.mul_eq_zero, Nat.pow_eq, false_or, or_false,
    OfNat.ofNat_ne_zero]
  split
  · rfl
  · split
    · rfl
    · exact hunits

/-- Trailing zeros do not change what a decimal is read as. -/
theorem toDouble_shift (negative : Bool) (digits : Nat) (exponent : Int) (places : Nat) :
    toDouble negative ⟨digits * 10 ^ places, exponent - places⟩ =
      toDouble negative ⟨digits, exponent⟩ := by
  induction places generalizing exponent with
  | zero => simp
  | succ places ih =>
    have hexponent : exponent - (places + 1 : Nat) + 1 = exponent - places := by omega
    rw [Nat.pow_succ, ← Nat.mul_assoc, Nat.mul_comm, toDouble_ten_mul, hexponent, ih]

/-- A decimal without its trailing zeros is read as before. -/
theorem toDouble_stripZeros (negative : Bool) (fuel : Nat) (d : Decimal) :
    (d.stripZeros fuel).toDouble negative = d.toDouble negative := by
  induction fuel generalizing d with
  | zero => rfl
  | succ fuel ih =>
    unfold stripZeros
    split
    · next hzero =>
      obtain ⟨digits, exponent⟩ := d
      have hdigits : 10 * (digits / 10) = digits :=
        Nat.mul_div_cancel' (Nat.dvd_of_mod_eq_zero hzero.2)
      rw [ih, ← toDouble_ten_mul, hdigits]
    · rfl

end Decimal

/-! ## The shortest decimal -/

namespace Finite

variable {x : Finite} {tie : TieRule}

/-- What the search finds has passed the test. -/
theorem readsBack_of_nearestOnGrid? {units : Nat} {exponent : Int} {d : Decimal}
    (h : nearestOnGrid? tie units exponent = some d) : d.readsBack units = true := by
  unfold nearestOnGrid? at h
  generalize units * Nat.pow 10 (-exponent).toNat = num at h
  generalize unitsPerOne * Nat.pow 10 exponent.toNat = den at h
  dsimp only at h
  by_cases hlower : Decimal.readsBack ⟨num / den, exponent⟩ units = true
  · by_cases hupper : Decimal.readsBack ⟨num / den + 1, exponent⟩ units = true
    · -- whichever of the two is taken
      have hboth :
          some d = some ⟨num / den, exponent⟩ ∨ some d = some ⟨num / den + 1, exponent⟩ := by
        rw [if_pos hlower, if_pos hupper] at h
        rw [← h]
        cases tie <;> grind
      rcases hboth with heq | heq <;> obtain rfl := Option.some.inj heq
      · exact hlower
      · exact hupper
    · rw [if_pos hlower, if_neg hupper] at h
      obtain rfl := Option.some.inj h
      exact hlower
  · rw [if_neg hlower] at h
    obtain ⟨hupper, heq⟩ := Option.ite_none_right_eq_some.mp h
    obtain rfl := Option.some.inj heq
    exact hupper

/-- The exact value of a magnitude as a decimal. -/
theorem nearest_exact (units places : Nat) (hplaces : unitsPerOne = Nat.pow 2 places) :
    Nearest units (Decimal.num ⟨units * Nat.pow 5 places, -places⟩)
      (Decimal.den ⟨units * Nat.pow 5 places, -places⟩) := by
  have hnum : Decimal.num ⟨units * Nat.pow 5 places, -places⟩ =
      units * Decimal.den ⟨units * Nat.pow 5 places, -places⟩ := by
    simp only [Decimal.num, Decimal.den, show (-(places : Int)).toNat = 0 by omega,
      show (- -(places : Int)).toNat = places by omega, Nat.pow_zero, Nat.mul_one, Nat.mul_assoc,
      hplaces, Nat.pow_eq, ← Nat.mul_pow]
  rw [hnum]
  exact nearest_self (Decimal.den_pos _) units

/-- The shortest decimal of a double reads back as the double. -/
theorem toDouble_shortest (tie : TieRule) (x : Finite) :
    (x.shortest tie).toDouble x.negative = .finite x := by
  obtain ⟨negative, units, hrepresentable⟩ := x
  unfold shortest
  by_cases hne : units = 0
  · subst hne
    rfl
  dsimp only
  rw [if_neg hne, Decimal.toDouble_stripZeros]
  refine Decimal.toDouble_of_nearest (x := ⟨negative, units, hrepresentable⟩) hne ?_
  -- either a short decimal has passed the test, or none has
  cases hfound : (List.range 17).findSome? fun n =>
      nearestOnGrid? tie units (decimalScale units - (n + 1 : Nat)) with
  | none => exact nearest_exact units 1074 rfl
  | some d =>
    obtain ⟨n, -, hgrid⟩ := List.exists_of_findSome?_eq_some hfound
    exact Decimal.nearest_of_readsBack hne (readsBack_of_nearestOnGrid? hgrid)

end Finite

/-! ## Notations -/

namespace Numeral

/-- Digits behind others count for less. -/
theorem digitsValue_append (digits digits' : List Char) :
    digitsValue (digits ++ digits') =
      digitsValue digits * 10 ^ digits'.length + digitsValue digits' := by
  have hfold (start : Nat) : digits'.foldl (fun n c => 10 * n + (c.toNat - '0'.toNat)) start =
      start * 10 ^ digits'.length + digitsValue digits' := by
    induction digits' generalizing start with
    | nil => simp [digitsValue]
    | cons c rest ih =>
      rw [digitsValue, List.foldl_cons, List.foldl_cons, ih, ih (10 * 0 + _), List.length_cons,
        Nat.pow_succ']
      ring
  rw [digitsValue, List.foldl_append, hfold]
  rfl

theorem digitsValue_append_zeros (digits : List Char) (count : Nat) :
    digitsValue (digits ++ List.replicate count '0') = digitsValue digits * 10 ^ count := by
  have hzeros := digitsValue_replicate_zero count []
  rw [List.append_nil] at hzeros
  rw [digitsValue_append, hzeros, List.length_replicate]
  rfl

variable {whole fraction : List Char}

/-- Digits around a point. -/
theorem parseDecimal?_point (hwhole : ∀ d ∈ whole, isDigit d = true)
    (hfraction : ∀ d ∈ fraction, isDigit d = true) (hne : whole ≠ []) :
    parseDecimal? (whole ++ '.' :: fraction) =
      some ⟨digitsValue (whole ++ fraction), -fraction.length⟩ := by
  have hempty : whole.isEmpty = false := by simpa using hne
  have hspan : spanDigits (whole ++ '.' :: fraction) = (whole, '.' :: fraction) :=
    spanDigits_append hwhole rfl
  unfold parseDecimal?
  simp only [hspan, spanDigits_of_forall hfraction, hempty, Bool.false_and,
    Bool.false_eq_true, if_false, Int.zero_sub]

/-- An exponent with its sign. -/
theorem parseExponent?_signed (exponent : Int) :
    parseExponent? ((if exponent < 0 then '-' else '+') :: Nat.toDigits 10 exponent.natAbs) =
      some exponent := by
  have hdigits : (Nat.toDigits 10 exponent.natAbs).all isDigit = true :=
    List.all_eq_true.mpr fun c hc => isDigit_of_mem_toDigits hc
  have hempty : (Nat.toDigits 10 exponent.natAbs).isEmpty = false := by
    simp [Nat.toDigits_ne_nil]
  by_cases hneg : exponent < 0
  · simp only [parseExponent?, if_pos hneg, splitSign, hempty, hdigits, digitsValue_toDigits]
    simp only [Bool.not_true, Bool.or_self, Bool.false_eq_true, if_false, if_true]
    exact congrArg some (by omega)
  · simp only [parseExponent?, if_neg hneg, splitSign, hempty, hdigits, digitsValue_toDigits]
    simp only [Bool.not_true, Bool.or_self, Bool.false_eq_true, if_false]
    exact congrArg some (by omega)

/-- Digits with an exponent behind them. -/
theorem parseDecimal?_exponent (hwhole : ∀ d ∈ whole, isDigit d = true) (hne : whole ≠ [])
    (rest : List Char) :
    parseDecimal? (whole ++ 'e' :: rest) =
      (parseExponent? rest).map (⟨digitsValue whole, ·⟩) := by
  have hempty : whole.isEmpty = false := by simpa using hne
  have hspan : spanDigits (whole ++ 'e' :: rest) = (whole, 'e' :: rest) :=
    spanDigits_append hwhole rfl
  unfold parseDecimal?
  rw [hspan]
  show (if (whole.isEmpty && true) = true then none
    else (parseExponent? rest).map fun exponent =>
      (⟨digitsValue (whole ++ []), exponent - (0 : Nat)⟩ : Decimal)) = _
  simp only [hempty, Bool.false_and, Bool.false_eq_true, if_false, List.append_nil,
    Int.natCast_zero, Int.sub_zero]

/-- Digits around a point with an exponent behind them. -/
theorem parseDecimal?_point_exponent (hwhole : ∀ d ∈ whole, isDigit d = true)
    (hfraction : ∀ d ∈ fraction, isDigit d = true) (hne : whole ≠ []) (rest : List Char) :
    parseDecimal? (whole ++ '.' :: (fraction ++ 'e' :: rest)) =
      (parseExponent? rest).map fun exponent =>
        ⟨digitsValue (whole ++ fraction), exponent - fraction.length⟩ := by
  have hempty : whole.isEmpty = false := by simpa using hne
  have hspan : spanDigits (whole ++ '.' :: (fraction ++ 'e' :: rest)) =
      (whole, '.' :: (fraction ++ 'e' :: rest)) := spanDigits_append hwhole rfl
  have hspan' : spanDigits (fraction ++ 'e' :: rest) = (fraction, 'e' :: rest) :=
    spanDigits_append hfraction rfl
  unfold parseDecimal?
  simp only [hspan, hspan', hempty, Bool.false_and, Bool.false_eq_true, if_false, true_or, if_true]

/-- A number in positional notation, a whole one with a zero behind the point. -/
theorem parseDecimal?_positional (n : Nat) (exponent : Int) :
    ∃ places : Nat, parseDecimal? (positional (Nat.toDigits 10 n) exponent ['.', '0']) =
      some ⟨n * 10 ^ places, exponent - places⟩ := by
  have hdigits : ∀ d ∈ Nat.toDigits 10 n, isDigit d = true := fun d hd =>
    isDigit_of_mem_toDigits hd
  have hzero (count : Nat) : ∀ d ∈ List.replicate count '0', isDigit d = true := by
    intro d hd
    rw [List.eq_of_mem_replicate hd]
    rfl
  by_cases hwhole : 0 ≤ exponent
  · refine ⟨exponent.toNat + 1, ?_⟩
    rw [positional, if_pos hwhole, parseDecimal?_point, List.append_assoc,
      ← List.replicate_succ', digitsValue_append_zeros, digitsValue_toDigits]
    · exact congrArg some (congrArg (Decimal.mk _) (by simp; omega))
    · exact List.forall_mem_append.mpr ⟨hdigits, hzero _⟩
    · exact hzero 1
    · simp [Nat.toDigits_ne_nil]
  · obtain ⟨places, hplaces⟩ : ∃ places : Nat, exponent = -(places : Int) :=
      ⟨(-exponent).toNat, by omega⟩
    refine ⟨0, ?_⟩
    rw [positional, if_neg hwhole]
    have hcount : (-exponent).toNat = places := by omega
    simp only [hcount]
    -- the zeros in front leave at least one digit before the point
    generalize hpadded : List.replicate (places + 1 - (Nat.toDigits 10 n).length) '0' ++
      Nat.toDigits 10 n = padded
    have hlength : places + 1 ≤ padded.length := by
      rw [← hpadded, List.length_append, List.length_replicate]
      omega
    have hall : ∀ d ∈ padded, isDigit d = true := by
      rw [← hpadded]
      exact List.forall_mem_append.mpr ⟨hzero _, hdigits⟩
    have hvalue : digitsValue padded = n := by
      rw [← hpadded, digitsValue_replicate_zero, digitsValue_toDigits]
    rw [parseDecimal?_point, List.take_append_drop, hvalue, List.length_drop]
    · rw [Nat.pow_zero, Nat.mul_one]
      exact congrArg some (congrArg (Decimal.mk _) (by omega))
    · exact fun d hd => hall d (List.mem_of_mem_take hd)
    · exact fun d hd => hall d (List.mem_of_mem_drop hd)
    · intro hnil
      have := congrArg List.length hnil
      rw [List.length_take, List.length_nil] at this
      omega

/-- A number in scientific notation. -/
theorem parseDecimal?_scientific (n : Nat) (exponent : Int) :
    parseDecimal? (scientific (Nat.toDigits 10 n)
      (exponent + (Nat.toDigits 10 n).length - 1)) = some ⟨n, exponent⟩ := by
  have hdigits : ∀ d ∈ Nat.toDigits 10 n, isDigit d = true := fun d hd =>
    isDigit_of_mem_toDigits hd
  have hvalue := digitsValue_toDigits n
  have hne := Nat.toDigits_ne_nil (n := n) (b := 10)
  generalize Nat.toDigits 10 n = digits at hdigits hvalue hne ⊢
  obtain ⟨first, rest, rfl⟩ := List.exists_cons_of_ne_nil hne
  obtain ⟨hfirst, hrest⟩ := List.forall_mem_cons.mp hdigits
  have hone : ∀ d ∈ [first], isDigit d = true := fun d hd => List.mem_singleton.mp hd ▸ hfirst
  cases rest with
  | nil =>
    show parseDecimal? ([first] ++ 'e' :: _) = _
    refine (parseDecimal?_exponent hone (List.cons_ne_nil _ _) _).trans ?_
    rw [parseExponent?_signed, Option.map_some, hvalue]
    exact congrArg some (congrArg (Decimal.mk n) (by simp))
  | cons second rest =>
    show parseDecimal? ([first] ++ '.' :: (second :: rest ++ 'e' :: _)) = _
    refine (parseDecimal?_point_exponent hone hrest (List.cons_ne_nil _ _) _).trans ?_
    rw [parseExponent?_signed, Option.map_some, List.singleton_append, hvalue]
    refine congrArg some (congrArg (Decimal.mk n) ?_)
    simp only [List.length_cons]
    omega

/-- Both notations begin with a digit. -/
theorem exists_positional_eq_cons (n : Nat) (exponent : Int) (whole : List Char) :
    ∃ d rest, positional (Nat.toDigits 10 n) exponent whole = d :: rest ∧ isDigit d = true := by
  obtain ⟨c, others, hdigits, hc⟩ := exists_toDigits_eq_cons n
  unfold positional
  split
  · exact ⟨c, _, by rw [hdigits, List.cons_append, List.cons_append], hc⟩
  · dsimp only
    generalize hpadded : List.replicate ((-exponent).toNat + 1 - (Nat.toDigits 10 n).length) '0' ++
      Nat.toDigits 10 n = padded
    have hlength : (-exponent).toNat + 1 ≤ padded.length := by
      rw [← hpadded, List.length_append, List.length_replicate]
      omega
    -- in front of a fraction there are zeros, so a digit in any case
    have hhead : ∃ d rest, padded = d :: rest ∧ isDigit d = true := by
      rw [← hpadded, hdigits]
      cases (-exponent).toNat + 1 - (c :: others).length with
      | zero => exact ⟨c, others, rfl, hc⟩
      | succ count => exact ⟨'0', _, rfl, rfl⟩
    obtain ⟨d, rest, rfl, hd⟩ := hhead
    obtain ⟨count, hcount⟩ : ∃ count, (d :: rest).length - (-exponent).toNat = count + 1 :=
      ⟨(d :: rest).length - (-exponent).toNat - 1, by omega⟩
    exact ⟨d, _, by rw [hcount, List.take_succ_cons, List.cons_append], hd⟩

theorem exists_scientific_eq_cons (n : Nat) (exponent : Int) :
    ∃ d rest, scientific (Nat.toDigits 10 n) exponent = d :: rest ∧ isDigit d = true := by
  obtain ⟨c, others, hdigits, hc⟩ := exists_toDigits_eq_cons n
  unfold scientific
  rw [hdigits]
  cases others <;> exact ⟨c, _, rfl, hc⟩

end Numeral

/-! ## Texts -/

/-- The text of a decimal, by its leading digit in one of two notations. -/
theorem Numeral.parseDecimal?_text (d : Decimal) {leading : Int}
    (hleading : leading = d.exponent + (Nat.toDigits 10 d.digits).length - 1) :
    ∃ c rest places, (if -5 ≤ leading ∧ leading < 16 then
        positional (Nat.toDigits 10 d.digits) d.exponent ['.', '0']
      else scientific (Nat.toDigits 10 d.digits) leading) = c :: rest ∧ isDigit c = true ∧
      parseDecimal? (c :: rest) = some ⟨d.digits * 10 ^ places, d.exponent - (places : Nat)⟩ := by
  split
  · obtain ⟨c, rest, hbody, hc⟩ := exists_positional_eq_cons d.digits d.exponent ['.', '0']
    obtain ⟨places, hparse⟩ := parseDecimal?_positional d.digits d.exponent
    exact ⟨c, rest, places, hbody, hc, hbody ▸ hparse⟩
  · obtain ⟨c, rest, hbody, hc⟩ := exists_scientific_eq_cons d.digits leading
    have hparse := parseDecimal?_scientific d.digits d.exponent
    rw [← hleading, hbody] at hparse
    exact ⟨c, rest, 0, hbody, hc, by simp [hparse]⟩

/-- The text of a double is read as the double. -/
theorem Finite.parse?_toJsonText (x : Finite) :
    Numeral.parse? x.toJsonText = some (.finite x) := by
  have hshortest := toDouble_shortest .toEven x
  unfold toJsonText
  generalize x.shortest .toEven = d at hshortest
  obtain ⟨c, rest, places, hbody, hc, hparse⟩ := Numeral.parseDecimal?_text d rfl
  dsimp only
  rw [hbody]
  have hsign : Numeral.splitSign (String.ofList
      (if x.negative = true then '-' :: c :: rest else c :: rest)).toList =
        (x.negative, c :: rest) := by
    rw [String.toList_ofList]
    cases x.negative with
    | true => rfl
    | false => exact Numeral.splitSign_of_isDigit hc rest
  rw [Numeral.parse?_of_splitSign hsign hc, hparse, Option.map_some, Decimal.toDouble_shift,
    hshortest]

end NestedRecord
