import Mathlib.Tactic.Linarith
import NestedRecord.Proofs.Number.Exact

/-!
# Which numbers are rounded to a double

Every double stands alone in an interval of numbers that are rounded to it: up to the midpoints
between it and its two neighbours, and with the midpoints themselves if its last bit is even. Just
above a power of two the lower neighbour is half as far as the upper one.

- `Nearest` says that a quotient lies in the interval of a magnitude.
- `roundUnits_eq_of_nearest`: such a quotient is rounded to the magnitude.
- `roundUnits_mul_left`: rounding depends on the value of a quotient only.

A quotient in the interval lies in the same binade as the magnitude, or just below it if the
magnitude is a power of two. In the first case the grid is that of the magnitude and the distance is
at most half of its spacing. In the second the grid is finer by one half, and the last multiple on
it is the power.
-/

namespace NestedRecord

/-! ## To the nearest natural number -/

/-- A quotient within one half of a natural number is rounded to it, if it is even or the distance
is less. -/
theorem roundHalfEven_eq {num den nearest : Nat} (hden : 0 < den)
    (hlow : 2 * (nearest * den) ≤ 2 * num + den) (hhigh : 2 * num ≤ 2 * (nearest * den) + den)
    (heven : 2 * (nearest * den) = 2 * num + den ∨ 2 * num = 2 * (nearest * den) + den →
      nearest % 2 = 0) :
    roundHalfEven num den = nearest := by
  have hsplit : den * (num / den) + num % den = num := Nat.div_add_mod num den
  have hrest : num % den < den := Nat.mod_lt num hden
  unfold roundHalfEven
  generalize num / den = quotient at hsplit ⊢
  generalize num % den = remainder at hsplit hrest ⊢
  have habove : nearest ≤ quotient + 1 := by
    by_contra hnot
    have : (quotient + 2) * den ≤ nearest * den := Nat.mul_le_mul_right den (by omega)
    nlinarith
  have hbelow : quotient ≤ nearest := by
    by_contra hnot
    have : (nearest + 1) * den ≤ quotient * den := Nat.mul_le_mul_right den (by omega)
    nlinarith
  rcases Nat.lt_or_eq_of_le hbelow with hless | rfl
  · -- the quotient is the lower neighbour, so that the remainder is at least one half
    obtain rfl : nearest = quotient + 1 := by omega
    have hmul : (quotient + 1) * den = den * quotient + den := by rw [Nat.succ_mul, Nat.mul_comm]
    rw [hmul] at hlow hhigh heven
    dsimp only
    rw [if_neg (by omega)]
    split
    · rfl
    · rw [if_neg (by omega)]
  · rw [Nat.mul_comm quotient den] at hlow hhigh heven
    dsimp only
    split
    · rfl
    · rw [if_neg (by omega), if_pos (heven (by omega))]

/-! ## To the nearest double -/

/-- The distance from a magnitude to the next one above. -/
def gap (units : Nat) : Nat := 2 ^ (units.log2 - 52)

/-- Whether the next magnitude below is only half as far as the next one above. -/
def IsNarrow (units : Nat) : Prop := 53 ≤ units.log2 ∧ units = 2 ^ units.log2

instance (units : Nat) : Decidable (IsNarrow units) := inferInstanceAs (Decidable (_ ∧ _))

/-- Four times the distance from a magnitude to the midpoint below it. -/
def reach (units : Nat) : Nat := if IsNarrow units then gap units else 2 * gap units

/-- The quotient `num / den` lies in the interval of a magnitude. -/
structure Nearest (units num den : Nat) : Prop where
  pos : 0 < den
  low : 4 * (units * den) ≤ 4 * num + reach units * den
  high : 4 * num ≤ 4 * (units * den) + 2 * gap units * den
  /-- the midpoints belong to the even ones -/
  even : 4 * (units * den) = 4 * num + reach units * den ∨
    4 * num = 4 * (units * den) + 2 * gap units * den → units / gap units % 2 = 0

theorem gap_pos (units : Nat) : 0 < gap units := Nat.two_pow_pos _

theorem Representable.gap_dvd {units : Nat} (h : Representable units) : gap units ∣ units := h.2

/-- The gap is never greater than the magnitude. -/
theorem gap_le {units : Nat} (h : units ≠ 0) : gap units ≤ units :=
  (Nat.pow_le_pow_right (by decide) (Nat.sub_le _ _)).trans (Nat.log2_self_le h)

/-- Above a magnitude there is room up to the next power of two. -/
theorem add_gap_le {units : Nat} (h : Representable units) :
    units + gap units ≤ 2 ^ (units.log2 + 1) := by
  obtain ⟨significand, hunits⟩ := h.gap_dvd
  obtain ⟨count, hpower⟩ : gap units ∣ 2 ^ (units.log2 + 1) := Nat.pow_dvd_pow 2 (by omega)
  have hlt : gap units * significand < gap units * count := by
    rw [← hunits, ← hpower]
    exact Nat.lt_log2_self
  have hsucc : significand + 1 ≤ count := Nat.lt_of_mul_lt_mul_left hlt
  calc units + gap units = gap units * (significand + 1) := by rw [Nat.mul_succ, ← hunits]
    _ ≤ gap units * count := Nat.mul_le_mul_left _ hsucc
    _ = 2 ^ (units.log2 + 1) := hpower.symm

/-- Below a power of two the grid is fine enough. -/
theorem gridExponent_le {num den exponent : Nat} (h : num < 2 ^ (exponent + 1) * den) :
    gridExponent num den ≤ exponent - 52 := by
  unfold gridExponent
  by_cases hzero : num / den = 0
  · rw [hzero]
    exact Nat.zero_le _
  · have hlog : (num / den).log2 < exponent + 1 :=
      (Nat.log2_lt hzero).mpr (Nat.div_lt_of_lt_mul (by rwa [Nat.mul_comm]))
    omega

theorem le_gridExponent {num den exponent : Nat} (hden : 0 < den) (h : 2 ^ exponent * den ≤ num) :
    exponent - 52 ≤ gridExponent num den := by
  have hquotient : 2 ^ exponent ≤ num / den := (Nat.le_div_iff_mul_le hden).mpr h
  have hne : num / den ≠ 0 := Nat.ne_of_gt (Nat.lt_of_lt_of_le (Nat.two_pow_pos _) hquotient)
  exact Nat.sub_le_sub_right ((Nat.le_log2 hne).mpr hquotient) 52

/-- A quotient is rounded to multiples of the grid's spacing. -/
theorem roundUnits_eq {num den exponent : Nat} (nearest : Nat) (hden : 0 < den)
    (hgrid : gridExponent num den = exponent)
    (hlow : 2 * (nearest * 2 ^ exponent * den) ≤ 2 * num + 2 ^ exponent * den)
    (hhigh : 2 * num ≤ 2 * (nearest * 2 ^ exponent * den) + 2 ^ exponent * den)
    (heven : 2 * (nearest * 2 ^ exponent * den) = 2 * num + 2 ^ exponent * den ∨
      2 * num = 2 * (nearest * 2 ^ exponent * den) + 2 ^ exponent * den → nearest % 2 = 0) :
    roundUnits num den = nearest * 2 ^ exponent := by
  have hscaled : nearest * (den * 2 ^ exponent) = nearest * 2 ^ exponent * den := by
    rw [Nat.mul_comm den, Nat.mul_assoc]
  unfold roundUnits
  rw [hgrid, Nat.pow_eq]
  congr 1
  refine roundHalfEven_eq (Nat.mul_pos hden (Nat.two_pow_pos _)) ?_ ?_ ?_ <;>
    rwa [hscaled, Nat.mul_comm den]

variable {units num den : Nat}

theorem reach_le (units : Nat) : reach units ≤ 2 * gap units := by
  unfold reach
  split <;> omega

theorem reach_mul_le (units den : Nat) : reach units * den ≤ 2 * (gap units * den) := by
  rw [← Nat.mul_assoc]
  exact Nat.mul_le_mul_right den (reach_le units)

theorem reach_mul_le_self (den : Nat) (hne : units ≠ 0) :
    reach units * den ≤ 2 * (units * den) :=
  (reach_mul_le units den).trans
    (Nat.mul_le_mul_left 2 (Nat.mul_le_mul_right den (gap_le hne)))

/-- A quotient in the binade of its magnitude is rounded to it. -/
theorem roundUnits_of_gridExponent (hunits : Representable units) (h : Nearest units num den)
    (hgrid : gridExponent num den = units.log2 - 52) : roundUnits num den = units := by
  obtain ⟨significand, hsignificand⟩ := hunits.gap_dvd
  have hproduct : significand * 2 ^ (units.log2 - 52) = units := by
    rw [Nat.mul_comm]
    exact hsignificand.symm
  have hquotient : units / gap units = significand :=
    Nat.div_eq_of_eq_mul_right (gap_pos units) hsignificand
  have hgap : 0 < gap units * den := Nat.mul_pos (gap_pos units) h.pos
  have hreach := reach_mul_le units den
  obtain ⟨hpos, hlow, hhigh, heven⟩ := h
  rw [hquotient, Nat.mul_assoc 2] at heven
  rw [Nat.mul_assoc 2] at hhigh
  have hrounds := roundUnits_eq significand hpos hgrid
  rw [hproduct] at hrounds
  -- the bounds of the interval are those of half a spacing, in units of a quarter
  refine hrounds ?_ ?_ fun hends => heven ?_ <;>
    simp only [gap] at hgap hreach hlow hhigh ⊢ <;> omega

/-- Just below a power of two the grid is finer, and its last multiple is the power itself. -/
theorem roundUnits_of_isNarrow (hnarrow : IsNarrow units) (h : Nearest units num den)
    (hless : num < units * den) : roundUnits num den = units := by
  obtain ⟨hlog, hpower⟩ := hnarrow
  obtain ⟨exponent, hexponent⟩ : ∃ exponent, units.log2 = 53 + exponent :=
    ⟨units.log2 - 53, by omega⟩
  have hunits : 2 ^ 53 * 2 ^ exponent = units := by rw [← Nat.pow_add, ← hexponent, ← hpower]
  have hgap : gap units = 2 * 2 ^ exponent := by
    rw [gap, hexponent, ← Nat.pow_succ']
    congr 1
    omega
  have hlow : 4 * (units * den) ≤ 4 * num + 2 * (2 ^ exponent * den) := by
    have hlow := h.low
    rwa [reach, if_pos ⟨hlog, hpower⟩, hgap, Nat.mul_assoc] at hlow
  have hgrid : gridExponent num den = exponent := by
    have habove : gridExponent num den ≤ 52 + exponent - 52 := by
      refine gridExponent_le ?_
      rwa [show 52 + exponent + 1 = 53 + exponent by omega, ← hexponent, ← hpower]
    have hbelow : 52 + exponent - 52 ≤ gridExponent num den := by
      refine le_gridExponent h.pos ?_
      -- half of the magnitude is further away than a quarter of the distance above it
      have hhalf : 2 * (2 ^ (52 + exponent) * den) = units * den := by
        rw [← Nat.mul_assoc, ← Nat.pow_succ', hpower, hexponent]
        congr 2
        omega
      have hfine : 2 ^ exponent * den ≤ 2 ^ (52 + exponent) * den :=
        Nat.mul_le_mul_right den (Nat.pow_le_pow_right (by decide) (by omega))
      omega
    omega
  have hrounds := roundUnits_eq (2 ^ 53) h.pos hgrid
  rw [hunits] at hrounds
  exact hrounds (by omega) (by omega) fun _ => rfl

/-- What lies in the interval of a magnitude is rounded to it. -/
theorem roundUnits_eq_of_nearest (hunits : Representable units) (h : Nearest units num den) :
    roundUnits num den = units := by
  have hupper : num < 2 ^ (units.log2 + 1) * den := by
    have hroom : (units + gap units) * den ≤ 2 ^ (units.log2 + 1) * den :=
      Nat.mul_le_mul_right den (add_gap_le hunits)
    have hgap : 0 < gap units * den := Nat.mul_pos (gap_pos units) h.pos
    have hhigh := h.high
    rw [Nat.mul_assoc 2] at hhigh
    rw [Nat.add_mul] at hroom
    omega
  have hgrid := gridExponent_le hupper
  by_cases hsame : gridExponent num den = units.log2 - 52
  · exact roundUnits_of_gridExponent hunits h hsame
  · -- the quotient lies below the binade of the magnitude, which is a power of two then
    have hlog : 53 ≤ units.log2 := by omega
    have hbelow : num < 2 ^ units.log2 * den := by
      by_contra hnot
      exact hsame (Nat.le_antisymm hgrid (le_gridExponent h.pos (Nat.not_lt.mp hnot)))
    have hne : units ≠ 0 := by
      rintro rfl
      simp at hlog
    -- were it no power of two, the quotient would be more than half a gap below it
    have hpower : units = 2 ^ units.log2 := by
      obtain ⟨significand, hsignificand⟩ := hunits.gap_dvd
      obtain ⟨count, hcount⟩ : gap units ∣ 2 ^ units.log2 := Nat.pow_dvd_pow 2 (by omega)
      have hself : 2 ^ units.log2 ≤ units := Nat.log2_self_le hne
      by_contra hnot
      have hsucc : count + 1 ≤ significand := by
        refine Nat.lt_of_mul_lt_mul_left (a := gap units) ?_
        omega
      have hstep : (2 ^ units.log2 + gap units) * den ≤ units * den := by
        refine Nat.mul_le_mul_right den ?_
        calc 2 ^ units.log2 + gap units = gap units * (count + 1) := by
              rw [Nat.mul_succ, ← hcount]
          _ ≤ gap units * significand := Nat.mul_le_mul_left _ hsucc
          _ = units := hsignificand.symm
      have hreach := reach_mul_le units den
      have hlow := h.low
      have hgap : 0 < gap units * den := Nat.mul_pos (gap_pos units) h.pos
      rw [Nat.add_mul] at hstep
      omega
    rw [← hpower] at hbelow
    exact roundUnits_of_isNarrow ⟨hlog, hpower⟩ h hbelow

/-- A magnitude is rounded to itself. -/
theorem nearest_self (hne : 0 < den) (units : Nat) : Nearest units (units * den) den where
  pos := hne
  low := Nat.le_add_right _ _
  high := Nat.le_add_right _ _
  even := by
    have hgap : 0 < gap units * den := Nat.mul_pos (gap_pos units) hne
    have hreach : 0 < reach units * den := by
      refine Nat.mul_pos ?_ hne
      have hgap := gap_pos units
      unfold reach
      split <;> omega
    rw [Nat.mul_assoc 2]
    omega

/-! ## Equal quotients -/

/-- Rounding to a natural number depends on the value of a quotient only. -/
theorem roundHalfEven_mul_left {factor : Nat} (hfactor : 0 < factor) (num den : Nat) :
    roundHalfEven (factor * num) (factor * den) = roundHalfEven num den := by
  unfold roundHalfEven
  have hlt (a b : Nat) : factor * a < factor * b ↔ a < b := Nat.mul_lt_mul_left hfactor
  simp only [Nat.mul_div_mul_left _ _ hfactor, Nat.mul_mod_mul_left, Nat.mul_left_comm 2, hlt]

/-- So does rounding to a double. -/
theorem roundUnits_mul_left {factor : Nat} (hfactor : 0 < factor) (num den : Nat) :
    roundUnits (factor * num) (factor * den) = roundUnits num den := by
  have hgrid : gridExponent (factor * num) (factor * den) = gridExponent num den := by
    unfold gridExponent
    rw [Nat.mul_div_mul_left _ _ hfactor]
  unfold roundUnits
  rw [hgrid, Nat.mul_assoc, roundHalfEven_mul_left hfactor]

theorem Double.ofUnits_mul_left {factor : Nat} (hfactor : 0 < factor) (negative : Bool)
    (num den : Nat) :
    ofUnits negative (factor * num) (factor * den) = ofUnits negative num den := by
  unfold ofUnits
  simp only [roundUnits_mul_left hfactor]

/-- What lies in the interval of a double is rounded to the double. -/
theorem Double.ofUnits_of_nearest {x : Finite} (h : Nearest x.units num den) :
    ofUnits x.negative num den = .finite x := by
  have hround := roundUnits_eq_of_nearest x.representable h
  unfold ofUnits
  rw [dif_pos (hround ▸ x.representable.1)]
  simp only [hround]

end NestedRecord
