import NestedRecord.Proofs.Number.Exact
import NestedRecord.Scalar

/-!
# Conversions settle

A value that has been converted is not changed by the same conversion again, also where the
conversion saturates or drops a fraction.

For integers there is something to show, since the integer that comes out is read as a double the
second time. Dropping a fraction only clears bits, so that the double is the same integer, and an
end of the range is read as a power of two, which saturates to that end again.

* `exists_ofInt_truncate`: the integer part of a double is a double itself, and so is what it
  saturates to, by `Double.exists_ofInt_clamp`.
* `Conversion.apply_apply` is the result for all conversions.
-/

namespace NestedRecord

/-- Dropping the fraction clears bits at the end only. -/
theorem representable_whole_part {units : Nat} (h : Representable units) :
    Representable (units / unitsPerOne * unitsPerOne) := by
  have hle : units / unitsPerOne * unitsPerOne ≤ units := Nat.div_mul_le_self _ _
  obtain ⟨hbound, hgrid⟩ := h
  refine ⟨Nat.lt_of_le_of_lt hle hbound, ?_⟩
  obtain ⟨exponent, hone⟩ : ∃ exponent, unitsPerOne = Nat.pow 2 exponent := by
    unfold unitsPerOne
    generalize 1074 = exponent
    exact ⟨exponent, rfl⟩
  by_cases hzero : units / unitsPerOne * unitsPerOne = 0
  · rw [hzero]
    exact Nat.dvd_zero _
  have hlog : (units / unitsPerOne * unitsPerOne).log2 ≤ units.log2 := by
    have hself := Nat.log2_self_le hzero
    exact (Nat.le_log2 (by omega)).mpr (hself.trans hle)
  -- the grid is finer than one, or the number has no fraction
  have hdvd : Nat.pow 2 (units.log2 - 52) ∣ units / unitsPerOne * unitsPerOne := by
    rcases Nat.le_total (units.log2 - 52) exponent with hfine | hcoarse
    · rw [hone]
      exact (Nat.pow_dvd_pow 2 hfine).trans (Nat.dvd_mul_left _ _)
    · rw [Nat.div_mul_cancel]
      · exact hgrid
      · rw [hone]
        exact (Nat.pow_dvd_pow 2 hcoarse).trans hgrid
  exact (Nat.pow_dvd_pow 2 (Nat.sub_le_sub_right hlog 52)).trans hdvd

namespace Finite

variable (x : Finite)

/-- Without its sign, the integer part is a quotient of units. -/
theorem natAbs_truncate : x.truncate.natAbs = x.units / unitsPerOne := by
  rw [truncate, Int.natAbs_tdiv, natAbs_signedUnits, Int.natAbs_natCast]
  rfl

/-- The integer part of a double is a double. -/
theorem exists_ofInt_truncate :
    ∃ y : Finite, Double.ofInt x.truncate = .finite y ∧ y.truncate = x.truncate := by
  have hrepresentable : Representable (x.truncate.natAbs * unitsPerOne) := by
    rw [natAbs_truncate]
    exact representable_whole_part x.representable
  refine ⟨_, Double.ofUnits_of_representable hrepresentable _, truncate_of_signedUnits ?_⟩
  unfold signedUnits
  by_cases hneg : x.truncate < 0
  · simp only [hneg, decide_true, if_true]
    rw [Int.natCast_mul, Int.ofNat_natAbs_of_nonpos (Int.le_of_lt hneg), Int.neg_mul, Int.neg_neg]
  · simp only [hneg, decide_false, Bool.false_eq_true, if_false]
    rw [Int.natCast_mul, Int.natAbs_of_nonneg (Int.not_lt.mp hneg)]

end Finite

/-- The integer part of a double, saturated and read as a double again. -/
theorem Double.exists_ofInt_clamp (x : Finite) :
    ∃ y : Finite, Double.ofInt (clampInt64 x.truncate) = .finite y ∧
      clampInt64 y.truncate = clampInt64 x.truncate := by
  have hread : ∀ n m : Int, (Double.ofInt n).finite?.map Finite.truncate = some m →
      ∃ y : Finite, Double.ofInt n = .finite y ∧ y.truncate = m := by
    intro n m h
    obtain ⟨y, hy, hm⟩ := Option.map_eq_some_iff.mp h
    refine ⟨y, ?_, hm⟩
    cases hdouble : Double.ofInt n <;> rw [hdouble] at hy <;> cases hy
    rfl
  by_cases hlow : x.truncate < -9223372036854775808
  · obtain ⟨y, hy, hm⟩ := hread (-9223372036854775808) (-9223372036854775808) (by decide +kernel)
    have hclamp : clampInt64 x.truncate = -9223372036854775808 := by
      unfold clampInt64
      omega
    rw [hclamp]
    exact ⟨y, hy, by rw [hm]; decide⟩
  by_cases hhigh : 9223372036854775807 < x.truncate
  · -- the greatest integer of 64 bits is no double and rounded up, beyond the range
    obtain ⟨y, hy, hm⟩ := hread 9223372036854775807 9223372036854775808 (by decide +kernel)
    have hclamp : clampInt64 x.truncate = 9223372036854775807 := by
      unfold clampInt64
      omega
    rw [hclamp]
    exact ⟨y, hy, by rw [hm]; decide⟩
  have hclamp : clampInt64 x.truncate = x.truncate := by
    unfold clampInt64
    omega
  obtain ⟨y, hy, hm⟩ := x.exists_ofInt_truncate
  rw [hclamp]
  exact ⟨y, hy, by rw [hm, hclamp]⟩

namespace Conversion

theorem apply_toInt (value : Json) :
    apply .toInt value =
      (((reading? value).bind Double.finite?).map fun x => Json.ofInt x.truncate).getD .null := by
  rw [apply]
  cases (reading? value).bind Double.finite? <;> rfl

/-- An integer that comes from a double is converted to itself. -/
theorem toInt_ofInt (x : Finite) :
    apply .toInt (.ofInt x.truncate) = .ofInt x.truncate := by
  obtain ⟨y, hy, hclamp⟩ := Double.exists_ofInt_clamp x
  have hread : reading? (.ofInt x.truncate) = some (.finite y) := congrArg some hy
  rw [apply_toInt, hread]
  show Json.number (.whole (.clamp y.truncate)) = .number (.whole (.clamp x.truncate))
  rw [Whole.clamp.eq_def, Whole.clamp.eq_def]
  simp only [hclamp]

/-- The conversion to truth values gives one, or null. -/
theorem toBoolean_cases (value : Json) :
    (∃ b, apply .toBoolean value = .bool b) ∨ apply .toBoolean value = .null := by
  cases value with
  | bool b => exact .inl ⟨b, rfl⟩
  | number n => exact .inl ⟨_, rfl⟩
  | string text =>
    simp only [apply]
    split <;> simp
  | _ => exact .inr rfl

/-- A value that has been converted stays as it is. -/
theorem apply_apply (conversion : Conversion) (value : Json)
    (h : (conversion.apply value).isNull = false) :
    conversion.apply (conversion.apply value) = conversion.apply value := by
  cases conversion with
  | toNumber =>
    -- what is not null is a number, whatever it has been read from
    have hnumber : ∃ n, apply .toNumber value = .number n := by
      cases value with
      | number n => exact ⟨n, rfl⟩
      | string text =>
        cases hread : numeral? text with
        | none =>
          rw [apply, hread] at h
          cases h
        | some x =>
          rw [apply, hread, Option.elim_some, Json.ofDouble] at h ⊢
          cases hnumber : Number.ofDouble? x with
          | none =>
            rw [hnumber] at h
            cases h
          | some n => exact ⟨n, rfl⟩
      | bool b => exact ⟨_, rfl⟩
      | _ => cases h
    obtain ⟨n, hn⟩ := hnumber
    rw [hn]
    rfl
  | toInt =>
    rw [apply_toInt value] at h ⊢
    cases hread : (reading? value).bind Double.finite? with
    | none =>
      rw [hread] at h
      cases h
    | some x => exact toInt_ofInt x
  | toBoolean =>
    have hbool := toBoolean_cases value
    rw [or_iff_left fun hnull => by rw [hnull] at h; cases h] at hbool
    obtain ⟨b, hb⟩ := hbool
    rw [hb]
    rfl

/-- Nothing but a single value is converted. -/
theorem apply_of_structured (conversion : Conversion) {value : Json}
    (h : (∃ members, value = .object members) ∨ ∃ items, value = .array items) :
    conversion.apply value = .null := by
  rcases h with ⟨members, rfl⟩ | ⟨items, rfl⟩ <;> cases conversion <;> rfl

end Conversion

end NestedRecord
