import Mathlib.Data.List.TakeWhile
import NestedRecord.Proofs.Number.Exact

/-!
# Whole numbers as text

What is written into a key or a text is read again later. For integers this goes digit by digit, and
the only thing to see beside it is that the number has few enough digits to be a double.

- `Numeral.parse?_intText`: up to `2⁵³` the decimal digits of an integer read as that integer.
- `Numeral.parse?_eq_none`: digits are no numeral if something else than a point or an exponent
  follows them.
- `Json.ofDouble_ofInt`: below `9 · 10¹⁵` it is a whole number of JSON again.
-/

namespace NestedRecord

namespace Numeral

theorem isDigit_of_mem_toDigits {n : Nat} {c : Char} (h : c ∈ Nat.toDigits 10 n) :
    isDigit c = true := by
  have hdigit := Nat.isDigit_of_mem_toDigits (by decide) (by decide) h
  simpa [isDigit, Char.isDigit, Char.le_def] using hdigit

/-- The digits of a number begin with a digit. -/
theorem exists_toDigits_eq_cons (n : Nat) :
    ∃ c rest, Nat.toDigits 10 n = c :: rest ∧ isDigit c = true := by
  obtain ⟨c, rest, h⟩ := List.exists_cons_of_ne_nil (Nat.toDigits_ne_nil (n := n) (b := 10))
  exact ⟨c, rest, h, isDigit_of_mem_toDigits (by rw [h]; exact List.mem_cons_self)⟩

/-- Leading zeros do not count. -/
theorem digitsValue_replicate_zero (count : Nat) (digits : List Char) :
    digitsValue (List.replicate count '0' ++ digits) = digitsValue digits := by
  induction count with
  | zero => rfl
  | succ count ih =>
    rw [List.replicate_succ, List.cons_append, ← ih]
    rfl

theorem digitsValue_toDigits (n : Nat) : digitsValue (Nat.toDigits 10 n) = n :=
  Nat.ofDigitChars_ten_toDigits

/-- Digits are read as far as they go. -/
theorem spanDigits_append {digits rest : List Char} {mark : Char}
    (hdigits : ∀ d ∈ digits, isDigit d = true) (hmark : isDigit mark = false) :
    spanDigits (digits ++ mark :: rest) = (digits, mark :: rest) := by
  have hnot : ¬ isDigit mark = true := Bool.eq_false_iff.mp hmark
  unfold spanDigits
  rw [List.takeWhile_append_of_pos hdigits, List.dropWhile_append_of_pos hdigits,
    List.takeWhile_cons_of_neg hnot, List.dropWhile_cons_of_neg hnot, List.append_nil]

/-- Digits alone are read to the end. -/
theorem spanDigits_of_forall {digits : List Char} (h : ∀ d ∈ digits, isDigit d = true) :
    spanDigits digits = (digits, []) := by
  unfold spanDigits
  rw [List.takeWhile_eq_self_iff.mpr h, List.dropWhile_eq_nil_iff.mpr h]

theorem spanDigits_toDigits (n : Nat) :
    spanDigits (Nat.toDigits 10 n) = (Nat.toDigits 10 n, []) :=
  spanDigits_of_forall fun _ => isDigit_of_mem_toDigits

theorem parseDecimal?_toDigits (n : Nat) :
    parseDecimal? (Nat.toDigits 10 n) = some ⟨n, 0⟩ := by
  unfold parseDecimal?
  have hne : (Nat.toDigits 10 n).isEmpty = false := by simp [Nat.toDigits_ne_nil]
  simp [spanDigits_toDigits, hne, digitsValue_toDigits]

/-- A digit has no case. -/
theorem toLower_of_isDigit {c : Char} (h : isDigit c = true) : c.toLower = c := by
  have hdigit : c ≤ '9' := by
    simp only [isDigit, Bool.and_eq_true, decide_eq_true_eq] at h
    exact h.2
  unfold Char.toLower
  rw [dif_neg]
  rintro ⟨hupper, -⟩
  exact absurd (UInt32.le_trans hupper hdigit) (by decide)

/-- What begins with a digit is none of the words that numerals can be. -/
theorem ofList_ne_of_isDigit {c d : Char} (hd : isDigit d = true) (hc : isDigit c = false)
    (rest word : List Char) :
    String.ofList ((d :: rest).map Char.toLower) ≠ String.ofList (c :: word) := by
  intro h
  have hlist := String.ofList_injective h
  rw [List.map_cons, toLower_of_isDigit hd] at hlist
  rw [(List.cons.inj hlist).1, hc] at hd
  cases hd

/-- A digit is no sign. -/
theorem splitSign_of_isDigit {d : Char} (hd : isDigit d = true) (rest : List Char) :
    splitSign (d :: rest) = (false, d :: rest) := by
  unfold splitSign
  split
  · next heq =>
    rw [(List.cons.inj heq).1] at hd
    exact absurd hd (by decide)
  · next heq =>
    rw [(List.cons.inj heq).1] at hd
    exact absurd hd (by decide)
  · rfl

/-- A numeral that begins with a digit after its sign is a decimal. -/
theorem parse?_of_splitSign {text : String} {negative : Bool} {d : Char} {rest : List Char}
    (hsign : splitSign text.toList = (negative, d :: rest)) (hd : isDigit d = true) :
    parse? text = (parseDecimal? (d :: rest)).map (·.toDouble negative) := by
  have hword (c : Char) (hc : isDigit c = false) (word : List Char) :=
    ofList_ne_of_isDigit hd hc rest word
  have hinf := hword 'i' (by decide) ['n', 'f']
  have hinfinity := hword 'i' (by decide) ['n', 'f', 'i', 'n', 'i', 't', 'y']
  have hnan := hword 'n' (by decide) ['a', 'n']
  unfold parse?
  rw [hsign]
  simp only
  rw [if_neg (not_or.mpr ⟨hinf, hinfinity⟩), if_neg hnan]

theorem splitSign_toDigits (n : Nat) :
    splitSign (Nat.toDigits 10 n) = (false, Nat.toDigits 10 n) := by
  obtain ⟨d, rest, hdigits, hd⟩ := exists_toDigits_eq_cons n
  rw [hdigits, splitSign_of_isDigit hd]

/-- The text of an integer is its sign and its digits. -/
theorem splitSign_intText (n : Int) :
    splitSign (intText n).toList = (decide (n < 0), Nat.toDigits 10 n.natAbs) := by
  unfold intText natText
  by_cases hn : n < 0
  · simp only [if_pos hn, String.toList_append, String.toList_ofList, decide_eq_true hn]
    rfl
  · rw [if_neg hn, String.toList_ofList, splitSign_toDigits, decide_eq_false hn]

/-- A number with up to sixteen digits is read without loss. -/
theorem toDouble_digits {n : Int} (h : n.natAbs ≤ 2 ^ 53) :
    Decimal.toDouble (decide (n < 0)) ⟨n.natAbs, 0⟩ = .ofInt n := by
  unfold Decimal.toDouble
  have hcount : Decimal.digitCount n.natAbs ≤ 16 :=
    (Nat.length_toDigits_le_iff (by decide) (by decide)).mpr (Nat.lt_of_le_of_lt h (by decide))
  simp only
  split
  · next hzero =>
    obtain rfl : n = 0 := by omega
    rw [Double.ofInt_zero]
    rfl
  · rw [if_neg (by omega)]
    unfold Double.ofInt
    simp

/-- The decimal digits of an integer read as the integer. -/
theorem parse?_intText {n : Int} (h : n.natAbs ≤ 2 ^ 53) :
    parse? (intText n) = some (.ofInt n) := by
  obtain ⟨d, rest, hdigits, hd⟩ := exists_toDigits_eq_cons n.natAbs
  have hsign := splitSign_intText n
  rw [hdigits] at hsign
  rw [parse?_of_splitSign hsign hd, ← hdigits, parseDecimal?_toDigits, Option.map_some,
    toDouble_digits h]

/-- Digits with a mark behind them that no decimal has are no numeral. -/
theorem parse?_eq_none {digits rest : List Char} {mark : Char}
    (hdigits : ∀ d ∈ digits, isDigit d = true) (hne : digits ≠ []) (hmark : isDigit mark = false)
    (hpoint : mark ≠ '.') (hexponent : ¬ (mark = 'e' ∨ mark = 'E')) :
    parse? (String.ofList (digits ++ mark :: rest)) = none := by
  obtain ⟨d, others, rfl⟩ := List.exists_cons_of_ne_nil hne
  have hsign : splitSign (String.ofList (d :: others ++ mark :: rest)).toList =
      (false, d :: (others ++ mark :: rest)) := by
    rw [String.toList_ofList]
    exact splitSign_of_isDigit (hdigits d List.mem_cons_self) _
  rw [parse?_of_splitSign hsign (hdigits d List.mem_cons_self), Option.map_eq_none_iff,
    ← List.cons_append, parseDecimal?, spanDigits_append hdigits hmark]
  simp [hpoint, hexponent]

end Numeral

theorem Finite.isWhole_of_units {x : Finite} {n : Nat} (h : x.units = n * unitsPerOne) :
    x.isWhole = true := by
  rw [isWhole, h, Nat.mul_mod_left]
  rfl

theorem Whole.clamp_val {n : Whole} (h : n.val.natAbs < 9000000000000000) : clamp n.val = n := by
  obtain ⟨val, hrange⟩ := n
  unfold clamp clampInt64
  congr 1
  simp only at h ⊢
  omega

theorem Number.ofDouble?_finite {x : Finite} {n : Whole} (hwhole : x.isWhole = true)
    (htruncate : x.truncate = n.val) (h : n.val.natAbs < 9000000000000000) :
    ofDouble? (.finite x) = some (.whole n) := by
  simp [ofDouble?, Double.finite?, hwhole, htruncate, h, Whole.clamp_val h]

/-- An integer that is written as a double becomes a whole number again. -/
theorem Json.ofDouble_ofInt {n : Whole} (h : n.val.natAbs < 9000000000000000) :
    Json.ofDouble (.ofInt n.val) = .number (.whole n) := by
  have hbound : n.val.natAbs ≤ 2 ^ 53 := Nat.le_trans (Nat.le_of_lt h) (by decide)
  obtain ⟨x, hx, hunits, hsigned⟩ : ∃ x, Double.ofInt n.val = .finite x ∧
      x.units = n.val.natAbs * unitsPerOne ∧ x.signedUnits = n.val * unitsPerOne :=
    ⟨_, Double.ofInt_eq_finite hbound, rfl, Double.signedUnits_ofInt hbound⟩
  rw [hx, ofDouble, Number.ofDouble?_finite (Finite.isWhole_of_units hunits)
    (Finite.truncate_of_signedUnits hsigned) h]

end NestedRecord
