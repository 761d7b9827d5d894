import NestedRecord.Proofs.Aggregate.Cancelling
import NestedRecord.Proofs.Number.Numeral

/-!
# Extrema among numbers that come and go

The smallest and the largest number are the ends of an ascending list, in which a new number is
placed by halving and a removed one is looked for from the front. NaN is in no order with anything:
once it is in the list, numbers behind it may be out of place, and since it does not equal itself it
is never taken out.

The order of doubles is taken to that of the integers by `Double.position?`, so that it does not
have to be proved transitive by cases over signs and infinities. What a call does to the list has
three forms, an insertion, a removal and nothing at all, and each fact about a run is an induction
over the calls with these three cases.

- `Double.position?` is where a number stands on the line, `Double.le` the order of numbers.
- `AggregateKind.values_perform` says what a call does to the list, and `nan_mem_run_iff` that NaN
  is in it as soon as it has been added.
- `AggregateKind.ascending_run`: otherwise the list is ascending after all calls.
- `AggregateKind.Extreme` says what an extremum keeps and shows, and `AggregateOp.extreme_run` when
  it does.
-/

namespace NestedRecord

/-! ## The order of numbers -/

namespace Double

variable {x y z : Double} {p : Int}

/-- Where a number stands on the line, in units. An infinity stands where the finite numbers would
overflow, and NaN stands nowhere. -/
def position? : Double → Option Int
  | .finite x => some x.signedUnits
  | .infinite true => some (-overflowUnits)
  | .infinite false => some overflowUnits
  | .nan => none

/-- The order of numbers by value. NaN is in no order, not even with itself. -/
def le (x y : Double) : Prop := x.lt y ∨ x.same y

theorem exists_position? (h : x ≠ .nan) : ∃ p, x.position? = some p := by
  cases x with
  | finite x => exact ⟨_, rfl⟩
  | infinite negative => cases negative <;> exact ⟨_, rfl⟩
  | nan => exact absurd rfl h

theorem signedUnits_bounds (x : Finite) :
    -(overflowUnits : Int) < x.signedUnits ∧ x.signedUnits < overflowUnits := by
  have hbound : x.units < overflowUnits := x.representable.1
  unfold Finite.signedUnits
  split <;> omega

/-- Numbers are compared by where they stand. -/
theorem compare?_eq (x y : Double) :
    x.compare? y = x.position?.bind fun p => y.position?.map (compare p) := by
  -- the infinities are placed one step outside of the finite numbers
  have hapart : -(overflowUnits : Int) < overflowUnits := by
    have hpositive := overflowUnits_pos
    omega
  cases x with
  | nan => cases y <;> rfl
  | finite x =>
    have hbounds := signedUnits_bounds x
    cases y with
    | nan => rfl
    | finite y => rfl
    | infinite negative =>
      cases negative with
      | true => exact congrArg some (compare_gt_iff_gt.mpr hbounds.1).symm
      | false => exact congrArg some (compare_lt_iff_lt.mpr hbounds.2).symm
  | infinite negative =>
    cases y with
    | nan => cases negative <;> rfl
    | finite y =>
      have hbounds := signedUnits_bounds y
      cases negative with
      | true => exact congrArg some (compare_lt_iff_lt.mpr hbounds.1).symm
      | false => exact congrArg some (compare_gt_iff_gt.mpr hbounds.2).symm
    | infinite negative' =>
      cases negative with
      | true =>
        cases negative' with
        | true => exact congrArg some (compare_eq_iff_eq.mpr rfl).symm
        | false => exact congrArg some (compare_lt_iff_lt.mpr hapart).symm
      | false =>
        cases negative' with
        | true => exact congrArg some (compare_gt_iff_gt.mpr hapart).symm
        | false => exact congrArg some (compare_eq_iff_eq.mpr rfl).symm

/-- Numbers compare if both are on the line, and then as their positions do. -/
theorem compare?_eq_some {order : Ordering} :
    x.compare? y = some order ↔
      ∃ p q, x.position? = some p ∧ y.position? = some q ∧ compare p q = order := by
  rw [compare?_eq]
  cases x.position? <;> cases y.position? <;> simp

theorem lt_iff : x.lt y ↔ ∃ p q, x.position? = some p ∧ y.position? = some q ∧ p < q := by
  rw [lt, beq_iff_eq, compare?_eq_some]
  simp only [compare_lt_iff_lt]

theorem same_iff : x.same y ↔ ∃ p, x.position? = some p ∧ y.position? = some p := by
  rw [same, beq_iff_eq, compare?_eq_some]
  simp only [compare_eq_iff_eq]
  constructor
  · rintro ⟨p, q, hx, hy, rfl⟩
    exact ⟨p, hx, hy⟩
  · exact fun ⟨p, hx, hy⟩ => ⟨p, p, hx, hy, rfl⟩

theorem le_iff : x.le y ↔ ∃ p q, x.position? = some p ∧ y.position? = some q ∧ p ≤ q := by
  rw [le, lt_iff, same_iff]
  constructor
  · rintro (⟨p, q, hx, hy, hlt⟩ | ⟨p, hx, hy⟩)
    · exact ⟨p, q, hx, hy, Int.le_of_lt hlt⟩
    · exact ⟨p, p, hx, hy, Int.le_refl p⟩
  · rintro ⟨p, q, hx, hy, hle⟩
    rcases Int.lt_or_eq_of_le hle with hlt | rfl
    · exact .inl ⟨p, q, hx, hy, hlt⟩
    · exact .inr ⟨p, hx, hy⟩

theorem le_refl (h : x ≠ .nan) : x.le x := by
  obtain ⟨p, hp⟩ := exists_position? h
  exact le_iff.mpr ⟨p, p, hp, hp, Int.le_refl p⟩

/-- Apart from NaN the order is total. -/
theorem le_of_lt_eq_false (hx : x ≠ .nan) (hy : y ≠ .nan) (h : x.lt y = false) : y.le x := by
  obtain ⟨p, hp⟩ := exists_position? hx
  obtain ⟨q, hq⟩ := exists_position? hy
  have hnot : ¬ p < q := fun hlt => by
    rw [lt_iff.mpr ⟨p, q, hp, hq, hlt⟩] at h
    cases h
  exact le_iff.mpr ⟨q, p, hq, hp, Int.not_lt.mp hnot⟩

theorem lt_of_le_of_lt (hxy : x.le y) (hyz : y.lt z) : x.lt z := by
  obtain ⟨p, q, hx, hy, hpq⟩ := le_iff.mp hxy
  obtain ⟨q', r, hy', hz, hqr⟩ := lt_iff.mp hyz
  obtain rfl : q = q' := Option.some.inj (hy.symm.trans hy')
  exact lt_iff.mpr ⟨p, r, hx, hz, Int.lt_of_le_of_lt hpq hqr⟩

/-- The numbers at a position are those equal to any one of them. -/
theorem position?_beq_eq_same (hx : x.position? = some p) (y : Double) :
    (y.position? == some p) = y.same x := by
  rw [Bool.eq_iff_iff, beq_iff_eq, same_iff]
  constructor
  · exact fun hy => ⟨p, hy, hx⟩
  · rintro ⟨q, hy, hx'⟩
    rw [hy, ← hx', hx]

/-! ## What is shown of a number -/

/-- What a number is shown as: a JSON number that equals it, or null if it is infinite. -/
def ShownAs (value : Json) : Double → Prop
  | .finite x => ∃ n, value = .number n ∧ n.toDouble.same (.finite x)
  | _ => value = .null

theorem signedUnits_of_isWhole {x : Finite} (h : x.isWhole) :
    x.signedUnits = x.truncate * unitsPerOne := by
  obtain ⟨n, hn⟩ : unitsPerOne ∣ x.units := Nat.dvd_of_mod_eq_zero (beq_iff_eq.mp h)
  have hsigned : x.signedUnits = (if x.negative then -(n : Int) else n) * unitsPerOne := by
    rw [Finite.signedUnits, hn, Int.natCast_mul, Int.mul_comm]
    split
    next => exact (Int.neg_mul ..).symm
    next => rfl
  rw [Finite.truncate_of_signedUnits hsigned, hsigned]

/-- A number is shown as one that is equal to it, whether it is written as an integer or not. -/
theorem shownAs_ofDouble (h : x ≠ .nan) : x.ShownAs (Json.ofDouble x) := by
  cases x with
  | nan => exact absurd rfl h
  | infinite => rfl
  | finite x =>
    refine ⟨_, rfl, ?_⟩
    beta_reduce
    split
    next hwhole =>
      obtain ⟨hfraction, hsmall⟩ := Bool.and_eq_true_iff.mp hwhole
      have hbound : x.truncate.natAbs < 9000000000000000 := of_decide_eq_true hsmall
      have hclamp : clampInt64 x.truncate = x.truncate := by
        unfold clampInt64
        omega
      have hexact : x.truncate.natAbs ≤ 2 ^ 53 := Nat.le_trans (Nat.le_of_lt hbound) (by decide)
      show (ofInt (clampInt64 x.truncate)).same (.finite x)
      rw [hclamp, ofInt_eq_finite hexact, same_finite, signedUnits_ofInt hexact,
        signedUnits_of_isWhole hfraction]
    next => exact same_finite.mpr rfl

end Double

namespace AggregateKind

open AggregateCall

variable {pick : List Double → Option Double} {calls : List AggregateCall} {held : List Json}
  {values : List Double} {n : Double} {state : AggregateState}

/-! ## The list of numbers -/

/-- The numbers that added values stand for. -/
def numbersAdded (calls : List AggregateCall) : List Double := (added calls).filterMap reading?

theorem numbersAdded_append (calls : List AggregateCall) (call : AggregateCall) :
    numbersAdded (calls ++ [call]) = numbersAdded calls ++ numbersAdded [call] := by
  unfold numbersAdded
  rw [added_append, List.filterMap_append]

/-- What a call does to the numbers: it puts in the one that is added, takes out one, or leaves them
as they are. -/
theorem values_perform (pick : List Double → Option Double) (state : AggregateState)
    (call : AggregateCall) :
    (∃ n, numbersAdded [call] = [n] ∧
        ((extremum pick).perform state call).values = insertNumber state.values n) ∨
      numbersAdded [call] = [] ∧
        (((extremum pick).perform state call).values = state.values ∨
          ∃ n, ((extremum pick).perform state call).values = removeNumber state.values n) := by
  cases call with
  | add value =>
    have hadded : numbersAdded [.add value] = [value].filterMap reading? := rfl
    rw [hadded, List.filterMap_cons, List.filterMap_nil]
    simp only [perform, extremum]
    cases reading? value with
    | none => exact .inr ⟨rfl, .inl rfl⟩
    | some n => exact .inl ⟨n, rfl, rfl⟩
  | remove value =>
    refine .inr ⟨rfl, ?_⟩
    simp only [perform, extremum]
    cases reading? value with
    | none => exact .inl rfl
    | some n => exact .inr ⟨n, rfl⟩

/-- Only numbers that have been added are kept. -/
theorem mem_numbersAdded_of_mem_run (h : n ∈ ((extremum pick).run calls).values) :
    n ∈ numbersAdded calls := by
  induction calls using List.reverseRecOn with
  | nil => cases h
  | append_singleton calls call ih =>
    rw [run_append] at h
    rw [numbersAdded_append, List.mem_append]
    rcases values_perform pick ((extremum pick).run calls) call with
      ⟨m, hadded, hvalues⟩ | ⟨-, hvalues | ⟨m, hvalues⟩⟩
    · rw [hvalues, (insertNumber_perm _ m).mem_iff, List.mem_cons] at h
      rcases h with rfl | hearlier
      · exact .inr (hadded ▸ List.mem_cons_self)
      · exact .inl (ih hearlier)
    · exact .inl (ih (hvalues ▸ h))
    · rw [hvalues] at h
      exact .inl (ih (List.mem_of_mem_eraseP h))

/-- NaN that has been added stays among the numbers: it equals none that is taken out. -/
theorem nan_mem_run_iff (pick : List Double → Option Double) (calls : List AggregateCall) :
    .nan ∈ ((extremum pick).run calls).values ↔ .nan ∈ numbersAdded calls := by
  refine ⟨mem_numbersAdded_of_mem_run, fun h => ?_⟩
  induction calls using List.reverseRecOn with
  | nil => cases h
  | append_singleton calls call ih =>
    rw [numbersAdded_append, List.mem_append] at h
    rw [run_append]
    rcases values_perform pick ((extremum pick).run calls) call with
      ⟨m, hadded, hvalues⟩ | ⟨hadded, hvalues | ⟨m, hvalues⟩⟩
    · rw [hvalues, (insertNumber_perm _ m).mem_iff, List.mem_cons]
      rcases h with hearlier | hnew
      · exact .inr (ih hearlier)
      · exact .inl (List.mem_singleton.mp (hadded ▸ hnew))
    · rw [hvalues]
      exact ih (h.resolve_right (hadded ▸ List.not_mem_nil))
    · -- NaN is taken out by no number, since it is the same as none
      have hapart : ¬ Double.nan.same m := by cases m <;> exact Bool.false_ne_true
      rw [hvalues, removeNumber,
        List.mem_eraseP_of_neg (p := fun x : Double => x.same m) hapart]
      exact ih (h.resolve_right (hadded ▸ List.not_mem_nil))

/-- A number is inserted between those below it and the others. -/
theorem ascending_insertNumber (hsorted : values.Pairwise Double.le) (hvalues : .nan ∉ values)
    (hn : n ≠ .nan) : (insertNumber values n).Pairwise Double.le := by
  have hne : ∀ x ∈ values, x ≠ .nan := fun x hx heq => hvalues (heq ▸ hx)
  have hfront : ∀ x ∈ values.takeWhile (·.lt n), x.lt n = true := fun x hx =>
    List.mem_takeWhile_imp (p := fun y : Double => y.lt n) hx
  -- in an ascending list everything behind the first number that is not below `n` is not below it
  -- either
  have hback : ∀ x ∈ values.dropWhile (·.lt n), x.lt n = false :=
    eq_false_of_mem_dropWhile (p := fun y : Double => y.lt n) Double.lt_of_le_of_lt hsorted
  have hsplit : values.takeWhile (·.lt n) ++ values.dropWhile (·.lt n) = values :=
    List.takeWhile_append_dropWhile
  have hinsert := insertNumber_append hfront hback
  rw [hsplit] at hinsert
  rw [← hsplit] at hsorted
  obtain ⟨hfrontSorted, hbackSorted, hacross⟩ := List.pairwise_append.mp hsorted
  rw [hinsert, List.pairwise_append]
  refine ⟨hfrontSorted, .cons (fun x hx => ?_) hbackSorted, fun x hx y hy => ?_⟩
  · exact Double.le_of_lt_eq_false (hne x ((List.dropWhile_sublist _).subset hx)) hn (hback x hx)
  · rcases List.mem_cons.mp hy with rfl | hy
    · exact .inl (hfront x hx)
    · exact hacross x hx y hy

/-- Where NaN has not been added, the numbers are ascending after all calls, whatever is removed. -/
theorem ascending_run (pick : List Double → Option Double) (h : .nan ∉ numbersAdded calls) :
    ((extremum pick).run calls).values.Pairwise Double.le := by
  induction calls using List.reverseRecOn with
  | nil => exact .nil
  | append_singleton calls call ih =>
    rw [numbersAdded_append, List.mem_append, not_or] at h
    rw [run_append]
    rcases values_perform pick ((extremum pick).run calls) call with
      ⟨m, hadded, hvalues⟩ | ⟨-, hvalues | ⟨m, hvalues⟩⟩
    · rw [hvalues]
      refine ascending_insertNumber (ih h.1) (mt (nan_mem_run_iff pick calls).mp h.1) ?_
      rintro rfl
      exact h.2 (hadded ▸ List.mem_cons_self)
    · rw [hvalues]
      exact ih h.1
    · rw [hvalues]
      exact (ih h.1).sublist List.eraseP_sublist

/-! ## What an extremum keeps -/

theorem countP_readings (p : Double → Bool) (held : List Json) :
    (held.filterMap reading?).countP p = held.countP fun value => (reading? value).any p := by
  rw [List.countP_filterMap]
  refine List.countP_congr fun value _ => ?_
  cases reading? value <;> rfl

/-- The numbers of an extremum, NaN apart, stand where the standing values do. -/
theorem Census.positions_perm (h : Census pick state held) :
    (state.values.filterMap Double.position?).Perm
      ((held.filterMap reading?).filterMap Double.position?) := by
  rw [List.perm_iff_count]
  intro p
  rw [List.count_filterMap, List.count_filterMap, countP_readings]
  -- a census counts numbers, and there are positions at which no number stands
  by_cases hthere : ∃ x : Double, x.position? = some p
  · obtain ⟨x, hx⟩ := hthere
    simp only [Double.position?_beq_eq_same hx]
    exact h.countP_eq x
  · have hnone : ∀ x : Double, (x.position? == some p) = false := fun x =>
      beq_eq_false_iff_ne.mpr fun hx => hthere ⟨x, hx⟩
    simp [hnone]

/-- What an extremum keeps and shows while values stand; in `first` order the extreme number comes
first. -/
structure Extreme (first : Double → Double → Prop) (state : AggregateState) (held : List Json) :
    Prop where
  /-- NaN is not among the numbers -/
  numbers : .nan ∉ state.values
  ascending : state.values.Pairwise Double.le
  /-- the numbers are those of the standing values, NaN apart -/
  readings : (state.values.filterMap Double.position?).Perm
    ((held.filterMap reading?).filterMap Double.position?)
  /-- the extreme number is shown, or null where there is none -/
  shown : (state.values = [] ∧ state.value = .null) ∨
    ∃ x ∈ state.values, (∀ y ∈ state.values, first x y) ∧ state.value = .ofDouble x ∧
      x.ShownAs state.value

/-- An extremum is what it is said to be exactly where NaN has not been added. -/
theorem extreme_iff {first : Double → Double → Prop} (hempty : pick [] = none)
    (hpick : ∀ {values : List Double}, values.Pairwise Double.le → .nan ∉ values → values ≠ [] →
      ∃ x ∈ values, pick values = some x ∧ ∀ y ∈ values, first x y)
    (h : standing? calls = some held) :
    Extreme first ((extremum pick).run calls) held ↔ .nan ∉ numbersAdded calls := by
  rw [← nan_mem_run_iff pick]
  constructor
  · exact Extreme.numbers
  · intro hnumbers
    have hascending := ascending_run pick (mt (nan_mem_run_iff pick calls).mpr hnumbers)
    have hcensus := census_run hempty h
    refine ⟨hnumbers, hascending, hcensus.positions_perm, ?_⟩
    by_cases hvalues : ((extremum pick).run calls).values = []
    · refine .inl ⟨hvalues, ?_⟩
      rw [hcensus.shown, hvalues, hempty]
      rfl
    · obtain ⟨x, hx, hpicked, hfirst⟩ := hpick hascending hnumbers hvalues
      have hshown : ((extremum pick).run calls).value = .ofDouble x := by
        rw [hcensus.shown, hpicked]
        rfl
      refine .inr ⟨x, hx, hfirst, hshown, ?_⟩
      rw [hshown]
      exact Double.shownAs_ofDouble fun hnan => hnumbers (hnan ▸ hx)

/-- The first of ascending numbers is the smallest. -/
theorem head?_smallest (hsorted : values.Pairwise Double.le) (hnumbers : .nan ∉ values)
    (hne : values ≠ []) : ∃ x ∈ values, values.head? = some x ∧ ∀ y ∈ values, x.le y := by
  obtain ⟨x, rest, rfl⟩ := List.exists_cons_of_ne_nil hne
  refine ⟨x, List.mem_cons_self, rfl, fun y hy => ?_⟩
  rcases List.mem_cons.mp hy with rfl | hrest
  · exact Double.le_refl fun hnan => hnumbers (hnan ▸ hy)
  · exact List.rel_of_pairwise_cons hsorted hrest

/-- The last of ascending numbers is the largest. -/
theorem getLast?_largest (hsorted : values.Pairwise Double.le) (hnumbers : .nan ∉ values)
    (hne : values ≠ []) : ∃ x ∈ values, values.getLast? = some x ∧ ∀ y ∈ values, y.le x := by
  obtain ⟨front, x, rfl⟩ : ∃ front x, values = front ++ [x] :=
    ⟨_, _, (List.dropLast_concat_getLast hne).symm⟩
  have hmem : x ∈ front ++ [x] := List.mem_append_right _ List.mem_cons_self
  refine ⟨x, hmem, List.getLast?_concat .., fun y hy => ?_⟩
  rcases List.mem_append.mp hy with hfront | hlast
  · exact (List.pairwise_append.mp hsorted).2.2 y hfront x List.mem_cons_self
  · obtain rfl := List.mem_singleton.mp hlast
    exact Double.le_refl fun hnan => hnumbers (hnan ▸ hmem)

end AggregateKind

namespace AggregateOp

open AggregateCall AggregateKind

variable {calls : List AggregateCall} {held : List Json}

/-- While each removed value stands, `min` and `max` keep the numbers of the standing values in
ascending order and show the smallest and the largest, exactly if NaN was never added. -/
theorem extreme_run (h : standing? calls = some held) :
    (Extreme Double.le (AggregateOp.min.kind.run calls) held ↔ .nan ∉ numbersAdded calls) ∧
      (Extreme (fun x y => y.le x) (AggregateOp.max.kind.run calls) held ↔
        .nan ∉ numbersAdded calls) :=
  ⟨extreme_iff rfl head?_smallest h, extreme_iff rfl getLast?_largest h⟩

/-- Depths that are measured; the largest is no number but greater than every one. -/
def depths : List AggregateCall :=
  [.add (.ofInt 4), .add (.string " 1e999"), .add (.string "n/a"), .add (.ofInt (-2)),
    .remove (.ofInt 4), .remove (.string "n/a"), .add (.string "0.5")]

theorem extreme_run_depths :
    Extreme Double.le (AggregateOp.min.kind.run depths)
        [.string " 1e999", .ofInt (-2), .string "0.5"] ∧
      Extreme (fun x y => y.le x) (AggregateOp.max.kind.run depths)
        [.string " 1e999", .ofInt (-2), .string "0.5"] := by
  have hstanding : standing? depths = some [.string " 1e999", .ofInt (-2), .string "0.5"] := rfl
  have hnone : .nan ∉ numbersAdded depths := by decide +kernel
  exact ⟨(extreme_run hstanding).1.mpr hnone, (extreme_run hstanding).2.mpr hnone⟩

/-- Measurements of which one has failed. -/
def soundings : List AggregateCall :=
  [.add (.ofInt 1), .add (.string "nan"), .add (.ofInt 0), .add (.ofInt 2)]

/-- After a measurement that reads as NaN, `2` is put in front of `1`, and `1` is shown as the
largest. -/
theorem not_extreme_run :
    standing? soundings = some [.ofInt 1, .string "nan", .ofInt 0, .ofInt 2] ∧
      (AggregateOp.max.kind.run soundings).values =
        [.ofInt 0, .ofInt 2, .nan, .ofInt 1] ∧
      (AggregateOp.max.kind.run soundings).value = .ofInt 1 ∧
      ¬ Extreme (fun x y => y.le x) (AggregateOp.max.kind.run soundings)
        [.ofInt 1, .string "nan", .ofInt 0, .ofInt 2] := by
  have hstanding : standing? soundings =
      some [.ofInt 1, .string "nan", .ofInt 0, .ofInt 2] := rfl
  have hvalues : (AggregateOp.max.kind.run soundings).values =
      [.ofInt 0, .ofInt 2, .nan, .ofInt 1] := by decide +kernel
  refine ⟨hstanding, hvalues, ?_, fun h => h.numbers ?_⟩
  · have hshown : (AggregateOp.max.kind.run soundings).value =
        (AggregateOp.max.kind.run soundings).values.getLast?.elim .null .ofDouble :=
      (census_run rfl hstanding).shown
    have hone : Json.ofDouble (.ofInt 1) = .number (.whole ⟨1, by decide⟩) :=
      Json.ofDouble_ofInt (n := ⟨1, by decide⟩) (by decide)
    rw [hshown, hvalues]
    simp only [List.getLast?_cons_cons, List.getLast?_singleton, Option.elim_some, hone]
    rfl
  · rw [hvalues]
    exact List.mem_cons_of_mem _ (List.mem_cons_of_mem _ List.mem_cons_self)

end AggregateOp

end NestedRecord
