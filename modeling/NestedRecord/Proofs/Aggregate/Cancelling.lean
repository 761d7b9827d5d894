import NestedRecord.Proofs.Aggregate.Standing
import NestedRecord.Proofs.Json.Same

/-!
# Aggregates over nothing

When every value that came in has gone out again, an aggregate shows its start value. Nothing has
to be exact on the way: a sum may have been rounded, have overflowed or have been NaN, a count may
have wrapped, and a NaN is among the numbers of an extremum for good, as it equals nothing.

Each kind keeps one bound that survives all of this.

A state after cancelling calls need not be the state over what stands: the sum of `1`, `1e300` and
`-1e300` depends on the order, and so does what is left of it when they go. What is shown when
nothing stands is nevertheless known, because a count that is too small is as good as one that is
exact: once no value that counts is left, both are zero, and sums and means start over from a count
of zero.

- `AggregateKind.run_induction`: what one added and one removed value keep holds after all calls.
- `CountBound`: a count is at most the number of the standing values that count.
- `SumBound` and `MeanBound`: where no standing value is a number, the sum is exactly zero and the
  mean is `0`.
- `Census`: an extremum holds a number as often as it stands, apart from NaN.
- `AggregateOp.value_run_of_standing_nil` is the result for each built-in kind, with the law of one
  value as a case.
-/

namespace NestedRecord

/-! ## Equal numbers -/

namespace Double

theorem same_finite {x y : Finite} :
    (Double.finite x).same (.finite y) ↔ x.signedUnits = y.signedUnits := by
  unfold same compare?
  rw [beq_iff_eq, Option.some.injEq, compare_eq_iff_eq]

theorem same_infinite {a b : Bool} : (Double.infinite a).same (.infinite b) ↔ a = b := by
  cases a <;> cases b <;> decide

/-- Equal numbers are both finite, with the same units, or they are the same infinity. -/
theorem same_cases {x y : Double} (h : x.same y) :
    (∃ a b : Finite, x = .finite a ∧ y = .finite b ∧ a.signedUnits = b.signedUnits) ∨
      ∃ negative : Bool, x = .infinite negative ∧ y = .infinite negative := by
  cases x with
  | finite a =>
    cases y with
    | finite b => exact .inl ⟨a, b, rfl, rfl, same_finite.mp h⟩
    | infinite negative => cases negative <;> cases h
    | nan => cases h
  | infinite negative =>
    cases y with
    | finite => cases negative <;> cases h
    | infinite => exact .inr ⟨negative, rfl, by rw [same_infinite.mp h]⟩
    | nan => cases h
  | nan => cases h

/-- Equal numbers equal the same numbers. -/
theorem same_congr {x y z : Double} (h : x.same y) : x.same z = y.same z := by
  rcases same_cases h with ⟨a, b, rfl, rfl, hunits⟩ | ⟨negative, rfl, rfl⟩
  · cases z with
    | finite => rw [Bool.eq_iff_iff, same_finite, same_finite, hunits]
    | infinite => rfl
    | nan => rfl
  · rfl

theorem same_symm {x y : Double} (h : x.same y) : y.same x := by
  rcases same_cases h with ⟨a, b, rfl, rfl, hunits⟩ | ⟨negative, rfl, rfl⟩
  · exact same_finite.mpr hunits.symm
  · exact h

/-- Only NaN is not equal to itself. -/
theorem eq_nan_of_not_same {x : Double} (h : ¬ x.same x) : x = .nan := by
  cases x with
  | finite => exact absurd (same_finite.mpr rfl) h
  | infinite => exact absurd (same_infinite.mpr rfl) h
  | nan => rfl

end Double

theorem Number.toDouble_same {m n : Number} (h : m.same n) (x : Double) :
    m.toDouble.same x = n.toDouble.same x := by
  cases m <;> cases n <;> simp only [Number.same, Bool.false_eq_true, beq_iff_eq] at h
  case whole.whole m n => simp only [Number.toDouble, h]
  case real.real x y => exact Double.same_congr (Double.same_finite.mpr (beq_iff_eq.mp h))

/-- A value that has been added can be removed again: it equals itself. -/
theorem AggregateCall.standing?_add_remove {value : Json} (h : value.KeysDiffer) :
    standing? [.add value, .remove value] = some [] := by
  simp [standing?, stand?, h.same_self]

namespace AggregateKind

open AggregateCall AggregateState

/-! ## What every call keeps -/

variable {kind : AggregateKind} {calls : List AggregateCall} {held rest : List Json}
  {value twin : Json} {state : AggregateState}

/-- What holds over nothing and is kept by each value that comes in or goes out holds after all
calls, of the state and of the values that stand. -/
theorem run_induction {Inv : AggregateState → List Json → Prop} (init : Inv kind.init [])
    (add : ∀ {state held} (value : Json), Inv state held →
      Inv (kind.add state value) (held ++ [value]))
    (remove : ∀ {state held rest} {value twin : Json}, Inv state held → twin.same value →
      held.Perm (twin :: rest) → Inv (kind.remove state value) rest)
    (h : standing? calls = some held) : Inv (kind.run calls) held := by
  induction calls using List.reverseRecOn generalizing held with
  | nil =>
    obtain rfl := Option.some.inj h
    exact init
  | append_singleton calls call ih =>
    obtain ⟨before, hbefore, hcall⟩ := standing?_append h
    rw [run_append]
    -- a removed value is known by a twin that stands, and only by that
    cases call with
    | add value =>
      obtain rfl := Option.some.inj hcall
      exact add value (ih hbefore)
    | remove value =>
      obtain ⟨twin, hsame, hperm⟩ := perm_of_stand?_remove hcall
      exact remove (ih hbefore) hsame hperm

theorem countP_added (p : Json → Bool) (held : List Json) (value : Json) :
    (held ++ [value]).countP p = held.countP p + if p value then 1 else 0 := by
  rw [List.countP_append, List.countP_singleton]

/-- A value that goes out has been counted as its twin, which has the property with it. -/
theorem countP_removed {p : Json → Bool} (hp : p twin = p value)
    (hperm : held.Perm (twin :: rest)) :
    held.countP p = rest.countP p + if p value then 1 else 0 := by
  rw [hperm.countP_eq, List.countP_cons, hp]

/-- A count may wrap, but never upwards. -/
theorem toNat_oneMore_le (count : UInt64) : (oneMore count).toNat ≤ count.toNat + 1 := by
  rw [oneMore, UInt64.toNat_add]
  exact Nat.mod_le ..

theorem eq_zero_of_toNat_le {count : UInt64} (h : count.toNat ≤ 0) : count = 0 :=
  UInt64.toNat_inj.mp (Nat.le_zero.mp h)

/-! ## Counts -/

/-- A count is at most that of the standing values that count, and it is what is shown. -/
structure CountBound (counts : Json → Bool) (state : AggregateState) (held : List Json) :
    Prop where
  count_le : state.count.toNat ≤ held.countP counts
  shown : state.value = .ofNat state.count.toNat

/-- The bound of a count after cancelling calls. Equal values have to count alike, or else a value
could take out another one. -/
theorem countBound_run {counts : Json → Bool}
    (hcounts : ∀ {twin value : Json}, twin.same value → counts twin = counts value)
    (h : standing? calls = some held) : CountBound counts ((counting counts).run calls) held := by
  refine run_induction ⟨Nat.le_refl 0, rfl⟩ ?_ ?_ h
  · intro state held value hinv
    refine ⟨?_, rfl⟩
    rw [countP_added]
    by_cases hvalue : counts value
    · simp only [counting, hvalue, if_true]
      exact Nat.le_trans (toNat_oneMore_le _) (Nat.succ_le_succ hinv.count_le)
    · simp only [counting, hvalue, Bool.false_eq_true, if_false, Nat.add_zero]
      exact hinv.count_le
  · intro state held rest value twin hinv hsame hperm
    refine ⟨?_, rfl⟩
    have hle := hinv.count_le
    -- the twin that goes out counts if the value does, so both sides lose the same
    rw [countP_removed (hcounts hsame) hperm] at hle
    by_cases hvalue : counts value
    · simp only [counting, hvalue, if_true, toNat_oneLess] at hle ⊢
      exact Nat.sub_le_of_le_add hle
    · simpa only [counting, hvalue, Bool.false_eq_true, if_false, Nat.add_zero] using hle

theorem CountBound.value_nil {counts : Json → Bool} (h : CountBound counts state []) :
    state.value = .ofNat 0 := by
  rw [h.shown, eq_zero_of_toNat_le h.count_le]
  rfl

/-! ## Readings -/

/-- Whether a folded value stands for a number. -/
def isReadable (value : Json) : Bool := (reading? value).isSome

/-- Equal values stand for equal numbers, or both for none that equals anything. -/
theorem reading?_any_same (h : twin.same value) (x : Double) :
    (reading? twin).any (·.same x) = (reading? value).any (·.same x) := by
  cases twin <;> cases value <;> simp only [Json.same, Bool.false_eq_true] at h
  case number.number => exact Number.toDouble_same h x
  case string.string => rw [beq_iff_eq.mp h]
  all_goals rfl

theorem isReadable_eq_of_same (h : twin.same value) : isReadable twin = isReadable value := by
  cases twin <;> cases value <;> simp only [Json.same, Bool.false_eq_true] at h
  case string.string => rw [beq_iff_eq.mp h]
  all_goals rfl

/-! ## Sums and means -/

/-- A count of numbers is at most the number of those that stand. -/
theorem toNat_count_accumulate_le (h : state.count.toNat ≤ held.countP isReadable)
    (value : Json) :
    (accumulate state value).count.toNat ≤ (held ++ [value]).countP isReadable := by
  rw [countP_added]
  unfold accumulate isReadable at *
  cases reading? value with
  | none => exact h
  | some n => exact Nat.le_trans (toNat_oneMore_le _) (Nat.succ_le_succ h)

/-- A number that goes out lowers the count and what bounds it. -/
theorem toNat_count_exclude_le (h : state.count.toNat ≤ held.countP isReadable)
    (hsame : twin.same value) (hperm : held.Perm (twin :: rest)) :
    (exclude state value).count.toNat ≤ rest.countP isReadable := by
  rw [countP_removed (isReadable_eq_of_same hsame) hperm] at h
  unfold exclude isReadable at *
  cases hreading : reading? value with
  | none =>
    rw [hreading] at h
    exact h
  | some n =>
    rw [hreading] at h
    simp only [toNat_oneLess]
    exact Nat.sub_le_of_le_add h

theorem count_clearEmpty (state : AggregateState) : (clearEmpty state).count = state.count := by
  unfold clearEmpty
  split <;> rfl

theorem sum_clearEmpty (h : state.count = 0) : (clearEmpty state).sum = .zero := by
  rw [clearEmpty, if_pos h]

/-- Where no number stands, the sum is zero. -/
structure SumBound (state : AggregateState) (held : List Json) : Prop where
  count_le : state.count.toNat ≤ held.countP isReadable
  sum_eq : held.countP isReadable = 0 → state.sum = .zero
  shown : state.value = .ofDouble state.sum

/-- The bound of a sum after cancelling calls. -/
theorem sumBound_run (h : standing? calls = some held) : SumBound (sum.run calls) held := by
  refine run_induction ⟨Nat.le_refl 0, fun _ => rfl, Json.ofDouble_zero.symm⟩ ?_ ?_ h
  · intro state held value hinv
    refine ⟨toNat_count_accumulate_le hinv.count_le value, fun hnone => ?_, rfl⟩
    rw [countP_added] at hnone
    show (accumulate state value).sum = .zero
    unfold accumulate isReadable at *
    cases hreading : reading? value with
    | none => exact hinv.sum_eq (Nat.eq_zero_of_add_eq_zero_right hnone)
    | some n => simp [hreading] at hnone
  · intro state held rest value twin hinv hsame hperm
    have hle := toNat_count_exclude_le hinv.count_le hsame hperm
    refine ⟨?_, fun hnone => ?_, rfl⟩
    · show (clearEmpty (exclude state value)).count.toNat ≤ rest.countP isReadable
      rwa [count_clearEmpty]
    · -- whatever the sum has become, it starts again where the count reaches zero
      rw [hnone] at hle
      exact sum_clearEmpty (eq_zero_of_toNat_le hle)

theorem SumBound.value_nil (h : SumBound state []) : state.value = .ofNat 0 := by
  rw [h.shown, h.sum_eq rfl, Json.ofDouble_zero]

/-- Where no number stands, the mean is `0`. -/
structure MeanBound (state : AggregateState) (held : List Json) : Prop where
  count_le : state.count.toNat ≤ held.countP isReadable
  shown : state.count = 0 → state.value = .ofNat 0

theorem meanBound_settleMean (h : state.count.toNat ≤ held.countP isReadable) :
    MeanBound (settleMean state) held := by
  have hcount : (settleMean state).count = state.count := count_clearEmpty state
  refine ⟨by rwa [hcount], fun hzero => ?_⟩
  rw [hcount, ← count_clearEmpty] at hzero
  exact if_pos hzero

theorem meanBound_run (h : standing? calls = some held) : MeanBound (avg.run calls) held := by
  refine run_induction ⟨Nat.le_refl 0, fun _ => rfl⟩ ?_ ?_ h
  · intro state held value hinv
    exact meanBound_settleMean (toNat_count_accumulate_le hinv.count_le value)
  · intro state held rest value twin hinv hsame hperm
    exact meanBound_settleMean (toNat_count_exclude_le hinv.count_le hsame hperm)

theorem MeanBound.value_nil (h : MeanBound state []) : state.value = .ofNat 0 :=
  h.shown (eq_zero_of_toNat_le h.count_le)

/-! ## Extrema -/

/-- The number of standing values that stand for a number equal to `x`. -/
def standingFor (x : Double) (held : List Json) : Nat :=
  held.countP fun value => (reading? value).any (·.same x)

theorem insertNumber_perm (values : List Double) (n : Double) :
    (insertNumber values n).Perm (n :: values) := by
  unfold insertNumber
  generalize boundary (·.lt n) values.length values = place
  have hmiddle : (values.take place ++ n :: values.drop place).Perm
      (n :: (values.take place ++ values.drop place)) := List.perm_middle
  rwa [List.take_append_drop] at hmiddle

theorem countP_insertNumber (p : Double → Bool) (values : List Double) (n : Double) :
    (insertNumber values n).countP p = values.countP p + if p n then 1 else 0 := by
  rw [(insertNumber_perm values n).countP_eq, List.countP_cons]

/-- Taking out a number takes out one of those equal to `x`, if the number is equal to `x` and
some of them is there; NaN takes out nothing. -/
theorem countP_removeNumber {values : List Double} {n x : Double}
    (hthere : n.same x → 0 < values.countP (·.same x)) :
    values.countP (·.same x) =
      (removeNumber values n).countP (·.same x) + if n.same x then 1 else 0 := by
  unfold removeNumber
  rcases List.exists_or_eq_self_of_eraseP (·.same n) values with
    habsent | ⟨equal, front, back, -, hequal, hvalues, hrest⟩
  · -- nothing has been taken out: had one been equal to `x`, it would have been equal to `n`
    rw [habsent]
    suffices hn : ¬ n.same x by rw [if_neg hn, Nat.add_zero]
    intro hn
    obtain ⟨present, hpresent, hx⟩ := List.countP_pos_iff.mp (hthere hn)
    have hremoved : present.same n := by
      rw [Double.same_congr hx]
      exact Double.same_symm hn
    have hshorter := List.length_eraseP_of_mem (p := (·.same n)) hpresent hremoved
    rw [habsent] at hshorter
    have hpositive : 0 < values.length := List.length_pos_of_mem hpresent
    omega
  · rw [hrest, hvalues, List.countP_append, List.countP_append, List.countP_cons,
      Double.same_congr hequal]
    omega

/-- Among the numbers of an extremum, one that equals itself is there as often as it stands; an
element of them is what is shown. -/
structure Census (pick : List Double → Option Double) (state : AggregateState)
    (held : List Json) : Prop where
  countP_eq : ∀ x : Double, state.values.countP (·.same x) = standingFor x held
  shown : state.value = (pick state.values).elim .null .ofDouble

/-- The census of an extremum after cancelling calls, whatever it picks. -/
theorem census_run {pick : List Double → Option Double} (hpick : pick [] = none)
    (h : standing? calls = some held) : Census pick ((extremum pick).run calls) held := by
  refine run_induction ⟨fun x => rfl, ?_⟩ ?_ ?_ h
  · show Json.null = (pick []).elim .null .ofDouble
    rw [hpick]
    rfl
  · intro state held value hinv
    refine ⟨fun x => ?_, rfl⟩
    rw [standingFor, countP_added]
    simp only [extremum]
    -- what is no number changes neither side
    cases hreading : reading? value with
    | none => exact hinv.countP_eq x
    | some n =>
      show (insertNumber state.values n).countP (·.same x) = _
      rw [countP_insertNumber, hinv.countP_eq]
      rfl
  · intro state held rest value twin hinv hsame hperm
    refine ⟨fun x => ?_, rfl⟩
    have hcount := hinv.countP_eq x
    rw [standingFor, countP_removed (reading?_any_same hsame x) hperm] at hcount
    simp only [extremum]
    cases hreading : reading? value with
    | none =>
      rw [hreading] at hcount
      exact hcount
    | some n =>
      rw [hreading, Option.any_some] at hcount
      show (removeNumber state.values n).countP (·.same x) = standingFor x rest
      -- a number that stands is there to be taken out, and NaN is equal to no `x`
      have hremoved : state.values.countP (·.same x) =
          (removeNumber state.values n).countP (·.same x) + if n.same x then 1 else 0 := by
        refine countP_removeNumber fun hn => ?_
        rw [hcount, if_pos hn]
        exact Nat.succ_pos _
      exact Nat.add_right_cancel (hremoved.symm.trans hcount)

/-- Over nothing there is only NaN among the numbers, which is shown as null. -/
theorem Census.value_nil {pick : List Double → Option Double}
    (hmem : ∀ {values : List Double} {x : Double}, pick values = some x → x ∈ values)
    (h : Census pick state []) : state.value = .null := by
  rw [h.shown]
  cases hx : pick state.values with
  | none => rfl
  | some x =>
    -- what is left of the numbers is not even equal to itself
    have hnone : state.values.countP (·.same x) = 0 := h.countP_eq x
    rw [Double.eq_nan_of_not_same (List.countP_eq_zero.mp hnone x (hmem hx))]
    rfl

end AggregateKind

/-! ## Every kind -/

namespace AggregateOp

open AggregateCall AggregateKind

/-- The start value is shown again, by the bound of each kind. -/
theorem value_run_nil (op : AggregateOp) {calls : List AggregateCall}
    (h : standing? calls = some []) : (op.kind.run calls).value = op.kind.start := by
  cases op with
  | sum => exact (sumBound_run h).value_nil
  | count => exact (countBound_run (fun hsame => by rw [isNull_eq_of_same hsame]) h).value_nil
  | avg => exact (meanBound_run h).value_nil
  | min => exact (census_run rfl h).value_nil List.mem_of_head?
  | max => exact (census_run rfl h).value_nil List.mem_of_getLast?
  | countBoolTrue =>
    exact (countBound_run (fun hsame => by rw [bool?_eq_of_same hsame]) h).value_nil
  | countBoolFalse =>
    exact (countBound_run (fun hsame => by rw [bool?_eq_of_same hsame]) h).value_nil

/-- A built-in aggregate from which everything has been removed again shows its start value,
whatever has been added and removed; a single value can always be added and removed. -/
theorem value_run_of_standing_nil (op : AggregateOp) :
    (∀ {calls : List AggregateCall}, standing? calls = some [] →
      (op.kind.run calls).value = op.kind.start) ∧
    ∀ {value : Json}, value.KeysDiffer →
      (op.kind.remove (op.kind.add op.kind.init value) value).value = op.kind.init.value :=
  ⟨op.value_run_nil, fun hkeys => op.value_run_nil (standing?_add_remove hkeys)⟩

/-- Measurements that are all withdrawn again, not in the order they came: one is no number and
one is beyond every number. -/
def withdrawals : List AggregateCall :=
  [.add (.ofInt 4), .add (.string "nan"), .add (.string "1e999"), .remove (.string "nan"),
    .add (.string "n/a"), .add (.string "-inf"), .remove (.ofInt 4), .remove (.string "n/a"),
    .remove (.string "1e999"), .remove (.string "-inf")]

theorem value_run_withdrawals :
    standing? withdrawals = some [] ∧ (AggregateOp.max.kind.run withdrawals).value = .null ∧
      (AggregateKind.avg.remove (AggregateKind.avg.add AggregateKind.avg.init (.string "nan"))
        (.string "nan")).value = Json.ofNat 0 := by
  have hstanding : standing? withdrawals = some [] := rfl
  have hkeys : (Json.string "nan").KeysDiffer :=
    .of_leaf (fun members => by simp) fun items => by simp
  exact ⟨hstanding, (value_run_of_standing_nil .max).1 hstanding,
    (value_run_of_standing_nil .avg).2 hkeys⟩

end AggregateOp

end NestedRecord
