import NestedRecord.Proofs.Aggregate.Ordered

/-!
# Aggregate states that are stored

A state is written as JSON and read back when the next value comes in or goes out. JSON has no form
for an infinite number and for NaN: they are written as null, and null is no number to the reader.

Which doubles a state holds depends on the kind alone: a sum and a mean have no list of numbers, an
extremum has no sum and a count has neither. A sum can be infinite although everything that has been
added is finite, and an extremum cannot, because it keeps what has come in as it is.

- `AggregateState.ofJson?_toJson`: a state is read back as it was written if all its doubles are
  finite, and not at all otherwise.
- `AggregateOp.kept` are the doubles in which a kind keeps what has been folded, and
  `AggregateOp.doubles_run`: all other doubles stay zero.
- `AggregateOp.ofJson?_toJson_run` is the result for each built-in kind: which states come back. It
  is all of them for a count, and for an extremum if all numbers added are finite.
-/

namespace NestedRecord

/-- Whether a number is neither infinite nor NaN. -/
def Double.isFinite (x : Double) : Bool := x.finite?.isSome

namespace AggregateState

/-! ## Reading back -/

/-- A finite number is written with digits and read back, any other one is null. -/
theorem double?_ofReal (x : Double) :
    double? (Json.ofReal x) = if x.isFinite then some x else none := by
  cases x <;> rfl

/-- A list of numbers is read back if each of them is. -/
theorem doubles?_ofReal (values : List Double) :
    doubles? (.array (values.map Json.ofReal)) =
      if values.all Double.isFinite then some values else none := by
  show (values.map Json.ofReal).mapM double? = _
  induction values with
  | nil => rfl
  | cons x rest ih =>
    rw [List.map_cons, List.mapM_cons, double?_ofReal, ih, List.all_cons]
    cases x.isFinite <;> cases rest.all Double.isFinite <;> rfl

/-- Counts are always read back. -/
theorem count?_ofNat (count : UInt64) : count? (Json.ofNat count.toNat) = some count := by
  have hbound : count.toNat < 18446744073709551616 := count.toNat_lt
  have hval : (Whole.ofNat count.toNat).val = count.toNat := by
    show min (count.toNat : Int) 18446744073709551615 = _
    omega
  show (if 0 ≤ (Whole.ofNat count.toNat).val then
    some (Whole.ofNat count.toNat).val.toNat.toUInt64 else none) = _
  rw [hval, if_pos (Int.natCast_nonneg _), Int.toNat_natCast]
  exact congrArg some (UInt64.ofNat_toNat ..)

/-- The doubles that a state consists of. -/
def doubles (state : AggregateState) : List Double := state.sum :: state.values

/-- A state is read back as it was written, unless one of its doubles is infinite or NaN. -/
theorem ofJson?_toJson (state : AggregateState) :
    ofJson? state.toJson = if state.doubles.all Double.isFinite then some state else none := by
  obtain ⟨value, count, sum, values⟩ := state
  -- an empty list is left out, and what is absent is read as an empty list
  have hparts : ofJson? (toJson ⟨value, count, sum, values⟩) =
      (double? (Json.ofReal sum)).bind fun sum =>
        (doubles? (.array (values.map Json.ofReal))).bind fun values =>
          some ⟨value, count, sum, values⟩ := by
    cases values <;> simp [toJson, ofJson?, Fields.get?, ofParts?, count?_ofNat, doubles?]
  rw [hparts, double?_ofReal, doubles?_ofReal, doubles, List.all_cons]
  cases sum.isFinite <;> cases values.all Double.isFinite <;> rfl

end AggregateState

namespace AggregateKind

open AggregateCall AggregateState

variable {kind : AggregateKind}

/-! ## Where nothing is kept -/

/-- What holds over nothing and is kept by each call holds after all calls. -/
theorem run_invariant (Inv : AggregateState → Prop) (hinit : Inv kind.init)
    (hperform : ∀ (state : AggregateState) (call : AggregateCall), Inv state →
      Inv (kind.perform state call)) (calls : List AggregateCall) : Inv (kind.run calls) := by
  induction calls using List.reverseRecOn with
  | nil => exact hinit
  | append_singleton calls call ih =>
    rw [run_append]
    exact hperform _ call ih

/-- A count has no doubles but a zero. -/
theorem doubles_run_counting (counts : Json → Bool) (calls : List AggregateCall) :
    ((counting counts).run calls).doubles = [.zero] :=
  run_invariant (fun state => state.doubles = [.zero]) rfl
    (fun state call h => by cases call <;> exact h) calls

theorem values_accumulate (state : AggregateState) (value : Json) :
    (accumulate state value).values = state.values := by
  unfold accumulate
  cases reading? value <;> rfl

theorem values_exclude (state : AggregateState) (value : Json) :
    (exclude state value).values = state.values := by
  unfold exclude
  cases reading? value <;> rfl

theorem values_clearEmpty (state : AggregateState) : (clearEmpty state).values = state.values := by
  unfold clearEmpty
  split <;> rfl

/-- A kind that never touches the numbers of an extremum has none. -/
theorem values_run (hadd : ∀ state value, (kind.add state value).values = state.values)
    (hremove : ∀ state value, (kind.remove state value).values = state.values)
    (calls : List AggregateCall) : (kind.run calls).values = [] := by
  refine run_invariant (fun state => state.values = []) rfl (fun state call h => ?_) calls
  cases call with
  | add value => exact (hadd state value).trans h
  | remove value => exact (hremove state value).trans h

theorem values_run_sum (calls : List AggregateCall) : (sum.run calls).values = [] :=
  values_run values_accumulate
    (fun state value => (values_clearEmpty (exclude state value)).trans (values_exclude ..)) calls

theorem values_run_avg (calls : List AggregateCall) : (avg.run calls).values = [] :=
  values_run
    (fun state value => (values_clearEmpty (accumulate state value)).trans (values_accumulate ..))
    (fun state value => (values_clearEmpty (exclude state value)).trans (values_exclude ..)) calls

/-- An extremum never adds anything up. -/
theorem sum_run_extremum (pick : List Double → Option Double) (calls : List AggregateCall) :
    ((extremum pick).run calls).sum = .zero := by
  refine run_invariant (fun state => state.sum = .zero) rfl (fun state call h => ?_) calls
  cases call with
  | add value =>
    simp only [perform, extremum]
    cases reading? value <;> exact h
  | remove value =>
    simp only [perform, extremum]
    cases reading? value <;> exact h

end AggregateKind

namespace AggregateOp

open AggregateCall AggregateKind AggregateState

/-- The doubles in which a kind keeps what has been folded. -/
def kept (op : AggregateOp) (state : AggregateState) : List Double :=
  match op with
  | .sum | .avg => [state.sum]
  | .min | .max => state.values
  | .count | .countBoolTrue | .countBoolFalse => []

/-- The doubles of a state are those that its kind keeps, and zeros. -/
theorem all_isFinite_doubles_run (op : AggregateOp) (calls : List AggregateCall) :
    (op.kind.run calls).doubles.all Double.isFinite =
      (op.kept (op.kind.run calls)).all Double.isFinite := by
  cases op with
  | sum =>
    show List.all (_ :: (AggregateKind.sum.run calls).values) _ = _
    rw [values_run_sum]
    rfl
  | avg =>
    show List.all (_ :: (AggregateKind.avg.run calls).values) _ = _
    rw [values_run_avg]
    rfl
  -- the list is kept here, and the sum is a zero
  | min | max =>
    show List.all (AggregateState.sum _ :: _) _ = _
    rw [List.all_cons]
    exact congrArg (Double.isFinite · && _) (sum_run_extremum _ calls)
  | count | countBoolTrue | countBoolFalse =>
    show List.all (AggregateState.doubles ((counting _).run calls)) _ = _
    rw [doubles_run_counting]
    rfl

/-- What is kept other than a sum has been added. -/
theorem isFinite_kept_run {op : AggregateOp} (hsum : op ≠ .sum) (havg : op ≠ .avg)
    {calls : List AggregateCall}
    (h : (numbersAdded calls).all Double.isFinite) :
    (op.kept (op.kind.run calls)).all Double.isFinite := by
  cases op with
  | sum => exact absurd rfl hsum
  | avg => exact absurd rfl havg
  | min | max =>
    refine List.all_eq_true.mpr fun x hx => ?_
    exact List.all_eq_true.mp h x (mem_numbersAdded_of_mem_run hx)
  | count | countBoolTrue | countBoolFalse => rfl

/-- After any calls, the state of a built-in aggregate is read back as it was written if the doubles
that the kind keeps are finite, and not at all otherwise. If all numbers added are finite, then so
are those kept, other than sums. -/
theorem ofJson?_toJson_run (op : AggregateOp) (calls : List AggregateCall) :
    AggregateState.ofJson? (op.kind.run calls).toJson =
        (if (op.kept (op.kind.run calls)).all Double.isFinite then some (op.kind.run calls)
        else none) ∧
      (op ≠ .sum → op ≠ .avg → (numbersAdded calls).all Double.isFinite →
        AggregateState.ofJson? (op.kind.run calls).toJson = some (op.kind.run calls)) := by
  have hread : AggregateState.ofJson? (op.kind.run calls).toJson =
      if (op.kept (op.kind.run calls)).all Double.isFinite then some (op.kind.run calls)
      else none := by
    rw [AggregateState.ofJson?_toJson, all_isFinite_doubles_run]
  refine ⟨hread, fun hsum havg hfinite => ?_⟩
  rw [hread, if_pos (isFinite_kept_run hsum havg hfinite)]

/-- Weights that come in, the greatest of which goes out again. -/
def weights : List AggregateCall :=
  [.add (.string "1e308"), .add (.string "0.5"), .add .null, .remove (.string "1e308")]

theorem ofJson?_toJson_run_weights :
    AggregateState.ofJson? (AggregateOp.sum.kind.run weights).toJson =
        some (AggregateOp.sum.kind.run weights) ∧
      AggregateState.ofJson? (AggregateOp.max.kind.run weights).toJson =
        some (AggregateOp.max.kind.run weights) := by
  constructor
  · rw [(ofJson?_toJson_run .sum weights).1]
    exact if_pos (by decide +kernel)
  · exact (ofJson?_toJson_run .max weights).2 (by decide) (by decide) (by decide +kernel)

/-- Two weights that are finite, while their sum is not. -/
theorem not_ofJson?_toJson_run :
    AggregateState.ofJson?
      (AggregateOp.sum.kind.run [.add (.string "1e308"), .add (.string "1e308")]).toJson = none := by
  rw [AggregateState.ofJson?_toJson]
  exact if_neg (by decide +kernel)

end AggregateOp

end NestedRecord
