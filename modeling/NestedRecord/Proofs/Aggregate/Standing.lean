import NestedRecord.Proofs.Aggregate.Exact

/-!
# Aggregates whose values come and go

An aggregate takes values in and out again, in any order of calls. As long as every value that
is taken out has come in before, its state depends on the values that still stand, and on
nothing else: not on what came and went, and not on the order.

The proof goes along the calls. Before each call the state is the fold of what stands, in the order
in which the values came; a removal takes one value out of the middle, so the fold is first brought
into an order in which that value is the last one, and then the last step is undone. Both need that
nothing is rounded (`Exact`), and that the value which stands and the one that is removed are folded
alike although only equality of JSON values relates them.

- `AggregateCall.standing?` are the values that stand after calls; there are none when a call
  takes out a value that does not stand.
- `AggregateKind.reading?_eq_of_same` and `AggregateOp.remove_eq_of_same`: equal values are
  taken out alike.
- `AggregateOp.run_eq_fold` is the result, for each built-in kind.
-/

namespace NestedRecord

/-- A call that changes the state of an aggregate. -/
inductive AggregateCall where
  | add (value : Json)
  | remove (value : Json)

namespace AggregateCall

/-- The value that a call adds or removes. -/
def value : AggregateCall → Json
  | .add value => value
  | .remove value => value

def added? : AggregateCall → Option Json
  | .add value => some value
  | .remove _ => none

/-- The values that calls add. -/
def added (calls : List AggregateCall) : List Json := calls.filterMap added?

theorem added_append (calls : List AggregateCall) (call : AggregateCall) :
    added (calls ++ [call]) = added calls ++ added [call] := List.filterMap_append

/-- The values that stand after one more call. A removed value cancels an equal one. -/
def stand? (held : List Json) : AggregateCall → Option (List Json)
  | .add value => some (held ++ [value])
  | .remove value => if held.any (·.same value) then some (held.eraseP (·.same value)) else none

/-- The values that stand after calls, if each removed value stood when it was removed. -/
def standing? (calls : List AggregateCall) : Option (List Json) := calls.foldlM stand? []

/-- Whether there are at no time more values than a count can tell. -/
def Countable (calls : List AggregateCall) : Prop :=
  ∀ early, early <+: calls → ∀ held, standing? early = some held → held.length < 2 ^ 64

/-- What stands after a call is what it leaves of what stood before. -/
theorem standing?_append {calls : List AggregateCall} {call : AggregateCall} {held : List Json}
    (h : standing? (calls ++ [call]) = some held) :
    ∃ before, standing? calls = some before ∧ stand? before call = some held := by
  unfold standing? at h
  rw [List.foldlM_append] at h
  obtain ⟨before, hbefore, hcall⟩ := Option.bind_eq_some_iff.mp h
  exact ⟨before, hbefore, by simpa using hcall⟩

/-- A removed value cancels one of the values that stand. -/
theorem perm_of_stand?_remove {held held' : List Json} {value : Json}
    (h : stand? held (.remove value) = some held') :
    ∃ twin, twin.same value ∧ held.Perm (twin :: held') := by
  simp only [stand?] at h
  split at h
  · next hany =>
    obtain ⟨present, hpresent, hsame⟩ := List.any_eq_true.mp hany
    obtain ⟨twin, front, back, -, htwin, hheld, hrest⟩ :=
      List.exists_of_eraseP (p := (·.same value)) hpresent hsame
    obtain rfl := Option.some.inj h
    refine ⟨twin, htwin, ?_⟩
    rw [hrest, hheld]
    exact List.perm_middle
  · cases h

/-- Whatever stands has been added. -/
theorem subperm_added {calls : List AggregateCall} :
    ∀ {held : List Json}, standing? calls = some held → held.Subperm (added calls) := by
  induction calls using List.reverseRecOn with
  | nil =>
    intro held h
    obtain rfl := Option.some.inj h
    exact List.Subperm.refl _
  | append_singleton calls call ih =>
    intro held h
    obtain ⟨before, hbefore, hcall⟩ := standing?_append h
    rw [added_append]
    cases call with
    | add value =>
      obtain rfl := Option.some.inj hcall
      exact (List.subperm_append_right [value]).mpr (ih hbefore)
    -- a removal only makes fewer values stand
    | remove value =>
      obtain ⟨twin, -, hperm⟩ := perm_of_stand?_remove hcall
      have hless : held.Subperm before :=
        (List.sublist_cons_self twin held).subperm.trans hperm.symm.subperm
      exact (hless.trans (ih hbefore)).trans (List.sublist_append_left ..).subperm

/-- Fewer calls than a count can tell are never too many values. -/
theorem countable_of_length {calls : List AggregateCall} (h : calls.length < 2 ^ 64) :
    Countable calls := by
  intro early hearly held hheld
  calc held.length ≤ (added early).length := (subperm_added hheld).length_le
    _ ≤ early.length := List.length_filterMap_le ..
    _ ≤ calls.length := hearly.length_le
    _ < 2 ^ 64 := h

theorem mem_of_mem_added {calls : List AggregateCall} {value : Json} (h : value ∈ added calls) :
    ∃ call ∈ calls, call.value = value := by
  obtain ⟨call, hcall, hvalue⟩ := List.mem_filterMap.mp h
  refine ⟨call, hcall, ?_⟩
  cases call with
  | add added => exact Option.some.inj hvalue
  | remove removed => cases hvalue

end AggregateCall

namespace AggregateKind

open AggregateCall

/-- The state after one call. -/
def perform (kind : AggregateKind) (state : AggregateState) : AggregateCall → AggregateState
  | .add value => kind.add state value
  | .remove value => kind.remove state value

/-- The state after calls, from the start on. -/
def run (kind : AggregateKind) (calls : List AggregateCall) : AggregateState :=
  calls.foldl kind.perform kind.init

theorem run_append (kind : AggregateKind) (calls : List AggregateCall) (call : AggregateCall) :
    kind.run (calls ++ [call]) = kind.perform (kind.run calls) call := by
  unfold run
  rw [List.foldl_append]
  rfl

/-! ## What is exact -/

theorem magnitude_le_of_sublist {ns ms : List Int} (h : ns.Sublist ms) :
    magnitude ns ≤ magnitude ms :=
  (h.map Int.natAbs).sum_le_sum fun n _ => Nat.zero_le n

theorem reading?_number (n : Number) : reading? (.number n) = some n.toDouble := rfl

/-! ## Equal values -/

variable {value twin : Json}

theorem isNull_eq_of_same (h : twin.same value) : twin.isNull = value.isNull := by
  cases twin <;> cases value <;> simp only [Json.same, Bool.false_eq_true] at h <;> rfl

theorem bool?_eq_of_same (h : twin.same value) : twin.bool? = value.bool? := by
  cases twin <;> cases value <;> simp only [Json.same, Bool.false_eq_true] at h <;> try rfl
  case bool.bool => rw [beq_iff_eq.mp h]

/-- Equal integers are the same double, also when both are written as doubles: the sign of a
zero is all that could differ, and no integer is `-0`. -/
theorem toDouble_eq_of_same {m n : Number} (h : m.same n) (hm : isIntegral (.number m))
    (hn : isIntegral (.number n)) : m.toDouble = n.toDouble := by
  cases m <;> cases n <;> simp only [Number.same, Bool.false_eq_true, beq_iff_eq] at h
  case whole.whole m n => exact congrArg Double.ofInt h
  case real.real x y =>
    simp only [isIntegral, integer?, reading?_number, Number.toDouble, Option.map_some,
      Option.some.injEq, decide_eq_true_eq] at hm hn
    have htruncate : x.truncate = y.truncate := by
      unfold Finite.truncate
      rw [beq_iff_eq.mp h]
    simp only [Number.toDouble]
    rw [hm, hn, htruncate]

theorem reading?_eq_of_same (h : twin.same value) (htwin : isIntegral twin)
    (hvalue : isIntegral value) : reading? twin = reading? value := by
  cases twin <;> cases value <;> simp only [Json.same, Bool.false_eq_true] at h
  case number.number => rw [reading?_number, reading?_number, toDouble_eq_of_same h htwin hvalue]
  case string.string => rw [beq_iff_eq.mp h]
  all_goals rfl

theorem exclude_eq_of_reading? (h : reading? twin = reading? value) (state : AggregateState) :
    exclude state twin = exclude state value := by
  unfold exclude
  rw [h]

theorem remove_extremum_eq_of_reading? (h : reading? twin = reading? value)
    (pick : List Double → Option Double) (state : AggregateState) :
    (extremum pick).remove state twin = (extremum pick).remove state value := by
  simp only [extremum, h]

theorem remove_counting_eq {counts : Json → Bool} (h : counts twin = counts value)
    (state : AggregateState) :
    (counting counts).remove state twin = (counting counts).remove state value := by
  simp only [counting, h]

end AggregateKind

namespace AggregateOp

open AggregateCall AggregateKind

/-- Which of several equal values is taken out makes no difference. -/
theorem remove_eq_of_same (op : AggregateOp) {twin value : Json} (h : twin.same value)
    (htwin : isIntegral twin) (hvalue : isIntegral value) (state : AggregateState) :
    op.kind.remove state twin = op.kind.remove state value := by
  have hreading := reading?_eq_of_same h htwin hvalue
  cases op with
  | sum =>
    show settleSum (clearEmpty (exclude state twin)) = settleSum (clearEmpty (exclude state value))
    rw [exclude_eq_of_reading? hreading]
  | count => exact remove_counting_eq (by rw [isNull_eq_of_same h]) state
  | avg =>
    show settleMean (exclude state twin) = settleMean (exclude state value)
    rw [exclude_eq_of_reading? hreading]
  | min => exact remove_extremum_eq_of_reading? hreading _ state
  | max => exact remove_extremum_eq_of_reading? hreading _ state
  | countBoolTrue => exact remove_counting_eq (by rw [bool?_eq_of_same h]) state
  | countBoolFalse => exact remove_counting_eq (by rw [bool?_eq_of_same h]) state

/-- One call keeps the state that of the values that stand. -/
theorem perform_fold (op : AggregateOp) {call : AggregateCall} {held held' : List Json}
    (hcall : stand? held call = some held') (hintegral : isIntegral call.value)
    (hexact : Exact held) : op.kind.perform (op.kind.fold held) call = op.kind.fold held' := by
  cases call with
  | add value =>
    obtain rfl := Option.some.inj hcall
    exact (fold_append op.kind held value).symm
  | remove value =>
    obtain ⟨twin, hsame, hperm⟩ := perm_of_stand?_remove hcall
    have htwin : isIntegral twin := hexact.integral twin (hperm.mem_iff.mpr List.mem_cons_self)
    calc op.kind.remove (op.kind.fold held) value
        = op.kind.remove (op.kind.fold held) twin :=
          (op.remove_eq_of_same hsame htwin hintegral _).symm
      _ = op.kind.remove (op.kind.fold (twin :: held')) twin := by
          rw [op.faithful.fold_perm hexact hperm]
      _ = op.kind.fold held' := op.faithful.remove_fold (hexact.perm hperm)

/-- The values that stand after calls with integers of small magnitude are exact. -/
theorem exact_of_standing {calls : List AggregateCall} {held : List Json}
    (hstanding : standing? calls = some held)
    (hintegral : ∀ call ∈ calls, isIntegral call.value)
    (htotal : magnitude (integers (added calls)) ≤ 2 ^ 53) (hfew : held.length < 2 ^ 64) :
    Exact held := by
  obtain ⟨middle, hperm, hsublist⟩ := subperm_added hstanding
  refine ⟨fun value hvalue => ?_, ?_, hfew⟩
  · obtain ⟨call, hcall, rfl⟩ :=
      mem_of_mem_added (hsublist.subset (hperm.mem_iff.mpr hvalue))
    exact hintegral call hcall
  · have hless : magnitude (integers middle) ≤ magnitude (integers (added calls)) :=
      magnitude_le_of_sublist (hsublist.filterMap integer?)
    rw [integers, ← magnitude_perm (hperm.filterMap integer?)]
    exact Nat.le_trans hless htotal

/-- The state of a built-in aggregate is that of the values that stand, folded in any order. -/
theorem run_eq_fold (op : AggregateOp) {calls : List AggregateCall} {held order : List Json}
    (hstanding : standing? calls = some held)
    (hintegral : ∀ call ∈ calls, isIntegral call.value)
    (htotal : magnitude (integers (added calls)) ≤ 2 ^ 53)
    (hcountable : Countable calls) (horder : order.Perm held) :
    op.kind.run calls = op.kind.fold order := by
  -- the order is changed once, at the end
  suffices hheld : op.kind.run calls = op.kind.fold held by
    have hexact := exact_of_standing hstanding hintegral htotal
      (hcountable calls (List.prefix_refl calls) held hstanding)
    rw [hheld, op.faithful.fold_perm hexact horder.symm]
  clear horder order
  induction calls using List.reverseRecOn generalizing held with
  | nil =>
    obtain rfl := Option.some.inj hstanding
    rfl
  | append_singleton calls call ih =>
    obtain ⟨before, hbefore, hcall⟩ := standing?_append hstanding
    have hfront : calls <+: calls ++ [call] := List.prefix_append calls [call]
    have hearlier : ∀ call ∈ calls, isIntegral call.value := fun call hmem =>
      hintegral call (hfront.subset hmem)
    have hless : magnitude (integers (added calls)) ≤ 2 ^ 53 := by
      refine Nat.le_trans ?_ htotal
      exact magnitude_le_of_sublist ((hfront.sublist.filterMap added?).filterMap integer?)
    have hrun := ih hbefore hearlier hless fun early hearly => hcountable early (hearly.trans hfront)
    have hexact := exact_of_standing hbefore hearlier hless (hcountable calls hfront before hbefore)
    rw [run_append, hrun]
    exact op.perform_fold hcall (hintegral call (by simp)) hexact

/-- Temperatures that are measured and withdrawn again, the lowest among them. -/
def readings : List AggregateCall :=
  [.add (.ofInt 4), .add (.string "n/a"), .add (.ofInt (-2)), .add (.ofInt 9),
    .remove (.ofInt (-2)), .remove (.string "n/a"), .add (.ofInt 4), .remove (.ofInt 4)]

theorem run_eq_fold_readings :
    standing? readings = some [.ofInt 9, .ofInt 4] ∧
      AggregateOp.min.kind.run readings = AggregateOp.min.kind.fold [.ofInt 4, .ofInt 9] := by
  have hstanding : standing? readings = some [.ofInt 9, .ofInt 4] := rfl
  refine ⟨hstanding, run_eq_fold .min hstanding ?_ ?_ ?_ (List.Perm.swap ..)⟩
  · decide +kernel
  · decide +kernel
  · exact countable_of_length (by decide)

end AggregateOp

end NestedRecord
