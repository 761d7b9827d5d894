import NestedRecord.Json.Basic

/-!
# Aggregate states

A running aggregate keeps its current value together with what it takes to change it:
how many values it counts, their sum, and for extrema the sorted list of values.

* `AggregateState.oneMore` and `AggregateState.oneLess` change a count, which is a word of
  64 bits: it starts over behind its greatest value and stays at zero. In between they are
  what they are for natural numbers, `toNat_oneMore` and `toNat_oneLess`, and the one undoes
  the other, `oneLess_oneMore`.
* `AggregateState.toJson` and `AggregateState.ofJson?` write and read the persisted
  form.
-/

namespace NestedRecord

/-- The accumulator of an aggregate. -/
structure AggregateState where
  /-- the aggregate's current value -/
  value : Json
  count : UInt64 := 0
  sum : Double := .zero
  /-- the values of an extremum, in ascending order -/
  values : List Double := []

namespace AggregateState

/-- The count of one thing more. -/
def oneMore (count : UInt64) : UInt64 := count + 1

/-- The count of one thing less. -/
def oneLess (count : UInt64) : UInt64 := if count = 0 then 0 else count - 1

theorem toNat_oneMore {count : UInt64} (h : count.toNat < 18446744073709551615) :
    (oneMore count).toNat = count.toNat + 1 := by
  rw [oneMore, UInt64.toNat_add]
  exact Nat.mod_eq_of_lt (Nat.succ_lt_succ h)

theorem toNat_oneLess (count : UInt64) : (oneLess count).toNat = count.toNat - 1 := by
  unfold oneLess
  split
  · next h => simp [h]
  · next h =>
    have positive : 1 ≤ count.toNat :=
      Nat.pos_of_ne_zero fun zero => h (UInt64.toNat_inj.mp zero)
    exact UInt64.toNat_sub_of_le count 1 (UInt64.le_iff_toNat_le.mpr positive)

theorem oneLess_oneMore {count : UInt64} (h : count.toNat < 18446744073709551615) :
    oneLess (oneMore count) = count := by
  apply UInt64.toNat_inj.mp
  rw [toNat_oneLess, toNat_oneMore h, Nat.add_sub_cancel]

/-- The persisted form; an empty list of values is left out. -/
def toJson (state : AggregateState) : Json :=
  let fixed :=
    [("value", state.value), ("count", Json.ofNat state.count.toNat), ("sum", Json.ofReal state.sum)]
  let values :=
    if state.values.isEmpty then []
    else [("values", Json.array (state.values.map Json.ofReal))]
  .object (fixed ++ values)

/-- The count that a whole number which is not negative gives. -/
def count? : Json → Option UInt64
  | .number (.whole n) => if 0 ≤ n.val then some n.val.toNat.toUInt64 else none
  | _ => none

def double? : Json → Option Double
  | .number n => some n.toDouble
  | _ => none

def doubles? : Json → Option (List Double)
  | .array items => items.mapM double?
  | _ => none

/-- Reads the parts of a state; a part that is absent is zero or empty. -/
def ofParts? (value : Json) (count sum values : Option Json) : Option AggregateState := do
  let count ← (count.map count?).getD (some 0)
  let sum ← (sum.map double?).getD (some .zero)
  let values ← (values.map doubles?).getD (some [])
  some ⟨value, count, sum, values⟩

/-- Reads a state: an object with at least its value, or a list of its parts in
order. -/
def ofJson? : Json → Option AggregateState
  | .object members =>
    (Fields.get? members "value").bind fun value =>
      ofParts? value (Fields.get? members "count") (Fields.get? members "sum")
        (Fields.get? members "values")
  | .array [value] => ofParts? value none none none
  | .array [value, count] => ofParts? value (some count) none none
  | .array [value, count, sum] => ofParts? value (some count) (some sum) none
  | .array [value, count, sum, values] => ofParts? value (some count) (some sum) (some values)
  | _ => none

end AggregateState

/-- Persisted states by the pointer of the attribute that they belong to. -/
abbrev AggregateStates := Fields AggregateState

end NestedRecord
