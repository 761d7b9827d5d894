import NestedRecord.Aggregate.State
import NestedRecord.Scalar
import NestedRecord.Sorting

/-!
# Aggregate kinds

An aggregate kind folds values into a state and takes them out again.

* `AggregateOp` names the seven aggregates of descriptors.
* `AggregateKind` is the contract: a start value, `add` and `remove`.
* `AggregateOp.kind` is the built-in kind of each name.
* `AggregateKinds` is what procedures look kinds up in.
-/

namespace NestedRecord

/-- The aggregates that a descriptor can name. -/
inductive AggregateOp where
  | sum
  | count
  | avg
  | min
  | max
  | countBoolTrue
  | countBoolFalse
deriving DecidableEq

namespace AggregateOp

def all : List AggregateOp :=
  [.sum, .count, .avg, .min, .max, .countBoolTrue, .countBoolFalse]

def keyword : AggregateOp → String
  | .sum => "sum"
  | .count => "count"
  | .avg => "avg"
  | .min => "min"
  | .max => "max"
  | .countBoolTrue => "countBoolTrue"
  | .countBoolFalse => "countBoolFalse"

def ofToken? : String → Option AggregateOp
  | "sum" => some .sum
  | "count" => some .count
  | "avg" => some .avg
  | "min" => some .min
  | "max" => some .max
  | "countBoolTrue" => some .countBoolTrue
  | "countBoolFalse" => some .countBoolFalse
  | _ => none

end AggregateOp

/-- How values are folded into a state. -/
structure AggregateKind where
  /-- the value of an aggregate over nothing -/
  start : Json
  add : AggregateState → Json → AggregateState
  remove : AggregateState → Json → AggregateState

namespace AggregateKind

open AggregateState (oneMore oneLess)

/-- The state of an aggregate over nothing. -/
def init (kind : AggregateKind) : AggregateState := { value := kind.start }

/-- The state after values have been added to nothing, one after the other. -/
def fold (kind : AggregateKind) (values : List Json) : AggregateState :=
  values.foldl kind.add kind.init

/-! ## Readings of a value -/

/-- The number that a folded value stands for; numerals count as numbers. -/
def reading? : Json → Option Double
  | .number n => some n.toDouble
  | .string s => Conversion.numeral? s
  | _ => none

/-! ## Counting -/

/-- Counts the values with a property. -/
def counting (counts : Json → Bool) : AggregateKind where
  start := .ofNat 0
  add state value :=
    let count := if counts value then oneMore state.count else state.count
    { state with count, value := .ofNat count.toNat }
  remove state value :=
    let count := if counts value then oneLess state.count else state.count
    { state with count, value := .ofNat count.toNat }

/-- The number of values that are not null. -/
def count : AggregateKind := counting (!·.isNull)

/-- The number of values that are the given truth value. -/
def countBool (b : Bool) : AggregateKind :=
  counting fun value => value.bool? == some b

/-! ## Sums and means -/

/-- One more value in the sum, if it can be read as a number. -/
def accumulate (state : AggregateState) (value : Json) : AggregateState :=
  match reading? value with
  | some n => { state with sum := state.sum.add n, count := oneMore state.count }
  | none => state

/-- One value less in the sum, if it can be read as a number. -/
def exclude (state : AggregateState) (value : Json) : AggregateState :=
  match reading? value with
  | some n => { state with sum := state.sum.sub n, count := oneLess state.count }
  | none => state

/-- The sum of nothing is exactly zero, whatever has been added and removed. -/
def clearEmpty (state : AggregateState) : AggregateState :=
  if state.count = 0 then { state with sum := .zero } else state

def settleSum (state : AggregateState) : AggregateState :=
  { state with value := .ofDouble state.sum }

def settleMean (state : AggregateState) : AggregateState :=
  let state := clearEmpty state
  let value :=
    if state.count = 0 then Json.ofNat 0
    else .ofDouble (state.sum.div (.ofInt state.count.toNat))
  { state with value }

/-- The sum of the numbers, `0` when there is none. -/
def sum : AggregateKind where
  start := .ofNat 0
  add state value := settleSum (accumulate state value)
  remove state value := settleSum (clearEmpty (exclude state value))

/-- The mean of the numbers, `0` when there is none. -/
def avg : AggregateKind where
  start := .ofNat 0
  add state value := settleMean (accumulate state value)
  remove state value := settleMean (exclude state value)

/-! ## Extrema -/

/-- The number of elements before the boundary between those that satisfy `p` and
those that do not, found by halving. The element in the middle decides which part is
searched on, and `fuel` bounds the number of halvings. -/
def boundary {α : Type} (p : α → Bool) : Nat → List α → Nat
  | _, [] => 0
  | _, [x] => if p x then 1 else 0
  | 0, _ :: _ :: _ => 0
  | fuel + 1, xs =>
    let half := xs.length / 2
    -- either way what is left has the length of the greater half
    if xs[half]?.any p then half + boundary p fuel (xs.drop half)
    else boundary p fuel (xs.take (xs.length - half))

/-- Inserts a number into ascending numbers, before its equals. -/
def insertNumber (values : List Double) (n : Double) : List Double :=
  let place := boundary (·.lt n) values.length values
  values.take place ++ n :: values.drop place

/-- Takes out the first number equal to `n`. -/
def removeNumber (values : List Double) (n : Double) : List Double :=
  values.eraseP (·.same n)

/-- An element of the ascending numbers, null when there is none. -/
def extremum (pick : List Double → Option Double) : AggregateKind where
  start := .null
  add state value :=
    let state :=
      match reading? value with
      | some n => { state with values := insertNumber state.values n, count := oneMore state.count }
      | none => state
    { state with value := (pick state.values).elim .null .ofDouble }
  remove state value :=
    let state :=
      match reading? value with
      | some n => { state with values := removeNumber state.values n, count := oneLess state.count }
      | none => state
    { state with value := (pick state.values).elim .null .ofDouble }

/-- The smallest number, null when there is none. -/
def min : AggregateKind := extremum List.head?

/-- The largest number, null when there is none. -/
def max : AggregateKind := extremum List.getLast?

end AggregateKind

/-- The built-in kind of an aggregate. -/
def AggregateOp.kind : AggregateOp → AggregateKind
  | .sum => .sum
  | .count => .count
  | .avg => .avg
  | .min => .min
  | .max => .max
  | .countBoolTrue => .countBool true
  | .countBoolFalse => .countBool false

/-- The kinds that procedures can use; the first entry of a name counts. -/
abbrev AggregateKinds := List (AggregateOp × AggregateKind)

namespace AggregateKinds

/-- Every built-in kind under its own name. -/
def builtIn : AggregateKinds := AggregateOp.all.map fun op => (op, op.kind)

/-- Registers a kind, in place of an earlier one of that name. -/
def register (kinds : AggregateKinds) (op : AggregateOp) (kind : AggregateKind) :
    AggregateKinds :=
  (op, kind) :: kinds.filter (·.1 ≠ op)

def get? (kinds : AggregateKinds) (op : AggregateOp) : Option AggregateKind :=
  (kinds.find? (·.1 = op)).map (·.2)

/-- The registered keywords in order of their characters, as shown to a developer. -/
def summary (kinds : AggregateKinds) : String :=
  let keywords := stableSort textLe (kinds.map (·.1.keyword))
  "AggregateRegistry \x7b kinds: [" ++
    ", ".intercalate (keywords.map fun word => "\"" ++ word ++ "\"") ++ "] \x7d"

end AggregateKinds

end NestedRecord
