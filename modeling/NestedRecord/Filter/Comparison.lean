import NestedRecord.Filter.Operator

/-!
# Comparisons

A filter compares the value of an attribute with a value from outside. Numbers compare
with numbers and texts with texts; a null never compares.

* `order?` is the order of two values.
* `FilterOperator.relates` says whether an operator other than ILIKE holds.
* `FilterOperator.test` also asks a matcher of patterns, `FilterOperator.testAny` takes a
  list as alternatives.
-/

namespace NestedRecord

/-- The order of two numbers: exact for integers of 64 signed bits, otherwise that of the
nearest binary64 numbers. -/
def Number.compare? (m n : Number) : Option Ordering :=
  match m.int64?, n.int64? with
  | some m, some n => some (compare m n)
  | _, _ => m.toDouble.compare? n.toDouble

/-- The order of two numbers or two texts; other values have none. -/
def order? : Json → Json → Option Ordering
  | .number m, .number n => m.compare? n
  | .string s, .string t => some (compare s t)
  | _, _ => none

/-- Equality as filters see it: numbers of both kinds are compared by order. -/
def equals : Json → Json → Bool
  | .number m, .number n => m.compare? n == some .eq
  | a, b => a.same b

/-- Answers whether a text matches a pattern, and may remember the pattern. -/
abbrev PatternTest (μ : Type) := μ → String → String → Bool × μ

namespace FilterOperator

/-- Whether an operator other than ILIKE holds between two values. -/
def relates (operator : FilterOperator) (actual expected : Json) : Bool :=
  match operator with
  | .eq => equals actual expected
  | .gt => (order? actual expected).any (·.isGT)
  | .ge => (order? actual expected).any (·.isGE)
  | .lt => (order? actual expected).any (·.isLT)
  | .le => (order? actual expected).any (·.isLE)
  | .like => false

/-- Whether an operator holds between two values. -/
def test {μ : Type} (operator : FilterOperator) (like : PatternTest μ) (matcher : μ)
    (actual expected : Json) : Bool × μ :=
  match operator, actual, expected with
  | _, .null, _ => (false, matcher)
  | .like, .string text, .string pattern => like matcher text pattern
  | operator, actual, expected => (operator.relates actual expected, matcher)

/-- Whether an operator holds between a value and one of several, in order; those behind
the first are not looked at. -/
def testCandidates {μ : Type} (operator : FilterOperator) (like : PatternTest μ)
    (actual : Json) : μ → List Json → Bool × μ
  | matcher, [] => (false, matcher)
  | matcher, candidate :: rest =>
    match operator.test like matcher actual candidate with
    | (true, matcher) => (true, matcher)
    | (false, matcher) => testCandidates operator like actual matcher rest

/-- Whether an operator holds between a value and another one, or one of a list. -/
def testAny {μ : Type} (operator : FilterOperator) (like : PatternTest μ) (matcher : μ)
    (actual expected : Json) : Bool × μ :=
  match expected with
  | .array candidates => operator.testCandidates like actual matcher candidates
  | expected => operator.test like matcher actual expected

end FilterOperator

end NestedRecord
