/-!
# Stable sorting

`stableSort` sorts by insertion. Elements that compare as equal keep their order,
and nothing is lost: `stableSort_perm`.
-/

namespace NestedRecord

variable {α : Type}

/-- Inserts an element before the first one that it may precede. -/
def insertSorted (le : α → α → Bool) (x : α) : List α → List α
  | [] => [x]
  | y :: rest => if le x y then x :: y :: rest else y :: insertSorted le x rest

/-- Sorts a list; `le x y` says that `x` may stand before `y`. -/
def stableSort (le : α → α → Bool) : List α → List α
  | [] => []
  | x :: rest => insertSorted le x (stableSort le rest)

theorem insertSorted_perm (le : α → α → Bool) (x : α) (xs : List α) :
    (insertSorted le x xs).Perm (x :: xs) := by
  fun_induction insertSorted le x xs with
  | case1 => exact .refl _
  | case2 => exact .refl _
  | case3 y rest _ ih => exact (ih.cons y).trans (.swap x y rest)

theorem stableSort_perm (le : α → α → Bool) (xs : List α) : (stableSort le xs).Perm xs := by
  induction xs with
  | nil => exact .refl _
  | cons x rest ih => exact (insertSorted_perm le x _).trans (ih.cons x)

/-- The order of texts by their characters. -/
def textLe (s t : String) : Bool := decide (s ≤ t)

end NestedRecord
