import NestedRecord.Sorting

/-!
# What stable sorting gives

- `StablySorted` says that a list is another one in ascending order of a number, and that elements
  of one number keep their order. That leaves one list only.
- `stablySorted_stableSort`: sorting by insertion gives it.
- `pairwise_stableSort`: a list sorted by any total order is in that order.

Stable sorting is specified by what stands where, and not by the algorithm: two lists in ascending
order of the keys are equal if they have the same elements of each key, in the same order. The other
modules only use the specification.
-/

namespace NestedRecord

variable {α : Type} {key : α → Nat} {xs ys : List α}

/-- A list is another one in ascending order; elements of one key stand in the order of that one. -/
structure StablySorted (key : α → Nat) (xs ys : List α) : Prop where
  ascending : ys.Pairwise fun a b => key a ≤ key b
  stable : ∀ n, ys.filter (key · = n) = xs.filter (key · = n)

/-- Nothing is added by sorting, and nothing is lost. -/
theorem StablySorted.mem_iff (h : StablySorted key xs ys) {a : α} : a ∈ ys ↔ a ∈ xs := by
  have hmem : a ∈ ys.filter (key · = key a) ↔ a ∈ xs.filter (key · = key a) := by
    rw [h.stable]
  simpa [List.mem_filter] using hmem

/-- The order of a number. -/
def keyLe (key : α → Nat) (a b : α) : Bool := decide (key a ≤ key b)

theorem lt_of_keyLe_eq_false {a b : α} (h : ¬ keyLe key a b = true) : key b < key a :=
  Nat.lt_of_not_le fun hle => h (decide_eq_true hle)

theorem mem_insertSorted {le : α → α → Bool} {x a : α} :
    a ∈ insertSorted le x xs ↔ a = x ∨ a ∈ xs := by
  rw [(insertSorted_perm le x xs).mem_iff, List.mem_cons]

section Ordered

variable {le : α → α → Bool} (htrans : ∀ a b c, le a b = true → le b c = true → le a c = true)
  (htotal : ∀ a b, le a b = false → le b a = true)

include htrans htotal in
/-- An insertion keeps a list in order. -/
theorem pairwise_insertSorted (x : α) (h : xs.Pairwise fun a b => le a b = true) :
    (insertSorted le x xs).Pairwise fun a b => le a b = true := by
  induction xs with
  | nil => exact List.pairwise_singleton _ x
  | cons y rest ih =>
    obtain ⟨hfirst, hrest⟩ := List.pairwise_cons.mp h
    unfold insertSorted
    split
    · -- the rest comes after `y`, and so after `x`
      next hle =>
      refine List.pairwise_cons.mpr ⟨fun a ha => ?_, h⟩
      rcases List.mem_cons.mp ha with rfl | ha
      · exact hle
      · exact htrans x y a hle (hfirst a ha)
    · next hle =>
      refine List.pairwise_cons.mpr ⟨fun a ha => ?_, ih hrest⟩
      -- what comes behind `y` now is `x` or was there before
      rcases mem_insertSorted.mp ha with rfl | ha
      · exact htotal a y (Bool.eq_false_iff.mpr hle)
      · exact hfirst a ha

include htrans htotal in
/-- A sorted list is in order. -/
theorem pairwise_stableSort (xs : List α) :
    (stableSort le xs).Pairwise fun a b => le a b = true := by
  induction xs with
  | nil => exact List.Pairwise.nil
  | cons x rest ih => exact pairwise_insertSorted htrans htotal x ih

end Ordered

/-- An element is inserted before all others of its key. -/
theorem filter_insertSorted (x : α) (xs : List α) (n : Nat) :
    (insertSorted (keyLe key) x xs).filter (key · = n) = (x :: xs).filter (key · = n) := by
  induction xs with
  | nil => rfl
  | cons y rest ih =>
    unfold insertSorted
    split
    · rfl
    · next hle =>
      have hlt := lt_of_keyLe_eq_false hle
      rw [List.filter_cons, ih, List.filter_cons, List.filter_cons, List.filter_cons]
      by_cases hx : key x = n
      · have hy : key y ≠ n := Nat.ne_of_lt (hx ▸ hlt)
        simp [hx, hy]
      · simp [hx]

/-- Sorting keeps the order of the elements of one key. -/
theorem filter_stableSort (xs : List α) (n : Nat) :
    (stableSort (keyLe key) xs).filter (key · = n) = xs.filter (key · = n) := by
  induction xs with
  | nil => rfl
  | cons x rest ih => rw [stableSort, filter_insertSorted, List.filter_cons, ih, List.filter_cons]

/-- Insertion sort is stable and sorts. -/
theorem stablySorted_stableSort (key : α → Nat) (xs : List α) :
    StablySorted key xs (stableSort (keyLe key) xs) := by
  have htrans (a b c : α) (hab : keyLe key a b = true) (hbc : keyLe key b c = true) :
      keyLe key a c = true :=
    decide_eq_true (Nat.le_trans (of_decide_eq_true hab) (of_decide_eq_true hbc))
  have htotal (a b : α) (h : keyLe key a b = false) : keyLe key b a = true :=
    decide_eq_true (Nat.le_of_lt (lt_of_keyLe_eq_false (Bool.eq_false_iff.mp h)))
  exact ⟨(pairwise_stableSort htrans htotal xs).imp of_decide_eq_true,
    fun n => filter_stableSort xs n⟩

end NestedRecord
