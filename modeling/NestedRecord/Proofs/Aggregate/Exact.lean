import Mathlib.Algebra.Order.BigOperators.Group.List
import Mathlib.Algebra.Order.Ring.Nat
import Mathlib.Algebra.Ring.Int.Defs
import Mathlib.Data.List.Induction
import Mathlib.Data.List.Sort
import Mathlib.Data.List.TakeWhile
import NestedRecord.Aggregate.Kind
import NestedRecord.Proofs.Number.Exact

/-!
# Exact aggregates

As long as all numbers folded are integers whose magnitudes total at most `2⁵³`, the state of
a built-in aggregate says what has been folded, and not in which order.

Double arithmetic is not associative, so in general the order in which values are folded can be seen
in the result. It cannot as long as nothing is rounded. A bound on single numbers would not do:
partial sums have to be exact too, whichever values come first, and this is what the total of the
magnitudes gives. The bound passes to every part of a list and to every order of it.

- `AggregateKind.Exact` says this of a list of values; values that are no numbers are free.
- `AggregateKind.Faithful`: the state depends on the values only up to their order, and taking
  a value out leads back to the state without it.
- `AggregateOp.faithful`: each built-in kind is faithful. Each is characterised by what its
  state counts: `fold_counting`, `fold_sum`, `fold_avg` and `fold_extremum`.
-/

namespace NestedRecord

namespace AggregateKind

/-- The integer that a folded value stands for. -/
def integer? (value : Json) : Option Int :=
  match reading? value with
  | some (.finite x) => some x.truncate
  | _ => none

/-- Whether a folded value is an integer or no number at all. -/
def isIntegral (value : Json) : Bool :=
  decide (reading? value = (integer? value).map Double.ofInt)

/-- The integers among folded values. -/
def integers (values : List Json) : List Int := values.filterMap integer?

/-- The magnitudes of integers together. -/
def magnitude (ns : List Int) : Nat := (ns.map Int.natAbs).sum

/-- Whether folding values is exact: the numbers are integers whose magnitudes total at most
`2⁵³`, and there are not more values than a count can tell. -/
structure Exact (values : List Json) : Prop where
  integral : ∀ value ∈ values, isIntegral value
  total : magnitude (integers values) ≤ 2 ^ 53
  few : values.length < 2 ^ 64

instance (values : List Json) : Decidable (Exact values) :=
  decidable_of_iff ((∀ value ∈ values, isIntegral value) ∧
      magnitude (integers values) ≤ 2 ^ 53 ∧ values.length < 2 ^ 64)
    ⟨fun h => ⟨h.1, h.2.1, h.2.2⟩, fun h => ⟨h.integral, h.total, h.few⟩⟩

/-- A kind whose state tells what has been folded. -/
structure Faithful (kind : AggregateKind) : Prop where
  /-- the order of the values does not matter -/
  fold_perm : ∀ {values values' : List Json}, Exact values → values.Perm values' →
    kind.fold values = kind.fold values'
  /-- a value can be taken out again -/
  remove_fold : ∀ {value : Json} {rest : List Json}, Exact (value :: rest) →
    kind.remove (kind.fold (value :: rest)) value = kind.fold rest

theorem fold_append (kind : AggregateKind) (values : List Json) (value : Json) :
    kind.fold (values ++ [value]) = kind.add (kind.fold values) value := by
  unfold fold
  rw [List.foldl_append]
  rfl

theorem magnitude_perm {ns ms : List Int} (h : ns.Perm ms) : magnitude ns = magnitude ms :=
  (h.map _).sum_eq

theorem natAbs_le_magnitude {n : Int} {ns : List Int} (h : n ∈ ns) : n.natAbs ≤ magnitude ns :=
  List.le_sum_of_mem (List.mem_map_of_mem h)

/-- A sum is no greater than the magnitudes together. -/
theorem natAbs_sum_le (ns : List Int) : ns.sum.natAbs ≤ magnitude ns := by
  induction ns with
  | nil => rfl
  | cons n rest ih =>
    rw [List.sum_cons]
    have hstep := Int.natAbs_add_le n rest.sum
    show (n + rest.sum).natAbs ≤ n.natAbs + magnitude rest
    omega

namespace Exact

variable {values values' : List Json}

/-- Fewer values, in any order, are folded exactly if the values are. -/
theorem subperm (h : Exact values) (hsub : values'.Subperm values) : Exact values' := by
  obtain ⟨middle, hperm, hsublist⟩ := hsub
  refine ⟨fun value hvalue => h.integral value (hsublist.subset (hperm.mem_iff.mpr hvalue)), ?_, ?_⟩
  · have hless : magnitude (integers middle) ≤ magnitude (integers values) :=
      ((hsublist.filterMap integer?).map Int.natAbs).sum_le_sum fun n _ => Nat.zero_le n
    rw [integers, ← magnitude_perm (hperm.filterMap integer?)]
    exact Nat.le_trans hless h.total
  · rw [← hperm.length_eq]
    exact Nat.lt_of_le_of_lt hsublist.length_le h.few

theorem perm (h : Exact values) (hperm : values.Perm values') : Exact values' :=
  h.subperm hperm.symm.subperm

theorem of_append (h : Exact (values ++ values')) : Exact values :=
  h.subperm (List.sublist_append_left ..).subperm

theorem tail {value : Json} (h : Exact (value :: values)) : Exact values :=
  h.subperm (List.sublist_cons_self ..).subperm

/-- A value of an exact list is no number or an integer that is a double. -/
theorem reading (h : Exact values) {value : Json} (hvalue : value ∈ values) :
    (reading? value = none ∧ integer? value = none) ∨
      ∃ n : Int, reading? value = some (.ofInt n) ∧ integer? value = some n ∧
        n.natAbs ≤ 2 ^ 53 := by
  have hintegral := of_decide_eq_true (h.integral value hvalue)
  cases hn : integer? value with
  | none => exact .inl ⟨by rw [hintegral, hn]; rfl, rfl⟩
  | some n =>
    refine .inr ⟨n, by rw [hintegral, hn]; rfl, rfl, ?_⟩
    exact Nat.le_trans (natAbs_le_magnitude (List.mem_filterMap.mpr ⟨value, hvalue, hn⟩)) h.total

theorem natAbs_le (h : Exact values) {n : Int} (hn : n ∈ integers values) :
    n.natAbs ≤ 2 ^ 53 := Nat.le_trans (natAbs_le_magnitude hn) h.total

/-- The sum of exact values is a double, and by `subperm` so is the sum of any of them. -/
theorem natAbs_sum (h : Exact values) : (integers values).sum.natAbs ≤ 2 ^ 53 :=
  Nat.le_trans (natAbs_sum_le _) h.total

theorem length_integers (h : Exact values) : (integers values).length < 2 ^ 64 :=
  Nat.lt_of_le_of_lt (List.length_filterMap_le ..) h.few

end Exact

/-! ## Counts as words -/

open AggregateState (oneMore oneLess)

theorem oneMore_ofNat (n : Nat) : oneMore (.ofNat n) = .ofNat (n + 1) := by
  unfold oneMore
  rw [UInt64.ofNat_add]
  rfl

theorem oneLess_ofNat {n : Nat} (h : n + 1 < 2 ^ 64) : oneLess (.ofNat (n + 1)) = .ofNat n := by
  rw [← oneMore_ofNat]
  refine AggregateState.oneLess_oneMore ?_
  rw [UInt64.toNat_ofNat_of_lt' (Nat.lt_of_succ_lt h)]
  exact Nat.lt_of_succ_lt_succ (by simpa using h)

theorem ofNat_eq_zero {n : Nat} (h : n < 2 ^ 64) : UInt64.ofNat n = 0 ↔ n = 0 := by
  constructor
  · intro hzero
    have hnat := congrArg UInt64.toNat hzero
    rwa [UInt64.toNat_ofNat_of_lt' h] at hnat
  · rintro rfl
    rfl

/-! ## Counting -/

/-- A count after `n` values that count. -/
def counted (n : Nat) : AggregateState :=
  { value := .ofNat (UInt64.ofNat n).toNat, count := .ofNat n }

/-- A count tells how many values count. -/
theorem fold_counting (counts : Json → Bool) (values : List Json) :
    (counting counts).fold values = counted (values.countP counts) := by
  induction values using List.reverseRecOn with
  | nil => rfl
  | append_singleton values value ih =>
    rw [fold_append, ih, List.countP_append, List.countP_singleton]
    by_cases hcounts : counts value
    · simp only [counting, counted, hcounts, if_true, oneMore_ofNat]
    · simp only [counting, counted, hcounts, Bool.false_eq_true, if_false, Nat.add_zero]

/-- Counting is faithful, whatever counts. -/
theorem faithful_counting (counts : Json → Bool) : Faithful (counting counts) where
  fold_perm _ hperm := by
    rw [fold_counting, fold_counting, hperm.countP_eq]
  remove_fold {value rest} h := by
    rw [fold_counting, fold_counting, List.countP_cons]
    by_cases hcounts : counts value
    · have hlength : rest.countP counts + 1 < 2 ^ 64 :=
        Nat.lt_of_le_of_lt (Nat.succ_le_succ List.countP_le_length) h.few
      simp only [counting, counted, hcounts, if_true, oneLess_ofNat hlength]
    · simp only [counting, counted, hcounts, Bool.false_eq_true, if_false, Nat.add_zero]

/-! ## Sums and means -/

/-- A sum of `n` numbers. -/
def summed (sum : Int) (n : Nat) : AggregateState :=
  { value := .ofDouble (.ofInt sum), count := .ofNat n, sum := .ofInt sum }

/-- A mean of `n` numbers. -/
def averaged (sum : Int) (n : Nat) : AggregateState :=
  { value := if n = 0 then .ofNat 0 else .ofDouble ((Double.ofInt sum).div (.ofInt n))
    count := .ofNat n, sum := .ofInt sum }

/-- One more number, or something that is none, in a sum. -/
theorem accumulate_eq {values : List Json} {value : Json} (h : Exact (values ++ [value]))
    (shown : Json) (extra : List Double) :
    accumulate ⟨shown, .ofNat (integers values).length, .ofInt (integers values).sum, extra⟩ value =
      ⟨shown, .ofNat (integers (values ++ [value])).length,
        .ofInt (integers (values ++ [value])).sum, extra⟩ := by
  unfold accumulate
  rcases h.reading (List.mem_append_right _ (List.mem_singleton_self value)) with
    ⟨hnone, hinteger⟩ | ⟨n, hsome, hinteger, hn⟩
  · have hsame : integers (values ++ [value]) = integers values := by simp [integers, hinteger]
    rw [hnone, hsame]
  · have happend : integers (values ++ [value]) = integers values ++ [n] := by
      simp [integers, hinteger]
    rw [hsome, happend, List.sum_append, List.sum_singleton, List.length_append,
      List.length_singleton, ← Double.ofInt_add h.of_append.natAbs_sum hn, ← oneMore_ofNat]

/-- One number less, or something that is none, in a sum. -/
theorem exclude_eq {rest : List Json} {value : Json} (h : Exact (value :: rest))
    (shown : Json) (extra : List Double) :
    exclude ⟨shown, .ofNat (integers (value :: rest)).length,
        .ofInt (integers (value :: rest)).sum, extra⟩ value =
      ⟨shown, .ofNat (integers rest).length, .ofInt (integers rest).sum, extra⟩ := by
  unfold exclude
  rcases h.reading List.mem_cons_self with ⟨hnone, hinteger⟩ | ⟨n, hsome, hinteger, hn⟩
  · have hsame : integers (value :: rest) = integers rest := by simp [integers, hinteger]
    rw [hnone, hsame]
  · have hcons : integers (value :: rest) = n :: integers rest := by simp [integers, hinteger]
    have htotal := h.natAbs_sum
    have hlength := h.length_integers
    have hdifference : (n :: integers rest).sum - n = (integers rest).sum := by
      rw [List.sum_cons]
      omega
    rw [hcons] at htotal hlength ⊢
    rw [hsome, ← hdifference, ← Double.ofInt_sub htotal hn]
    simp only [List.length_cons]
    rw [oneLess_ofNat (by simpa using hlength)]

/-- Nothing has been summed when nothing has been counted. -/
theorem clearEmpty_eq {values : List Json} (h : Exact values) (shown : Json)
    (extra : List Double) :
    clearEmpty ⟨shown, .ofNat (integers values).length, .ofInt (integers values).sum, extra⟩ =
      ⟨shown, .ofNat (integers values).length, .ofInt (integers values).sum, extra⟩ := by
  unfold clearEmpty
  split
  · next hzero =>
    have hempty := List.length_eq_zero_iff.mp ((ofNat_eq_zero h.length_integers).mp hzero)
    rw [hempty, List.sum_nil, Double.ofInt_zero]
  · rfl

/-- A sum over exact values is their sum as integers. -/
theorem fold_sum {values : List Json} (h : Exact values) :
    sum.fold values = summed (integers values).sum (integers values).length := by
  induction values using List.reverseRecOn with
  | nil =>
    show sum.init = summed 0 0
    unfold summed
    rw [Double.ofInt_zero, Json.ofDouble_zero]
    rfl
  | append_singleton values value ih =>
    rw [fold_append, ih h.of_append]
    unfold summed
    show settleSum (accumulate _ value) = _
    rw [accumulate_eq h]
    simp only [settleSum]

theorem faithful_sum : Faithful sum where
  fold_perm h hperm := by
    rw [fold_sum h, fold_sum (h.perm hperm)]
    unfold integers
    rw [(hperm.filterMap integer?).sum_eq, (hperm.filterMap integer?).length_eq]
  remove_fold h := by
    rw [fold_sum h, fold_sum h.tail]
    unfold summed
    show settleSum (clearEmpty (exclude _ _)) = _
    rw [exclude_eq h, clearEmpty_eq h.tail]
    simp only [settleSum]

/-- The mean that a state with a sum and a count settles at. -/
theorem settleMean_eq {values : List Json} (h : Exact values) (shown : Json) :
    settleMean ⟨shown, .ofNat (integers values).length, .ofInt (integers values).sum, []⟩ =
      averaged (integers values).sum (integers values).length := by
  unfold settleMean averaged
  rw [clearEmpty_eq h]
  simp only [ofNat_eq_zero h.length_integers, UInt64.toNat_ofNat_of_lt' h.length_integers]

/-- A mean over exact values is the quotient of their sum and their number, rounded once. -/
theorem fold_avg {values : List Json} (h : Exact values) :
    avg.fold values = averaged (integers values).sum (integers values).length := by
  induction values using List.reverseRecOn with
  | nil =>
    show avg.init = averaged 0 0
    unfold averaged
    rw [Double.ofInt_zero]
    rfl
  | append_singleton values value ih =>
    rw [fold_append, ih h.of_append]
    show settleMean (accumulate (averaged _ _) value) = _
    unfold averaged
    rw [accumulate_eq h, settleMean_eq h]
    rfl

theorem faithful_avg : Faithful avg where
  fold_perm h hperm := by
    rw [fold_avg h, fold_avg (h.perm hperm)]
    unfold integers
    rw [(hperm.filterMap integer?).sum_eq, (hperm.filterMap integer?).length_eq]
  remove_fold h := by
    rw [fold_avg h, fold_avg h.tail]
    show settleMean (exclude (averaged _ _) _) = _
    unfold averaged
    rw [exclude_eq h, settleMean_eq h.tail]
    rfl

/-! ## Extrema -/

/-- In a list of less than two elements the boundary is found at once. -/
theorem boundary_of_short {α : Type} {p : α → Bool} (fuel : Nat) {front back : List α}
    (hshort : (front ++ back).length < 2) (hfront : ∀ x ∈ front, p x = true)
    (hback : ∀ x ∈ back, p x = false) : boundary p fuel (front ++ back) = front.length := by
  rw [List.length_append] at hshort
  rcases front with _ | ⟨x, front⟩
  · rcases back with _ | ⟨y, back⟩
    · simp [boundary]
    · obtain rfl : back = [] := List.length_eq_zero_iff.mp (by
        simp only [List.length_nil, List.length_cons] at hshort
        omega)
      simp [boundary, hback y]
  · have hlengths : front.length = 0 ∧ back.length = 0 := by
      simp only [List.length_cons] at hshort
      omega
    obtain rfl := List.length_eq_zero_iff.mp hlengths.1
    obtain rfl := List.length_eq_zero_iff.mp hlengths.2
    simp [boundary, hfront x]

/-- The element in the middle decides on which side of it the boundary lies. -/
theorem boundary_of_long {α : Type} {p : α → Bool} (fuel : Nat) {xs : List α}
    (hlong : 2 ≤ xs.length) :
    boundary p (fuel + 1) xs =
      if xs[xs.length / 2]?.any p then
        xs.length / 2 + boundary p fuel (xs.drop (xs.length / 2))
      else boundary p fuel (xs.take (xs.length - xs.length / 2)) := by
  rcases xs with _ | ⟨x, xs⟩
  · exact absurd hlong (by simp)
  · rcases xs with _ | ⟨y, rest⟩
    · exact absurd hlong (by simp)
    · rfl

/-- Halving finds where the elements with a property end, if these stand in front. -/
theorem boundary_eq {α : Type} {p : α → Bool} (fuel : Nat) :
    ∀ (front back : List α), (front ++ back).length ≤ fuel →
      (∀ x ∈ front, p x = true) → (∀ x ∈ back, p x = false) →
        boundary p fuel (front ++ back) = front.length := by
  induction fuel with
  | zero =>
    intro front back hlength hfront hback
    exact boundary_of_short 0 (by omega) hfront hback
  | succ fuel ih =>
    intro front back hlength hfront hback
    by_cases hshort : (front ++ back).length < 2
    · exact boundary_of_short _ hshort hfront hback
    rw [boundary_of_long fuel (Nat.not_lt.mp hshort)]
    generalize hhalf : (front ++ back).length / 2 = half
    have hinside : half < (front ++ back).length := by omega
    rw [List.getElem?_eq_getElem hinside, Option.any_some]
    by_cases hside : half < front.length
    · -- the middle is one of the front elements: go on behind it
      have hp : p (front ++ back)[half] = true := by
        rw [List.getElem_append_left hside]
        exact hfront _ (List.getElem_mem hside)
      rw [if_pos hp, List.drop_append_of_le_length (Nat.le_of_lt hside),
        ih (front.drop half) back ?_ (fun z hz => hfront z (List.mem_of_mem_drop hz)) hback,
        List.length_drop]
      · omega
      · rw [List.length_append, List.length_drop]
        rw [List.length_append] at hlength hhalf hinside hshort
        omega
    · -- the middle stands in the back: all of the front lies before it
      have hp : p (front ++ back)[half] = false := by
        rw [List.getElem_append_right (Nat.not_lt.mp hside)]
        exact hback _ (List.getElem_mem _)
      have hle : front.length ≤ (front ++ back).length - half := by
        rw [List.length_append] at hhalf hshort ⊢
        omega
      rw [if_neg (by simp [hp]), List.take_append, List.take_of_length_le hle,
        ih front _ ?_ hfront (fun z hz => hback z (List.mem_of_mem_take hz))]
      rw [List.length_append, List.length_take]
      rw [List.length_append] at hlength hhalf hshort ⊢
      omega

/-- A number is inserted behind those less than it, if these stand in front. -/
theorem insertNumber_append {front back : List Double} {n : Double}
    (hfront : ∀ x ∈ front, x.lt n = true) (hback : ∀ x ∈ back, x.lt n = false) :
    insertNumber (front ++ back) n = front ++ n :: back := by
  unfold insertNumber
  simp only [boundary_eq _ front back (Nat.le_refl _) hfront hback]
  rw [List.take_left, List.drop_left]

/-- In an ascending list, no element behind the first without a property has it, if it is one that
passes on to smaller elements. -/
theorem eq_false_of_mem_dropWhile {α : Type} {le : α → α → Prop} {p : α → Bool}
    (hp : ∀ {x y : α}, le x y → p y = true → p x = true) {xs : List α} (hsorted : xs.Pairwise le) :
    ∀ x ∈ xs.dropWhile p, p x = false := by
  induction hsorted with
  | nil => simp
  | @cons first rest hle _ ih =>
    rw [List.dropWhile_cons]
    split
    next => exact ih
    next hfirst =>
      intro x hx
      rcases List.mem_cons.mp hx with rfl | hrest
      · exact Bool.eq_false_iff.mpr hfirst
      · exact Bool.eq_false_iff.mpr fun hholds => hfirst (hp (hle x hrest) hholds)

theorem insertNumber_eq {ns : List Int} {n : Int} (hsorted : ns.Pairwise (· ≤ ·))
    (hn : n.natAbs ≤ 2 ^ 53) (hns : ∀ m ∈ ns, m.natAbs ≤ 2 ^ 53) :
    insertNumber (ns.map Double.ofInt) (.ofInt n) =
      (ns.orderedInsert (· ≤ ·) n).map Double.ofInt := by
  have hsame : (fun m => decide (m < n)) = fun m => decide (¬ n ≤ m) := by
    funext m
    simp
  have hfront : ∀ m ∈ ns.takeWhile (fun m => decide (m < n)), decide (m < n) = true := fun m hm =>
    List.mem_takeWhile_imp (p := fun m => decide (m < n)) hm
  have hback : ∀ m ∈ ns.dropWhile (fun m => decide (m < n)), decide (m < n) = false :=
    eq_false_of_mem_dropWhile (fun hle hlt => by simp only [decide_eq_true_eq] at *; omega) hsorted
  calc insertNumber (ns.map Double.ofInt) (.ofInt n)
      = insertNumber ((ns.takeWhile (fun m => decide (m < n))).map Double.ofInt ++
          (ns.dropWhile (fun m => decide (m < n))).map Double.ofInt) (.ofInt n) := by
        rw [← List.map_append, List.takeWhile_append_dropWhile]
    _ = (ns.takeWhile (fun m => decide (m < n))).map Double.ofInt ++
          .ofInt n :: (ns.dropWhile (fun m => decide (m < n))).map Double.ofInt := by
        refine insertNumber_append ?_ ?_
        · intro x hx
          obtain ⟨m, hm, rfl⟩ := List.mem_map.mp hx
          rw [Double.lt_ofInt (hns m ((List.takeWhile_sublist _).subset hm)) hn]
          exact hfront m hm
        · intro x hx
          obtain ⟨m, hm, rfl⟩ := List.mem_map.mp hx
          rw [Double.lt_ofInt (hns m ((List.dropWhile_sublist _).subset hm)) hn]
          exact hback m hm
    _ = (ns.orderedInsert (· ≤ ·) n).map Double.ofInt := by
        rw [List.orderedInsert_eq_take_drop, List.map_append, List.map_cons, hsame]

theorem removeNumber_eq {n : Int} (hn : n.natAbs ≤ 2 ^ 53) :
    ∀ {ns : List Int}, (∀ m ∈ ns, m.natAbs ≤ 2 ^ 53) →
      removeNumber (ns.map Double.ofInt) (.ofInt n) = (ns.erase n).map Double.ofInt
  | [], _ => rfl
  | m :: rest, hns => by
    have ih := removeNumber_eq hn fun k hk => hns k (List.mem_cons_of_mem m hk)
    unfold removeNumber at ih ⊢
    rw [List.map_cons, List.eraseP_cons, Double.same_ofInt (hns m List.mem_cons_self) hn,
      List.erase_cons]
    by_cases hsame : m = n
    · simp [hsame]
    · simp [hsame, ih]

/-- Integers in ascending order. -/
def ascending (ns : List Int) : List Int := ns.insertionSort (· ≤ ·)

theorem ascending_eq_of_perm {ns ms : List Int} (h : ns.Perm ms) : ascending ns = ascending ms :=
  ((List.perm_insertionSort _ ns).trans (h.trans (List.perm_insertionSort _ ms).symm)).eq_of_pairwise'
    (List.pairwise_insertionSort _ ns) (List.pairwise_insertionSort _ ms)

/-- An extremum of numbers. -/
def selected (pick : List Double → Option Double) (ns : List Int) : AggregateState :=
  { value := (pick ((ascending ns).map .ofInt)).elim .null .ofDouble
    count := .ofNat ns.length, values := (ascending ns).map .ofInt }

theorem fold_extremum {pick : List Double → Option Double} (hpick : pick [] = none)
    {values : List Json} (h : Exact values) :
    (extremum pick).fold values = selected pick (integers values) := by
  induction values using List.reverseRecOn with
  | nil =>
    show (extremum pick).init = selected pick []
    unfold selected
    rw [show (ascending []).map Double.ofInt = [] from rfl, hpick]
    rfl
  | append_singleton values value ih =>
    rw [fold_append, ih h.of_append]
    have hvalue := List.mem_append_right values (List.mem_singleton_self value)
    rcases h.reading hvalue with ⟨hnone, hinteger⟩ | ⟨n, hsome, hinteger, hn⟩
    · have hsame : integers (values ++ [value]) = integers values := by
        simp [integers, hinteger]
      rw [hsame]
      simp only [extremum, hnone]
      rfl
    · have happend : integers (values ++ [value]) = integers values ++ [n] := by
        simp [integers, hinteger]
      have hsorted : ascending (integers values ++ [n]) =
          (ascending (integers values)).orderedInsert (· ≤ ·) n :=
        ascending_eq_of_perm List.perm_append_comm
      have hbounds : ∀ m ∈ ascending (integers values), m.natAbs ≤ 2 ^ 53 := fun m hm =>
        h.of_append.natAbs_le ((List.mem_insertionSort _).mp hm)
      rw [happend]
      simp only [extremum, hsome, selected, hsorted]
      have hinsert := insertNumber_eq (List.pairwise_insertionSort _ (integers values)) hn hbounds
      unfold ascending
      rw [hinsert, oneMore_ofNat, List.length_append, List.length_singleton]

theorem faithful_extremum {pick : List Double → Option Double} (hpick : pick [] = none) :
    Faithful (extremum pick) where
  fold_perm h hperm := by
    rw [fold_extremum hpick h, fold_extremum hpick (h.perm hperm)]
    unfold selected integers
    rw [ascending_eq_of_perm (hperm.filterMap integer?), (hperm.filterMap integer?).length_eq]
  remove_fold {value rest} h := by
    rw [fold_extremum hpick h, fold_extremum hpick h.tail]
    rcases h.reading List.mem_cons_self with ⟨hnone, hinteger⟩ | ⟨n, hsome, hinteger, hn⟩
    · have hsame : integers (value :: rest) = integers rest := by simp [integers, hinteger]
      rw [hsame]
      simp only [extremum, hnone]
      rfl
    · have hcons : integers (value :: rest) = n :: integers rest := by simp [integers, hinteger]
      have hlength := h.length_integers
      have hbounds : ∀ m ∈ ascending (n :: integers rest), m.natAbs ≤ 2 ^ 53 := fun m hm =>
        h.natAbs_le (hcons ▸ (List.mem_insertionSort _).mp hm)
      have herase : (ascending (n :: integers rest)).erase n = ascending (integers rest) :=
        List.erase_orderedInsert ..
      rw [hcons] at hlength ⊢
      simp only [extremum, hsome, selected]
      rw [removeNumber_eq hn hbounds, herase, List.length_cons,
        oneLess_ofNat (by simpa using hlength)]

end AggregateKind

/-- Each built-in aggregate tells what has been folded. -/
theorem AggregateOp.faithful (op : AggregateOp) : op.kind.Faithful := by
  cases op with
  | sum => exact AggregateKind.faithful_sum
  | count => exact AggregateKind.faithful_counting _
  | avg => exact AggregateKind.faithful_avg
  | min => exact AggregateKind.faithful_extremum rfl
  | max => exact AggregateKind.faithful_extremum rfl
  | countBoolTrue => exact AggregateKind.faithful_counting _
  | countBoolFalse => exact AggregateKind.faithful_counting _

/-- Every aggregate of a descriptor has its built-in kind. -/
theorem AggregateKinds.get?_builtIn (op : AggregateOp) :
    AggregateKinds.builtIn.get? op = some op.kind := by
  cases op <;> rfl

end NestedRecord
