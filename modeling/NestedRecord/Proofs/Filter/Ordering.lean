import NestedRecord.Proofs.Filter.Existential
import NestedRecord.Proofs.Number.Order

/-!
# The order of values in filters

Filters compare integers of 64 signed bits exactly and all other numbers by the doubles next to
them. Rounding keeps order, so the operators agree with each other; but different numbers may have
the same double, and filters then take them for equal.

Two integers of 64 signed bits are compared as they are, any other pair by rounding both. Each of
the two ways alone is an order; that they fit together is what has to be shown, since one chain of
comparisons may use both. It does fit because rounding never exchanges two numbers: a comparison
after rounding is the exact one, or it says that the numbers are equal.

- `Number.order` is the order in which filters see two numbers, `Number.order_lt_trans` its
  transitivity.
- `Number.Discerned`: two numbers are seen in the order of their exact values.
- `FilterOperator.Coherent` says how operators belong together.
- `Filter.search_numbers`: what a compiled filter tells about exact values.
- `Filter.search_coherent`: the operators of compiled filters are coherent.
-/

namespace NestedRecord

open Fields (get?)

/-! ## Operators and orders -/

namespace FilterOperator

/-- Whether an operator holds between values that stand in an order. -/
def admits : FilterOperator → Ordering → Bool
  | .eq, order => order.isEq
  | .gt, order => order.isGT
  | .ge, order => order.isGE
  | .lt, order => order.isLT
  | .le, order => order.isLE
  | .like, _ => false

/-- What an operator says about exact values. -/
def Holds (operator : FilterOperator) (x y : ℚ) : Prop :=
  match operator with
  | .eq => x = y
  | .gt => x > y
  | .ge => x ≥ y
  | .lt => x < y
  | .le => x ≤ y
  | .like => False

/-- An operator admits the order of two numbers if it holds of them. -/
theorem admits_compare (operator : FilterOperator) (x y : ℚ) :
    operator.admits (compare x y) = true ↔ operator.Holds x y := by
  cases operator with
  | eq => exact Ordering.isEq_iff_eq_eq.trans compare_eq_iff_eq
  | gt => exact Ordering.isGT_iff_eq_gt.trans compare_gt_iff_gt
  | ge => exact Std.LawfulLECmp.isGE_iff_ge
  | lt => exact Ordering.isLT_iff_eq_lt.trans compare_lt_iff_lt
  | le => exact Std.LawfulLECmp.isLE_iff_le
  | like => simp [admits, Holds]

end FilterOperator

/-! ## The order of numbers -/

/-- Pairs that are less alike compare alike. -/
theorem compare_eq_compare {α β : Type} [LinearOrder α] [LinearOrder β] {a b : α} {c d : β}
    (hlt : a < b ↔ c < d) (hgt : b < a ↔ d < c) : compare a b = compare c d := by
  rcases lt_trichotomy a b with h | h | h
  · rw [compare_lt_iff_lt.mpr h, compare_lt_iff_lt.mpr (hlt.mp h)]
  · have hcd : c = d := by
      subst h
      exact le_antisymm (not_lt.mp fun h => lt_irrefl a (hgt.mpr h))
        (not_lt.mp fun h => lt_irrefl a (hlt.mpr h))
    rw [compare_eq_iff_eq.mpr h, compare_eq_iff_eq.mpr hcd]
  · rw [compare_gt_iff_gt.mpr h, compare_gt_iff_gt.mpr (hgt.mp h)]

namespace Number

/-- The order in which filters see two numbers. -/
def order (m n : Number) : Ordering :=
  if m.int64?.isSome && n.int64?.isSome then compare m.units n.units
  else compare m.nearest n.nearest

theorem compare_value (m n : Number) : compare m.value n.value = compare m.units n.units :=
  compare_eq_compare value_lt value_lt

/-- An integer of 64 signed bits stands for itself. -/
theorem value_of_int64? {n : Number} {i : Int} (h : n.int64? = some i) : n.value = i := by
  cases n with
  | real x => cases h
  | whole n =>
    simp only [int64?] at h
    split at h
    · cases h
      rfl
    · cases h

/-- The comparison of numbers always has an answer. -/
theorem compare?_eq_order (m n : Number) : m.compare? n = some (m.order n) := by
  unfold compare? order
  cases hm : m.int64? with
  | none => exact compare?_toDouble m n
  | some i =>
    cases hn : n.int64? with
    | none => exact compare?_toDouble m n
    | some j =>
      have hvalue : compare i j = compare m.value n.value := by
        rw [value_of_int64? hm, value_of_int64? hn]
        exact compare_eq_compare Int.cast_lt.symm Int.cast_lt.symm
      simp only [Option.isSome_some, Bool.and_self, if_true, hvalue, compare_value]

variable {m n p : Number}

theorem order_swap (m n : Number) : (m.order n).swap = n.order m := by
  unfold order
  rw [Bool.and_comm]
  split <;> exact Std.OrientedCmp.eq_swap.symm

/-- A number below another one is less, also after rounding if they are rounded. -/
theorem order_eq_lt :
    m.order n = .lt ↔ m.units < n.units ∧
      ((m.int64?.isSome ∧ n.int64?.isSome) ∨ m.nearest < n.nearest) := by
  unfold order
  split
  · next hboth =>
    rw [Bool.and_eq_true] at hboth
    rw [compare_lt_iff_lt]
    exact ⟨fun h => ⟨h, .inl hboth⟩, And.left⟩
  · next hboth =>
    rw [Bool.and_eq_true] at hboth
    rw [compare_lt_iff_lt]
    exact ⟨fun h => ⟨units_lt_of_nearest_lt h, .inr h⟩, fun h => h.2.resolve_left hboth⟩

/-- Less than is transitive, also where some of the numbers are rounded and some are not. -/
theorem order_lt_trans (hmn : m.order n = .lt) (hnp : n.order p = .lt) : m.order p = .lt := by
  rw [order_eq_lt] at hmn hnp ⊢
  obtain ⟨hunits, hmn⟩ := hmn
  obtain ⟨hunits', hnp⟩ := hnp
  refine ⟨hunits.trans hunits', ?_⟩
  -- rounding alone never puts numbers in the wrong order, so one step that rounds is enough
  have hbelow : m.nearest ≤ n.nearest := nearest_mono (Int.le_of_lt hunits)
  have habove : n.nearest ≤ p.nearest := nearest_mono (Int.le_of_lt hunits')
  rcases hmn with ⟨hm, -⟩ | hless
  · rcases hnp with ⟨-, hp⟩ | hless
    · exact .inl ⟨hm, hp⟩
    · exact .inr (Int.lt_of_le_of_lt hbelow hless)
  · exact .inr (Int.lt_of_lt_of_le hless habove)

/-- Filters see the exact order of two numbers: both are integers of 64 signed bits, or they have
different doubles unless they are equal. -/
def Discerned (m n : Number) : Prop :=
  (m.int64?.isSome ∧ n.int64?.isSome) ∨ (m.nearest = n.nearest → m.value = n.value)

theorem nearest_lt_iff (h : m.nearest = n.nearest → m.units = n.units) :
    m.nearest < n.nearest ↔ m.units < n.units := by
  refine ⟨units_lt_of_nearest_lt, fun hunits => Int.lt_iff_le_and_ne.mpr ⟨?_, ?_⟩⟩
  · exact nearest_mono (Int.le_of_lt hunits)
  · exact fun hsame => Int.ne_of_lt hunits (h hsame)

/-- Numbers that are told apart are seen as their values are. -/
theorem order_eq_compare_value : m.order n = compare m.value n.value ↔ m.Discerned n := by
  unfold order Discerned
  rw [compare_value, value_inj]
  split
  · next hboth => exact iff_of_true rfl (.inl (Bool.and_eq_true_iff.mp hboth))
  · next hboth =>
    rw [Bool.and_eq_true] at hboth
    rw [or_iff_right hboth]
    constructor
    · intro h hsame
      rw [compare_eq_iff_eq.mpr hsame] at h
      exact compare_eq_iff_eq.mp h.symm
    · intro h
      exact compare_eq_compare (nearest_lt_iff h)
        (nearest_lt_iff fun hsame => (h hsame.symm).symm)

/-- A number of less than 53 bits is discerned from all others. -/
theorem discerned_of_lt (hn : n.IsDouble) (h : n.units.natAbs < 2 ^ 53 * unitsPerOne) :
    m.Discerned n := by
  refine .inr fun hsame => value_inj.mpr ?_
  have hdouble : m.IsDouble := by
    cases m with
    | real x => exact isDouble_real x
    | whole k =>
      by_contra hnot
      have hbeyond : 2 ^ 53 ≤ k.val.natAbs := by
        by_contra hless
        exact hnot (isDouble_whole (by omega))
      have hle := le_natAbs_nearest hbeyond
      rw [hsame, hn] at hle
      omega
  exact hdouble.symm.trans (hsame.trans hn)

/-- Rounding may make numbers equal, but never exchanges them. -/
theorem order_eq_or (m n : Number) : m.order n = compare m.value n.value ∨ m.order n = .eq := by
  by_cases h : m.Discerned n
  · exact .inl (order_eq_compare_value.mpr h)
  · obtain ⟨hboth, hsame⟩ := not_or.mp h
    refine .inr ?_
    rw [order, if_neg (by rwa [Bool.and_eq_true])]
    exact compare_eq_iff_eq.mpr (Classical.not_imp.mp hsame).1

end Number

namespace FilterOperator

variable {operator : FilterOperator} {m n : Number}

theorem holds_of_admits (hstrict : operator = .lt ∨ operator = .gt)
    (h : operator.admits (m.order n) = true) : operator.Holds m.value n.value := by
  rw [← admits_compare]
  rcases m.order_eq_or n with horder | horder <;> rw [horder] at h
  · exact h
  · rcases hstrict with rfl | rfl <;> cases h

theorem admits_of_holds (hlike : operator ≠ .like) (hloose : ¬ (operator = .lt ∨ operator = .gt))
    (h : operator.Holds m.value n.value) : operator.admits (m.order n) = true := by
  rw [← admits_compare] at h
  rcases m.order_eq_or n with horder | horder <;> rw [horder]
  · exact h
  · cases operator <;> first | rfl | exact absurd rfl hlike | exact absurd (by simp) hloose

theorem eq_iff_admits {a b : Ordering} :
    a = b ↔ ∀ operator : FilterOperator, operator ≠ .like →
      (operator.admits a = true ↔ operator.admits b = true) := by
  constructor
  · rintro rfl operator -
    exact Iff.rfl
  · intro h
    have hlt := h .lt (by decide)
    have heq := h .eq (by decide)
    revert hlt heq
    cases a <;> cases b <;> decide

end FilterOperator

/-! ## The order of values -/

/-- Two numbers, or two texts. -/
inductive Json.Comparable : Json → Json → Prop where
  | numbers (m n : Number) : Comparable (.number m) (.number n)
  | texts (s t : String) : Comparable (.string s) (.string t)

namespace Json.Comparable

variable {a b c : Json}

theorem symm : a.Comparable b → b.Comparable a
  | .numbers m n => .numbers n m
  | .texts s t => .texts t s

theorem trans : a.Comparable b → b.Comparable c → a.Comparable c
  | .numbers m _, .numbers _ p => .numbers m p
  | .texts s _, .texts _ u => .texts s u

end Json.Comparable

theorem order?_number (m n : Number) : order? (.number m) (.number n) = some (m.order n) :=
  Number.compare?_eq_order m n

/-- Values have an order if they are two numbers, two texts or two truth values. -/
theorem order?_isSome_iff {a b : Json} : (order? a b).isSome = true ↔ a.Comparable b := by
  constructor
  · intro h
    cases a <;> cases b <;> first | exact .numbers _ _ | exact .texts _ _ | cases h
  · rintro (⟨m, n⟩ | ⟨s, t⟩)
    · rw [order?_number]
      rfl
    · rfl

/-- The order of two values is mirrored with them. -/
theorem order?_swap {a b : Json} {order : Ordering} (h : order? a b = some order) :
    order? b a = some order.swap := by
  obtain ⟨m, n⟩ | ⟨s, t⟩ := order?_isSome_iff.mp (Option.isSome_of_eq_some h)
  · rw [order?_number] at h ⊢
    cases h
    rw [Number.order_swap]
  · cases h
    exact congrArg some Std.OrientedCmp.eq_swap

/-- Less than is transitive among values. -/
theorem order?_lt_trans {a b c : Json} (hab : order? a b = some .lt) (hbc : order? b c = some .lt) :
    order? a c = some .lt := by
  obtain ⟨m, n⟩ | ⟨s, t⟩ := order?_isSome_iff.mp (Option.isSome_of_eq_some hab)
  · cases c with
    | number p =>
      rw [order?_number] at hab hbc ⊢
      exact congrArg some (Number.order_lt_trans (Option.some.inj hab) (Option.some.inj hbc))
    | _ => cases hbc
  · cases c with
    | string u =>
      exact congrArg some (Std.TransCmp.lt_trans (Option.some.inj hab) (Option.some.inj hbc))
    | _ => cases hbc

namespace FilterOperator

variable {operator : FilterOperator} {a b : Json}

/-- Values in an order are related by the operators that admit it. -/
theorem relates_of_order? {order : Ordering} (h : order? a b = some order) :
    operator.relates a b = operator.admits order := by
  cases operator with
  | eq =>
    obtain ⟨m, n⟩ | ⟨s, t⟩ := order?_isSome_iff.mp (Option.isSome_of_eq_some h)
    · rw [order?] at h
      rw [relates, equals, h]
      cases order <;> rfl
    · cases h
      show Json.same (.string s) (.string t) = _
      rw [Json.same, admits, Bool.eq_iff_iff, beq_iff_eq, Ordering.isEq_iff_eq_eq,
        Std.LawfulEqCmp.compare_eq_iff_eq]
  | like => rfl
  | _ =>
    rw [relates, h]
    rfl

/-- The operators that ask for an order. -/
def IsOrdering : FilterOperator → Prop
  | .gt | .ge | .lt | .le => True
  | .eq | .like => False

/-- Values of different kinds are in no order. -/
theorem relates_of_not_comparable (hoperator : operator.IsOrdering) (h : ¬ a.Comparable b) :
    operator.relates a b = false := by
  have hnone : order? a b = none := by
    rw [← Option.not_isSome_iff_eq_none, order?_isSome_iff]
    exact h
  cases operator with
  | eq | like => cases hoperator
  | _ =>
    rw [relates, hnone]
    rfl

section Test

variable {μ : Type} {like : PatternTest μ} {matcher : μ}

/-- Only ILIKE asks the matcher. -/
theorem testAny_of_not_array (hoperator : operator ≠ .like) (hlist : ∀ list, b ≠ .array list) :
    (operator.testAny like matcher a b).1 = true ↔
      a ≠ .null ∧ operator.relates a b = true := by
  have hnever : operator = .like → ∀ matcher text pattern,
      (like matcher text pattern).1 = false := fun h => absurd h hoperator
  rw [testAny_fst hnever]
  cases b with
  | array list => exact absurd rfl (hlist list)
  | _ => cases a <;> cases operator <;> simp_all [passes, compares]

theorem testAny_of_order? (hoperator : operator ≠ .like) {order : Ordering}
    (h : order? a b = some order) :
    (operator.testAny like matcher a b).1 = true ↔ operator.admits order = true := by
  have hcomparable := order?_isSome_iff.mp (Option.isSome_of_eq_some h)
  rw [testAny_of_not_array hoperator (by rintro list rfl; cases hcomparable),
    relates_of_order? h]
  exact and_iff_right (by rintro rfl; cases hcomparable)

/-- Only numbers compare with a number. -/
theorem testAny_number (hoperator : operator ≠ .like) {found : Json} {n : Number} :
    (operator.testAny like matcher found (.number n)).1 = true ↔
      ∃ m, found = .number m ∧ operator.admits (m.order n) = true := by
  rw [testAny_of_not_array hoperator (by rintro list ⟨⟩)]
  cases found with
  | number m =>
    rw [relates_of_order? (order?_number m n)]
    simp
  | _ => cases operator <;> simp [relates, equals, order?, Json.same]

end Test

/-- Operators belong together: of two numbers or two texts one is less or they are equal, what the
operators say about them follows from that, and no other values are in order. -/
structure Coherent (holds : FilterOperator → Json → Json → Prop) : Prop where
  one : ∀ {a b : Json}, a.Comparable b →
    (holds .lt a b ∧ ¬ holds .eq a b ∧ ¬ holds .gt a b) ∨
      (¬ holds .lt a b ∧ holds .eq a b ∧ ¬ holds .gt a b) ∨
        (¬ holds .lt a b ∧ ¬ holds .eq a b ∧ holds .gt a b)
  ge_iff : ∀ {a b : Json}, a.Comparable b → (holds .ge a b ↔ holds .gt a b ∨ holds .eq a b)
  le_iff : ∀ {a b : Json}, a.Comparable b → (holds .le a b ↔ holds .lt a b ∨ holds .eq a b)
  gt_iff : ∀ {a b : Json}, a.Comparable b → (holds .gt a b ↔ holds .lt b a)
  lt_trans : ∀ {a b c : Json}, a.Comparable b → b.Comparable c →
    holds .lt a b → holds .lt b c → holds .lt a c
  gt_trans : ∀ {a b c : Json}, a.Comparable b → b.Comparable c →
    holds .gt a b → holds .gt b c → holds .gt a c
  unordered : ∀ {operator : FilterOperator} {a b : Json}, operator.IsOrdering →
    ¬ a.Comparable b → (∀ list, b ≠ .array list) → ¬ holds operator a b

/-- What holds by an order that is mirrored by its arguments and transitive is coherent. -/
theorem Coherent.of_order {holds : FilterOperator → Json → Json → Prop}
    (horder : ∀ {operator : FilterOperator} {a b : Json} {order : Ordering}, operator ≠ .like →
      order? a b = some order → (holds operator a b ↔ operator.admits order = true))
    (hunordered : ∀ {operator : FilterOperator} {a b : Json}, operator.IsOrdering →
      ¬ a.Comparable b → (∀ list, b ≠ .array list) → ¬ holds operator a b) :
    Coherent holds := by
  -- comparable values have an order, and each operator is decided by it
  have hcase : ∀ {a b : Json}, a.Comparable b → ∃ order, order? a b = some order ∧
      ∀ operator, operator ≠ .like → (holds operator a b ↔ operator.admits order = true) := by
    intro a b h
    obtain ⟨order, hab⟩ := Option.isSome_iff_exists.mp (order?_isSome_iff.mpr h)
    exact ⟨order, hab, fun operator hlike => horder hlike hab⟩
  have hlt : ∀ {a b : Json}, a.Comparable b → (holds .lt a b ↔ order? a b = some .lt) := by
    intro a b h
    obtain ⟨order, hab, hholds⟩ := hcase h
    rw [hholds .lt (by decide), hab]
    cases order <;> simp [admits]
  have hgt : ∀ {a b : Json}, a.Comparable b → (holds .gt a b ↔ order? b a = some .lt) := by
    intro a b h
    obtain ⟨order, hab, hholds⟩ := hcase h
    rw [hholds .gt (by decide), order?_swap hab]
    cases order <;> simp [admits]
  constructor
  case one =>
    intro a b h
    obtain ⟨order, -, hholds⟩ := hcase h
    rw [hholds .lt (by decide), hholds .eq (by decide), hholds .gt (by decide)]
    cases order <;> decide
  case ge_iff =>
    intro a b h
    obtain ⟨order, -, hholds⟩ := hcase h
    rw [hholds .ge (by decide), hholds .gt (by decide), hholds .eq (by decide)]
    cases order <;> decide
  case le_iff =>
    intro a b h
    obtain ⟨order, -, hholds⟩ := hcase h
    rw [hholds .le (by decide), hholds .lt (by decide), hholds .eq (by decide)]
    cases order <;> decide
  case gt_iff =>
    intro a b h
    rw [hgt h, hlt h.symm]
  case lt_trans =>
    intro a b c hab hbc hlow hhigh
    rw [hlt hab] at hlow
    rw [hlt hbc] at hhigh
    exact (hlt (hab.trans hbc)).mpr (order?_lt_trans hlow hhigh)
  case gt_trans =>
    intro a b c hab hbc hhigh hlow
    rw [hgt hab] at hhigh
    rw [hgt hbc] at hlow
    exact (hgt (hab.trans hbc)).mpr (order?_lt_trans hlow hhigh)
  case unordered => exact hunordered

end FilterOperator

/-! ## Compiled filters -/

namespace Filter

variable {μ : Type}

/-- A filter other than ILIKE passes exactly if it does for some value at its path. -/
theorem search_eq_true_iff {blueprint : Blueprint} {store rootName : String}
    {descriptor : Descriptor} {declaration : FilterDeclaration} {filter : Filter}
    (hflatten : (flatten store rootName descriptor).1 = .ok blueprint.flattened)
    (hcompile : compile blueprint declaration = .ok filter)
    (happlied : declaration.applied ≠ .like) (like : PatternTest μ) (matcher : μ)
    (record expected : Json) :
    (filter.search like matcher record expected).1 = true ↔
      ∃ found, blueprint.flattened.Finds declaration.localAttribute record found ∧
        (declaration.applied.testAny like matcher found expected).1 = true := by
  obtain ⟨resolved, hresolve, -, hoperator, hevents⟩ := exists_events_of_compile hcompile
  have hlevels := Blueprint.levelsDeclared_of_flatten hflatten
  have hnever : filter.operator = .like → ∀ matcher text pattern,
      (like matcher text pattern).1 = false := fun h => absurd (hoperator.symm.trans h) happlied
  have hsearch : (filter.search like matcher record expected).1 =
      (filter.program.events record).any
        (passesAt filter.operator (fun _ _ => false) record expected) := by
    rw [search_eq, Program.run_eq_performUntil _ (fun _ _ _ => rfl), found_performUntil hnever]
    rfl
  have htest : ∀ found, (declaration.applied.testAny like matcher found expected).1 =
      filter.operator.passes (fun _ _ => false) found expected := by
    intro found
    rw [← hoperator, FilterOperator.testAny_fst hnever]
  simp only [hsearch, hevents, List.any_map, List.any_eq_true, htest,
    Blueprint.finds_iff hlevels hresolve, Function.comp, passesAt, Option.any_eq_true]
  constructor
  · rintro ⟨cursor, hcursor, found, hfound, hpasses⟩
    exact ⟨found, ⟨cursor, hcursor, hfound⟩, hpasses⟩
  · rintro ⟨found, ⟨cursor, hcursor, hfound⟩, hpasses⟩
    exact ⟨cursor, hcursor, found, hfound, hpasses⟩

/-- A compiled filter compares the exact values of numbers where it discerns them. Also where it
does not, a smaller or greater number is never seen where there is none, and an equal one is never
missed; but then some operator is wrong. -/
theorem search_numbers {blueprint : Blueprint} {store rootName : String}
    {descriptor : Descriptor} {declaration : FilterDeclaration} {filter : Filter}
    (hflatten : (flatten store rootName descriptor).1 = .ok blueprint.flattened)
    (hcompile : compile blueprint declaration = .ok filter)
    (happlied : declaration.applied ≠ .like) (like : PatternTest μ) (matcher : μ)
    (record : Json) (n : Number) :
    ((∀ m, blueprint.flattened.Finds declaration.localAttribute record (.number m) →
        m.Discerned n) →
      ((filter.search like matcher record (.number n)).1 = true ↔
        ∃ m, blueprint.flattened.Finds declaration.localAttribute record (.number m) ∧
          declaration.applied.Holds m.value n.value)) ∧
    ((declaration.applied = .lt ∨ declaration.applied = .gt) →
      (filter.search like matcher record (.number n)).1 = true →
        ∃ m, blueprint.flattened.Finds declaration.localAttribute record (.number m) ∧
          declaration.applied.Holds m.value n.value) ∧
    (¬ (declaration.applied = .lt ∨ declaration.applied = .gt) →
      (∃ m, blueprint.flattened.Finds declaration.localAttribute record (.number m) ∧
        declaration.applied.Holds m.value n.value) →
          (filter.search like matcher record (.number n)).1 = true) ∧
    ∀ m : Number, m.Discerned n ↔ ∀ operator : FilterOperator, operator ≠ .like →
      ((operator.testAny like matcher (.number m) (.number n)).1 = true ↔
        operator.Holds m.value n.value) := by
  have hsearch : (filter.search like matcher record (.number n)).1 = true ↔
      ∃ m, blueprint.flattened.Finds declaration.localAttribute record (.number m) ∧
        declaration.applied.admits (m.order n) = true := by
    rw [search_eq_true_iff hflatten hcompile happlied]
    simp only [FilterOperator.testAny_number happlied]
    constructor
    · rintro ⟨_, hfinds, m, rfl, hadmits⟩
      exact ⟨m, hfinds, hadmits⟩
    · rintro ⟨m, hfinds, hadmits⟩
      exact ⟨_, hfinds, m, rfl, hadmits⟩
  refine ⟨fun hdiscerned => ?_, fun hstrict h => ?_, fun hloose h => ?_, fun m => ?_⟩
  · rw [hsearch]
    refine exists_congr fun m => and_congr_right fun hfinds => ?_
    rw [Number.order_eq_compare_value.mpr (hdiscerned m hfinds), FilterOperator.admits_compare]
  · obtain ⟨m, hfinds, hadmits⟩ := hsearch.mp h
    exact ⟨m, hfinds, FilterOperator.holds_of_admits hstrict hadmits⟩
  · obtain ⟨m, hfinds, hholds⟩ := h
    exact hsearch.mpr ⟨m, hfinds, FilterOperator.admits_of_holds happlied hloose hholds⟩
  · -- an order is known once every operator is
    rw [← Number.order_eq_compare_value, FilterOperator.eq_iff_admits]
    refine forall_congr' fun operator => forall_congr' fun hoperator => ?_
    rw [FilterOperator.testAny_of_order? hoperator (order?_number m n),
      FilterOperator.admits_compare]

/-! ### Readings of meters -/

/-- Meters with a reading and a label. -/
def metered : Descriptor :=
  .mk [("id", .tuple [.word "int", .word "<<id>>"]),
    ("reading", .tuple [.word "number"]),
    ("label", .tuple [.word "string"])]

/-- The store of these meters. -/
def meters : Store := Store.compiled "meters" metered (by decide +kernel)

theorem meters_flattened : ∃ name rootName descriptor,
    (flatten name rootName descriptor).1 = .ok meters.blueprint.flattened :=
  (Store.isCompiled_compiled "meters" metered (by decide +kernel)).exists_flatten.1

/-- The filter that compares readings with an operator. -/
def byReading (operator : FilterOperator) : FilterDeclaration :=
  { source := "limits", sourceAttribute := "value", localAttribute := "reading", operator }

/-- A meter with a reading. -/
def meter (reading : Number) : Json := .object [("reading", .number reading)]

/-- The double `2⁵³`, which is no whole number here. -/
def bound : Number := .real ⟨false, 2 ^ 53 * unitsPerOne, representable_mul_unitsPerOne (by decide)⟩

theorem eq_of_finds_meter {flattened : Flattened} {path : String} {reading m : Number}
    (h : flattened.Finds path (meter reading) (.number m)) : m = reading := by
  obtain ⟨-, location, -, -, hlocate⟩ := h
  rcases location with - | ⟨key | index, rest⟩
  · cases hlocate
  · obtain ⟨child, hchild, hrest⟩ := Option.bind_eq_some_iff.mp hlocate
    simp only [meter, Json.child?, get?] at hchild
    split at hchild
    · cases hchild
      cases rest with
      | nil => cases hrest; rfl
      | cons step rest => cases hrest
    · cases hchild
  · cases hlocate

/-- A reading of `2 ^ 53` is greater than `7`, and seen so. -/
theorem search_numbers_meters : ∃ filter, compile meters.blueprint (byReading .gt) = .ok filter ∧
    (∀ m, meters.blueprint.flattened.Finds "reading" (meter bound) (.number m) →
      m.Discerned (.whole (.ofNat 7))) ∧
    (filter.test {} (meter bound) (.number (.whole (.ofNat 7)))).1 = true ∧
    ∃ m, meters.blueprint.flattened.Finds "reading" (meter bound) (.number m) ∧
      FilterOperator.gt.Holds m.value (Number.whole (.ofNat 7)).value := by
  have hruns : (compile meters.blueprint (byReading .gt)).toOption.map (fun filter =>
      (filter.test {} (meter bound) (.number (.whole (.ofNat 7)))).1) = some true := by
    decide +kernel
  obtain ⟨filter, hfilter, hyes⟩ := Option.map_eq_some_iff.mp hruns
  have hcompile := Except.eq_ok_of_toOption hfilter
  obtain ⟨name, rootName, descriptor, hflatten⟩ := meters_flattened
  have hdiscerned : ∀ m : Number, m.Discerned (.whole (.ofNat 7)) := fun m =>
    Number.discerned_of_lt (Number.isDouble_whole (by decide)) (by decide +kernel)
  have hsearch := (search_numbers hflatten hcompile (by decide) LikeMatcher.test {}
    (meter bound) (.whole (.ofNat 7))).1 fun m _ => hdiscerned m
  exact ⟨filter, hcompile, fun m _ => hdiscerned m, hyes, hsearch.mp hyes⟩

/-- Doubles have no room for all integers of 64 bits: unequal readings pass for equal, and what is
equal to the same double need not be equal. -/
theorem not_search_numbers : ∃ filter, compile meters.blueprint (byReading .eq) = .ok filter ∧
    (filter.test {} (meter (.whole (.ofNat 18446744073709551615)))
      (.number (.whole (.ofNat 18446744073709551614)))).1 = true ∧
    (¬ ∃ m, meters.blueprint.flattened.Finds "reading"
        (meter (.whole (.ofNat 18446744073709551615))) (.number m) ∧
      FilterOperator.eq.Holds m.value (Number.whole (.ofNat 18446744073709551614)).value) ∧
    (filter.test {} (meter (.whole (.ofNat 9007199254740992))) (.number bound)).1 = true ∧
    (filter.test {} (meter bound) (.number (.whole (.ofNat 9007199254740993)))).1 = true ∧
    (filter.test {} (meter (.whole (.ofNat 9007199254740992)))
      (.number (.whole (.ofNat 9007199254740993)))).1 = false := by
  -- all four filters are run in one evaluation
  have hruns : (compile meters.blueprint (byReading .eq)).toOption.map (fun filter =>
      ((filter.test {} (meter (.whole (.ofNat 18446744073709551615)))
          (.number (.whole (.ofNat 18446744073709551614)))).1,
        (filter.test {} (meter (.whole (.ofNat 9007199254740992))) (.number bound)).1,
        (filter.test {} (meter bound) (.number (.whole (.ofNat 9007199254740993)))).1,
        (filter.test {} (meter (.whole (.ofNat 9007199254740992)))
          (.number (.whole (.ofNat 9007199254740993)))).1)) =
      some (true, true, true, false) := by
    decide +kernel
  obtain ⟨filter, hfilter, hanswers⟩ := Option.map_eq_some_iff.mp hruns
  obtain ⟨hfirst, hrest⟩ := Prod.mk.inj hanswers
  obtain ⟨hsecond, hrest⟩ := Prod.mk.inj hrest
  obtain ⟨hthird, hfourth⟩ := Prod.mk.inj hrest
  refine ⟨filter, Except.eq_ok_of_toOption hfilter, hfirst, ?_, hsecond, hthird, hfourth⟩
  rintro ⟨m, hfinds, hsame⟩
  cases eq_of_finds_meter hfinds
  exact absurd (Number.value_inj.mp hsame) (by decide +kernel)

/-- The operators of compiled filters belong together: a filter other than ILIKE passes if its
operator holds for some value at its path, and these operators are coherent. -/
theorem search_coherent {blueprint : Blueprint} {store rootName : String}
    {descriptor : Descriptor} {declaration : FilterDeclaration} {filter : Filter}
    (hflatten : (flatten store rootName descriptor).1 = .ok blueprint.flattened)
    (hcompile : compile blueprint declaration = .ok filter)
    (happlied : declaration.applied ≠ .like) (like : PatternTest μ) (matcher : μ)
    (record expected : Json) :
    ((filter.search like matcher record expected).1 = true ↔
      ∃ found, blueprint.flattened.Finds declaration.localAttribute record found ∧
        (declaration.applied.testAny like matcher found expected).1 = true) ∧
    FilterOperator.Coherent fun operator actual expected =>
      (operator.testAny like matcher actual expected).1 = true := by
  refine ⟨search_eq_true_iff hflatten hcompile happlied like matcher record expected, ?_⟩
  refine .of_order (fun hlike horder => FilterOperator.testAny_of_order? hlike horder) ?_
  intro operator a b hordering hcomparable hlist hholds
  have hlike : operator ≠ .like := by
    rintro rfl
    cases hordering
  have hrelates := ((FilterOperator.testAny_of_not_array hlike hlist).mp hholds).2
  rw [FilterOperator.relates_of_not_comparable hordering hcomparable] at hrelates
  cases hrelates

/-- Integers are told apart where doubles are not, and a text is not greater than a number. -/
theorem search_coherent_meters :
    ∃ filter, compile meters.blueprint (byReading .lt) = .ok filter ∧
      (byReading .lt).applied ≠ .like ∧
      (∃ found, meters.blueprint.flattened.Finds "reading"
          (meter (.whole (.ofNat 9007199254740992))) found ∧
        (FilterOperator.lt.testAny LikeMatcher.test {} found
          (.number (.whole (.ofNat 9007199254740993)))).1 = true) ∧
      ¬ (FilterOperator.gt.testAny LikeMatcher.test {} (.string "low")
        (.number bound)).1 = true := by
  have hruns : (compile meters.blueprint (byReading .lt)).toOption.map (fun filter =>
      (filter.test {} (meter (.whole (.ofNat 9007199254740992)))
        (.number (.whole (.ofNat 9007199254740993)))).1) = some true := by
    decide +kernel
  obtain ⟨filter, hfilter, hyes⟩ := Option.map_eq_some_iff.mp hruns
  have hcompile := Except.eq_ok_of_toOption hfilter
  obtain ⟨name, rootName, descriptor, hflatten⟩ := meters_flattened
  have hsearch := search_coherent hflatten hcompile (by decide) LikeMatcher.test {}
    (meter (.whole (.ofNat 9007199254740992))) (.number (.whole (.ofNat 9007199254740993)))
  refine ⟨filter, hcompile, by decide, hsearch.1.mp hyes, hsearch.2.unordered trivial ?_ ?_⟩
  · rintro ⟨⟩
  · rintro list ⟨⟩

end Filter

end NestedRecord
