import Mathlib.Data.List.Perm.Basic
import NestedRecord.Proofs.Graph.Metadata
import NestedRecord.Proofs.Json.Write

/-!
# Equal up to the order of members

Members are kept in the order in which they have been added. Values that hold the same members in
another order are alike: no location tells them apart.

* `Json.Alike` compares values place by place.
* `Alike.same`: alike values are equal, if no object in them repeats a key.

Alikeness is what is wanted when two ways to write a record are compared, since it says nothing
about order; and it is shown by reading, where equality would need a common order of writing. That
it implies equality is an induction on the size of the values, because a location goes into one
member at a time.
-/

namespace NestedRecord

namespace Json

/-- Values that differ in the order of members at most: at every place the same value, a list of the
same size, or an object. -/
def Alike (a b : Json) : Prop :=
  ∀ place, (b.locate? place).map Json.outline = (a.locate? place).map Json.outline

/-- No object inside repeats a key. -/
def KeysDiffer (value : Json) : Prop :=
  ∀ place members, value.locate? place = some (.object members) → (Fields.keys members).Nodup

variable {a b x : Json}

theorem locate?_step {step : Step} (hx : a.child? step = some x) (place : Location) :
    a.locate? (step :: place) = x.locate? place := by
  rw [locate?, hx]
  rfl

theorem locate?_key (a : Json) (key : String) : a.locate? [.key key] = a.get? key := by
  rw [locate?, child?_key]
  cases a.get? key <;> rfl

theorem KeysDiffer.child (h : a.KeysDiffer) (step : Step) (hx : a.child? step = some x) :
    x.KeysDiffer :=
  fun place members hplace => h (step :: place) members ((locate?_step hx place).trans hplace)

theorem Alike.symm (h : a.Alike b) : b.Alike a := fun place => (h place).symm

/-- The parts of alike values are alike. -/
theorem Alike.exists_child (h : a.Alike b) (step : Step) (hx : a.child? step = some x) :
    ∃ y, b.child? step = some y ∧ x.Alike y := by
  cases hy : b.child? step with
  | none =>
    have hstep := h [step]
    simp [locate?, hx, hy] at hstep
  | some y =>
    refine ⟨y, rfl, fun place => ?_⟩
    rw [← locate?_step hx, ← locate?_step hy]
    exact h (step :: place)

/-- Lists of one length are equal if their items are, position by position. -/
theorem sameItems_of_forall : ∀ {xs ys : List Json}, xs.length = ys.length →
    (∀ (index : Nat) (x y : Json), xs[index]? = some x → ys[index]? = some y → x.same y) →
      sameItems xs ys
  | [], [], _, _ => rfl
  | x :: xs, y :: ys, hlength, h => by
    rw [sameItems, h 0 x y rfl rfl, Bool.true_and]
    exact sameItems_of_forall (Nat.succ.inj hlength) fun index => h (index + 1)

/-- It is enough that each member is found in the other object. -/
theorem sameMembers_of_forall {xs ys : List (String × Json)}
    (h : ∀ member ∈ xs, ∃ y, Fields.get? ys member.1 = some y ∧ member.2.same y) :
    sameMembers xs ys := by
  induction xs with
  | nil => rfl
  | cons member rest ih =>
    obtain ⟨y, hy, hsame⟩ := h member List.mem_cons_self
    rw [sameMembers, hy, ih fun other hother => h other (List.mem_cons_of_mem _ hother),
      Bool.and_true]
    exact hsame

/-- What an object has is found in an equal one. -/
theorem exists_same_of_sameMembers {xs ys : List (String × Json)} (h : sameMembers xs ys)
    {key : String} {x : Json} (hx : Fields.get? xs key = some x) :
    ∃ y, Fields.get? ys key = some y ∧ x.same y := by
  induction xs with
  | nil => cases hx
  | cons member rest ih =>
    obtain ⟨name, value⟩ := member
    rw [sameMembers, Bool.and_eq_true] at h
    by_cases hname : name = key
    · subst hname
      obtain rfl : value = x := by simpa [Fields.get?] using hx
      cases hy : Fields.get? ys name with
      | none =>
        rw [hy] at h
        exact absurd h.1 Bool.false_ne_true
      | some y =>
        rw [hy] at h
        exact ⟨y, rfl, h.1⟩
    · exact ih h.2 (by simpa [Fields.get?, hname] using hx)

/-- Objects that have the same keys are equal if they have the same values under them. -/
theorem same_object_iff {xs ys : List (String × Json)} (hxs : (Fields.keys xs).Nodup)
    (hys : (Fields.keys ys).Nodup) (hkeys : ∀ key, Fields.has xs key = Fields.has ys key) :
    (Json.object xs).same (.object ys) = true ↔ ∀ key x y, Fields.get? xs key = some x →
      Fields.get? ys key = some y → x.same y = true := by
  -- different keys that are the same in both objects are equally many
  have hlength : xs.length = ys.length := by
    have hperm := (List.perm_ext_iff_of_nodup hxs hys).mpr fun key => by
      rw [Fields.mem_keys_iff_has, Fields.mem_keys_iff_has, hkeys]
    simpa [Fields.keys] using hperm.length_eq
  rw [same, hlength, beq_self_eq_true, Bool.true_and]
  constructor
  · intro h key x y hx hy
    obtain ⟨y', hy', hsame⟩ := exists_same_of_sameMembers h hx
    cases Option.some.inj (hy.symm.trans hy')
    exact hsame
  · intro h
    refine sameMembers_of_forall fun member hmember => ?_
    have hx := Fields.get?_of_mem hxs hmember
    obtain ⟨y, hy⟩ := Fields.has_iff.mp ((hkeys member.1).symm.trans (Fields.has_iff.mpr ⟨_, hx⟩))
    exact ⟨y, hy, h _ _ _ hx hy⟩

theorem sizeOf_lt_of_get? {members : List (String × Json)} {key : String} {value : Json}
    (h : Fields.get? members key = some value) : sizeOf value < sizeOf (Json.object members) := by
  have hsize := List.sizeOf_lt_of_mem (Fields.mem_of_get? h)
  simp only [Json.object.sizeOf_spec, Prod.mk.sizeOf_spec] at hsize ⊢
  omega

theorem sizeOf_lt_of_getElem? {items : List Json} {index : Nat} {value : Json}
    (h : items[index]? = some value) : sizeOf value < sizeOf (Json.array items) := by
  have hsize := List.sizeOf_lt_of_mem (List.mem_of_getElem? h)
  simp only [Json.array.sizeOf_spec]
  omega

/-- Alike values are equal when no object repeats a key: the order of members is all that tells them
apart. -/
theorem Alike.same : ∀ {a b : Json}, a.Alike b → a.KeysDiffer → b.KeysDiffer → a.same b
  | .object xs, b, h, ha, hb => by
    obtain ⟨ys, rfl⟩ : ∃ ys, b = .object ys := by
      -- the outlines at the value itself tell its kind and its size
      have houtline := h []
      cases b <;> simp_all [outline]
    have hxs := ha [] xs rfl
    have hys := hb [] ys rfl
    have hkeys : ∀ key, Fields.has xs key = Fields.has ys key := by
      intro key
      rw [Bool.eq_iff_iff, Fields.has_iff, Fields.has_iff]
      constructor
      · rintro ⟨x, hx⟩
        obtain ⟨y, hy, -⟩ := h.exists_child (.key key) hx
        exact ⟨y, hy⟩
      · rintro ⟨y, hy⟩
        obtain ⟨x, hx, -⟩ := h.symm.exists_child (.key key) hy
        exact ⟨x, hx⟩
    refine (same_object_iff hxs hys hkeys).mpr fun key x y hx hy => ?_
    obtain ⟨y', hy', halike⟩ := h.exists_child (.key key) hx
    cases Option.some.inj (hy.symm.trans hy')
    exact halike.same (ha.child (.key _) hx) (hb.child (.key _) hy)
  | .array xs, b, h, ha, hb => by
    have houtline := h []
    obtain ⟨ys, rfl, hlength⟩ : ∃ ys, b = .array ys ∧ ys.length = xs.length := by
      cases b <;> simp_all [outline]
    refine sameItems_of_forall hlength.symm fun index x y hx hy => ?_
    obtain ⟨y', hy', halike⟩ := h.exists_child (.index index) hx
    obtain rfl := Option.some.inj (hy.symm.trans hy')
    exact halike.same (ha.child (.index _) hx) (hb.child (.index _) hy)
  | .null, b, h, _, _ | .bool _, b, h, _, _ | .string _, b, h, _, _ => by
    have houtline := h []
    cases b <;> simp_all [outline, Json.same]
  | .number n, b, h, _, _ => by
    have houtline := h []
    obtain rfl : b = .number n := by cases b <;> simp_all [outline]
    cases n <;> simp [Json.same, Number.same, Finite.same]
termination_by a => a
decreasing_by
  · exact sizeOf_lt_of_get? hx
  · exact sizeOf_lt_of_getElem? hx

end Json

end NestedRecord
