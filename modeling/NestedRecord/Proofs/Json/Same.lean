import NestedRecord.Proofs.Json.Alike

/-!
# Equality of values is an equivalence

`Json.same` looks for the members of one object in another one, so it is an equivalence only among
values in which no object repeats a key.

* `sameItems_iff` and `same_object_iff_of_nodup` say when lists and objects are equal.
* `KeysDiffer.of_members` and `of_items`: no key is repeated inside if none is in the parts.
* `KeysDiffer.same_self`, `same_symm` and `same_trans` are the three laws.

The three laws are inductions on the first value. Items are compared position by position and
members by key, so the two cases of nested values differ in how parts that belong together are
found, and in nothing else.
-/

namespace NestedRecord

theorem Number.same_symm {m n : Number} (h : m.same n) : n.same m := by
  cases m <;> cases n <;> simp_all [Number.same, Finite.same]

theorem Number.same_trans {k m n : Number} (h : k.same m) (h' : m.same n) : k.same n := by
  cases k <;> cases m <;> cases n <;> simp_all [Number.same, Finite.same]

namespace Json

variable {a b c : Json}

/-- Lists are equal item by item. -/
theorem sameItems_iff {xs ys : List Json} :
    sameItems xs ys ↔ xs.length = ys.length ∧
      ∀ (index : Nat) (x y : Json), xs[index]? = some x → ys[index]? = some y → x.same y := by
  refine ⟨fun h => ?_, fun h => sameItems_of_forall h.1 h.2⟩
  induction xs generalizing ys with
  | nil =>
    cases ys with
    | nil => exact ⟨rfl, nofun⟩
    | cons => cases h
  | cons x xs ih =>
    cases ys with
    | nil => cases h
    | cons y ys =>
      rw [sameItems, Bool.and_eq_true] at h
      obtain ⟨hlength, hitems⟩ := ih h.2
      refine ⟨congrArg (· + 1) hlength, fun index => ?_⟩
      cases index with
      | zero =>
        intro x' y' hx hy
        obtain rfl := Option.some.inj hx
        obtain rfl := Option.some.inj hy
        exact h.1
      | succ index => exact hitems index

/-- Equal objects have the same keys. -/
theorem has_eq_of_same {xs ys : List (String × Json)} (hxs : (Fields.keys xs).Nodup)
    (h : (Json.object xs).same (.object ys)) (key : String) :
    Fields.has xs key = Fields.has ys key := by
  rw [same, Bool.and_eq_true, beq_iff_eq] at h
  have hsub : Fields.keys xs ⊆ Fields.keys ys := fun key hkey => by
    obtain ⟨x, hx⟩ := Fields.has_iff.mp (Fields.mem_keys_iff_has.mp hkey)
    obtain ⟨y, hy, -⟩ := exists_same_of_sameMembers h.2 hx
    exact Fields.mem_keys_iff_has.mpr (Fields.has_iff.mpr ⟨y, hy⟩)
  have hlength : (Fields.keys ys).length ≤ (Fields.keys xs).length := by
    simp [Fields.keys, h.1]
  have hperm := (List.subperm_of_subset hxs hsub).perm_of_length_le hlength
  rw [Bool.eq_iff_iff, ← Fields.mem_keys_iff_has, ← Fields.mem_keys_iff_has]
  exact hperm.mem_iff

/-- Objects are equal if they have the same keys, and equal values under them. -/
theorem same_object_iff_of_nodup {xs ys : List (String × Json)} (hxs : (Fields.keys xs).Nodup)
    (hys : (Fields.keys ys).Nodup) :
    (Json.object xs).same (.object ys) ↔ (∀ key, Fields.has xs key = Fields.has ys key) ∧
      ∀ key x y, Fields.get? xs key = some x → Fields.get? ys key = some y → x.same y := by
  constructor
  · intro h
    have hkeys := has_eq_of_same hxs h
    exact ⟨hkeys, (same_object_iff hxs hys hkeys).mp h⟩
  · rintro ⟨hkeys, hvalues⟩
    exact (same_object_iff hxs hys hkeys).mpr hvalues

/-- What has no members has none with the same key. -/
theorem KeysDiffer.of_leaf (hobject : ∀ members, a ≠ .object members)
    (harray : ∀ items, a ≠ .array items) : a.KeysDiffer := by
  intro place members hplace
  cases place with
  | nil => exact absurd (Option.some.inj hplace) (hobject members)
  | cons step place =>
    have hnone : a.child? step = none := by
      cases a with
      | object members => exact absurd rfl (hobject members)
      | array items => exact absurd rfl (harray items)
      | _ => cases step <;> rfl
    rw [locate?, hnone] at hplace
    cases hplace

/-- An object repeats no key if its keys differ and no member repeats any. -/
theorem KeysDiffer.of_members {members : List (String × Json)}
    (hkeys : (Fields.keys members).Nodup) (h : ∀ member ∈ members, member.2.KeysDiffer) :
    (Json.object members).KeysDiffer := by
  intro place inner hplace
  cases place with
  | nil =>
    obtain rfl := Json.object.inj (Option.some.inj hplace)
    exact hkeys
  | cons step place =>
    obtain ⟨value, hvalue, hinner⟩ := Option.bind_eq_some_iff.mp hplace
    cases step with
    | key key => exact h (key, value) (Fields.mem_of_get? hvalue) place inner hinner
    | index index => cases hvalue

/-- A list repeats no key if none of its items does. -/
theorem KeysDiffer.of_items {items : List Json} (h : ∀ item ∈ items, item.KeysDiffer) :
    (Json.array items).KeysDiffer := by
  intro place inner hplace
  cases place with
  | nil => cases hplace
  | cons step place =>
    obtain ⟨value, hvalue, hinner⟩ := Option.bind_eq_some_iff.mp hplace
    cases step with
    | key key => cases hvalue
    | index index => exact h value (List.mem_of_getElem? hvalue) place inner hinner

theorem KeysDiffer.same_self (h : a.KeysDiffer) : a.same a :=
  Alike.same (fun _ => rfl) h h

/-- Equality goes both ways. -/
theorem same_symm : ∀ {a b : Json}, a.KeysDiffer → b.KeysDiffer → a.same b → b.same a
  | .object xs, b, ha, hb, h => by
    cases b with
    | object ys =>
      have hxs := ha [] xs rfl
      have hys := hb [] ys rfl
      obtain ⟨hkeys, hvalues⟩ := (same_object_iff_of_nodup hxs hys).mp h
      refine (same_object_iff_of_nodup hys hxs).mpr ⟨fun key => (hkeys key).symm, ?_⟩
      intro key y x hy hx
      exact same_symm (ha.child (.key key) hx) (hb.child (.key key) hy) (hvalues key x y hx hy)
    | _ => simp [same] at h
  | .array xs, b, ha, hb, h => by
    cases b with
    | array ys =>
      obtain ⟨hlength, hitems⟩ := sameItems_iff.mp h
      refine sameItems_iff.mpr ⟨hlength.symm, fun index y x hy hx => ?_⟩
      exact same_symm (ha.child (.index index) hx) (hb.child (.index index) hy)
        (hitems index x y hx hy)
    | _ => simp [same] at h
  | .number m, b, _, _, h => by
    cases b with
    | number n => exact Number.same_symm h
    | _ => simp [same] at h
  | .null, b, _, _, h | .bool _, b, _, _, h | .string _, b, _, _, h => by
    cases b <;> simp_all [same]
termination_by a => a
decreasing_by
  · exact sizeOf_lt_of_get? hx
  · exact sizeOf_lt_of_getElem? hx

/-- What is equal to the same value is equal. -/
theorem same_trans : ∀ {a b c : Json}, a.KeysDiffer → b.KeysDiffer → c.KeysDiffer → a.same b →
    b.same c → a.same c
  | .object xs, b, c, ha, hb, hc, h, h' => by
    cases b with
    | object ys =>
      cases c with
      | object zs =>
        have hxs := ha [] xs rfl
        have hys := hb [] ys rfl
        have hzs := hc [] zs rfl
        obtain ⟨hkeys, hvalues⟩ := (same_object_iff_of_nodup hxs hys).mp h
        obtain ⟨hkeys', hvalues'⟩ := (same_object_iff_of_nodup hys hzs).mp h'
        refine (same_object_iff_of_nodup hxs hzs).mpr
          ⟨fun key => (hkeys key).trans (hkeys' key), fun key x z hx hz => ?_⟩
        -- the object in the middle has the key, which links the two values
        obtain ⟨y, hy⟩ := Fields.has_iff.mp
          ((hkeys key).symm.trans (Fields.has_iff.mpr ⟨x, hx⟩))
        exact same_trans (ha.child (.key key) hx) (hb.child (.key key) hy)
          (hc.child (.key key) hz) (hvalues key x y hx hy) (hvalues' key y z hy hz)
      | _ => simp [same] at h'
    | _ => simp [same] at h
  | .array xs, b, c, ha, hb, hc, h, h' => by
    cases b with
    | array ys =>
      cases c with
      | array zs =>
        obtain ⟨hlength, hitems⟩ := sameItems_iff.mp h
        obtain ⟨hlength', hitems'⟩ := sameItems_iff.mp h'
        refine sameItems_iff.mpr ⟨hlength.trans hlength', fun index x z hx hz => ?_⟩
        have hindex : index < ys.length := hlength ▸ (List.getElem?_eq_some_iff.mp hx).1
        have hy := List.getElem?_eq_getElem hindex
        exact same_trans (ha.child (.index index) hx) (hb.child (.index index) hy)
          (hc.child (.index index) hz) (hitems index x _ hx hy) (hitems' index _ z hy hz)
      | _ => simp [same] at h'
    | _ => simp [same] at h
  | .number m, b, c, _, _, _, h, h' => by
    cases b with
    | number n =>
      cases c with
      | number k => exact Number.same_trans h h'
      | _ => simp [same] at h'
    | _ => simp [same] at h
  | .null, b, c, _, _, _, h, h'
  | .bool _, b, c, _, _, _, h, h'
  | .string _, b, c, _, _, _, h, h' => by
    cases b <;> cases c <;> simp_all [same]
termination_by a => a
decreasing_by
  · exact sizeOf_lt_of_get? hx
  · exact sizeOf_lt_of_getElem? hx

end Json

end NestedRecord
