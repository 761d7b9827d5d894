import Mathlib.Data.List.Perm.Subperm
import NestedRecord.Join.Procedure
import NestedRecord.Proofs.Procedure.Reach

/-!
# The records of an attachment

An attachment stands at the end of lists of objects. Below an element around it, its records
are read in two ways: by stepping down names, lists passed through, and through the cursors of
the lists on the way. In a record of the right shape both find the same records.

- `Attached.changeMany?_perm` says what a delta does to the records of a to-many attachment.
- `Json.recordsAlong loops leaf value` are the records below a value.
- `Json.shapedAlong leaf loops value`: lists, objects and records stand where they should, or
  nothing or null does.
- `filter_foldl_stepDown` and `flatMap_reach` are the two ways of reading.
- `shapedAlong_congr`: the shape depends on the kinds of the values on the way, and on the
  attachments at the end of it.

Stepping down is what the procedures do when they collect the records for an aggregate, and it is
done without checking shapes: lists are passed through wherever they stand, and what is no object is
skipped. The cursors follow the declared lists. The two only differ on records that do not have the
shape of their descriptor, for instance with a list inside a list, hence `shapedAlong`.
-/

namespace NestedRecord

/-! ## Changes -/

namespace Attached

/-- The records of an attachment's content. -/
def records : Json → List Json
  | .array items => items
  | _ => []

/-- An insertion puts the record in, and takes out the one that it replaces. -/
theorem insert_perm (identityKey : String) (incoming : Json) :
    ∀ items : List Json, ∃ rest,
      items.Perm ((insert identityKey incoming items).2.toList ++ rest) ∧
        (insert identityKey incoming items).1.Perm (incoming :: rest)
  | [] => ⟨[], .refl _, .refl _⟩
  | item :: items => by
    by_cases hsame : sameRecord identityKey item incoming = true
    · refine ⟨items, ?_, ?_⟩
      · simp [insert, hsame]
      · simp [insert, hsame]
    · obtain ⟨rest, hbefore, hafter⟩ := insert_perm identityKey incoming items
      refine ⟨item :: rest, ?_, ?_⟩
      · simp only [insert, hsame]
        exact (hbefore.cons item).trans List.perm_middle.symm
      · simp only [insert, hsame]
        exact (hafter.cons item).trans (.swap _ _ _)

/-- A deletion takes a record out. -/
theorem delete_perm {identityKey : String} {outgoing removed : Json} :
    ∀ {items rest : List Json}, delete identityKey outgoing items = some (rest, removed) →
      items.Perm (removed :: rest)
  | [], _, h => by cases h
  | item :: items, rest, h => by
    by_cases hsame : sameRecord identityKey item outgoing = true
    · simp only [delete, hsame, if_true, Option.some.injEq, Prod.mk.injEq] at h
      obtain ⟨rfl, rfl⟩ := h
      exact .refl _
    · rw [delete, if_neg hsame] at h
      obtain ⟨⟨others, found⟩, hdelete, heq⟩ := Option.map_eq_some_iff.mp h
      obtain ⟨rfl, rfl⟩ := Prod.mk.inj heq
      exact ((delete_perm hdelete).cons item).trans (.swap _ _ _)

/-- The records that a delta can bring into an attachment. -/
def incoming : Delta → List Json
  | .insert record => [record]
  | .delete _ => []
  | .set records => records

/-- What a delta leaves in a list of records was there or came with it. Unless all records come
at once, the others are there before and after. -/
theorem changeMany?_perm {identityKey : String} {content : Json} {delta : Delta} {change : Change}
    (h : changeMany? identityKey content delta = some change) :
    ∃ items, change.content = .array items ∧
      items.Subperm (records content ++ incoming delta) ∧
      (Joining.rebuilds delta = false → ∃ rest,
        (records content).Perm (change.removed.toList ++ rest) ∧
          items.Perm (change.added.toList ++ rest)) := by
  cases delta with
  | set all =>
    cases h
    exact ⟨all, rfl, (List.sublist_append_right _ _).subperm, fun hset => by cases hset⟩
  | insert record =>
    cases content with
    | null =>
      cases h
      exact ⟨[record], rfl, (List.Perm.refl _).subperm, fun _ => ⟨[], .refl _, .refl _⟩⟩
    | array items =>
      cases h
      obtain ⟨rest, hbefore, hafter⟩ := insert_perm identityKey record items
      refine ⟨_, rfl, ?_, fun _ => ⟨rest, hbefore, hafter⟩⟩
      -- what an insertion leaves besides its record was there before
      have hrest : rest.Subperm items :=
        (List.sublist_append_right _ _).subperm.trans hbefore.symm.subperm
      exact hafter.subperm.trans
        ((List.subperm_append_left [record]).mpr hrest |>.trans List.perm_append_comm.subperm)
    | bool | number | string | object => cases h
  | delete record =>
    cases content with
    | array items =>
      obtain ⟨⟨rest, removed⟩, hdelete, rfl⟩ := Option.map_eq_some_iff.mp h
      have hperm := delete_perm hdelete
      refine ⟨rest, rfl, ?_, fun _ => ⟨rest, hperm, .refl _⟩⟩
      show rest.Subperm (items ++ [])
      rw [List.append_nil]
      exact (List.sublist_cons_self removed rest).subperm.trans hperm.symm.subperm
    | null | bool | number | string | object => cases h

end Attached

/-! ## The shape of a record along a path -/

namespace Json

/-- Whether names lead through objects to a value with a property, or to nothing or null. -/
def opensOn (p : Json → Bool) : List String → Json → Bool
  | [], value => value.isNull || p value
  | name :: rest, value =>
    (value.get? name).all fun child =>
      (rest.isEmpty || child.isNull || child.isObject) && opensOn p rest child

/-- Whether a value is a list of values with a property. -/
def isListOf (p : Json → Bool) : Json → Bool
  | .array items => items.all p
  | _ => false

/-- Whether a value is shaped along the way to an attachment: lists of the loops hold lists,
names between them lead through objects, and records stand in a list at the end. -/
def shapedAlong (leaf : List String) : List Loop → Json → Bool
  | [], value => opensOn (isListOf isObject) leaf value
  | loop :: rest, value => opensOn (isListOf (shapedAlong leaf rest)) loop.access value

/-- The records of an attachment below a value, in order. -/
def recordsAlong (leaf : List String) : List Loop → Json → List Json
  | [], value => value.itemsAt (leaf.map .key)
  | loop :: rest, value =>
    (value.itemsAt (loop.access.map .key)).flatMap (recordsAlong leaf rest)

variable {p : Json → Bool} {names leaf : List String} {loops : List Loop} {value : Json}

/-- The items at a place, one name at a time. -/
theorem itemsAt_cons (value : Json) (name : String) (rest : Location) :
    value.itemsAt (.key name :: rest) =
      match value.get? name with
      | none => []
      | some child => child.itemsAt rest := by
  rw [itemsAt, locate?, child?_key]
  cases value.get? name <;> rfl

/-- What names open on, by places. -/
theorem opensOn_iff : ∀ {names : List String} {value : Json},
    opensOn p names value = true ↔
      (∀ init last rest, names = init ++ last :: rest → init ≠ [] → ∀ part,
        value.locate? (init.map .key) = some part → part = .null ∨ part.isObject = true) ∧
      ∀ part, value.locate? (names.map .key) = some part → part = .null ∨ p part = true
  | [], value => by
    rw [opensOn, Bool.or_eq_true, isNull_iff]
    simp
  | name :: rest, value => by
    rw [opensOn, List.map_cons, locate?, child?_key]
    cases hget : value.get? name with
    | none =>
      refine iff_of_true rfl ⟨?_, by simp⟩
      intro init last others hnames hinit part hpart
      obtain ⟨first, init, rfl⟩ := List.exists_cons_of_ne_nil hinit
      obtain rfl : name = first := (List.cons_eq_cons.mp hnames).1
      rw [List.map_cons, locate?, child?_key, hget] at hpart
      cases hpart
    | some child =>
      -- the child is gone through if more names follow, else it is what the names lead to
      rw [Option.all_some, Bool.and_eq_true, opensOn_iff, Option.bind_some]
      constructor
      · rintro ⟨hchild, hinner, hlast⟩
        refine ⟨?_, hlast⟩
        intro init last others hnames hinit part hpart
        obtain ⟨first, init, rfl⟩ := List.exists_cons_of_ne_nil hinit
        obtain ⟨rfl, hrest⟩ := List.cons_eq_cons.mp hnames
        rw [List.map_cons, locate?, child?_key, hget, Option.bind_some] at hpart
        cases init with
        | nil =>
          cases hpart
          rw [hrest] at hchild
          simpa [isNull_iff] using hchild
        | cons second init => exact hinner _ last others hrest (List.cons_ne_nil _ _) part hpart
      · rintro ⟨hinner, hlast⟩
        refine ⟨?_, ?_, hlast⟩
        · cases rest with
          | nil => rfl
          | cons second rest =>
            have hobject := hinner [name] second rest rfl (List.cons_ne_nil _ _) child (by
              rw [List.map_singleton, locate?, child?_key, hget]
              rfl)
            simpa [isNull_iff] using hobject
        · intro init last others hrest hinit part hpart
          refine hinner (name :: init) last others (by rw [hrest]; rfl) (List.cons_ne_nil _ _)
            part ?_
          rw [List.map_cons, locate?, child?_key, hget]
          exact hpart

/-- A list that names open on has items with the property of its items. -/
theorem of_mem_itemsAt (h : opensOn (isListOf p) names value = true) {item : Json}
    (hitem : item ∈ value.itemsAt (names.map .key)) : p item = true := by
  obtain ⟨-, hlast⟩ := opensOn_iff.mp h
  unfold itemsAt at hitem
  split at hitem
  · next items hlocate =>
    have hlist := (hlast _ hlocate).resolve_left (by simp)
    exact List.all_eq_true.mp hlist item hitem
  · cases hitem

end Json

namespace Joining

open Json (opensOn isListOf shapedAlong recordsAlong)

variable {names leaf : List String} {loops : List Loop} {value : Json}

/-- Stepping down from values is stepping down from each of them. -/
theorem foldl_stepDown (names : List String) (values : List Json) :
    names.foldl stepDown values = values.flatMap fun value => names.foldl stepDown [value] := by
  induction names generalizing values with
  | nil => simp
  | cons name rest ih =>
    have hstep : ∀ values, stepDown values name = values.flatMap fun value =>
        stepDown [value] name := by
      intro values
      simp [stepDown]
    rw [List.foldl_cons, ih, hstep, List.flatMap_assoc]
    refine List.flatMap_congr fun value _ => ?_
    rw [List.foldl_cons, ← ih]

theorem foldl_stepDown_null (h : names ≠ []) : names.foldl stepDown [Json.null] = [] := by
  obtain ⟨name, rest, rfl⟩ := List.exists_cons_of_ne_nil h
  rw [List.foldl_cons]
  show rest.foldl stepDown [] = []
  rw [foldl_stepDown]
  rfl

/-- Stepping down to a list finds its items; null stays. -/
theorem foldl_stepDown_list {p : Json → Bool} :
    ∀ {names : List String} {value : Json}, names ≠ [] →
      opensOn (isListOf p) names value = true →
        names.foldl stepDown [value] = value.itemsAt (names.map .key) ∨
          (names.foldl stepDown [value] = [.null] ∧ value.itemsAt (names.map .key) = [])
  | [], _, h, _ => absurd rfl h
  | name :: rest, value, _, h => by
    rw [List.foldl_cons, List.map_cons, Json.itemsAt_cons]
    rw [opensOn] at h
    cases hget : value.get? name with
    | none =>
      refine .inl ?_
      rw [show stepDown [value] name = [] by simp [stepDown, hget], foldl_stepDown]
      rfl
    | some child =>
      rw [hget, Option.all_some, Bool.and_eq_true] at h
      obtain ⟨hchild, hrest⟩ := h
      cases rest with
      | nil =>
        rcases Bool.or_eq_true _ _ ▸ hrest with hnull | hlist
        · obtain rfl := Json.isNull_iff.mp hnull
          exact .inr ⟨by simp [stepDown, hget], rfl⟩
        · cases child with
          | array items => exact .inl (by simp [stepDown, hget, Json.itemsAt])
          | null | bool | number | string | object => cases hlist
      | cons next rest =>
        -- a list opens on no further name, so that the child is gone through as it is
        have hstep : stepDown [value] name = [child] := by
          cases child with
          | array items => simp [Json.isNull, Json.isObject] at hchild
          | null | bool | number | string | object => simp [stepDown, hget]
        rw [hstep]
        exact foldl_stepDown_list (List.cons_ne_nil _ _) hrest

/-- Stepping down to the records of an attachment finds them all. -/
theorem filter_foldl_stepDown (hleaf : leaf ≠ []) :
    ∀ {loops : List Loop} {value : Json}, shapedAlong leaf loops value = true →
      (∀ loop ∈ loops, loop.access ≠ []) →
        ((loops.flatMap (·.access) ++ leaf).foldl stepDown [value]).filter Json.isObject =
          recordsAlong leaf loops value
  | [], value, h, _ => by
    rw [List.flatMap_nil, List.nil_append, recordsAlong]
    rcases foldl_stepDown_list hleaf h with hfound | ⟨hnull, hnone⟩
    · rw [hfound]
      exact List.filter_eq_self.mpr fun item hitem => Json.of_mem_itemsAt h hitem
    · rw [hnull, hnone]
      rfl
  | loop :: rest, value, h, haccess => by
    rw [List.flatMap_cons, List.append_assoc, List.foldl_append, recordsAlong]
    rcases foldl_stepDown_list (haccess loop List.mem_cons_self) h with hfound | ⟨hnull, hnone⟩
    · rw [hfound, foldl_stepDown, List.filter_flatMap]
      refine List.flatMap_congr fun item hitem => ?_
      exact filter_foldl_stepDown hleaf (Json.of_mem_itemsAt h hitem)
        fun other hother => haccess other (List.mem_cons_of_mem loop hother)
    · rw [hnull, hnone, foldl_stepDown_null (by simp [hleaf])]
      rfl

end Joining

namespace Json

variable {leaf : List String} {record a b : Json}

/-! ### Through cursors -/

theorem flatMap_range_getElem? {α β : Type} (f : α → List β) (xs : List α) :
    ((List.range xs.length).flatMap fun i => xs[i]?.toList.flatMap f) = xs.flatMap f := by
  induction xs with
  | nil => rfl
  | cons x xs ih => simp [List.range_succ_eq_map, List.flatMap_map, ← ih]

/-- The cursors of the lists on the way find the records of an attachment. -/
theorem flatMap_reach : ∀ (loops : List Loop) (cursor : Cursor),
    ((record.reach cursor loops).flatMap fun inner => record.itemsAt (inner.below leaf)) =
      (record.locate? cursor.element).toList.flatMap (recordsAlong leaf loops)
  | [], cursor => by
    rw [reach, List.flatMap_singleton, Cursor.below, itemsAt, locate?_append]
    cases record.locate? cursor.element with
    | none => rfl
    | some value =>
      rw [Option.toList_some, List.flatMap_singleton]
      rfl
  | loop :: rest, cursor => by
    rw [reach, List.flatMap_assoc, sizeAt_eq_length]
    simp only [flatMap_reach rest, Cursor.element_enter, locate?_index]
    rw [flatMap_range_getElem?, Cursor.below, itemsAt, locate?_append]
    cases record.locate? cursor.element with
    | none => rfl
    | some value =>
      rw [Option.toList_some, List.flatMap_singleton]
      rfl

/-- What lies below the lists of a shaped value is shaped. -/
theorem shapedAlong_of_under {back : List Loop} :
    ∀ (front : List Loop) {outer cursor : Cursor} {value part : Json},
      record.locate? outer.element = some value → shapedAlong leaf (front ++ back) value = true →
      cursor.Under outer front → record.locate? cursor.element = some part →
        shapedAlong leaf back part = true
  | [], outer, cursor, value, part, houter, hshaped, hunder, hpart => by
    obtain rfl := Cursor.under_nil.mp hunder
    cases Option.some.inj (houter.symm.trans hpart)
    exact hshaped
  | loop :: rest, outer, cursor, value, part, houter, hshaped, hunder, hpart => by
    obtain ⟨index, hunder⟩ := Cursor.under_cons.mp hunder
    obtain ⟨item, hitem⟩ : ∃ item,
        record.locate? (outer.enter loop.access index).element = some item := by
      obtain ⟨rest', hrest'⟩ := Cursor.element_above hunder.entered_above
      rw [← hrest'] at hpart
      exact Option.isSome_iff_exists.mp (locate?_isSome_of_append (Option.isSome_of_eq_some hpart))
    refine shapedAlong_of_under rest hitem ?_ hunder hpart
    rw [Cursor.element_enter, Cursor.below, List.append_assoc, locate?_append, houter,
      Option.bind_some, locate?_index] at hitem
    exact of_mem_itemsAt hshaped (List.mem_of_getElem? hitem)

/-- Whether the same kind of value stands at a place of two records. -/
def SameOutline (a b : Json) (place : Location) : Prop :=
  (b.locate? place).map outline = (a.locate? place).map outline

/-- Where nothing has changed in kind, an object or null is still one. -/
theorem SameOutline.null_or_object {place : Location} (h : SameOutline a b place)
    (ha : ∀ part, a.locate? place = some part → part = .null ∨ part.isObject = true) {part : Json}
    (hpart : b.locate? place = some part) : part = .null ∨ part.isObject = true := by
  rw [SameOutline, hpart] at h
  obtain ⟨before, hbefore, houtline⟩ := Option.map_eq_some_iff.mp h.symm
  rcases ha before hbefore with rfl | hobject
  · cases part with
    | null => exact .inl rfl
    | bool | number | string | array | object => cases houtline
  · exact .inr (by rw [← isObject_eq_of_outline houtline, hobject])

/-- Where nothing has changed in kind, a list is still one, and as long. -/
theorem SameOutline.list {place : Location} (h : SameOutline a b place) {p : Json → Bool}
    (ha : ∀ part, a.locate? place = some part → part = .null ∨ isListOf p part = true)
    {part : Json} (hpart : b.locate? place = some part) :
    part = .null ∨ ∃ items, part = .array items ∧ items.length = (a.itemsAt place).length := by
  rw [SameOutline, hpart] at h
  obtain ⟨before, hbefore, houtline⟩ := Option.map_eq_some_iff.mp h.symm
  rcases ha before hbefore with rfl | hlist
  · cases part with
    | null => exact .inl rfl
    | bool | number | string | array | object => cases houtline
  · cases before with
    | array items =>
      cases part with
      | array items' =>
        refine .inr ⟨items', rfl, ?_⟩
        rw [itemsAt, hbefore]
        exact (Outline.array.inj houtline).symm
      | null | bool | number | string | object => cases houtline
    | null | bool | number | string | object => cases hlist

/-- The shape below an element depends on the kinds of the values on the way, and on the
attachments at the end of it. -/
theorem shapedAlong_congr : ∀ {loops : List Loop} {cursor : Cursor} {before after : Json},
    a.locate? cursor.element = some before → b.locate? cursor.element = some after →
    shapedAlong leaf loops before = true →
    (∀ front loop back init rest, loops = front ++ loop :: back → loop.access = init ++ rest →
      ∀ inner : Cursor, inner.Under cursor front → SameOutline a b (inner.below init)) →
    (∀ init last rest, leaf = init ++ last :: rest →
      ∀ inner : Cursor, inner.Under cursor loops → SameOutline a b (inner.below init)) →
    (∀ inner : Cursor, inner.Under cursor loops →
      (∀ part, a.locate? (inner.below leaf) = some part →
        part = .null ∨ isListOf isObject part = true) →
      ∀ part, b.locate? (inner.below leaf) = some part →
        part = .null ∨ isListOf isObject part = true) →
      shapedAlong leaf loops after = true
  | [], cursor, before, after, hbefore, hafter, hshaped, _, hleaf, hcontent => by
    rw [shapedAlong, opensOn_iff] at hshaped ⊢
    have hplace : ∀ {record value : Json} (names : List String),
        record.locate? cursor.element = some value →
          record.locate? (cursor.below names) = value.locate? (names.map .key) := by
      intro record value names hvalue
      rw [Cursor.below, locate?_append, hvalue, Option.bind_some]
    refine ⟨fun init last rest hnames hinit part hpart => ?_, fun part hpart => ?_⟩
    · refine (hleaf init last rest hnames cursor (Cursor.under_nil.mpr rfl)).null_or_object
        (fun part hpart => ?_) ((hplace init hafter).trans hpart)
      exact hshaped.1 init last rest hnames hinit part ((hplace init hbefore).symm.trans hpart)
    · refine hcontent cursor (Cursor.under_nil.mpr rfl) (fun part hpart => ?_) part
        ((hplace leaf hafter).trans hpart)
      exact hshaped.2 part ((hplace leaf hbefore).symm.trans hpart)
  | loop :: rest, cursor, before, after, hbefore, hafter, hshaped, hlists, hleaf, hcontent => by
    have hshapedAll := hshaped
    rw [shapedAlong, opensOn_iff] at hshaped ⊢
    have hplace : ∀ {record value : Json} (names : List String),
        record.locate? cursor.element = some value →
          record.locate? (cursor.below names) = value.locate? (names.map .key) := by
      intro record value names hvalue
      rw [Cursor.below, locate?_append, hvalue, Option.bind_some]
    refine ⟨fun init last others hnames hinit part hpart => ?_, fun part hpart => ?_⟩
    · refine (hlists [] loop rest init (last :: others) rfl hnames cursor
        (Cursor.under_nil.mpr rfl)).null_or_object (fun part hpart => ?_)
        ((hplace init hafter).trans hpart)
      exact hshaped.1 init last others hnames hinit part ((hplace init hbefore).symm.trans hpart)
    · have hlist := (hlists [] loop rest loop.access [] rfl (List.append_nil _).symm cursor
        (Cursor.under_nil.mpr rfl)).list (p := shapedAlong leaf rest) (fun part hpart =>
          hshaped.2 part ((hplace loop.access hbefore).symm.trans hpart))
          ((hplace loop.access hafter).trans hpart)
      rcases hlist with hnull | ⟨items, rfl, hlength⟩
      · exact .inl hnull
      refine .inr (List.all_eq_true.mpr fun item hitem => ?_)
      obtain ⟨index, hindex, hget⟩ := List.getElem_of_mem hitem
      -- the item of the same number was shaped before
      have hafterItem : b.locate? (cursor.enter loop.access index).element = some item := by
        rw [Cursor.element_enter, locate?_index, itemsAt, hplace loop.access hafter, hpart]
        exact List.getElem?_eq_some_iff.mpr ⟨hindex, hget⟩
      obtain ⟨old, hold⟩ : ∃ old,
          a.locate? (cursor.enter loop.access index).element = some old := by
        rw [Cursor.element_enter, locate?_index]
        exact Option.isSome_iff_exists.mp (by simpa using hlength ▸ hindex)
      have hunder : (cursor.enter loop.access index).Under cursor [loop] :=
        Cursor.under_cons.mpr ⟨index, Cursor.under_nil.mpr rfl⟩
      refine shapedAlong_congr hold hafterItem
        (shapedAlong_of_under [loop] hbefore hshapedAll hunder hold)
        (fun front other back init rest' hloops hinit inner hinner => ?_)
        (fun init last rest' hnames inner hinner => ?_) (fun inner hinner => ?_)
      · exact hlists (loop :: front) other back init rest' (by rw [hloops]; rfl) hinit inner
          (Cursor.under_cons.mpr ⟨index, hinner⟩)
      · exact hleaf init last rest' hnames inner (Cursor.under_cons.mpr ⟨index, hinner⟩)
      · exact hcontent inner (Cursor.under_cons.mpr ⟨index, hinner⟩)

end Json

end NestedRecord
