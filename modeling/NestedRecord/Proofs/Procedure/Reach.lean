import Mathlib.Data.List.Nodup
import NestedRecord.Procedure.Run
import NestedRecord.Proofs.Json.Write

/-!
# The elements that loops reach

Loops lead from an element of a record to the elements of lists inside it. The cursors at
those elements are listed here, and told apart by where they stand.

An element is known by its cursor, which tells the lists on the way and the positions in them.
Nothing but the record decides which cursors there are, and they are listed by going through it;
that the same loops always lead to the same places in the same order is what later allows to compare
a run with a list of events. Places that end in names are told apart by counting positions: of two
places on one way, the longer one has entered at least as many lists.

- `Cursor.below cursor names` is the place of names below the element of a cursor, and
  `Cursor.upTo` goes back to an enclosing element.
- `Json.reach record cursor loops` are the cursors at the elements that loops reach.
  `mem_reach` says which they are: those through the lists of the loops at whose element
  there is a value. Each is listed once (`nodup_reach`).
- `Json.reach_congr`: which elements are reached depends on the sizes of the lists on the
  way and on nothing else.
- `entered_prefix_of_below`: a place lies inside another only if its cursor has entered
  everything that the cursor of the other one has.
-/

namespace NestedRecord

namespace Json

/-- The items of the list at a location; none without a list. -/
def itemsAt (value : Json) (location : Location) : List Json :=
  match value.locate? location with
  | some (.array items) => items
  | _ => []

theorem sizeAt_eq_length (value : Json) (location : Location) :
    value.sizeAt location = (value.itemsAt location).length := by
  unfold sizeAt itemsAt
  split <;> simp_all

/-- An element is found by its number. -/
theorem locate?_index (value : Json) (location : Location) (index : Nat) :
    value.locate? (location ++ [.index index]) = (value.itemsAt location)[index]? := by
  rw [locate?_append]
  unfold itemsAt
  rcases value.locate? location with _ | part
  · rfl
  · cases part with
    | array items =>
      show (items[index]?).bind (·.locate? []) = items[index]?
      cases items[index]? <;> rfl
    | _ => rfl

theorem isSome_locate?_index (value : Json) (location : Location) (index : Nat) :
    (value.locate? (location ++ [.index index])).isSome ↔ index < value.sizeAt location := by
  rw [locate?_index, sizeAt_eq_length, Option.isSome_iff_exists]
  simp [List.getElem?_eq_some_iff]

theorem itemsAt_eq_of_locate? {a b : Json} {location : Location}
    (h : b.locate? location = a.locate? location) : b.itemsAt location = a.itemsAt location := by
  unfold itemsAt
  rw [h]

end Json

namespace Location

/-- The keys on the way of a location. -/
def names (location : Location) : List String :=
  location.filterMap fun step =>
    match step with
    | .key key => some key
    | .index _ => none

@[simp] theorem names_append (front back : Location) :
    names (front ++ back) = names front ++ names back := List.filterMap_append

@[simp] theorem names_keys (keys : List String) : names (keys.map .key) = keys := by
  induction keys with
  | nil => rfl
  | cons key rest ih => exact congrArg (key :: ·) ih

theorem names_above {a b : Location} (h : a <+: b) : names a <+: names b := by
  obtain ⟨rest, rfl⟩ := h
  exact ⟨names rest, (names_append a rest).symm⟩

end Location

namespace Cursor

/-- The element of the innermost list entered. -/
def element (cursor : Cursor) : Location := cursor.entered.flatMap Entered.location

/-- The place of names below the element. -/
def below (cursor : Cursor) (names : List String) : Location :=
  cursor.element ++ names.map .key

/-- The element of an enclosing list, as a cursor. -/
def upTo (cursor : Cursor) (depth : Nat) : Cursor := ⟨cursor.entered.take depth⟩

/-- Whether the lists that the cursor has entered are those of the loops. -/
def Fits (cursor : Cursor) (loops : List Loop) : Prop :=
  cursor.entered.map (·.access) = loops.map (·.access)

/-- Whether a cursor has gone through the lists of loops from another one. -/
def Under (cursor outer : Cursor) (loops : List Loop) : Prop :=
  ∃ entered, cursor.entered = outer.entered ++ entered ∧
    entered.map (·.access) = loops.map (·.access)

theorem place_eq (cursor : Cursor) (depth : Nat) (names : List String) :
    cursor.place depth names = (cursor.upTo depth).below names := rfl

@[simp] theorem upTo_depth (cursor : Cursor) : cursor.upTo cursor.depth = cursor := by
  unfold upTo depth
  rw [List.take_length]

theorem place_depth (cursor : Cursor) (names : List String) :
    cursor.place cursor.depth names = cursor.below names := by
  rw [place_eq, upTo_depth]

/-- What names below the current element lead to. -/
theorem get?_eq_locate? (cursor : Cursor) (record : Json) (names : List String) :
    cursor.get? record names = record.locate? (cursor.below names) := by
  rw [← place_depth]
  exact cursor.getAt?_eq_locate? record _ _

theorem dropLast_below {cursor : Cursor} {names : List String} (h : names ≠ []) :
    (cursor.below names).dropLast = cursor.below names.dropLast := by
  rw [below, below, List.dropLast_append_of_ne_nil, List.map_dropLast]
  simpa using h

theorem below_ne_nil {cursor : Cursor} {names : List String} (h : names ≠ []) :
    cursor.below names ≠ [] := by
  simpa [below] using fun _ => h

@[simp] theorem element_root : element {} = [] := rfl

theorem element_enter (cursor : Cursor) (access : List String) (index : Nat) :
    (cursor.enter access index).element = cursor.below access ++ [.index index] := by
  simp [element, below, enter, Entered.location]

theorem element_above {a b : Cursor} (h : a.entered <+: b.entered) : a.element <+: b.element := by
  obtain ⟨rest, hrest⟩ := h
  exact ⟨rest.flatMap Entered.location, by simp [element, ← hrest]⟩

theorem fits_root_iff {loops : List Loop} : Fits {} loops ↔ loops = [] := by
  unfold Fits
  cases loops <;> simp

theorem fits_iff_under_root {cursor : Cursor} {loops : List Loop} :
    cursor.Fits loops ↔ cursor.Under {} loops := by
  simp [Fits, Under]

instance (cursor outer : Cursor) (loops : List Loop) : Decidable (cursor.Under outer loops) :=
  decidable_of_iff (outer.entered <+: cursor.entered ∧
      (cursor.entered.drop outer.entered.length).map (·.access) = loops.map (·.access)) (by
    constructor
    · rintro ⟨⟨entered, hentered⟩, haccess⟩
      rw [← hentered, List.drop_left] at haccess
      exact ⟨entered, hentered.symm, haccess⟩
    · rintro ⟨entered, hentered, haccess⟩
      rw [hentered, List.drop_left]
      exact ⟨List.prefix_append _ _, haccess⟩)

theorem under_nil {cursor outer : Cursor} : cursor.Under outer [] ↔ cursor = outer := by
  obtain ⟨entered⟩ := cursor
  obtain ⟨around⟩ := outer
  simp [Under]

/-- A cursor under some loops has entered the first list, and stands under the rest from there. -/
theorem under_cons {cursor outer : Cursor} {loop : Loop} {rest : List Loop} :
    cursor.Under outer (loop :: rest) ↔
      ∃ index, cursor.Under (outer.enter loop.access index) rest := by
  constructor
  · rintro ⟨entered, hcursor, haccess⟩
    cases entered with
    | nil => simp at haccess
    | cons first others =>
      obtain ⟨hfirst, hothers⟩ := List.cons.inj haccess
      exact ⟨first.index, others, by simp [hcursor, enter, ← hfirst], hothers⟩
  · rintro ⟨index, entered, hcursor, haccess⟩
    exact ⟨⟨loop.access, index⟩ :: entered, by simp [hcursor, enter], by simp [haccess]⟩

theorem Under.entered_above {cursor outer : Cursor} {loops : List Loop}
    (h : cursor.Under outer loops) :
    outer.entered <+: cursor.entered := by
  obtain ⟨entered, hcursor, -⟩ := h
  exact ⟨entered, hcursor.symm⟩

/-- Going back from an element below another one to that one. -/
theorem Under.upTo {cursor outer : Cursor} {loops : List Loop} (h : cursor.Under outer loops) :
    cursor.upTo outer.depth = outer := by
  obtain ⟨entered, hentered, -⟩ := h
  rw [Cursor.upTo, hentered, Cursor.depth, List.take_left]

theorem Under.fits {cursor outer : Cursor} {front back : List Loop} (h : cursor.Under outer back)
    (houter : outer.Fits front) : cursor.Fits (front ++ back) := by
  obtain ⟨entered, hcursor, haccess⟩ := h
  unfold Fits at *
  rw [hcursor, List.map_append, List.map_append, houter, haccess]

theorem Fits.depth {cursor : Cursor} {loops : List Loop} (h : cursor.Fits loops) :
    cursor.depth = loops.length := by
  have hlength := congrArg List.length h
  rw [List.length_map, List.length_map] at hlength
  exact hlength

theorem Fits.upTo {cursor : Cursor} {loops : List Loop} (h : cursor.Fits loops) (depth : Nat) :
    (cursor.upTo depth).Fits (loops.take depth) := by
  unfold Fits Cursor.upTo at *
  rw [List.map_take, List.map_take, h]

/-- A cursor stands under each enclosing element through the remaining lists. -/
theorem Fits.under_upTo {cursor : Cursor} {loops : List Loop} (h : cursor.Fits loops)
    (depth : Nat) : cursor.Under (cursor.upTo depth) (loops.drop depth) := by
  refine ⟨cursor.entered.drop depth, (List.take_append_drop ..).symm, ?_⟩
  unfold Fits at h
  rw [List.map_drop, List.map_drop, h]

/-- The keys on the way to an element are those to the lists entered. -/
theorem names_element (cursor : Cursor) :
    cursor.element.names = (cursor.entered.map (·.access)).flatten := by
  have hlist (first : Entered) : Location.names (Entered.location first) = first.access := by
    rw [Entered.location, Location.names_append, Location.names_keys]
    exact List.append_nil _
  rw [element]
  induction cursor.entered with
  | nil => rfl
  | cons first rest ih =>
    rw [List.flatMap_cons, Location.names_append, ih, hlist, List.map_cons, List.flatten_cons]

/-- The names of a place are those of the loops, then its own. -/
theorem Fits.names_below {cursor : Cursor} {loops : List Loop} (h : cursor.Fits loops)
    (names : List String) :
    (cursor.below names).names = loops.flatMap (·.access) ++ names := by
  rw [below, Location.names_append, Location.names_keys, names_element, h]
  rfl

/-! ## Telling places apart -/

/-- Keys up to an index stand at the front of other keys up to an index only if they are
the same. -/
theorem entered_prefix_of_keys {access access' : List String} {index : Nat}
    {rest rest' : Location}
    (h : access.map Step.key ++ .index index :: rest <+: access'.map Step.key ++ rest') :
    ∃ rest'', rest' = (access.drop access'.length).map Step.key ++ .index index :: rest'' ∧
      access'.length ≤ access.length ∧ access' = access.take access'.length ∧
      rest <+: rest'' := by
  induction access' generalizing access with
  | nil =>
    obtain ⟨tail, htail⟩ := h
    exact ⟨rest ++ tail, by simpa using htail.symm, Nat.zero_le _, rfl, List.prefix_append ..⟩
  | cons key keys ih =>
    cases access with
    | nil => simp [List.cons_prefix_cons] at h
    | cons key' keys' =>
      obtain ⟨hkey, hrest⟩ := List.cons_prefix_cons.mp h
      obtain ⟨rest'', hrest', hlength, htake, hstart⟩ := ih hrest
      refine ⟨rest'', by simpa using hrest', Nat.succ_le_succ hlength, ?_, hstart⟩
      simp only [List.length_cons, List.take_succ_cons, List.cons.injEq]
      exact ⟨(Step.key.inj hkey).symm, htake⟩

/-- A place inside another one has entered all lists that the other one has. -/
theorem entered_prefix_of_below {a b : Cursor} {names names' : List String}
    (h : a.below names <+: b.below names') : a.entered <+: b.entered := by
  obtain ⟨entered⟩ := a
  obtain ⟨entered'⟩ := b
  simp only [below, element] at h
  show entered <+: entered'
  induction entered generalizing entered' with
  | nil => exact List.nil_prefix
  | cons first rest ih =>
    have hfront : first.access.map Step.key ++ .index first.index ::
        (rest.flatMap Entered.location ++ names.map Step.key) <+:
          entered'.flatMap Entered.location ++ names'.map Step.key := by
      simpa [Entered.location] using h
    cases entered' with
    | nil =>
      have hnames : first.access.map Step.key ++ .index first.index ::
          (rest.flatMap Entered.location ++ names.map Step.key) <+:
            names'.map Step.key ++ [] := by simpa using hfront
      obtain ⟨rest'', hrest'', -⟩ := entered_prefix_of_keys hnames
      simp at hrest''
    | cons first' rest' =>
      have hnext : first.access.map Step.key ++ .index first.index ::
          (rest.flatMap Entered.location ++ names.map Step.key) <+:
            first'.access.map Step.key ++ .index first'.index ::
              (rest'.flatMap Entered.location ++ names'.map Step.key) := by
        simpa [Entered.location] using hfront
      obtain ⟨rest'', hrest'', hlength, htake, hstart⟩ := entered_prefix_of_keys hnext
      -- an index follows both accesses, so that neither goes on beyond the other
      have hdrop : first.access.drop first'.access.length = [] := by
        cases hcase : first.access.drop first'.access.length with
        | nil => rfl
        | cons key keys => simp [hcase] at hrest''
      rw [hdrop] at hrest''
      simp only [List.map_nil, List.nil_append, List.cons.injEq] at hrest''
      obtain ⟨hindex, rfl⟩ := hrest''
      have haccess : first'.access = first.access :=
        htake.trans (List.take_of_length_le (List.drop_eq_nil_iff.mp hdrop))
      have hfirst : first = first' := by
        obtain ⟨access, index⟩ := first
        obtain ⟨access', index'⟩ := first'
        exact congrArg₂ Entered.mk haccess.symm (Step.index.inj hindex).symm
      exact List.cons_prefix_cons.mpr ⟨hfirst, ih rest' hstart⟩

/-- Two places through the same lists of which one lies inside the other are below the
same element. -/
theorem eq_of_above {a b : Cursor} {loops : List Loop} {names names' : List String}
    (ha : a.Fits loops) (hb : b.Fits loops) (h : a.below names <+: b.below names') : a = b := by
  have hentered := (entered_prefix_of_below h).eq_of_length (by
    have hdepth := ha.depth.trans hb.depth.symm
    exact hdepth)
  cases a
  cases b
  exact congrArg Cursor.mk hentered

/-- What lies below two elements of a list lies below the same element. -/
theorem index_eq_of_above {cursor inner : Cursor} {access : List String} {i j : Nat}
    (hi : (cursor.enter access i).entered <+: inner.entered)
    (hj : (cursor.enter access j).entered <+: inner.entered) : i = j := by
  have hentered := (List.prefix_of_prefix_length_le hi hj (by simp [enter])).eq_of_length
    (by simp [enter])
  simpa [enter] using hentered

end Cursor

namespace Json

/-! ## Reached elements -/

/-- The cursors at the elements that loops reach from a cursor. -/
def reach (record : Json) (cursor : Cursor) : List Loop → List Cursor
  | [] => [cursor]
  | loop :: rest =>
    (List.range (record.sizeAt (cursor.below loop.access))).flatMap fun index =>
      record.reach (cursor.enter loop.access index) rest

variable {record a b : Json} {cursor cursor' : Cursor} {loops : List Loop}

/-- A cursor is reached iff it has gone through the loops and stands at a value. -/
theorem mem_reach (hcursor : (record.locate? cursor.element).isSome) :
    cursor' ∈ record.reach cursor loops ↔
      cursor'.Under cursor loops ∧ (record.locate? cursor'.element).isSome := by
  induction loops generalizing cursor with
  | nil =>
    rw [reach, List.mem_singleton, Cursor.under_nil]
    exact ⟨fun h => ⟨h, h ▸ hcursor⟩, fun h => h.1⟩
  | cons loop rest ih =>
    have helement : ∀ index, (record.locate? (cursor.enter loop.access index).element).isSome ↔
        index < record.sizeAt (cursor.below loop.access) := fun index => by
      rw [Cursor.element_enter, isSome_locate?_index]
    simp only [reach, List.mem_flatMap, List.mem_range, Cursor.under_cons]
    constructor
    · rintro ⟨index, hindex, h⟩
      obtain ⟨hunder, hvalue⟩ := (ih ((helement index).mpr hindex)).mp h
      exact ⟨⟨index, hunder⟩, hvalue⟩
    · rintro ⟨⟨index, hunder⟩, hvalue⟩
      -- what is further inside is there, so the element around it is
      have hindex : (record.locate? (cursor.enter loop.access index).element).isSome := by
        obtain ⟨tail, htail⟩ := Cursor.element_above hunder.entered_above
        rw [← htail] at hvalue
        exact locate?_isSome_of_append hvalue
      exact ⟨index, (helement index).mp hindex, (ih hindex).mpr ⟨hunder, hvalue⟩⟩

/-- From the root, all cursors that fit and find something are reached. -/
theorem mem_reach_root :
    cursor ∈ record.reach {} loops ↔ cursor.Fits loops ∧ (record.locate? cursor.element).isSome := by
  rw [mem_reach rfl, Cursor.fits_iff_under_root]

theorem reach_append (front back : List Loop) :
    record.reach cursor (front ++ back) =
      (record.reach cursor front).flatMap (record.reach · back) := by
  induction front generalizing cursor with
  | nil => simp [reach]
  | cons loop rest ih => simp [reach, ih, List.flatMap_assoc]

/-- Whatever is reached stands under the cursor, whether or not there is a value. -/
theorem under_of_mem_reach (h : cursor' ∈ record.reach cursor loops) :
    cursor'.Under cursor loops := by
  induction loops generalizing cursor with
  | nil => exact Cursor.under_nil.mpr (List.mem_singleton.mp h)
  | cons loop rest ih =>
    obtain ⟨index, -, h⟩ := List.mem_flatMap.mp h
    exact Cursor.under_cons.mpr ⟨index, ih h⟩

/-- No element is reached twice. -/
theorem nodup_reach : (record.reach cursor loops).Nodup := by
  induction loops generalizing cursor with
  | nil => exact List.nodup_singleton cursor
  | cons loop rest ih =>
    refine List.nodup_flatMap.mpr ⟨fun index _ => ih, ?_⟩
    refine List.nodup_range.imp fun {i j} hij => ?_
    intro other hi hj
    obtain ⟨ti, hti, -⟩ := under_of_mem_reach hi
    obtain ⟨tj, htj, -⟩ := under_of_mem_reach hj
    have hentered := hti.symm.trans htj
    simp only [Cursor.enter, List.append_assoc, List.append_cancel_left_eq, List.cons_append,
      List.nil_append, List.cons.injEq, Entered.mk.injEq] at hentered
    exact hij hentered.1.2

/-- The same elements are reached where the lists on the way have the same sizes. -/
theorem reach_congr
    (h : ∀ front loop back, loops = front ++ loop :: back → ∀ middle : Cursor,
      middle.Under cursor front →
        b.sizeAt (middle.below loop.access) = a.sizeAt (middle.below loop.access)) :
    b.reach cursor loops = a.reach cursor loops := by
  induction loops generalizing cursor with
  | nil => rfl
  | cons loop rest ih =>
    have hsize := h [] loop rest rfl cursor (Cursor.under_nil.mpr rfl)
    simp only [reach, hsize]
    refine List.flatMap_congr fun index _ => ih fun front loop' back heq middle hmiddle => ?_
    exact h (loop :: front) loop' back (by rw [heq]; rfl) middle
      (Cursor.under_cons.mpr ⟨index, hmiddle⟩)

end Json

end NestedRecord
