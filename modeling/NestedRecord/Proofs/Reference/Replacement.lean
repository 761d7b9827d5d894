import NestedRecord.Proofs.Json.Overwrite
import NestedRecord.Proofs.Json.Same
import NestedRecord.Proofs.Reference.Copies
import NestedRecord.Proofs.Store.Terminating

/-!
# Replacing the copies of a reference

Both procedures of a reference look at the same copies. One collects their keys, the other
replaces those that match a parent, while it goes through the lists in which they stand: no
replacement changes what is found at another copy's place, nor which places there are.

The replacements are made while the lists are gone through, so a copy is compared with the parent
after others have been replaced. That this is the same as comparing all copies first needs two
things: copies lie apart, so each is still what it was, and none of them is above a list, so the
lists are still what they were.

- `Reference.keyFor` is the key of a record, and `Reference.Matches` says which copies are those of
  a parent.
- `Reference.keys_eq`: the keys of the copies, each once, in order of their first occurrence.
- `Reference.perform_replacing`: the replacements one after the other, as overwrites of places that
  lie apart.
- `Store.IsCompiled.reference_exact` is the result, for both procedures next to each other.
-/

namespace NestedRecord

/-! ## Distinct keys -/

namespace Reference

/-- The key of a record in its own store, if there is one that is not null. -/
def keyFor (keyOf : Option KeyFunction) (record : Json) : Option Json :=
  (keyOf.bind fun keyOf => keyOf record).bind Json.nonNull?

/-- Keys that are collected one after the other are all keys, each once, that are not null. -/
theorem foldl_addKey (found : List Json) (keys : List Json) :
    found.foldl addKey keys =
      List.eraseDupsBy.loop Json.same (found.filterMap Json.nonNull?) keys.reverse := by
  induction found generalizing keys with
  | nil => simp [List.eraseDupsBy.loop]
  | cons key rest ih =>
    rw [List.foldl_cons, ih]
    cases hkey : Json.nonNull? key with
    | none =>
      have hnull : key.isNull = true := by
        cases key <;> simp_all [Json.nonNull?, Json.isNull]
      rw [List.filterMap_cons_none hkey, addKey, hnull, Bool.true_or, if_pos rfl]
    | some key' =>
      obtain ⟨rfl, hnull⟩ : key = key' ∧ key.isNull = false := by
        cases key <;> simp_all [Json.nonNull?, Json.isNull]
      rw [List.filterMap_cons_some hkey, List.eraseDupsBy.loop, List.any_reverse, addKey, hnull,
        Bool.false_or]
      cases keys.any key.same with
      | true => rfl
      | false => simp

/-- Keys that are collected one after the other differ. -/
theorem pairwise_foldl_addKey (found : List Json) {keys : List Json}
    (h : keys.Pairwise fun first second => second.same first = false) :
    (found.foldl addKey keys).Pairwise fun first second => second.same first = false := by
  induction found generalizing keys with
  | nil => exact h
  | cons key rest ih =>
    rw [List.foldl_cons]
    refine ih ?_
    unfold addKey
    split
    · exact h
    · next hnew =>
      rw [Bool.or_eq_true, not_or, List.any_eq_true] at hnew
      refine List.pairwise_append.mpr
        ⟨h, List.pairwise_singleton _ _, fun first hfirst second hsecond => ?_⟩
      obtain rfl := List.mem_singleton.mp hsecond
      exact Bool.eq_false_iff.mpr fun hsame => hnew.2 ⟨first, hfirst, hsame⟩

/-- Equal keys are found among equal ones alike. -/
theorem any_same_eq {a b : Json} (ha : a.KeysDiffer) (hb : b.KeysDiffer) (hsame : a.same b)
    {xs ys : List Json} (hxs : ∀ x ∈ xs, x.KeysDiffer) (hys : ∀ y ∈ ys, y.KeysDiffer)
    (h : List.Forall₂ (fun x y => x.same y = true) xs ys) : xs.any a.same = ys.any b.same := by
  induction h with
  | nil => rfl
  | @cons x y xs ys hfirst _ ih =>
    obtain ⟨hx, hxs⟩ := List.forall_mem_cons.mp hxs
    obtain ⟨hy, hys⟩ := List.forall_mem_cons.mp hys
    have heq : a.same x = b.same y := by
      rw [Bool.eq_iff_iff]
      constructor
      · exact fun h => Json.same_trans hb hx hy
          (Json.same_trans hb ha hx (Json.same_symm ha hb hsame) h) hfirst
      · exact fun h => Json.same_trans ha hy hx (Json.same_trans ha hb hy hsame h)
          (Json.same_symm hx hy hfirst)
    rw [List.any_cons, List.any_cons, heq, ih hxs hys]

/-- Of equal keys the same ones are taken. -/
theorem forall₂_eraseDupsBy {xs ys : List Json} (hxs : ∀ x ∈ xs, x.KeysDiffer)
    (hys : ∀ y ∈ ys, y.KeysDiffer) (h : List.Forall₂ (fun x y => x.same y = true) xs ys) :
    List.Forall₂ (fun x y => x.same y = true) (xs.eraseDupsBy Json.same)
      (ys.eraseDupsBy Json.same) := by
  -- with what has been taken so far, which is equal on both sides
  suffices hloop : ∀ {taken taken' : List Json}, (∀ x ∈ taken, x.KeysDiffer) →
      (∀ y ∈ taken', y.KeysDiffer) → List.Forall₂ (fun x y => x.same y = true) taken taken' →
        List.Forall₂ (fun x y => x.same y = true) (List.eraseDupsBy.loop Json.same xs taken)
          (List.eraseDupsBy.loop Json.same ys taken') from
    hloop (by simp) (by simp) .nil
  induction h with
  | nil =>
    intro taken taken' _ _ htaken
    exact List.rel_reverse htaken
  | @cons x y xs ys hfirst _ ih =>
    intro taken taken' hdiffer hdiffer' htaken
    obtain ⟨hx, hxs⟩ := List.forall_mem_cons.mp hxs
    obtain ⟨hy, hys⟩ := List.forall_mem_cons.mp hys
    rw [List.eraseDupsBy.loop, List.eraseDupsBy.loop,
      any_same_eq hx hy hfirst hdiffer hdiffer' htaken]
    cases taken'.any y.same with
    | true => exact ih hxs hys hdiffer hdiffer' htaken
    | false =>
      exact ih hxs hys (List.forall_mem_cons.mpr ⟨hx, hdiffer⟩)
        (List.forall_mem_cons.mpr ⟨hy, hdiffer'⟩) (.cons hfirst htaken)

/-! ## Collecting -/

theorem keepsRecord_collecting (keyOf : KeyFunction) : (collecting keyOf).KeepsRecord :=
  fun leaf cursor state => record_collectKey keyOf leaf cursor state

/-- The keys of the copies below cursors are collected one after the other. -/
theorem keys_perform_collecting (keyOf : KeyFunction) (leaf : List String) (cursors : List Cursor)
    (state : Collection) :
    ((collecting keyOf).perform (cursors.map fun cursor => ⟨leaf, cursor⟩) state).keys =
      ((copiesAt state.record leaf cursors).filterMap fun copy => keyOf copy.2).foldl addKey
        state.keys := by
  induction cursors generalizing state with
  | nil => rfl
  | cons cursor rest ih =>
    show ((collecting keyOf).perform (rest.map fun cursor => ⟨leaf, cursor⟩)
      (collectKey keyOf leaf cursor state)).keys = _
    rw [ih, record_collectKey, collectKey]
    cases hcopy : embedded? state.record leaf cursor with
    | none => rw [copiesAt_cons_none hcopy, Option.bind_none]
    | some copy =>
      rw [copiesAt_cons_some hcopy, Option.bind_some]
      cases hkey : keyOf copy with
      | none => simp only [List.filterMap_cons, hkey]
      | some key => simp only [List.filterMap_cons, hkey, List.foldl_cons]

variable {reference : Reference} {loops : List Loop} {leaf : List String}

/-- The keys of the copies, each once, in order of their first occurrence. -/
theorem keys_eq (h : reference.Follows loops leaf) (keyOf : Option KeyFunction) (record : Json) :
    reference.keys keyOf record =
        ((copiesAt record leaf (record.reach {} loops)).filterMap fun copy =>
          keyFor keyOf copy.2).eraseDupsBy Json.same ∧
      (reference.keys keyOf record).Pairwise fun first second => second.same first = false := by
  cases keyOf with
  | none =>
    have hnone : (copiesAt record leaf (record.reach {} loops)).filterMap
        (fun copy => keyFor none copy.2) = [] := List.filterMap_eq_nil_iff.mpr fun _ _ => rfl
    rw [hnone]
    exact ⟨rfl, .nil⟩
  | some keyOf =>
    -- collecting writes nothing, so going through the lists is going over the elements
    have hrun : reference.keys (some keyOf) record =
        ((copiesAt record leaf (record.reach {} loops)).filterMap
          fun copy => keyOf copy.2).foldl addKey [] := by
      show (reference.collect.run (collecting keyOf) { record }).keys = _
      rw [Program.run_eq_performUntil _ (keepsRecord_collecting keyOf),
        Machine.performUntil_eq_perform _ _ fun _ _ => rfl, h.collects, keys_perform_collecting]
      rfl
    rw [hrun]
    refine ⟨?_, pairwise_foldl_addKey _ .nil⟩
    rw [foldl_addKey, List.filterMap_filterMap]
    rfl

/-! ## Replacing -/

/-- The copies below different elements that loops reach lie apart. -/
theorem apart_of_ne {record : Json} {cursor cursor' : Cursor} (h : cursor ∈ record.reach {} loops)
    (h' : cursor' ∈ record.reach {} loops) (hne : cursor ≠ cursor') :
    Location.Apart (cursor.below leaf) (cursor'.below leaf) := by
  have hfits := (Json.mem_reach_root.mp h).1
  have hfits' := (Json.mem_reach_root.mp h').1
  exact ⟨fun h => hne (Cursor.eq_of_above hfits hfits' h),
    fun h => hne (Cursor.eq_of_above hfits' hfits h).symm⟩

theorem pairwise_apart (record : Json) (loops : List Loop) (leaf : List String) :
    (record.reach {} loops).Pairwise fun cursor cursor' =>
      Location.Apart (cursor.below leaf) (cursor'.below leaf) := by
  have hnodup : (record.reach {} loops).Pairwise (· ≠ ·) := Json.nodup_reach
  exact hnodup.imp_of_mem fun hmem hmem' hne => apart_of_ne hmem hmem' hne

/-- Copies are the same in records that agree at their places. -/
theorem copiesAt_congr {a b : Json} {cursors : List Cursor}
    (h : ∀ cursor ∈ cursors, b.locate? (cursor.below leaf) = a.locate? (cursor.below leaf)) :
    copiesAt b leaf cursors = copiesAt a leaf cursors := by
  refine List.filterMap_congr fun cursor hcursor => ?_
  unfold embedded?
  rw [Cursor.get?_eq_locate?, Cursor.get?_eq_locate?, h cursor hcursor]

variable {parent : Parent}

/-- The copies that match a parent. -/
def matched (parent : Parent) (copies : List (Location × Json)) : List (Location × Json) :=
  copies.filter fun copy => parent.matchesCopy copy.2

/-- A matching copy is overwritten at its place. -/
theorem replaceCopy_of_matches {cursor : Cursor} {state : Replacement} {copy : Json}
    (hcopy : embedded? state.record leaf cursor = some copy) (hmatches : parent.matchesCopy copy) :
    replaceCopy parent leaf cursor state =
      ⟨Json.overwrite parent.content (cursor.below leaf) state.record, state.count + 1⟩ := by
  have hpresent : (state.record.locate? (cursor.place cursor.depth leaf)).isSome := by
    rw [Cursor.place_depth, (embedded?_eq_some.mp hcopy).1]
    rfl
  obtain ⟨record, hset⟩ : ∃ record,
      cursor.setAt? state.record cursor.depth leaf parent.content = some record := by
    rw [← Option.isSome_iff_exists]
    by_cases hleaf : leaf = []
    · obtain ⟨part, hpart⟩ := Option.isSome_iff_exists.mp hpresent
      subst hleaf
      refine (Json.modifyAt?_isSome _ _).mpr ⟨part, ?_, rfl⟩
      simpa [Cursor.place] using hpart
    · exact (Cursor.setAt?_isSome hleaf).mpr (Cursor.owned_of_isSome hleaf hpresent)
  have hrecord := Cursor.setAt?_eq_overwrite hpresent hset
  rw [Cursor.place_depth] at hrecord
  unfold replaceCopy
  simp only [hcopy, hset, hrecord]
  rw [if_pos hmatches]

/-- Any other copy stays. -/
theorem replaceCopy_of_not_matches {cursor : Cursor} {state : Replacement} {copy : Json}
    (hcopy : embedded? state.record leaf cursor = some copy)
    (hmatches : parent.matchesCopy copy = false) :
    replaceCopy parent leaf cursor state = state := by
  unfold replaceCopy
  simp only [hcopy]
  rw [if_neg (Bool.eq_false_iff.mp hmatches)]

theorem replaceCopy_of_none {cursor : Cursor} {state : Replacement}
    (hcopy : embedded? state.record leaf cursor = none) :
    replaceCopy parent leaf cursor state = state := by
  unfold replaceCopy
  simp only [hcopy]

/-- Replacements below cursors that lie apart overwrite the matching copies, each as it was
found at the start. -/
theorem perform_replacing {cursors : List Cursor}
    (hapart : cursors.Pairwise fun cursor cursor' =>
      Location.Apart (cursor.below leaf) (cursor'.below leaf)) (state : Replacement) :
    (replacing parent).perform (cursors.map fun cursor => ⟨leaf, cursor⟩) state =
      ⟨Json.overwriteAll ((matched parent (copiesAt state.record leaf cursors)).map fun copy =>
          (copy.1, parent.content)) state.record,
        state.count + (matched parent (copiesAt state.record leaf cursors)).length⟩ := by
  induction cursors generalizing state with
  | nil => rfl
  | cons cursor rest ih =>
    obtain ⟨hfirst, hrest⟩ := List.pairwise_cons.mp hapart
    show (replacing parent).perform (rest.map fun cursor => ⟨leaf, cursor⟩)
      (replaceCopy parent leaf cursor state) = _
    rw [ih hrest]
    cases hcopy : embedded? state.record leaf cursor with
    | none => rw [replaceCopy_of_none hcopy, copiesAt_cons_none hcopy]
    | some copy =>
      rw [copiesAt_cons_some hcopy]
      cases hmatches : parent.matchesCopy copy with
      | false =>
        rw [replaceCopy_of_not_matches hcopy hmatches, matched, matched,
          List.filter_cons_of_neg (by simp [hmatches])]
      | true =>
        -- the other copies are found as before
        have hsame : copiesAt (Json.overwrite parent.content (cursor.below leaf) state.record) leaf
            rest = copiesAt state.record leaf rest :=
          copiesAt_congr fun other hother => Json.locate?_overwrite_of_apart _ _
            (hfirst other hother).1 (hfirst other hother).2
        rw [replaceCopy_of_matches hcopy hmatches, matched, matched,
          List.filter_cons_of_pos (by simp [hmatches])]
        simp only [hsame, List.map_cons, Json.overwriteAll_cons, List.length_cons]
        rw [Nat.add_assoc, Nat.add_comm 1]

/-- No copy lies on the way to a list that the loops go through. -/
theorem not_above_list {inner cursor : Cursor} {front back : List Loop} {last : Loop}
    (hinner : inner.Fits (front ++ last :: back)) (hcursor : cursor.Fits front) :
    ¬ inner.below leaf <+: cursor.below last.access := by
  intro hstart
  have hdepth := (Cursor.entered_prefix_of_below hstart).length_le
  have hinner := hinner.depth
  have hcursor := hcursor.depth
  rw [Cursor.depth] at hinner hcursor
  rw [List.length_append, List.length_cons] at hinner
  omega

/-- A run performs the replacements, since no list that it goes through changes its size. -/
theorem run_replacing (h : reference.Follows loops leaf) (parent : Parent) (state : Replacement) :
    reference.replace.run (replacing parent) state =
      (replacing parent).perform ((state.record.reach {} loops).map fun cursor => ⟨leaf, cursor⟩)
        state := by
  rw [← h.replaces]
  refine (reference.replace.run_eq_perform (replacing parent)
    (fun other => Json.SameOutside (fun location => ∃ cursor : Cursor, cursor.Fits loops ∧
      location = cursor.below leaf) state.record other.record)
    (fun _ => rfl) ?act ?size (.refl _ _)).1
  case act =>
    intro loops' leaf' hplaced cursor hfits other hother
    obtain ⟨rfl, rfl⟩ := h.placed loops' leaf' hplaced
    refine hother.trans ((replaceCopy_sameOutside parent leaf' cursor other).mono ?_)
    rintro location rfl
    exact ⟨cursor, hfits, rfl⟩
  -- a list is resized only by a copy at it or above it, and there is none
  case size =>
    intro front last hlist cursor hfits other hother
    rw [Machine.size_eq_sizeAt]
    refine hother.sizeAt_eq ?_
    rintro location ⟨inner, hinner, rfl⟩
    obtain ⟨back, rfl⟩ := h.lists _ hlist
    rw [List.append_assoc] at hinner
    exact not_above_list hinner hfits

/-! ## What a replacement leaves -/

/-- The record whose copies a reference replaces. -/
def parentOf (reference : Reference) (keyOf : Option KeyFunction) (parent : Json) : Parent where
  content := parent
  identityKey := reference.identityKey
  keyOf := keyOf.getD fun _ => none

section After

variable (record : Json) (loops : List Loop) (leaf : List String) (parent : Parent)

/-- What a replacement writes at which places. -/
def replacements : List (Location × Json) :=
  (matched parent (copiesAt record leaf (record.reach {} loops))).map fun copy =>
    (copy.1, parent.content)

/-- What is replaced lies apart. -/
theorem pairwise_apart_replacements :
    (replacements record loops leaf parent).Pairwise fun first second =>
      Location.Apart first.1 second.1 := by
  refine List.pairwise_map.mpr (List.Pairwise.sublist List.filter_sublist ?_)
  refine List.Pairwise.filterMap _ ?_ (pairwise_apart record loops leaf)
  intro cursor cursor' hcursors entry hentry entry' hentry'
  obtain ⟨copy, -, rfl⟩ := Option.map_eq_some_iff.mp hentry
  obtain ⟨copy', -, rfl⟩ := Option.map_eq_some_iff.mp hentry'
  exact hcursors

variable {record loops leaf parent}

/-- The replacements are those of matching copies. -/
theorem mem_replacements {write : Location × Json} :
    write ∈ replacements record loops leaf parent ↔
      ∃ cursor ∈ record.reach {} loops, write = (cursor.below leaf, parent.content) ∧
        ∃ copy, embedded? record leaf cursor = some copy ∧ parent.matchesCopy copy = true := by
  constructor
  · intro h
    obtain ⟨⟨location, copy⟩, hmem, rfl⟩ := List.mem_map.mp h
    obtain ⟨hmem, hmatches⟩ := List.mem_filter.mp hmem
    obtain ⟨cursor, hcursor, rfl, hcopy⟩ := mem_copiesAt.mp hmem
    exact ⟨cursor, hcursor, rfl, copy, hcopy, hmatches⟩
  · rintro ⟨cursor, hcursor, rfl, copy, hcopy, hmatches⟩
    exact List.mem_map.mpr ⟨(cursor.below leaf, copy), List.mem_filter.mpr
      ⟨mem_copiesAt.mpr ⟨cursor, hcursor, rfl, hcopy⟩, hmatches⟩, rfl⟩

/-- What stands below a cursor after the replacement. -/
theorem locate?_overwriteAll_replacements (leaf : List String) (parent : Parent) {cursor : Cursor}
    (hcursor : cursor ∈ record.reach {} loops) :
    (Json.overwriteAll (replacements record loops leaf parent) record).locate?
        (cursor.below leaf) =
      if (embedded? record leaf cursor).any parent.matchesCopy then some parent.content
      else record.locate? (cursor.below leaf) := by
  split
  · next hmatches =>
    obtain ⟨copy, hcopy, hmatches⟩ := Option.any_eq_true _ _ |>.mp hmatches
    have hmem : (cursor.below leaf, parent.content) ∈ replacements record loops leaf parent :=
      mem_replacements.mpr ⟨cursor, hcursor, rfl, copy, hcopy, hmatches⟩
    refine Json.locate?_overwriteAll_self (pairwise_apart_replacements _ _ _ _) hmem ?_
    rw [(embedded?_eq_some.mp hcopy).1]
    rfl
  · next hmatches =>
    refine Json.locate?_overwriteAll_of_apart (fun write hwrite => ?_) record
    obtain ⟨other, hother, rfl, copy, hcopy, hcopied⟩ := mem_replacements.mp hwrite
    refine apart_of_ne hother hcursor ?_
    rintro rfl
    exact hmatches (Option.any_eq_true _ _ |>.mpr ⟨copy, hcopy, hcopied⟩)

/-- The copies after a replacement by an object: it stands in place of those that match. -/
theorem copiesAt_overwriteAll (parent : Parent) (hobject : parent.content.isObject = true) :
    copiesAt (Json.overwriteAll (replacements record loops leaf parent) record) leaf
        (record.reach {} loops) =
      (copiesAt record leaf (record.reach {} loops)).map fun copy =>
        (copy.1, if parent.matchesCopy copy.2 then parent.content else copy.2) := by
  unfold copiesAt
  rw [List.map_filterMap]
  refine List.filterMap_congr fun cursor hcursor => ?_
  have hlocate := locate?_overwriteAll_replacements leaf parent hcursor
  cases hcopy : embedded? record leaf cursor with
  | none =>
    have hnone : embedded? (Json.overwriteAll (replacements record loops leaf parent) record) leaf
        cursor = none := by
      rw [hcopy, Option.any_none, if_neg Bool.false_ne_true] at hlocate
      unfold embedded? at hcopy ⊢
      rw [Cursor.get?_eq_locate?] at hcopy ⊢
      rw [hlocate, hcopy]
    rw [hnone]
    rfl
  | some copy =>
    rw [hcopy, Option.any_some] at hlocate
    have hafter : embedded? (Json.overwriteAll (replacements record loops leaf parent) record) leaf
        cursor = some (if parent.matchesCopy copy then parent.content else copy) := by
      rw [embedded?_eq_some, hlocate]
      split
      · exact ⟨rfl, hobject⟩
      · exact embedded?_eq_some.mp hcopy
    rw [hafter]
    rfl

end After

/-- A replacement overwrites the matching copies by the parent and counts them. -/
theorem overwrite_eq (h : reference.Follows loops leaf) (keyOf : Option KeyFunction)
    (parent record : Json) :
    reference.overwrite keyOf parent record =
      ⟨Json.overwriteAll (replacements record loops leaf (reference.parentOf keyOf parent)) record,
        (matched (reference.parentOf keyOf parent)
          (copiesAt record leaf (record.reach {} loops))).length⟩ := by
  show reference.replace.run (replacing (reference.parentOf keyOf parent)) { record } = _
  rw [run_replacing h, perform_replacing (pairwise_apart record loops leaf), Nat.zero_add]
  rfl

/-- Replacements leave all elements where they are. -/
theorem reach_overwrite (h : reference.Follows loops leaf) (keyOf : Option KeyFunction)
    (parent record : Json) :
    (reference.overwrite keyOf parent record).record.reach {} loops = record.reach {} loops := by
  rw [overwrite_eq h]
  refine Json.reach_congr fun front last back hloops middle hmiddle => ?_
  refine (Json.overwriteAll_sameOutside _ record).sizeAt_eq ?_
  rintro location ⟨write, hwrite, rfl⟩
  obtain ⟨cursor, hcursor, rfl, -⟩ := mem_replacements.mp hwrite
  have hfits := (Json.mem_reach_root.mp hcursor).1
  rw [hloops] at hfits
  exact not_above_list hfits (Cursor.fits_iff_under_root.mpr hmiddle)

/-- The copies after a replacement by an object. -/
theorem copiesAt_overwrite (h : reference.Follows loops leaf) (keyOf : Option KeyFunction)
    {parent : Json} (hobject : parent.isObject = true) (record : Json) :
    copiesAt (reference.overwrite keyOf parent record).record leaf
        ((reference.overwrite keyOf parent record).record.reach {} loops) =
      (copiesAt record leaf (record.reach {} loops)).map fun copy =>
        (copy.1,
          if (reference.parentOf keyOf parent).matchesCopy copy.2 then parent else copy.2) := by
  rw [reach_overwrite h, overwrite_eq h]
  exact copiesAt_overwriteAll (reference.parentOf keyOf parent) hobject

/-- Once the copies of a parent have been replaced nothing is left to change. -/
theorem overwrite_overwrite (h : reference.Follows loops leaf) (keyOf : Option KeyFunction)
    {parent : Json} (hobject : parent.isObject = true) (record : Json) :
    (reference.overwrite keyOf parent (reference.overwrite keyOf parent record).record).record =
      (reference.overwrite keyOf parent record).record := by
  have hcopies := copiesAt_overwrite h keyOf hobject record
  rw [overwrite_eq h keyOf parent (reference.overwrite keyOf parent record).record]
  refine Json.overwriteAll_eq_self fun write hwrite present hpresent => ?_
  obtain ⟨⟨location, copy⟩, hmem, rfl⟩ := List.mem_map.mp hwrite
  obtain ⟨hmem, hmatches⟩ := List.mem_filter.mp hmem
  obtain ⟨cursor, -, rfl, hfound⟩ := mem_copiesAt.mp hmem
  rw [hcopies] at hmem
  obtain ⟨⟨place, old⟩, -, heq⟩ := List.mem_map.mp hmem
  obtain ⟨-, rfl⟩ := Prod.mk.inj heq
  have hpresent := Option.some.inj (hpresent.symm.trans (embedded?_eq_some.mp hfound).1)
  -- a copy that matches is the parent by now, for the old one would have been replaced
  cases hold : (reference.parentOf keyOf parent).matchesCopy old with
  | true => exact hpresent.trans (if_pos hold)
  | false => simp [hold] at hmatches

/-! ## Copies of a parent -/

/-- Whether a copy is one of a parent: they have the same identity or, when one of them has none,
the same key. -/
inductive Matches (identityKey : String) (keyOf : Option KeyFunction) (parent copy : Json) : Prop
  | identity {own other : Json} (copyIdentity : identity? identityKey copy = some own)
      (parentIdentity : identity? identityKey parent = some other) (same : own.same other)
  | key {own other : Json}
      (lacking : identity? identityKey copy = none ∨ identity? identityKey parent = none)
      (copyKey : keyFor keyOf copy = some own) (parentKey : keyFor keyOf parent = some other)
      (same : own.same other)

theorem nonNull?_eq_some {value key : Json} :
    value.nonNull? = some key ↔ value = key ∧ key.isNull = false := by
  constructor
  · intro h
    cases value <;> first | (obtain rfl := Option.some.inj h; exact ⟨rfl, rfl⟩) | cases h
  · rintro ⟨rfl, hnull⟩
    cases value <;> first | rfl | cases hnull

/-- A record has the key that the function gives, if it is not null. -/
theorem keyFor_eq_some {keyOf : Option KeyFunction} {record key : Json} :
    keyFor keyOf record = some key ↔
      (keyOf.getD fun _ => none) record = some key ∧ key.isNull = false := by
  cases keyOf with
  | none => simp [keyFor]
  | some keyOf =>
    simp only [keyFor, Option.bind_some, Option.getD_some, Option.bind_eq_some_iff,
      nonNull?_eq_some]
    exact ⟨fun ⟨_, hkey, rfl, hnull⟩ => ⟨hkey, hnull⟩, fun ⟨hkey, hnull⟩ => ⟨key, hkey, rfl, hnull⟩⟩

/-- A key that is equal to one that is not null is not null either. -/
theorem isNull_of_same {own other : Json} (h : own.same other) (hother : other.isNull = false) :
    own.isNull = false := by
  cases own with
  | null => cases other <;> simp [Json.same, Json.isNull] at h hother
  | _ => rfl

/-- Without two identities the keys decide whether a copy matches. -/
theorem matchesCopy_iff_keyFor {keyOf : Option KeyFunction} {content copy : Json}
    (hlacking : identity? reference.identityKey copy = none ∨
      identity? reference.identityKey content = none) :
    (reference.parentOf keyOf content).matchesCopy copy = true ↔
      ∃ own other, keyFor keyOf copy = some own ∧ keyFor keyOf content = some other ∧
        own.same other = true := by
  have hparent : (reference.parentOf keyOf content).key? = keyFor keyOf content := by
    cases keyOf <;> rfl
  unfold Parent.matchesCopy
  split
  · next own other hown hother =>
    change identity? reference.identityKey copy = some own at hown
    change identity? reference.identityKey content = some other at hother
    rw [hown, hother] at hlacking
    rcases hlacking with hnone | hnone <;> cases hnone
  · rw [hparent]
    constructor
    · intro h
      split at h
      · next key copyKey hkey hcopyKey =>
        -- an equal key is not null either, so the copy has a key
        have hnull := isNull_of_same h (keyFor_eq_some.mp hkey).2
        exact ⟨copyKey, key, keyFor_eq_some.mpr ⟨hcopyKey, hnull⟩, hkey, h⟩
      · cases h
    · rintro ⟨own, other, hown, hother, hsame⟩
      have hcopy : (reference.parentOf keyOf content).keyOf copy = some own :=
        (keyFor_eq_some.mp hown).1
      simp only [hother, hcopy, hsame]

/-- With two identities these decide. -/
theorem matchesCopy_iff_same {keyOf : Option KeyFunction} {content copy own other : Json}
    (hcopy : identity? reference.identityKey copy = some own)
    (hparent : identity? reference.identityKey content = some other) :
    (reference.parentOf keyOf content).matchesCopy copy = true ↔ own.same other = true := by
  unfold Parent.matchesCopy
  rw [show identity? (reference.parentOf keyOf content).identityKey copy = some own from hcopy,
    show identity? (reference.parentOf keyOf content).identityKey
      (reference.parentOf keyOf content).content = some other from hparent]

/-- The test of the procedure is the matching that is declared. -/
theorem matchesCopy_iff {keyOf : Option KeyFunction} {content copy : Json} :
    (reference.parentOf keyOf content).matchesCopy copy = true ↔
      Matches reference.identityKey keyOf content copy := by
  constructor
  · intro h
    cases hcopy : identity? reference.identityKey copy with
    | none =>
      obtain ⟨own, other, hown, hother, hsame⟩ := (matchesCopy_iff_keyFor (.inl hcopy)).mp h
      exact .key (.inl hcopy) hown hother hsame
    | some own =>
      cases hparent : identity? reference.identityKey content with
      | none =>
        obtain ⟨own, other, hown, hother, hsame⟩ := (matchesCopy_iff_keyFor (.inr hparent)).mp h
        exact .key (.inr hparent) hown hother hsame
      | some other =>
        exact .identity hcopy hparent ((matchesCopy_iff_same hcopy hparent).mp h)
  · intro h
    cases h with
    | identity hcopy hparent hsame => exact (matchesCopy_iff_same hcopy hparent).mpr hsame
    | key hlacking hown hother hsame =>
      exact (matchesCopy_iff_keyFor hlacking).mpr ⟨_, _, hown, hother, hsame⟩

/-- The copies of a parent have been replaced, and nothing else has. -/
structure Replaces (identityKey : String) (keyOf : Option KeyFunction) (parent record : Json)
    (copies replaced : List (Location × Json)) (final : Replacement) : Prop where
  sublist : replaced.Sublist copies
  mem_iff : ∀ copy ∈ copies, copy ∈ replaced ↔ Matches identityKey keyOf parent copy.2
  count_eq : final.count = replaced.length
  record_eq : final.record =
    Json.overwriteAll (replaced.map fun copy => (copy.1, parent)) record
  written : ∀ copy ∈ replaced, final.record.locate? copy.1 = some parent
  elsewhere : Json.SameOutside (fun location => ∃ copy ∈ replaced, copy.1 = location) record
    final.record

/-- A replacement replaces the matching copies. -/
theorem replaces_overwrite (h : reference.Follows loops leaf) (keyOf : Option KeyFunction)
    (parent record : Json) :
    Replaces reference.identityKey keyOf parent record
      (copiesAt record leaf (record.reach {} loops))
      (matched (reference.parentOf keyOf parent) (copiesAt record leaf (record.reach {} loops)))
      (reference.overwrite keyOf parent record) where
  sublist := List.filter_sublist
  mem_iff copy hcopy := by
    rw [matched, List.mem_filter, matchesCopy_iff]
    exact and_iff_right hcopy
  count_eq := by rw [overwrite_eq h]
  record_eq := by
    rw [overwrite_eq h]
    rfl
  written copy hcopy := by
    obtain ⟨location, content⟩ := copy
    rw [overwrite_eq h]
    have hwrite : (location, parent) ∈ replacements record loops leaf
        (reference.parentOf keyOf parent) := List.mem_map.mpr ⟨(location, content), hcopy, rfl⟩
    obtain ⟨cursor, -, rfl, hfound⟩ := mem_copiesAt.mp (List.mem_filter.mp hcopy).1
    refine Json.locate?_overwriteAll_self (pairwise_apart_replacements _ _ _ _) hwrite ?_
    rw [(embedded?_eq_some.mp hfound).1]
    rfl
  elsewhere := by
    rw [overwrite_eq h]
    refine (Json.overwriteAll_sameOutside _ record).mono ?_
    rintro location ⟨write, hwrite, rfl⟩
    obtain ⟨copy, hcopy, rfl⟩ := List.mem_map.mp hwrite
    exact ⟨copy, hcopy, rfl⟩

/-- Without identities the copies of a parent are replaced by what has the same key. -/
theorem keys_overwrite (h : reference.Follows loops leaf) (keyOf : Option KeyFunction)
    {parent : Json} (hobject : parent.isObject = true) (record : Json)
    (hkeys : ∀ value key, keyFor keyOf value = some key → key.KeysDiffer)
    (hlacking : ∀ copy ∈ copiesAt record leaf (record.reach {} loops),
      identity? reference.identityKey copy.2 = none ∨
        identity? reference.identityKey parent = none) :
    List.Forall₂ (fun key key' => key.same key' = true)
      (reference.keys keyOf (reference.overwrite keyOf parent record).record)
      (reference.keys keyOf record) := by
  rw [(keys_eq h keyOf _).1, (keys_eq h keyOf record).1, copiesAt_overwrite h keyOf hobject]
  have hdiffer (copies : List (Location × Json)) :
      ∀ key ∈ copies.filterMap fun copy => keyFor keyOf copy.2, key.KeysDiffer := by
    intro key hkey
    obtain ⟨copy, -, hkey⟩ := List.mem_filterMap.mp hkey
    exact hkeys copy.2 key hkey
  refine forall₂_eraseDupsBy (hdiffer _) (hdiffer _) ?_
  generalize copiesAt record leaf (record.reach {} loops) = copies at hlacking
  induction copies with
  | nil => exact .nil
  | cons copy rest ih =>
    obtain ⟨hfirst, hrest⟩ := List.forall_mem_cons.mp hlacking
    rw [List.map_cons]
    cases hmatches : (reference.parentOf keyOf parent).matchesCopy copy.2 with
    | true =>
      rw [if_pos rfl]
      -- one of the two has no identity, so the copy was matched by an equal key
      cases matchesCopy_iff.mp hmatches with
      | identity hown hother _ => rcases hfirst with hnone | hnone <;> simp_all
      | @key own other _ hown hother hsame =>
        simp only [List.filterMap_cons, hother, hown]
        exact .cons (Json.same_symm (hkeys _ _ hown) (hkeys _ _ hother) hsame) (ih hrest)
    | false =>
      rw [if_neg Bool.false_ne_true]
      cases hkey : keyFor keyOf copy.2 with
      | none =>
        simp only [List.filterMap_cons, hkey]
        exact ih hrest
      | some key =>
        simp only [List.filterMap_cons, hkey]
        exact .cons (hkeys _ _ hkey).same_self (ih hrest)

end Reference

namespace Store.IsCompiled

variable {store : Store}

/-- A reference of a store acts on its copies and on nothing else. Their keys are found each once,
in order of their first occurrence. Those of a parent, and no others, are replaced by it and
counted; to do so again changes nothing, and if neither the parent nor any copy has an identity the
same keys are found as before. -/
theorem reference_exact (h : store.IsCompiled) {foreign : String} {reference : Reference}
    (hreference : store.reference? foreign = some reference) (keyOf : Option KeyFunction)
    (record : Json) :
    (reference.path, foreign) ∈ store.metadata.references ∧
      ∃ copies, store.blueprint.Copies reference.path record copies ∧
        reference.keys keyOf record =
          (copies.filterMap fun copy => Reference.keyFor keyOf copy.2).eraseDupsBy Json.same ∧
        (reference.keys keyOf record).Pairwise (fun first second => second.same first = false) ∧
        ∀ parent, parent.isObject = true →
          (∃ replaced, Reference.Replaces store.config.identityKey keyOf parent record copies
            replaced (reference.overwrite keyOf parent record)) ∧
          (reference.overwrite keyOf parent
              (reference.overwrite keyOf parent record).record).record =
            (reference.overwrite keyOf parent record).record ∧
          ((∀ value key, Reference.keyFor keyOf value = some key → key.KeysDiffer) →
            (∀ copy ∈ copies, identity? store.config.identityKey copy.2 = none ∨
              identity? store.config.identityKey parent = none) →
              List.Forall₂ (fun key key' => key.same key' = true)
                (reference.keys keyOf (reference.overwrite keyOf parent record).record)
                (reference.keys keyOf record)) := by
  obtain ⟨hmem, hcompile⟩ := h.of_reference? hreference
  obtain ⟨-, hidentity, resolved, hresolve, hscalar, hfollows⟩ := Reference.exists_follows hcompile
  have hidentity : reference.identityKey = store.config.identityKey := hidentity
  refine ⟨hmem, _, Reference.copies_copiesAt h.levelsDeclared hresolve hscalar record,
    (Reference.keys_eq hfollows keyOf record).1, (Reference.keys_eq hfollows keyOf record).2,
    fun parent hobject => ⟨⟨_, hidentity ▸ Reference.replaces_overwrite hfollows keyOf parent record⟩,
      Reference.overwrite_overwrite hfollows keyOf hobject record, fun hkeys hlacking => ?_⟩⟩
  rw [← hidentity] at hlacking
  exact Reference.keys_overwrite hfollows keyOf hobject record hkeys hlacking

/-- Orders whose lines embed products of another store. -/
def ordersWithProducts : Descriptor :=
  .mk [("id", .tuple [.word "int", .word "<<id>>"]),
    ("lines", .tuple [.word "array", .nested (.mk [
      ("n", .tuple [.word "int", .word "<<n>>"]),
      ("product", .tuple [.word "object", .word "ref", .word "@products", .nested (.mk [
        ("sku", .tuple [.word "string"]), ("label", .tuple [.word "string"])])])])])]

/-- The store of these orders. -/
def productOrders : Store := compiled "orders" ordersWithProducts (by decide +kernel)

def product (sku label : String) : Json := .object [("sku", .string sku), ("label", .string label)]

/-- An order with four lines, one of them without a product. -/
def fourLines : Json :=
  .object [("id", .ofNat 1), ("lines", .array
    [.object [("n", .ofNat 1), ("product", product "a" "Apple")],
      .object [("n", .ofNat 2), ("product", product "b" "Bread")],
      .object [("n", .ofNat 3), ("product", product "a" "Apples")], .object [("n", .ofNat 4)]])]

/-- The number of a product, if it is a text. -/
def skuOf (record : Json) : Option Json :=
  match record.get? "sku" with
  | some (.string sku) => some (.string sku)
  | _ => none

/-- Two lines have the product, and both get its new label. -/
theorem reference_exact_productOrders : productOrders.IsCompiled ∧
    ∃ reference, productOrders.reference? "products" = some reference ∧
      reference.path = "lines.product" ∧
      (product "a" "Apricot").isObject = true ∧
      (reference.keys (some skuOf) fourLines).map Json.render = ["\"a\"", "\"b\""] ∧
      (reference.overwrite (some skuOf) (product "a" "Apricot") fourLines).count = 2 ∧
      List.Forall₂ (fun key key' => key.same key' = true)
        (reference.keys (some skuOf)
          (reference.overwrite (some skuOf) (product "a" "Apricot") fourLines).record)
        (reference.keys (some skuOf) fourLines) := by
  have hcompiled : productOrders.IsCompiled := isCompiled_compiled "orders" ordersWithProducts _
  have hresults : (productOrders.reference? "products").map (fun reference =>
      (reference.path, (reference.keys (some skuOf) fourLines).map Json.render,
        (reference.overwrite (some skuOf) (product "a" "Apricot") fourLines).count)) =
      some ("lines.product", ["\"a\"", "\"b\""], 2) := by
    decide +kernel
  obtain ⟨reference, hreference, hresults⟩ := Option.map_eq_some_iff.mp hresults
  simp only [Prod.mk.injEq] at hresults
  obtain ⟨hpath, hkeys, hcount⟩ := hresults
  obtain ⟨-, copies, -, -, -, hparent⟩ :=
    reference_exact hcompiled hreference (some skuOf) fourLines
  obtain ⟨-, -, hsame⟩ := hparent (product "a" "Apricot") rfl
  have htexts (value key : Json) (h : Reference.keyFor (some skuOf) value = some key) :
      key.KeysDiffer := by
    have hkey : skuOf value = some key := (Reference.keyFor_eq_some.mp h).1
    unfold skuOf at hkey
    split at hkey
    · obtain rfl := Option.some.inj hkey
      exact .of_leaf nofun nofun
    · cases hkey
  exact ⟨hcompiled, reference, hreference, hpath, rfl, hkeys, hcount,
    hsame htexts fun _ _ => .inr (by decide +kernel)⟩

end Store.IsCompiled

end NestedRecord
