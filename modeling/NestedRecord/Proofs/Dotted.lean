import NestedRecord.Dotted

/-!
# Dotted paths and their names

Declared paths are texts with points in them, and they are looked up in two ways: by their names,
and by what is left of a text behind the path of a level. The two agree where no name has a point in
it, and nothing is asked of a name otherwise.

- `after?_eq_some`: what follows a beginning.
- `splitFirst?_eq_some`: the pieces around the first separator.
- `splitAtChar_append`: a separator cuts a text into the pieces before and behind it.
- `intercalate_splitAtChar`: the pieces put together are the text, so that a path is known by its
  names (`segments_injective`).
- `segments_of_below`: the names of a path below another one.
-/

namespace NestedRecord

/-- What is left behind a beginning, put behind it, is the whole. -/
theorem after?_eq_some {front cs rest : List Char} :
    after? front cs = some rest ↔ cs = front ++ rest := by
  induction front generalizing cs with
  | nil => simp [after?]
  | cons f front ih =>
    cases cs with
    | nil => simp [after?]
    | cons c cs =>
      by_cases h : f = c
      · simp [after?, h, ih]
      · simp [after?, h, Ne.symm h]

variable {separator : Char}

/-- A text is split where the separator stands for the first time. -/
theorem splitFirst?_eq_some {cs front back : List Char} :
    splitFirst? separator cs = some (front, back) ↔
      cs = front ++ separator :: back ∧ separator ∉ front := by
  induction cs generalizing front with
  | nil => simp [splitFirst?]
  | cons c cs ih =>
    by_cases hc : c = separator
    · subst hc
      cases front with
      | nil => simp [splitFirst?]
      | cons f front =>
        simp only [splitFirst?, ↓reduceIte, List.cons_append, List.cons.injEq, List.mem_cons]
        grind
    · cases front with
      | nil => simp [splitFirst?, hc]
      | cons f front =>
        simp only [splitFirst?, if_neg hc, Option.map_eq_some_iff, Prod.exists, Prod.mk.injEq,
          List.cons_append, List.cons.injEq, List.mem_cons, not_or]
        grind

theorem splitAtChar_ne_nil (separator : Char) (cs : List Char) : splitAtChar separator cs ≠ [] := by
  cases cs with
  | nil => simp [splitAtChar]
  | cons c cs =>
    unfold splitAtChar
    split
    · simp
    · split <;> simp

/-- A character that does not separate belongs to the first piece. -/
theorem splitAtChar_cons_of_ne {c : Char} {cs piece : List Char} {pieces : List (List Char)}
    (hc : c ≠ separator) (h : splitAtChar separator cs = piece :: pieces) :
    splitAtChar separator (c :: cs) = (c :: piece) :: pieces := by
  rw [splitAtChar, if_neg hc, h]

/-- A separator ends a piece and begins another one. -/
theorem splitAtChar_append (front back : List Char) :
    splitAtChar separator (front ++ separator :: back) =
      splitAtChar separator front ++ splitAtChar separator back := by
  induction front with
  | nil => simp [splitAtChar]
  | cons c front ih =>
    by_cases hc : c = separator
    · rw [List.cons_append, splitAtChar, if_pos hc, ih, splitAtChar, if_pos hc]
      rfl
    · obtain ⟨piece, pieces, hpieces⟩ :=
        List.exists_cons_of_ne_nil (splitAtChar_ne_nil separator front)
      rw [hpieces] at ih
      rw [List.cons_append, splitAtChar_cons_of_ne hc ih, splitAtChar_cons_of_ne hc hpieces]
      rfl

/-- The pieces put together again. -/
theorem intercalate_splitAtChar (cs : List Char) :
    [separator].intercalate (splitAtChar separator cs) = cs := by
  induction cs with
  | nil => rfl
  | cons c cs ih =>
    by_cases hc : c = separator
    · rw [splitAtChar, if_pos hc, List.intercalate_cons_of_ne_nil (splitAtChar_ne_nil _ cs), ih, hc]
      rfl
    · obtain ⟨piece, pieces, hpieces⟩ :=
        List.exists_cons_of_ne_nil (splitAtChar_ne_nil separator cs)
      rw [splitAtChar_cons_of_ne hc hpieces, List.intercalate_cons_cons_left, ← hpieces, ih]

theorem splitAtChar_injective {cs ds : List Char}
    (h : splitAtChar separator cs = splitAtChar separator ds) : cs = ds := by
  rw [← intercalate_splitAtChar cs, h, intercalate_splitAtChar]

/-- Without a separator there is one piece. -/
theorem splitAtChar_of_not_mem {cs : List Char} (h : separator ∉ cs) :
    splitAtChar separator cs = [cs] := by
  induction cs with
  | nil => rfl
  | cons c cs ih =>
    rw [List.mem_cons, not_or] at h
    exact splitAtChar_cons_of_ne (Ne.symm h.1) (ih h.2)

/-- A name without points is its own only name. -/
theorem segments_of_dotless {name : String} (h : '.' ∉ name.toList) : segments name = [name] := by
  rw [segments, splitAtChar_of_not_mem h, List.map_singleton, String.ofList_toList]

/-- The names of a place and of a name below it. -/
theorem segments_joinPath {place name : String} (hplace : place ≠ "") (h : '.' ∉ name.toList) :
    segments (joinPath place name) = segments place ++ [name] := by
  have hempty : place.isEmpty = false := by
    rw [Bool.eq_false_iff]
    exact fun hempty => hplace (String.isEmpty_iff.mp hempty)
  rw [joinPath, hempty, if_neg Bool.false_ne_true, segments, String.toList_append,
    String.toList_append, List.append_assoc]
  show (splitAtChar '.' (place.toList ++ '.' :: name.toList)).map String.ofList = _
  rw [splitAtChar_append, List.map_append]
  exact congrArg _ (segments_of_dotless h)

/-- The empty path has one name, an empty one. -/
theorem segments_ne_nil (path : String) : segments path ≠ [] := by
  unfold segments
  exact fun h => splitAtChar_ne_nil _ _ (List.map_eq_nil_iff.mp h)

/-- A path is known by its names. -/
theorem segments_injective {path path' : String} (h : segments path = segments path') :
    path = path' := by
  unfold segments at h
  have hpieces := congrArg (List.map String.toList) h
  simp only [List.map_map, Function.comp_def, String.toList_ofList, List.map_id'] at hpieces
  exact String.toList_injective (splitAtChar_injective hpieces)

/-- The names of a path below another one: those of the place, then those below it. -/
theorem segments_of_below {place path : String} {rest : List Char}
    (h : after? (place.toList ++ ['.']) path.toList = some rest) :
    segments path = segments place ++ segments (String.ofList rest) := by
  have hpath := after?_eq_some.mp h
  rw [List.append_assoc, List.singleton_append] at hpath
  unfold segments
  rw [hpath, splitAtChar_append, List.map_append, String.toList_ofList]

/-- What stands behind a place in a path below it. -/
theorem after?_below (place rest : String) :
    after? (place.toList ++ ['.']) (place ++ "." ++ rest).toList = some rest.toList := by
  rw [after?_eq_some]
  simp

end NestedRecord
