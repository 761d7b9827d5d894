import NestedRecord.Proofs.Json.Overwrite
import NestedRecord.Proofs.Procedure.Reach

/-!
# Cursors as lenses

A cursor goes down into lists and up again, and reads and writes names below each element that it
has entered. Wherever it has gone, reading and writing obey the laws of a lens.

A cursor remembers the lists that it has entered, with their names and the number of the element,
and from this a place is put together each time something is read or written. The laws are those of
a place in a record, so the main step is to say what setting a place does: `Sets` has two cases,
since the element itself may be set, and otherwise the object that owns the place gets a member.
What is claimed of lists and objects elsewhere is then read off an overwrite.

- `Cursor.Track` is a position kept as one list of steps, with a mark before each list that was
  entered. `tracks_moved`: the marks lead to the same elements as the lists of a cursor.
- `Json.modifyAt?_eq`: to change the part at a location is to overwrite it with what it becomes.
- `Cursor.Sets` says what setting a place makes of a record: either the element itself is
  overwritten, or the object that owns the place. `setAt?_eq_some_iff` says that nothing else
  happens.
- `Cursor.write` is the same write in place: the slot is opened first and filled then.
- `Cursor.Lens` are the laws, `lens_of_moves` gives them for every cursor.
-/

namespace NestedRecord

namespace Json

/-! ## Changes as overwrites -/

/-- A child that cannot be changed stops the change. -/
theorem modifyChild?_eq_none {f : Json → Option Json} {value : Json} {step : Step}
    (h : (value.child? step).bind f = none) : modifyChild? f value step = none := by
  rw [Option.eq_none_iff_forall_ne_some]
  intro after hafter
  obtain ⟨child, child', hchild, hf, -⟩ := modifyChild?_eq_some hafter
  rw [hchild, Option.bind_some, hf] at h
  cases h

/-- A change of the part at a location overwrites it with what it becomes. -/
theorem modifyAt?_eq (f : Json → Option Json) :
    ∀ (location : Location) (record : Json), modifyAt? f location record =
      ((record.locate? location).bind f).map fun part => overwrite part location record
  | [], record => by
    show f record = (f record).map fun part => part
    rw [Option.map_id']
  | step :: rest, record => by
    show modifyChild? (modifyAt? f rest) record step =
      (((record.child? step).bind (·.locate? rest)).bind f).map _
    -- the change fails where the step leads nowhere or the rest of it fails
    cases hchild : record.child? step with
    | none => exact modifyChild?_eq_none (by rw [hchild]; rfl)
    | some child =>
      have ih := modifyAt?_eq f rest child
      rw [Option.bind_some]
      cases hpart : (child.locate? rest).bind f with
      | none =>
        rw [hpart] at ih
        exact modifyChild?_eq_none (by rw [hchild]; exact ih)
      | some part =>
        rw [hpart] at ih
        obtain ⟨after, hafter⟩ := Option.isSome_iff_exists.mp
          (modifyChild?_isSome hchild (Option.isSome_of_eq_some ih))
        rw [hafter]
        refine congrArg some (modifyChild?_eq_updateChild (fun other other' hother hother' => ?_)
          hafter)
        obtain rfl := Option.some.inj (hchild.symm.trans hother)
        exact Option.some.inj (ih.symm.trans hother')

theorem modifyAt?_append (f : Json → Option Json) (back : Location) :
    ∀ (front : Location) (record : Json),
      modifyAt? f (front ++ back) record = modifyAt? (modifyAt? f back) front record
  | [], _ => rfl
  | step :: rest, record =>
    congrArg (modifyChild? · record step) (funext (modifyAt?_append f back rest))

/-- All keys but the last lead to the object that owns the place. -/
theorem upsert?_concat (f : Json → Json) (key : String) :
    ∀ (names : List String) (value : Json),
      upsert? f (names ++ [key]) value = modifyAt? (upsert? f [key]) (names.map .key) value
  | [], _ => rfl
  | [_], _ => rfl
  | name :: next :: rest, value =>
    congrArg (modifyChild? · value (.key name)) (funext (upsert?_concat f key (next :: rest)))

/-- Of a value that has just been written only a part is overwritten. -/
theorem overwrite_inside (value part : Json) (back : Location) :
    ∀ (front : Location) (record : Json),
      overwrite value (front ++ back) (overwrite part front record) =
        overwrite (overwrite value back part) front record
  | [], _ => rfl
  | step :: rest, record => by
    show (record.updateChild (overwrite part rest) step).updateChild
      (overwrite value (rest ++ back)) step = record.updateChild _ step
    rw [updateChild_updateChild]
    exact congrArg (updateChild · record step) (funext (overwrite_inside value part back rest))

/-- An overwrite keeps the keys of every object that is not at its place or inside, in their
order. -/
theorem keys_overwrite (value : Json) {members : List (String × Json)} :
    ∀ {location place : Location} {record : Json}, ¬ location <+: place →
      record.locate? place = some (.object members) →
        ∃ members', (overwrite value location record).locate? place = some (.object members') ∧
          Fields.keys members' = Fields.keys members
  | [], _, _, h, _ => absurd List.nil_prefix h
  | step :: rest, [], record, _, hrecord => by
    obtain rfl := Option.some.inj hrecord
    cases step with
    | index => exact ⟨members, rfl, rfl⟩
    | key key => exact ⟨_, rfl, Fields.keys_update _ _ _⟩
  | step :: rest, head :: tail, record, h, hrecord => by
    obtain ⟨child, hchild, hmembers⟩ := Option.bind_eq_some_iff.mp
      (show (record.child? head).bind (·.locate? tail) = some (.object members) from hrecord)
    show ∃ members', ((record.updateChild (overwrite value rest) step).child? head).bind _ = _ ∧ _
    rw [child?_updateChild, hchild]
    -- the overwrite goes on inside this child, or leaves it alone
    by_cases hhead : head = step
    · subst hhead
      rw [if_pos rfl]
      exact keys_overwrite value (fun hstart => h (List.cons_prefix_cons.mpr ⟨rfl, hstart⟩)) hmembers
    · rw [if_neg hhead]
      exact ⟨members, hmembers, rfl⟩

end Json

namespace Cursor

/-! ## Moves -/

/-- One move of a cursor. -/
inductive Move where
  | enter (access : List String) (index : Nat)
  | leave

/-- The cursor after a move. -/
def move (cursor : Cursor) : Move → Cursor
  | .enter access index => cursor.enter access index
  | .leave => cursor.leave

/-- The cursor that has made moves, from the record on. -/
def moved (moves : List Move) : Cursor := moves.foldl move {}

/-- A position as the steps to it, with the number of steps before each list that was entered. -/
structure Track where
  steps : Location := []
  marks : List Nat := []

namespace Track

/-- The position after a move; to leave a list is to forget the steps behind its mark. -/
def move (track : Track) : Move → Track
  | .enter access index =>
    { steps := track.steps ++ access.map .key ++ [.index index]
      marks := track.marks ++ [track.steps.length] }
  | .leave =>
    match track.marks.getLast? with
    | some mark => { steps := track.steps.take mark, marks := track.marks.dropLast }
    | none => track

/-- The position after moves, from the record on. -/
def moved (moves : List Move) : Track := moves.foldl move {}

/-- The steps before the mark of the list below the element of the list number `depth`; all of them
where no list was entered below it. -/
def location (track : Track) (depth : Nat) : Location :=
  track.steps.take (track.marks[depth]?.getD track.steps.length)

end Track

/-- A track leads to the element of a cursor, and its marks to the elements around. -/
structure Tracks (track : Track) (cursor : Cursor) : Prop where
  steps : track.steps = cursor.element
  marks : track.marks = (List.range cursor.depth).map fun depth => (cursor.location depth).length

theorem location_above (cursor : Cursor) (depth : Nat) : cursor.location depth <+: cursor.element :=
  element_above (List.take_prefix depth cursor.entered)

theorem location_of_depth_le {cursor : Cursor} {depth : Nat} (h : cursor.depth ≤ depth) :
    cursor.location depth = cursor.element := by
  rw [location, List.take_of_length_le h, element]

theorem location_enter {cursor : Cursor} {depth : Nat} (h : depth ≤ cursor.depth)
    (access : List String) (index : Nat) :
    (cursor.enter access index).location depth = cursor.location depth := by
  unfold location enter
  rw [List.take_append_of_le_length h]

/-- The marks of a cursor that has entered one more list. -/
theorem marks_enter (cursor : Cursor) (access : List String) (index : Nat) :
    ((List.range (cursor.enter access index).depth).map fun depth =>
        ((cursor.enter access index).location depth).length) =
      ((List.range cursor.depth).map fun depth => (cursor.location depth).length) ++
        [cursor.element.length] := by
  have hdepth : (cursor.enter access index).depth = cursor.depth + 1 := by simp [enter, depth]
  rw [hdepth, List.range_succ, List.map_append, List.map_singleton,
    location_enter (Nat.le_refl _), location_of_depth_le (Nat.le_refl _)]
  refine congrArg (· ++ _) (List.map_congr_left fun depth hdepth => ?_)
  rw [location_enter (Nat.le_of_lt (List.mem_range.mp hdepth))]

namespace Tracks

variable {track : Track} {cursor : Cursor}

/-- Entering a list adds its steps and a mark in front. -/
theorem enter (h : Tracks track cursor) (access : List String) (index : Nat) :
    Tracks (track.move (.enter access index)) (cursor.enter access index) where
  steps := by
    rw [element_enter, below, ← h.steps]
    rfl
  marks := by
    rw [marks_enter, ← h.marks, ← h.steps]
    rfl

/-- Leaving a list goes back to the last mark. -/
theorem leave (h : Tracks track cursor) : Tracks (track.move .leave) cursor.leave := by
  obtain ⟨entered⟩ := cursor
  rcases List.eq_nil_or_concat' entered with rfl | ⟨front, ⟨access, index⟩, rfl⟩
  · have hnone : track.marks.getLast? = none := by
      rw [h.marks]
      rfl
    have hstays : track.move .leave = track := by simp [Track.move, hnone]
    rw [hstays]
    exact h
  · -- the last mark is where the steps of the enclosing element end
    have hleft : leave ⟨front ++ [⟨access, index⟩]⟩ = ⟨front⟩ := by simp [Cursor.leave]
    have hsteps : track.steps = element ⟨front⟩ ++ (access.map .key ++ [.index index]) := by
      rw [h.steps, ← List.append_assoc]
      exact element_enter ⟨front⟩ access index
    have hmarks := h.marks.trans (marks_enter ⟨front⟩ access index)
    rw [hleft]
    constructor
    · simp [Track.move, hmarks, hsteps]
    · simp [Track.move, hmarks]

/-- A track and its cursor lead to the same elements. -/
theorem location_eq (h : Tracks track cursor) (depth : Nat) :
    track.location depth = cursor.location depth := by
  rw [Track.location, h.marks, h.steps, List.getElem?_map]
  rcases Nat.lt_or_ge depth cursor.depth with hlt | hge
  · rw [List.getElem?_range hlt]
    exact (List.prefix_iff_eq_take.mp (cursor.location_above depth)).symm
  · rw [List.getElem?_eq_none (by simpa using hge), location_of_depth_le hge]
    exact List.take_length

end Tracks

theorem Tracks.moves (moves : List Move) {track : Track} {cursor : Cursor}
    (h : Tracks track cursor) :
    Tracks (moves.foldl Track.move track) (moves.foldl move cursor) := by
  induction moves generalizing track cursor with
  | nil => exact h
  | cons first rest ih =>
    cases first with
    | enter access index => exact ih (h.enter access index)
    | leave => exact ih h.leave

/-- A track that makes the moves of a cursor leads to its elements. -/
theorem tracks_moved (moves : List Move) : Tracks (.moved moves) (moved moves) :=
  Tracks.moves moves ⟨rfl, rfl⟩

/-! ## Setting a place -/

variable {cursor : Cursor} {record after value value' : Json} {depth : Nat} {names : List String}

theorem place_concat (cursor : Cursor) (depth : Nat) (names : List String) (key : String) :
    cursor.place depth (names ++ [key]) = cursor.place depth names ++ [.key key] := by
  simp [place]

/-- Without names, the element itself is changed. -/
theorem updateAt?_nil (f : Json → Json) (cursor : Cursor) (record : Json) (depth : Nat) :
    cursor.updateAt? f record depth [] = (record.locate? (cursor.location depth)).map
      fun part => .overwrite (f part) (cursor.location depth) record := by
  unfold updateAt?
  rw [Json.modifyAt?_eq]
  cases record.locate? (cursor.location depth) <;> rfl

/-- With names, the object that owns the place is. -/
theorem updateAt?_concat (f : Json → Json) (cursor : Cursor) (record : Json) (depth : Nat)
    (names : List String) (key : String) :
    cursor.updateAt? f record depth (names ++ [key]) =
      ((record.locate? (cursor.place depth names)).bind Json.members?).map fun members =>
        .overwrite (.object (Fields.set members key (f ((Fields.get? members key).getD .null))))
          (cursor.place depth names) record := by
  unfold updateAt?
  rw [funext (Json.upsert?_concat f key names), ← Json.modifyAt?_append, Json.modifyAt?_eq]
  rw [show cursor.location depth ++ names.map .key = cursor.place depth names from rfl]
  rcases record.locate? (cursor.place depth names) with _ | owner
  · rfl
  · cases owner <;> rfl

/-- What setting names below an element makes of a record. -/
inductive Sets (cursor : Cursor) (record : Json) (depth : Nat) (value : Json) :
    List String → Json → Prop
  | element {part : Json} (present : record.locate? (cursor.location depth) = some part) :
      Sets cursor record depth value [] (.overwrite value (cursor.location depth) record)
  | member {names : List String} {key : String} {members : List (String × Json)}
      (owner : record.locate? (cursor.place depth names) = some (.object members)) :
      Sets cursor record depth value (names ++ [key])
        (.overwrite (.object (Fields.set members key value)) (cursor.place depth names) record)

/-- Setting a place succeeds as `Sets` says, and in no other way. -/
theorem setAt?_eq_some_iff :
    cursor.setAt? record depth names value = some after ↔
      Sets cursor record depth value names after := by
  constructor
  · intro h
    rcases List.eq_nil_or_concat' names with rfl | ⟨front, key, rfl⟩
    · rw [setAt?, updateAt?_nil] at h
      obtain ⟨part, hpart, rfl⟩ := Option.map_eq_some_iff.mp h
      exact .element hpart
    · rw [setAt?, updateAt?_concat] at h
      obtain ⟨members, hmembers, rfl⟩ := Option.map_eq_some_iff.mp h
      obtain ⟨owner, howner, hobject⟩ := Option.bind_eq_some_iff.mp hmembers
      cases owner <;> cases hobject
      exact .member howner
  · intro h
    cases h with
    | element present => rw [setAt?, updateAt?_nil, present, Option.map_some]
    | member owner =>
      rw [setAt?, updateAt?_concat, owner]
      rfl

/-- A write in place: whether the value is written, and the record from then on. The slot is opened
first, which adds an absent last key with null, and the value is put there. -/
def write (cursor : Cursor) (record : Json) (depth : Nat) (names : List String) (value : Json) :
    Bool × Json :=
  match cursor.updateAt? id record depth names with
  | some opened => (true, .overwrite value (cursor.place depth names) opened)
  | none => (false, record)

/-- Setting a place fills the slot that is opened there. -/
theorem setAt?_eq_fill (cursor : Cursor) (record : Json) (depth : Nat) (names : List String)
    (value : Json) :
    cursor.setAt? record depth names value =
      (cursor.updateAt? id record depth names).map (.overwrite value (cursor.place depth names)) := by
  rcases List.eq_nil_or_concat' names with rfl | ⟨front, key, rfl⟩
  · rw [setAt?, updateAt?_nil, updateAt?_nil, Option.map_map]
    refine congrArg (Option.map · _) (funext fun part => ?_)
    have hplace : cursor.place depth [] = cursor.location depth := List.append_nil _
    rw [Function.comp, hplace, Json.overwrite_overwrite]
  · rw [setAt?, updateAt?_concat, updateAt?_concat, Option.map_map]
    refine congrArg (Option.map · _) (funext fun members => ?_)
    rw [Function.comp, place_concat, Json.overwrite_inside]
    refine congrArg (fun members => Json.overwrite (.object members) _ record) ?_
    exact ((Fields.set_eq_update (Fields.has_iff.mpr ⟨_, Fields.get?_set_self ..⟩) value).symm.trans
      (Fields.set_set members key _ value)).symm

/-- A write in place succeeds where setting does, with the same record. -/
theorem write_eq_true_iff :
    cursor.write record depth names value = (true, after) ↔
      cursor.setAt? record depth names value = some after := by
  rw [setAt?_eq_fill, write]
  cases cursor.updateAt? id record depth names <;> simp

theorem write_eq_false_iff :
    cursor.write record depth names value = (false, after) ↔
      cursor.setAt? record depth names value = none ∧ after = record := by
  rw [setAt?_eq_fill, write]
  cases cursor.updateAt? id record depth names <;> simp [eq_comm]

/-! ## The laws -/

/-- A place can be set iff the element is there and, below it, the object that owns the place. -/
theorem exists_sets_iff :
    (∃ after, Sets cursor record depth value names after) ↔
      ∃ part, record.locate? (cursor.location depth) = some part ∧
        (names ≠ [] → ∃ owner, part.at? names.dropLast = some owner ∧ owner.isObject = true) := by
  constructor
  · rintro ⟨after, h⟩
    cases h with
    | element present => exact ⟨_, present, fun hne => absurd rfl hne⟩
    | @member front key members owner =>
      rw [place, Json.locate?_append] at owner
      obtain ⟨part, hpart, hbelow⟩ := Option.bind_eq_some_iff.mp owner
      refine ⟨part, hpart, fun _ => ⟨.object members, ?_, rfl⟩⟩
      rw [List.dropLast_concat, Json.at?_eq_locate?]
      exact hbelow
  · rintro ⟨part, hpart, howner⟩
    rcases List.eq_nil_or_concat' names with rfl | ⟨front, key, rfl⟩
    · exact ⟨_, .element hpart⟩
    · obtain ⟨owner, hbelow, hobject⟩ := howner (by simp)
      obtain ⟨members, rfl⟩ := Json.exists_members hobject
      rw [List.dropLast_concat, Json.at?_eq_locate?] at hbelow
      have hplace : record.locate? (cursor.place depth front) = some (.object members) := by
        rw [place, Json.locate?_append, hpart]
        exact hbelow
      exact ⟨_, .member hplace⟩

/-- Objects that hold the place keep their keys in order; the owner of the place gets its key at the
end unless it has it. -/
theorem Sets.exists_members (h : Sets cursor record depth value names after) {place : Location}
    (hplace : ¬ cursor.place depth names <+: place) {members : List (String × Json)}
    (hmembers : record.locate? place = some (.object members)) :
    ∃ members', after.locate? place = some (.object members') ∧
      (Fields.keys members' = Fields.keys members ∨
        ∃ key, cursor.place depth names = place ++ [.key key] ∧
          Fields.has members key = false ∧ Fields.keys members' = Fields.keys members ++ [key]) := by
  have hwritten := setAt?_written (setAt?_eq_some_iff.mpr h)
  cases h with
  | element present =>
    obtain ⟨members', hmembers', hkeys⟩ := Json.keys_overwrite value
      (fun hstart => hplace (by rwa [Cursor.place, List.map_nil, List.append_nil])) hmembers
    exact ⟨members', hmembers', .inl hkeys⟩
  | @member front key owned owner =>
    by_cases hstart : cursor.place depth front <+: place
    · obtain ⟨rest, rfl⟩ := hstart
      cases rest with
      | nil =>
        -- the owner itself
        rw [List.append_nil] at hmembers ⊢
        obtain rfl : owned = members := by simpa using owner.symm.trans hmembers
        refine ⟨Fields.set owned key value, by rw [Json.locate?_overwrite_self, owner]; rfl, ?_⟩
        rw [Fields.keys_set]
        split
        · exact .inl rfl
        · next hlacks => exact .inr ⟨key, place_concat _ _ _ _, Bool.eq_false_iff.mpr hlacks, rfl⟩
      | cons step rest =>
        -- what stands beside the place in the owner
        refine ⟨members, ?_, .inl rfl⟩
        rw [hwritten.locate?_eq hplace, hmembers]
        rw [place_concat]
        intro hinside
        obtain ⟨rfl, hnil⟩ := List.cons_prefix_cons.mp
          ((List.prefix_append_right_inj _).mp hinside)
        rw [place_concat, List.prefix_nil.mp hnil] at hplace
        exact hplace List.prefix_rfl
    · obtain ⟨members', hmembers', hkeys⟩ := Json.keys_overwrite _ hstart hmembers
      exact ⟨members', hmembers', .inl hkeys⟩

/-- Setting a value that is there changes nothing. -/
theorem sets_self (h : cursor.getAt? record depth names = some value) :
    Sets cursor record depth value names record := by
  rw [getAt?_eq_locate?] at h
  rcases List.eq_nil_or_concat' names with rfl | ⟨front, key, rfl⟩
  · rw [place, List.map_nil, List.append_nil] at h
    have hsets : Sets cursor record depth value [] _ := .element h
    rwa [Json.overwrite_eq_self fun present hpresent => Option.some.inj (hpresent.symm.trans h)]
      at hsets
  · rw [place_concat, Json.locate?_append] at h
    obtain ⟨owner, howner, hread⟩ := Option.bind_eq_some_iff.mp h
    obtain ⟨child, hchild, hvalue⟩ := Option.bind_eq_some_iff.mp
      (show (owner.child? (.key key)).bind _ = some value from hread)
    obtain rfl : child = value := Option.some.inj hvalue
    -- a member that is set to the value it has
    cases owner with
    | object members =>
      have hsets : Sets cursor record depth child (front ++ [key]) _ := .member howner
      rw [Fields.set_of_get? hchild] at hsets
      rwa [Json.overwrite_eq_self fun present hpresent => Option.some.inj (hpresent.symm.trans howner)]
        at hsets
    | _ => cases hchild

/-- Of two values that are set at one place the second counts. -/
theorem Sets.exists_again (h : Sets cursor record depth value names after) (value' : Json) :
    ∃ after', Sets cursor record depth value' names after' ∧
      Sets cursor after depth value' names after' := by
  cases h with
  | element present =>
    have hwritten : (Json.overwrite value (cursor.location depth) record).locate?
        (cursor.location depth) = some value := by
      rw [Json.locate?_overwrite_self, present]
      rfl
    have hagain : Sets cursor _ depth value' [] _ := .element hwritten
    rw [Json.overwrite_overwrite] at hagain
    exact ⟨_, .element present, hagain⟩
  | @member front key members owner =>
    have hwritten : (Json.overwrite (.object (Fields.set members key value))
        (cursor.place depth front) record).locate? (cursor.place depth front) =
          some (.object (Fields.set members key value)) := by
      rw [Json.locate?_overwrite_self, owner]
      rfl
    have hagain : Sets cursor _ depth value' (front ++ [key]) _ := .member hwritten
    rw [Json.overwrite_overwrite, Fields.set_set] at hagain
    exact ⟨_, .member owner, hagain⟩

/-- Reading and writing names below an element obey the laws of a lens. -/
structure Lens (cursor : Cursor) (depth : Nat) (names : List String) (element : Location) :
    Prop where
  reads : ∀ record, cursor.getAt? record depth names = record.locate? (element ++ names.map .key)
  /-- the write in place is the one that procedures make -/
  sets : ∀ {record value after}, cursor.write record depth names value = (true, after) ↔
    cursor.setAt? record depth names value = some after
  /-- what was written is read -/
  written : ∀ {record value after}, cursor.write record depth names value = (true, after) →
    cursor.getAt? after depth names = some value
  /-- what neither holds the place nor lies inside it is the same as before -/
  elsewhere : ∀ {record value after}, cursor.write record depth names value = (true, after) →
    ∀ place, ¬ element ++ names.map .key <+: place → ¬ place <+: element ++ names.map .key →
      after.locate? place = record.locate? place
  /-- lists that hold the place have as many items as before -/
  lists : ∀ {record value after}, cursor.write record depth names value = (true, after) →
    ∀ place items, ¬ element ++ names.map .key <+: place →
      record.locate? place = some (.array items) →
        ∃ items', after.locate? place = some (.array items') ∧ items'.length = items.length
  /-- objects that hold the place keep their keys in order, and at most the owner of the place gets
  one more at the end -/
  objects : ∀ {record value after}, cursor.write record depth names value = (true, after) →
    ∀ place members, ¬ element ++ names.map .key <+: place →
      record.locate? place = some (.object members) →
        ∃ members', after.locate? place = some (.object members') ∧
          (Fields.keys members' = Fields.keys members ∨
            ∃ key, element ++ names.map .key = place ++ [.key key] ∧
              Fields.has members key = false ∧
              Fields.keys members' = Fields.keys members ++ [key])
  refused : ∀ {record value after}, cursor.write record depth names value = (false, after) →
    after = record
  succeeds : ∀ {record value}, (cursor.write record depth names value).1 = true ↔
    ∃ part, record.locate? element = some part ∧
      (names ≠ [] → ∃ owner, part.at? names.dropLast = some owner ∧ owner.isObject = true)
  /-- to write what is read changes nothing -/
  kept : ∀ {record value}, cursor.getAt? record depth names = some value →
    cursor.write record depth names value = (true, record)
  /-- the last of two values counts -/
  replaced : ∀ {record value value' after}, cursor.write record depth names value = (true, after) →
    cursor.write after depth names value' = cursor.write record depth names value'

/-- The laws hold of every cursor, at every depth. -/
theorem lens (cursor : Cursor) (depth : Nat) (names : List String) :
    cursor.Lens depth names (cursor.location depth) := by
  have hsets : ∀ {record value after}, cursor.write record depth names value = (true, after) ↔
      Sets cursor record depth value names after := write_eq_true_iff.trans setAt?_eq_some_iff
  constructor
  case reads => exact fun record => cursor.getAt?_eq_locate? record depth names
  case sets => exact write_eq_true_iff
  case written =>
    intro record value after h
    rw [getAt?_eq_locate?]
    exact (setAt?_written (write_eq_true_iff.mp h)).locate?_self
  -- by the general fact on written places
  case elsewhere =>
    intro record value after h place houtside hinside
    exact (setAt?_written (write_eq_true_iff.mp h)).locate?_eq houtside hinside
  case lists =>
    intro record value after h place items hplace hitems
    have houtline := (setAt?_written (write_eq_true_iff.mp h)).outline_eq hplace
    rw [hitems] at houtline
    obtain ⟨part, hpart, heq⟩ := Option.map_eq_some_iff.mp houtline
    cases part with
    | array items' => exact ⟨items', hpart, Outline.array.inj heq⟩
    | _ => cases heq
  case objects => exact fun h place members hplace => (hsets.mp h).exists_members hplace
  case refused => exact fun h => (write_eq_false_iff.mp h).2
  case succeeds =>
    intro record value
    have hwrites : (cursor.write record depth names value).1 = true ↔
        ∃ after, Sets cursor record depth value names after := by
      simp only [← hsets, Prod.ext_iff, exists_and_left, exists_eq', and_true]
    exact hwrites.trans exists_sets_iff
  case kept => exact fun h => hsets.mpr (sets_self h)
  case replaced =>
    intro record value value' after h
    obtain ⟨after', hbefore, hagain⟩ := (hsets.mp h).exists_again value'
    exact (hsets.mpr hagain).trans (hsets.mpr hbefore).symm

/-- Wherever a cursor has gone, reading and writing below the elements that it has entered obey the
laws of a lens. -/
theorem lens_of_moves (moves : List Move) (depth : Nat) (names : List String) :
    (moved moves).Lens depth names ((Track.moved moves).location depth) := by
  rw [(tracks_moved moves).location_eq depth]
  exact lens (moved moves) depth names

/-- Two carts, the second one with an item and a price. -/
def carts : Json :=
  .object [("carts", .array [.object [],
    .object [("items", .array [.object []]), ("price", .string "3")]])]

/-- Down to the item, up to the record, where it stays, and into the second cart again. -/
def cartMoves : List Move :=
  [.enter ["carts"] 1, .enter ["items"] 0, .leave, .leave, .leave, .enter ["carts"] 1]

/-- A price is replaced, a total added behind it, and below the price there is nothing to write. -/
theorem lens_of_moves_carts :
    (moved cartMoves).Lens 1 ["price"] [.key "carts", .index 1] ∧
    (moved cartMoves).write carts 1 ["price"] (.string "5") = (true,
      .object [("carts", .array [.object [],
        .object [("items", .array [.object []]), ("price", .string "5")]])]) ∧
    (moved cartMoves).write carts 1 ["total"] (.string "6") = (true,
      .object [("carts", .array [.object [],
        .object [("items", .array [.object []]), ("price", .string "3"),
          ("total", .string "6")]])]) ∧
    (moved cartMoves).write carts 1 ["price", "net"] (.string "2") = (false, carts) :=
  ⟨lens_of_moves cartMoves 1 ["price"], rfl, rfl, rfl⟩

end Cursor

end NestedRecord
