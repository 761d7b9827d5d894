import NestedRecord.Procedure.Cursor

/-!
# Writing below a location

Procedures change a record one place at a time. What such a write leaves alone is said with
two readings of a place: the value there, and its *outline*, which forgets what is inside.

- `Location.Apart`: two places of which neither lies inside the other.
- `Json.outline`: the kind of a value with the content of a scalar and the size of a list.
- `Json.Written value location a b`: `b` is `a` with `value` at `location`, where at most the
  last key is new. `Cursor.setAt?` performs exactly such writes (`setAt?_written`), and it
  succeeds iff the place has an owner (`setAt?_isSome`).
- `Owned place record`: an object stands directly above the place.
- `Json.SameOutside touched a b`: the two values have the same outline at every place that is
  not below a touched location, and the same value where no touched location is below either.
  A write changes nothing outside its location (`Written.sameOutside`), and the relation
  composes, so that it describes whole runs.
-/

namespace NestedRecord

/-- Neither of two places is at or below the other one. -/
def Location.Apart (place other : Location) : Prop := ¬ place <+: other ∧ ¬ other <+: place

/-- What a value is, apart from the values inside it. -/
inductive Outline where
  | null
  | bool (b : Bool)
  | number (n : Number)
  | string (s : String)
  | array (size : Nat)
  | object
deriving DecidableEq

namespace Fields

variable {α : Type}

/-- A change of a present value: what is read back, and that the other keys keep theirs. -/
theorem modify?_eq_some {f : α → Option α} {fields fields' : Fields α} {key : String}
    (h : modify? f fields key = some fields') :
    ∃ value value', get? fields key = some value ∧ f value = some value' ∧
      get? fields' key = some value' ∧
      ∀ other, other ≠ key → get? fields' other = get? fields other := by
  induction fields generalizing fields' with
  | nil => simp [modify?] at h
  | cons field rest ih =>
    obtain ⟨k, v⟩ := field
    -- the first field of the key is changed, or the change is further behind
    by_cases hk : k = key
    · simp only [modify?, hk, if_true, Option.map_eq_some_iff] at h
      obtain ⟨v', hv', rfl⟩ := h
      refine ⟨v, v', by simp [get?, hk], hv', by simp [get?], fun other hother => ?_⟩
      simp [get?, hk, Ne.symm hother]
    · simp only [modify?, hk, if_false, Option.map_eq_some_iff] at h
      obtain ⟨rest', hrest', rfl⟩ := h
      obtain ⟨value, value', hget, hf, hget', hothers⟩ := ih hrest'
      refine ⟨value, value', by simpa [get?, hk] using hget, hf, by simpa [get?, hk] using hget',
        fun other hother => ?_⟩
      by_cases ho : k = other
      · simp [get?, ho]
      · simpa [get?, ho] using hothers other hother

/-- A present value is changed whenever the change accepts it. -/
theorem modify?_isSome {f : α → Option α} {fields : Fields α} {key : String} {value : α}
    (hget : get? fields key = some value) (hf : (f value).isSome) :
    (modify? f fields key).isSome := by
  induction fields with
  | nil => simp at hget
  | cons field rest ih =>
    obtain ⟨k, v⟩ := field
    by_cases hk : k = key
    · have hv : v = value := by simpa [get?, hk] using hget
      simpa [modify?, hk, hv] using hf
    · have hrest : get? rest key = some value := by simpa [get?, hk] using hget
      simpa [modify?, hk] using ih hrest

end Fields

namespace Json

/-- The kind of a value with the content of a scalar and the size of a list. -/
def outline : Json → Outline
  | .null => .null
  | .bool b => .bool b
  | .number n => .number n
  | .string s => .string s
  | .array items => .array items.length
  | .object _ => .object

/-- The number of elements of the list at a location; none without a list. -/
def sizeAt (value : Json) (location : Location) : Nat :=
  match value.locate? location with
  | some (.array items) => items.length
  | _ => 0

/-! ## Reading in two parts -/

@[simp] theorem locate?_nil (value : Json) : value.locate? [] = some value := rfl

/-- A place is found in two parts. -/
theorem locate?_append (value : Json) (front back : Location) :
    value.locate? (front ++ back) = (value.locate? front).bind (·.locate? back) := by
  induction front generalizing value with
  | nil => rfl
  | cons step rest ih =>
    show (value.child? step).bind (·.locate? (rest ++ back)) =
      ((value.child? step).bind (·.locate? rest)).bind (·.locate? back)
    cases value.child? step with
    | none => rfl
    | some child => exact ih child

theorem child?_key (value : Json) (key : String) : value.child? (.key key) = value.get? key := by
  cases value <;> rfl

/-- Names read one member after the other, as a location of keys does. -/
theorem at?_eq_locate? (value : Json) (names : List String) :
    value.at? names = value.locate? (names.map .key) := by
  induction names generalizing value with
  | nil => rfl
  | cons name rest ih =>
    show (value.get? name).bind (·.at? rest) = (value.child? (.key name)).bind _
    rw [child?_key]
    exact congrArg _ (funext fun child => ih child)

/-- A reading below a place exists only where the place does. -/
theorem locate?_isSome_of_append {value : Json} {front back : Location}
    (h : (value.locate? (front ++ back)).isSome) : (value.locate? front).isSome := by
  rw [locate?_append] at h
  cases hfront : value.locate? front with
  | none => simp [hfront] at h
  | some _ => rfl

/-- A list keeps its size if its outline is kept. -/
theorem sizeAt_eq_of_outline {a b : Json} {location : Location}
    (h : (b.locate? location).map outline = (a.locate? location).map outline) :
    b.sizeAt location = a.sizeAt location := by
  unfold sizeAt
  rcases hb : b.locate? location with _ | vb <;> rcases ha : a.locate? location with _ | va
  · rfl
  · simp [ha, hb] at h
  · simp [ha, hb] at h
  · have hout : vb.outline = va.outline := by simpa [ha, hb] using h
    cases va <;> cases vb <;> simp_all [outline]

theorem exists_members {value : Json} (h : value.isObject = true) :
    ∃ members, value = .object members := by
  cases value <;> first | exact ⟨_, rfl⟩ | cases h

theorem exists_items {value : Json} (h : value.isArray = true) :
    ∃ items, value = .array items := by
  cases value with
  | array items => exact ⟨items, rfl⟩
  | _ => cases h

theorem isNull_iff {value : Json} : value.isNull = true ↔ value = .null := by
  cases value <;> simp [isNull]

theorem isObject_eq_of_outline {a b : Json} (h : b.outline = a.outline) :
    b.isObject = a.isObject := by
  cases a <;> cases b <;> simp_all [outline, isObject]

/-! ## Writes -/

/-- `after` is `before` with `value` written at a location, of which only the last key may
have been absent. -/
inductive Written (value : Json) : Location → Json → Json → Prop
  | here (before : Json) : Written value [] before value
  | inside {step : Step} {rest : Location} {before after child child' : Json}
      (present : before.child? step = some child) (read : after.child? step = some child')
      (others : ∀ other, other ≠ step → after.child? other = before.child? other)
      (outline : after.outline = before.outline) (inner : Written value rest child child') :
      Written value (step :: rest) before after
  | added {key : String} {before after : Json} (absent : before.child? (.key key) = none)
      (read : after.child? (.key key) = some value)
      (others : ∀ other, other ≠ .key key → after.child? other = before.child? other)
      (outline : after.outline = before.outline) :
      Written value [.key key] before after

namespace Written

variable {value a b : Json} {location : Location}

/-- What was written is read back, and so is everything inside it. -/
theorem locate?_below (h : Written value location a b) (rest : Location) :
    b.locate? (location ++ rest) = value.locate? rest := by
  induction h with
  | here => rfl
  | inside _ read _ _ _ ih =>
    show (_ : Option Json).bind _ = _
    rw [read]
    exact ih
  | added _ read =>
    show (_ : Option Json).bind _ = _
    rw [read]
    rfl

theorem locate?_self (h : Written value location a b) : b.locate? location = some value := by
  simpa using h.locate?_below []

/-- Outlines change at most at and below the location. -/
theorem outline_eq (h : Written value location a b) {place : Location}
    (hplace : ¬ location <+: place) :
    (b.locate? place).map outline = (a.locate? place).map outline := by
  induction h generalizing place with
  | here => exact absurd (List.nil_prefix) hplace
  | @inside step rest before after child child' present read others hout _ ih =>
    cases place with
    | nil => simp [hout]
    | cons head tail =>
      show ((after.child? head).bind _).map _ = ((before.child? head).bind _).map _
      -- the place goes the same way, or leaves it here
      by_cases hhead : head = step
      · subst hhead
        rw [read, present]
        exact ih fun hstart => hplace (List.cons_prefix_cons.mpr ⟨rfl, hstart⟩)
      · rw [others head hhead]
  | @added key before after absent read others hout =>
    cases place with
    | nil => simp [hout]
    | cons head tail =>
      have hhead : head ≠ .key key := fun heq =>
        hplace (heq ▸ List.cons_prefix_cons.mpr ⟨rfl, List.nil_prefix⟩)
      show ((after.child? head).bind _).map _ = ((before.child? head).bind _).map _
      rw [others head hhead]

/-- A place that neither contains the location nor lies inside it keeps its value. -/
theorem locate?_eq (h : Written value location a b) {place : Location}
    (hplace : ¬ location <+: place) (hcontains : ¬ place <+: location) :
    b.locate? place = a.locate? place := by
  induction h generalizing place with
  | here => exact absurd (List.nil_prefix) hplace
  | @inside step rest before after child child' present read others _ _ ih =>
    cases place with
    | nil => exact absurd (List.nil_prefix) hcontains
    | cons head tail =>
      show (after.child? head).bind _ = (before.child? head).bind _
      -- the place goes the same way, or leaves it here
      by_cases hhead : head = step
      · subst hhead
        rw [read, present]
        exact ih (fun hstart => hplace (List.cons_prefix_cons.mpr ⟨rfl, hstart⟩))
          (fun hstart => hcontains (List.cons_prefix_cons.mpr ⟨rfl, hstart⟩))
      · rw [others head hhead]
  | @added key before after absent read others _ =>
    cases place with
    | nil => exact absurd (List.nil_prefix) hcontains
    | cons head tail =>
      have hhead : head ≠ .key key := fun heq =>
        hplace (heq ▸ List.cons_prefix_cons.mpr ⟨rfl, List.nil_prefix⟩)
      show (after.child? head).bind _ = (before.child? head).bind _
      rw [others head hhead]

end Written

/-! ## The writes of cursors -/

/-- A change below one step: what is read back, and that nothing beside it changes. -/
theorem modifyChild?_eq_some {f : Json → Option Json} {value value' : Json} {step : Step}
    (h : modifyChild? f value step = some value') :
    ∃ child child', value.child? step = some child ∧ f child = some child' ∧
      value'.child? step = some child' ∧
      (∀ other, other ≠ step → value'.child? other = value.child? other) ∧
      value'.outline = value.outline := by
  cases value with
  | object members =>
    cases step with
    | index => simp [modifyChild?] at h
    | key key =>
      simp only [modifyChild?, Option.map_eq_some_iff] at h
      obtain ⟨members', hmodify, rfl⟩ := h
      obtain ⟨child, child', hget, hf, hget', hothers⟩ := Fields.modify?_eq_some hmodify
      refine ⟨child, child', hget, hf, hget', fun other hother => ?_, rfl⟩
      cases other with
      | index => rfl
      | key k => exact hothers k fun hk => hother (hk ▸ rfl)
  | array items =>
    cases step with
    | key => simp [modifyChild?] at h
    | index index =>
      simp only [modifyChild?, Option.bind_eq_some_iff, Option.map_eq_some_iff] at h
      obtain ⟨child, hchild, child', hf, rfl⟩ := h
      have hlt : index < items.length := (List.getElem?_eq_some_iff.mp hchild).1
      refine ⟨child, child', hchild, hf, ?_, fun other hother => ?_, ?_⟩
      · simp [child?, hlt]
      · cases other with
        | key => rfl
        | index j =>
          have hj : index ≠ j := fun heq => hother (heq ▸ rfl)
          simp [child?, hj]
      · simp [outline]
  | null => cases step <;> simp [modifyChild?] at h
  | bool => cases step <;> simp [modifyChild?] at h
  | number => cases step <;> simp [modifyChild?] at h
  | string => cases step <;> simp [modifyChild?] at h

/-- A part that is there is changed whenever the change accepts it. -/
theorem modifyChild?_isSome {f : Json → Option Json} {value child : Json} {step : Step}
    (hchild : value.child? step = some child) (hf : (f child).isSome) :
    (modifyChild? f value step).isSome := by
  cases value with
  | object members =>
    cases step with
    | index => simp [child?] at hchild
    | key key => simpa [modifyChild?] using Fields.modify?_isSome hchild hf
  | array items =>
    cases step with
    | key => simp [child?] at hchild
    | index index =>
      have hget : items[index]? = some child := hchild
      simpa [modifyChild?, hget] using hf
  | null => cases step <;> simp [child?] at hchild
  | bool => cases step <;> simp [child?] at hchild
  | number => cases step <;> simp [child?] at hchild
  | string => cases step <;> simp [child?] at hchild

/-- Overwriting the value below names is a write at those names. -/
theorem upsert?_written {value : Json} :
    ∀ (names : List String) {before after : Json},
      upsert? (fun _ => value) names before = some after →
        Written value (names.map .key) before after
  | [], before, after, h => by
    have heq : value = after := by simpa [upsert?] using h
    exact heq ▸ .here before
  | [key], before, after, h => by
    cases before with
    | object members =>
      have heq : after = .object (Fields.set members key value) := by
        simpa [upsert?] using h.symm
      subst heq
      have others : ∀ other, other ≠ Step.key key →
          (Json.object (Fields.set members key value)).child? other =
            (Json.object members).child? other := by
        intro other hother
        cases other with
        | index => rfl
        | key k => exact Fields.get?_set_of_ne members value fun hk => hother (hk ▸ rfl)
      -- the last name may be new
      cases hget : Fields.get? members key with
      | none => exact .added hget (Fields.get?_set_self ..) others rfl
      | some child =>
        exact .inside hget (Fields.get?_set_self ..) others rfl (.here child)
    | _ => simp [upsert?] at h
  | key :: next :: rest, before, after, h => by
    obtain ⟨child, child', hchild, hf, hchild', others, hout⟩ :=
      modifyChild?_eq_some (show modifyChild? _ before (.key key) = some after from h)
    exact .inside hchild hchild' others hout (upsert?_written (next :: rest) hf)

/-- The last of several names can be written iff the others lead to an object. -/
theorem upsert?_isSome {value : Json} :
    ∀ (names : List String) (before : Json), names ≠ [] →
      ((upsert? (fun _ => value) names before).isSome ↔
        ∃ parent, before.locate? (names.dropLast.map .key) = some parent ∧ parent.isObject)
  | [], _, h => absurd rfl h
  | [key], before, _ => by
    cases before <;> simp [upsert?, isObject]
  | key :: next :: rest, before, _ => by
    have hdrop : ((key :: next :: rest).dropLast.map Step.key) =
        .key key :: ((next :: rest).dropLast.map Step.key) := rfl
    rw [hdrop]
    constructor
    · intro h
      obtain ⟨after, hafter⟩ := Option.isSome_iff_exists.mp h
      obtain ⟨child, child', hchild, hf, -⟩ :=
        modifyChild?_eq_some (show modifyChild? _ before (.key key) = some after from hafter)
      have hinner := (upsert?_isSome (next :: rest) child (by simp)).mp
        (Option.isSome_iff_exists.mpr ⟨child', hf⟩)
      obtain ⟨parent, hparent, hobject⟩ := hinner
      refine ⟨parent, ?_, hobject⟩
      show (before.child? (.key key)).bind _ = _
      rw [hchild]
      exact hparent
    · rintro ⟨parent, hparent, hobject⟩
      obtain ⟨child, hchild, hrest⟩ := Option.bind_eq_some_iff.mp
        (show (before.child? (.key key)).bind (·.locate? _) = some parent from hparent)
      exact modifyChild?_isSome hchild
        ((upsert?_isSome (next :: rest) child (by simp)).mpr ⟨parent, hrest, hobject⟩)

/-- A change below a location is a write behind it. -/
theorem modifyAt?_written {value : Json} {f : Json → Option Json} {inner : Location}
    (hf : ∀ {before after}, f before = some after → Written value inner before after) :
    ∀ (location : Location) {before after : Json},
      modifyAt? f location before = some after →
        Written value (location ++ inner) before after
  | [], _, _, h => hf h
  | step :: rest, before, after, h => by
    obtain ⟨child, child', hchild, hrest, hchild', others, hout⟩ :=
      modifyChild?_eq_some (show modifyChild? _ before step = some after from h)
    exact .inside hchild hchild' others hout (modifyAt?_written hf rest hrest)

/-- It is made exactly if the place is there and the change accepts its value. -/
theorem modifyAt?_isSome {f : Json → Option Json} :
    ∀ (location : Location) (before : Json),
      (modifyAt? f location before).isSome ↔
        ∃ part, before.locate? location = some part ∧ (f part).isSome
  | [], before => by simp [modifyAt?]
  | step :: rest, before => by
    constructor
    · intro h
      obtain ⟨after, hafter⟩ := Option.isSome_iff_exists.mp h
      obtain ⟨child, child', hchild, hrest, -⟩ :=
        modifyChild?_eq_some (show modifyChild? _ before step = some after from hafter)
      obtain ⟨part, hpart, hf⟩ := (modifyAt?_isSome rest child).mp
        (Option.isSome_iff_exists.mpr ⟨child', hrest⟩)
      refine ⟨part, ?_, hf⟩
      show (before.child? step).bind _ = _
      rw [hchild]
      exact hpart
    · rintro ⟨part, hpart, hf⟩
      obtain ⟨child, hchild, hrest⟩ := Option.bind_eq_some_iff.mp
        (show (before.child? step).bind (·.locate? rest) = some part from hpart)
      exact modifyChild?_isSome hchild ((modifyAt?_isSome rest child).mpr ⟨part, hrest, hf⟩)

end Json

/-- The owner of a place, an object. -/
def Owned (place : Location) (record : Json) : Prop :=
  ∃ owner, record.locate? place.dropLast = some owner ∧ owner.isObject

instance (place : Location) (record : Json) : Decidable (Owned place record) :=
  decidable_of_iff ((record.locate? place.dropLast).any Json.isObject = true) (by
    simp [Owned, Option.any_eq_true])

namespace Cursor

variable (cursor : Cursor) (record : Json) (depth : Nat) (names : List String)

/-- The place of names below the element of the list number `depth`. -/
def place : Location := cursor.location depth ++ names.map .key

theorem getAt?_eq_locate? :
    cursor.getAt? record depth names = record.locate? (cursor.place depth names) := by
  unfold getAt? place
  rw [Json.locate?_append]
  exact congrArg _ (funext fun element => element.at?_eq_locate? names)

theorem pointerAt_eq : cursor.pointerAt depth names = (cursor.place depth names).pointer := rfl

variable {cursor record depth names} {value after : Json}

/-- Setting a place writes there and nowhere else. -/
theorem setAt?_written (h : cursor.setAt? record depth names value = some after) :
    Json.Written value (cursor.place depth names) record after :=
  Json.modifyAt?_written (fun hf => Json.upsert?_written names hf) _ h

/-- A place can be set iff it has an owner. -/
theorem setAt?_isSome (hnames : names ≠ []) :
    (cursor.setAt? record depth names value).isSome ↔
      Owned (cursor.place depth names) record := by
  unfold setAt? updateAt? place Owned
  rw [Json.modifyAt?_isSome, List.dropLast_append_of_ne_nil (by simpa using hnames),
    ← List.map_dropLast, Json.locate?_append]
  constructor
  · rintro ⟨element, helement, hset⟩
    obtain ⟨parent, hparent, hobject⟩ := (Json.upsert?_isSome names element hnames).mp hset
    exact ⟨parent, by rw [helement]; exact hparent, hobject⟩
  · rintro ⟨parent, hparent, hobject⟩
    obtain ⟨element, helement, hrest⟩ := Option.bind_eq_some_iff.mp hparent
    exact ⟨element, helement,
      (Json.upsert?_isSome names element hnames).mpr ⟨parent, hrest, hobject⟩⟩

end Cursor

namespace Json

/-! ## What is left alone -/

/-- Two values agree outside touched locations: the outlines agree at every place not below a
touched one, and the values agree where no touched location lies inside either. -/
def SameOutside (touched : Location → Prop) (a b : Json) : Prop :=
  ∀ place, (∀ location, touched location → ¬ location <+: place) →
    (b.locate? place).map outline = (a.locate? place).map outline ∧
      ((∀ location, touched location → ¬ place <+: location) →
        b.locate? place = a.locate? place)

namespace SameOutside

variable {touched touched' : Location → Prop} {a b c : Json}

theorem refl (touched : Location → Prop) (a : Json) : SameOutside touched a a :=
  fun _ _ => ⟨rfl, fun _ => rfl⟩

theorem trans (hab : SameOutside touched a b) (hbc : SameOutside touched b c) :
    SameOutside touched a c := fun place hplace =>
  ⟨(hbc place hplace).1.trans (hab place hplace).1,
    fun hinside => ((hbc place hplace).2 hinside).trans ((hab place hplace).2 hinside)⟩

theorem mono (hab : SameOutside touched a b)
    (hsub : ∀ location, touched location → touched' location) : SameOutside touched' a b :=
  fun place hplace =>
    have houter := hab place fun location h => hplace location (hsub location h)
    ⟨houter.1, fun hinside => houter.2 fun location h => hinside location (hsub location h)⟩

theorem sizeAt_eq (h : SameOutside touched a b) {place : Location}
    (hplace : ∀ location, touched location → ¬ location <+: place) :
    b.sizeAt place = a.sizeAt place :=
  sizeAt_eq_of_outline (h place hplace).1

theorem outline_eq (h : SameOutside touched a b) {place : Location}
    (hplace : ∀ location, touched location → ¬ location <+: place) :
    (b.locate? place).map outline = (a.locate? place).map outline :=
  (h place hplace).1

/-- What is present and not below a touched location stays present. -/
theorem isSome_locate?_iff (h : SameOutside touched a b) {place : Location}
    (hplace : ∀ location, touched location → ¬ location <+: place) :
    (b.locate? place).isSome ↔ (a.locate? place).isSome := by
  rw [← Option.isSome_map (f := outline), (h place hplace).1, Option.isSome_map]

/-- An object that is not below a touched location stays an object. -/
theorem object_of_object (h : SameOutside touched a b) {place : Location}
    (hplace : ∀ location, touched location → ¬ location <+: place)
    (ha : ∃ value, a.locate? place = some value ∧ value.isObject) :
    ∃ value, b.locate? place = some value ∧ value.isObject := by
  obtain ⟨value, hvalue, hobject⟩ := ha
  have houtline := (h place hplace).1
  rw [hvalue] at houtline
  obtain ⟨value', hvalue', heq⟩ := Option.map_eq_some_iff.mp houtline
  exact ⟨value', hvalue', by rw [isObject_eq_of_outline heq, hobject]⟩

/-- The agreement of the parts at a place that is not below a touched location. -/
theorem part (h : SameOutside touched a b) {place : Location}
    (hplace : ∀ location, touched location → ¬ location <+: place) {value : Json}
    (ha : a.locate? place = some value) :
    ∃ value', b.locate? place = some value' ∧
      SameOutside (fun rest => touched (place ++ rest)) value value' := by
  have houtline := (h place hplace).1
  rw [ha] at houtline
  obtain ⟨value', hvalue', -⟩ := Option.map_eq_some_iff.mp houtline
  refine ⟨value', hvalue', fun rest hrest => ?_⟩
  have hb : ∀ inner, b.locate? (place ++ inner) = value'.locate? inner := by
    intro inner
    rw [locate?_append, hvalue', Option.bind_some]
  have ha' : ∀ inner, a.locate? (place ++ inner) = value.locate? inner := by
    intro inner
    rw [locate?_append, ha, Option.bind_some]
  -- a touched location above the place below would be above the place, or inside the part
  have hbelow : ∀ location, touched location → ¬ location <+: place ++ rest := by
    intro location htouched hstart
    rcases List.prefix_or_prefix_of_prefix hstart (List.prefix_append place rest) with
      hshort | ⟨inner, rfl⟩
    · exact hplace location htouched hshort
    · exact hrest inner htouched ((List.prefix_append_right_inj place).mp hstart)
  obtain ⟨houter, hinner⟩ := h (place ++ rest) hbelow
  rw [hb, ha'] at houter hinner
  refine ⟨houter, fun hinside => hinner fun location htouched hstart => ?_⟩
  obtain ⟨tail, rfl⟩ := hstart
  rw [List.append_assoc] at htouched
  exact hinside (rest ++ tail) htouched (List.prefix_append rest tail)

end SameOutside

theorem Written.sameOutside {value a b : Json} {location : Location}
    (h : Written value location a b) : SameOutside (· = location) a b :=
  fun _ hplace =>
    ⟨h.outline_eq (hplace location rfl),
      fun hinside => h.locate?_eq (hplace location rfl) (hinside location rfl)⟩

end Json

/-! ## Owners -/

/-- A location that is above a place only by being the place is not above its owner. -/
theorem not_above_dropLast {location place : Location} (hplace : place ≠ [])
    (h : location <+: place → location = place) : ¬ location <+: place.dropLast := by
  intro hstart
  have heq := h (hstart.trans (List.dropLast_prefix place))
  have hlength := hstart.length_le
  rw [heq, List.length_dropLast] at hlength
  have := List.length_pos_iff.mpr hplace
  omega

/-- Changes at the place itself and off the way to it leave the owner as it is. -/
theorem owned_iff {touched : Location → Prop} {place : Location} {a b : Json}
    (h : Json.SameOutside touched a b) (hplace : place ≠ [])
    (hspares : ∀ location, touched location → location <+: place → location = place) :
    Owned place b ↔ Owned place a := by
  have houter : ∀ location, touched location → ¬ location <+: place.dropLast :=
    fun location htouched => not_above_dropLast hplace (hspares location htouched)
  have houtline := h.outline_eq houter
  constructor
  · rintro ⟨owner, hlocate, hobject⟩
    rw [hlocate] at houtline
    obtain ⟨owner', hlocate', heq⟩ := Option.map_eq_some_iff.mp houtline.symm
    exact ⟨owner', hlocate', by rw [Json.isObject_eq_of_outline heq, hobject]⟩
  · exact h.object_of_object houter

end NestedRecord
