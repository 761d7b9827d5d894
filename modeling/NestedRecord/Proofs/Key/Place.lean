import NestedRecord.Key.Primary
import NestedRecord.Proofs.Json.Write

/-!
# Writing below the names of a key

Keys are written into records that need not have the objects on the way to a key attribute.

- `PrimaryKey.Passable record path`: whatever stands on the way is an object or null.
- `PrimaryKey.Placed value path record placed`: what a write leaves behind. The value is read
  back, objects stand above it, and every place apart from the path is as before.
- `exists_place?`: a write succeeds on a passable record.
- `exists_placeAll`: so do several writes at paths that lie apart.

Only objects and nulls may be on the way, because a write replaces null by an object and goes into
objects; it does not matter how much of the way is there. `Placed` leaves open what the objects on
the way were before, which no one asks for, and says all else.
-/

namespace NestedRecord

namespace PrimaryKey

/-- The way to a place below a record: the record is an object, and whatever stands between it
and the place is an object, or null, or absent. -/
structure Passable (record : Json) (path : List String) : Prop where
  object : record.isObject = true
  way : ∀ front, front <+: path → front ≠ path → ∀ inner, record.at? front = some inner →
    inner.isObject = true ∨ inner.isNull = true

/-- A record with a value written below names. -/
structure Placed (value : Json) (path : List String) (record placed : Json) : Prop where
  read : placed.at? path = some value
  /-- objects stand on the way -/
  way : ∀ front, front <+: path → front ≠ path →
    ∃ inner, placed.at? front = some inner ∧ inner.isObject = true
  /-- the rest of the record is as before -/
  same : ∀ place : Location, Location.Apart (path.map .key) place →
    placed.locate? place = record.locate? place

variable {value record placed : Json} {path : List String}

/-- Nothing is in the way of an empty object. -/
theorem passable_empty (path : List String) : Passable (.object []) path where
  object := rfl
  way front _ _ inner hinner := by
    cases front with
    | nil =>
      obtain rfl := Option.some.inj hinner
      exact .inl rfl
    | cons name front => cases hinner

/-- The object that a write goes on in: an empty one in the place of null or of nothing. -/
theorem passable_inner {members : Fields Json} {name next : String} {rest : List String}
    (h : Passable (.object members) (name :: next :: rest)) :
    ∃ inner, Passable inner (next :: rest) ∧
      (∀ value, place? value (name :: next :: rest) (.object members) =
        (place? value (next :: rest) inner).map fun inner =>
          .object (Fields.set members name inner)) ∧
      ∀ place : Location, place ≠ [] →
        inner.locate? place = (Fields.get? members name).bind (·.locate? place) := by
  -- an empty object and null agree with nothing, as far as places inside are read
  have hempty : ∀ place : Location, place ≠ [] → (Json.object []).locate? place = none := by
    intro place hplace
    obtain ⟨step, place, rfl⟩ := List.exists_cons_of_ne_nil hplace
    cases step <;> rfl
  cases hget : Fields.get? members name with
  | none =>
    refine ⟨.object [], passable_empty _, fun value => ?_, fun place hplace => hempty place hplace⟩
    rw [place?, hget]
  | some inner =>
    cases hnull : inner.isNull with
    | true =>
      obtain rfl := Json.isNull_iff.mp hnull
      refine ⟨.object [], passable_empty _, fun value => ?_, fun place hplace => ?_⟩
      · rw [place?, hget]
      · rw [hempty place hplace]
        obtain ⟨step, place, rfl⟩ := List.exists_cons_of_ne_nil hplace
        cases step <;> rfl
    | false =>
      have hread : ∀ front, (Json.object members).at? (name :: front) = inner.at? front := by
        intro front
        show (Fields.get? members name).bind (·.at? front) = inner.at? front
        rw [hget, Option.bind_some]
      have hway : ∀ front, front <+: next :: rest → front ≠ next :: rest → ∀ deeper,
          inner.at? front = some deeper → deeper.isObject = true ∨ deeper.isNull = true := by
        intro front hfront hne deeper hdeeper
        refine h.way (name :: front) (List.cons_prefix_cons.mpr ⟨rfl, hfront⟩)
          (fun hsame => hne (List.cons.inj hsame).2) deeper ?_
        rw [hread, hdeeper]
      have hobject : inner.isObject = true :=
        (hway [] List.nil_prefix (List.cons_ne_nil _ _).symm inner rfl).resolve_right
          (by simp [hnull])
      refine ⟨inner, ⟨hobject, hway⟩, fun value => ?_, fun place _ => rfl⟩
      rw [place?, hget]
      cases inner <;> first | rfl | cases hnull

/-- A member is read back, and so is every place that does not begin with its key. -/
theorem locate?_set {members : Fields Json} {name : String} {place : Location}
    (h : ¬ [Step.key name] <+: place) (hne : place ≠ []) :
    (Json.object (Fields.set members name value)).locate? place =
      (Json.object members).locate? place := by
  obtain ⟨step, place, rfl⟩ := List.exists_cons_of_ne_nil hne
  have hstep : (Json.object (Fields.set members name value)).child? step =
      (Json.object members).child? step := by
    cases step with
    | key other =>
      refine Fields.get?_set_of_ne members value ?_
      rintro rfl
      exact h (List.cons_prefix_cons.mpr ⟨rfl, List.nil_prefix⟩)
    | index index => rfl
  show (Json.child? _ step).bind _ = _
  rw [hstep]
  rfl

/-- The last name is set. -/
theorem placed_last (members : Fields Json) (name : String) (value : Json) :
    Placed value [name] (.object members) (.object (Fields.set members name value)) where
  read := by
    show (Fields.get? (Fields.set members name value) name).bind _ = _
    rw [Fields.get?_set_self]
    rfl
  way front hfront hne := by
    rcases List.prefix_cons_iff.mp hfront with rfl | ⟨rest, rfl, hrest⟩
    · exact ⟨_, rfl, rfl⟩
    · rw [List.prefix_nil.mp hrest] at hne
      exact absurd rfl hne
  same place hplace := by
    refine locate?_set hplace.1 ?_
    rintro rfl
    exact hplace.2 List.nil_prefix

/-- A write below a member, when the inner object has been written. -/
theorem placed_below {members : Fields Json} {name : String} {rest : List String}
    {inner inner' : Json}
    (hinner : ∀ place : Location, place ≠ [] →
      inner.locate? place = (Fields.get? members name).bind (·.locate? place))
    (h : Placed value rest inner inner') :
    Placed value (name :: rest) (.object members) (.object (Fields.set members name inner')) where
  read := by
    show (Fields.get? (Fields.set members name inner') name).bind _ = _
    rw [Fields.get?_set_self]
    exact h.read
  way front hfront hne := by
    rcases List.prefix_cons_iff.mp hfront with rfl | ⟨below, rfl, hbelow⟩
    · exact ⟨_, rfl, rfl⟩
    · obtain ⟨object, hread, hobject⟩ := h.way below hbelow fun hsame => hne (by rw [hsame])
      refine ⟨object, ?_, hobject⟩
      show (Fields.get? (Fields.set members name inner') name).bind _ = _
      rw [Fields.get?_set_self]
      exact hread
  same place hplace := by
    have hne : place ≠ [] := by
      rintro rfl
      exact hplace.2 List.nil_prefix
    by_cases hmember : [Step.key name] <+: place
    · obtain ⟨below, rfl⟩ := hmember
      have hbelow : Location.Apart (rest.map .key) below :=
        ⟨fun hstart => hplace.1 ((List.prefix_append_right_inj [Step.key name]).mpr hstart),
          fun hstart => hplace.2 ((List.prefix_append_right_inj [Step.key name]).mpr hstart)⟩
      have hnotEmpty : below ≠ [] := by
        rintro rfl
        exact hbelow.2 List.nil_prefix
      show (Fields.get? (Fields.set members name inner') name).bind (·.locate? below) =
        (Fields.get? members name).bind (·.locate? below)
      rw [Fields.get?_set_self, Option.bind_some, h.same below hbelow, hinner below hnotEmpty]
    · exact locate?_set hmember hne

/-- A write below names succeeds where the way is passable. -/
theorem exists_place? (value : Json) (hpath : path ≠ []) (h : Passable record path) :
    ∃ placed, place? value path record = some placed ∧ Placed value path record placed := by
  induction path generalizing record with
  | nil => exact absurd rfl hpath
  | cons name rest ih =>
    obtain ⟨members, rfl⟩ := Json.exists_members h.object
    cases rest with
    | nil => exact ⟨_, rfl, placed_last members name value⟩
    | cons next rest =>
      obtain ⟨inner, hpassable, hplace, hlocate⟩ := passable_inner h
      obtain ⟨inner', hinner', hplaced⟩ := ih (List.cons_ne_nil next rest) hpassable
      exact ⟨_, by rw [hplace, hinner']; rfl, placed_below hlocate hplaced⟩

/-! ## Several writes -/

theorem apart_map_key {path other : List String} (h : ¬ path <+: other) (h' : ¬ other <+: path) :
    Location.Apart (path.map .key) (other.map .key) := by
  have hkey : Function.Injective Step.key := fun a b hab => Step.key.inj hab
  exact ⟨fun hstart => h ((List.prefix_map_iff_of_injective hkey).mp hstart),
    fun hstart => h' ((List.prefix_map_iff_of_injective hkey).mp hstart)⟩

/-- Names that lie apart from a written path are read as before. -/
theorem Placed.at?_eq (h : Placed value path record placed) {other : List String}
    (hother : ¬ path <+: other) (hother' : ¬ other <+: path) :
    placed.at? other = record.at? other := by
  rw [Json.at?_eq_locate?, Json.at?_eq_locate?, h.same _ (apart_map_key hother hother')]

/-- A write keeps the way to another place passable, unless it puts its value there. -/
theorem Placed.passable (h : Placed value path record placed) (hpath : path ≠ [])
    {other : List String} (hother : path <+: other → path = other) (hway : Passable record other) :
    Passable placed other where
  object := by
    obtain ⟨inner, hinner, hobject⟩ := h.way [] List.nil_prefix (Ne.symm hpath)
    obtain rfl := Option.some.inj hinner
    exact hobject
  way front hfront hne inner hinner := by
    -- on the common way there are objects now, and off it nothing has changed
    by_cases habove : front <+: path
    · have hproper : front ≠ path := by
        rintro rfl
        exact hne (hother hfront)
      obtain ⟨object, hread, hobject⟩ := h.way front habove hproper
      obtain rfl := Option.some.inj (hread.symm.trans hinner)
      exact .inl hobject
    · have hbelow : ¬ path <+: front := by
        intro hstart
        obtain rfl := hother (hstart.trans hfront)
        exact habove hfront
      rw [h.at?_eq hbelow habove] at hinner
      exact hway.way front hfront hne inner hinner

/-- Writes at paths that lie apart all succeed, and each value is read back. -/
theorem exists_placeAll (values : KeyAttribute → Json) {attributes : List KeyAttribute}
    (hne : ∀ attr ∈ attributes, attr.path ≠ [])
    (hapart : ∀ attr ∈ attributes, ∀ other ∈ attributes, attr.path <+: other.path → attr = other)
    (hway : ∀ attr ∈ attributes, Passable record attr.path) :
    ∃ placed, attributes.foldlM (fun record attr => place? (values attr) attr.path record) record =
        some placed ∧
      (∀ attr ∈ attributes, placed.at? attr.path = some (values attr)) ∧
      ∀ place : Location, (∀ attr ∈ attributes, Location.Apart (attr.path.map .key) place) →
        placed.locate? place = record.locate? place := by
  induction attributes generalizing record with
  | nil => exact ⟨record, rfl, fun attr hattr => absurd hattr List.not_mem_nil, fun _ _ => rfl⟩
  | cons first rest ih =>
    have hfirst := List.mem_cons_self (a := first) (l := rest)
    obtain ⟨next, hnext, hplaced⟩ := exists_place? (values first) (hne first hfirst)
      (hway first hfirst)
    have hrest : ∀ attr ∈ rest, Passable next attr.path := fun attr hattr =>
      hplaced.passable (hne first hfirst)
        (fun hstart =>
          congrArg _ (hapart first hfirst attr (List.mem_cons_of_mem _ hattr) hstart))
        (hway attr (List.mem_cons_of_mem _ hattr))
    obtain ⟨placed, hfold, hread, hsame⟩ := ih
      (fun attr hattr => hne attr (List.mem_cons_of_mem _ hattr))
      (fun attr hattr other hother =>
        hapart attr (List.mem_cons_of_mem _ hattr) other (List.mem_cons_of_mem _ hother))
      hrest
    refine ⟨placed, ?_, fun attr hattr => ?_, fun place hplace => ?_⟩
    · rw [List.foldlM_cons, hnext]
      exact hfold
    · by_cases hlater : attr ∈ rest
      · exact hread attr hlater
      · obtain rfl : attr = first := (List.mem_cons.mp hattr).resolve_right hlater
        -- the writes that follow are apart from this one
        have hothers : ∀ other ∈ rest,
            Location.Apart (other.path.map .key) (attr.path.map .key) := by
          intro other hother
          have hmem := List.mem_cons_of_mem attr hother
          refine apart_map_key (fun hstart => hlater ?_) fun hstart => hlater ?_
          · rwa [← hapart other hmem attr hfirst hstart]
          · rwa [hapart attr hfirst other hmem hstart]
        rw [Json.at?_eq_locate?, hsame _ hothers, ← Json.at?_eq_locate?, hplaced.read]
    · rw [hsame place fun attr hattr => hplace attr (List.mem_cons_of_mem _ hattr),
        hplaced.same place (hplace first hfirst)]

end PrimaryKey

end NestedRecord
