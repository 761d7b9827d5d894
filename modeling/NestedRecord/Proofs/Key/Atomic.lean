import NestedRecord.Proofs.Key.Restoring
import NestedRecord.Proofs.Record.Conforming

/-!
# Keys are written as a whole or not at all

A key is written in place: objects that are missing on the way are made as the write goes along, and
nothing takes them back where it stops. Even so a write that stops leaves the record as it was. It
stops only at a value that is there, and behind an object that has been made there is none.

- `PrimaryKey.place_eq`: what a write in place leaves behind.
- `PrimaryKey.Placed.of_place?`: the way was passable where a write has succeeded.
- `PrimaryKey.isSome_foldlM_writePart?_iff` and `PrimaryKey.PlacedAll.of_foldlM`: when several
  writes succeed, and what they leave behind. `PrimaryKey.placeParts_eq`: in place they go the same
  way, up to where one stops.
- `PrimaryKey.Fits` is when a key can be written, `PrimaryKey.Written` what a record holds then.
- `Store.IsCompiled.setKey_atomic` is the result for a store.

Several writes are another matter, since an early one may have succeeded when a later one stops.
This is why key attributes have to lie apart: then no write makes a way passable or impassable for
another one, and whether all succeed can be seen before the first.
-/

namespace NestedRecord

open Fields (get?)

namespace PrimaryKey

variable {value record placed : Json} {path : List String}

/-! ## One write -/

/-- The object that a write goes on in behind a name, or the value that stops it there. -/
def behind (members : Fields Json) (name : String) : Json :=
  match get? members name with
  | none | some .null => .object []
  | some inner => inner

/-- A write with names to go writes into the object behind the first of them. -/
theorem place?_cons (value : Json) (name next : String) (rest : List String)
    (members : Fields Json) :
    place? value (name :: next :: rest) (.object members) =
      (place? value (next :: rest) (behind members name)).map fun inner =>
        .object (Fields.set members name inner) := rfl

theorem place_cons (value : Json) (name next : String) (rest : List String)
    (members : Fields Json) :
    place value (name :: next :: rest) (.object members) =
      (.object (Fields.set members name (place value (next :: rest) (behind members name)).1),
        (place value (next :: rest) (behind members name)).2) := rfl

/-- What a write goes on in is made for it in the place of nothing or null, or is there. -/
theorem behind_cases (members : Fields Json) (name : String) :
    (behind members name = .object [] ∧
        (get? members name = none ∨ get? members name = some .null)) ∨
      get? members name = some (behind members name) := by
  unfold behind
  split
  · next hget => exact .inl ⟨rfl, .inl hget⟩
  · next hget => exact .inl ⟨rfl, .inr hget⟩
  · next inner _ hget => exact .inr hget

/-- The way of a write that has succeeded was passable. -/
theorem passable_of_place? (h : place? value path record = some placed) :
    Passable record path := by
  induction path generalizing record placed with
  | nil => cases h
  | cons name rest ih =>
    cases record with
    | object members =>
      refine ⟨rfl, fun front hfront hne inner hinner => ?_⟩
      rcases List.prefix_cons_iff.mp hfront with rfl | ⟨below, rfl, hbelow⟩
      · obtain rfl := Option.some.inj hinner
        exact .inl rfl
      have hproper : below ≠ rest := fun hsame => hne (by rw [hsame])
      cases rest with
      | nil => exact absurd (List.prefix_nil.mp hbelow) hproper
      | cons next rest =>
        rw [place?_cons] at h
        obtain ⟨inner', hinner', -⟩ := Option.map_eq_some_iff.mp h
        replace hinner : (get? members name).bind (·.at? below) = some inner := hinner
        rcases behind_cases members name with ⟨-, hget | hget⟩ | hget
        · rw [hget] at hinner
          cases hinner
        · -- below null there is nothing but null itself
          rw [hget] at hinner
          cases below with
          | nil =>
            obtain rfl := Option.some.inj hinner
            exact .inr rfl
          | cons key below => cases hinner
        · rw [hget] at hinner
          exact (ih hinner').way below hbelow hproper inner hinner
    | _ => cases rest <;> cases h

/-- Where a way is passable a write succeeds, and nowhere else. -/
theorem isSome_place?_iff (value : Json) (hne : path ≠ []) :
    (place? value path record).isSome = true ↔ Passable record path := by
  constructor
  · intro h
    obtain ⟨placed, hplaced⟩ := Option.isSome_iff_exists.mp h
    exact passable_of_place? hplaced
  · intro h
    obtain ⟨placed, hplaced, -⟩ := exists_place? value hne h
    rw [hplaced]
    rfl

/-- What a write that has succeeded leaves behind. -/
theorem Placed.of_place? (h : place? value path record = some placed) :
    Placed value path record placed := by
  have hne : path ≠ [] := by
    rintro rfl
    cases h
  obtain ⟨placed', hplaced', hwritten⟩ := exists_place? value hne (passable_of_place? h)
  obtain rfl := Option.some.inj (h.symm.trans hplaced')
  exact hwritten

/-- A write in place that stops has changed nothing: it has made no object, as behind an object
that it makes it does not stop. -/
theorem place_eq (value : Json) (path : List String) (record : Json) :
    place value path record =
      match place? value path record with
      | some placed => (placed, true)
      | none => (record, false) := by
  induction path generalizing record with
  | nil => cases record <;> rfl
  | cons name rest ih =>
    cases record with
    | object members =>
      cases rest with
      | nil => rfl
      | cons next rest =>
        rw [place_cons, place?_cons, ih]
        cases hinner : place? value (next :: rest) (behind members name) with
        | some placed => rfl
        | none =>
          -- in a new object nothing stops a write, and one that is there is put back as it was
          rcases behind_cases members name with ⟨hnew, -⟩ | hget
          · obtain ⟨placed, hplaced, -⟩ := exists_place? value (List.cons_ne_nil next rest)
              (passable_empty (next :: rest))
            rw [hnew, hplaced] at hinner
            cases hinner
          · simp only [Option.map_none, Fields.set_of_get? hget]
    | _ => cases rest <;> rfl

/-! ## Several writes -/

/-- A way that a write leaves passable was so before. -/
theorem Placed.passable_before (h : Placed value path record placed)
    (hpassable : Passable record path) {other : List String}
    (hother : path <+: other → path = other) (hway : Passable placed other) :
    Passable record other where
  object := hpassable.object
  way front hfront hne inner hinner := by
    by_cases habove : front <+: path
    · -- above its place the write itself has passed
      have hproper : front ≠ path := by
        rintro rfl
        exact hne (hother hfront)
      exact hpassable.way front habove hproper inner hinner
    · have hbelow : ¬ path <+: front := by
        intro hstart
        obtain rfl := hother (hstart.trans hfront)
        exact habove hfront
      rw [← h.at?_eq hbelow habove] at hinner
      exact hway.way front hfront hne inner hinner

section Several

variable {entries : List (KeyAttribute × String)}

/-- What several writes leave behind: at each place the part written there last, and everything
apart from these places as it was. -/
structure PlacedAll (entries : List (KeyAttribute × String)) (record placed : Json) : Prop where
  read : ∀ front entry back, entries = front ++ entry :: back →
    (∀ other ∈ back, other.1 ≠ entry.1) →
      placed.at? entry.1.path = some (partValue entry.1.type entry.2)
  same : ∀ place : Location, (∀ entry ∈ entries, Location.Apart (entry.1.path.map .key) place) →
    placed.locate? place = record.locate? place

variable (hne : ∀ entry ∈ entries, entry.1.path ≠ [])
  (hapart : ∀ entry ∈ entries, ∀ other ∈ entries, entry.1.path <+: other.1.path →
    entry.1 = other.1)
include hne hapart

/-- Several writes succeed exactly if the way to each place is passable before the first one. -/
theorem isSome_foldlM_writePart?_iff :
    (entries.foldlM writePart? record).isSome = true ↔
      ∀ entry ∈ entries, Passable record entry.1.path := by
  induction entries generalizing record with
  | nil => simp
  | cons first rest ih =>
    obtain ⟨hfirst, hrest⟩ := List.forall_mem_cons.mp hne
    have hbelow : ∀ entry ∈ rest, first.1.path <+: entry.1.path → first.1.path = entry.1.path :=
      fun entry hentry hstart =>
        congrArg _ (hapart first List.mem_cons_self entry (List.mem_cons_of_mem _ hentry) hstart)
    rw [List.foldlM_cons, List.forall_mem_cons]
    cases hnext : writePart? record first with
    | none =>
      refine iff_of_false Bool.false_ne_true fun hall => ?_
      have hsome := (isSome_place?_iff (partValue first.1.type first.2) hfirst).mpr hall.1
      rw [← writePart?, hnext] at hsome
      cases hsome
    | some next =>
      have hpassable := passable_of_place? hnext
      have hplaced := Placed.of_place? hnext
      -- the first write leaves the other ways as passable as they were
      have hsame : (∀ entry ∈ rest, Passable next entry.1.path) ↔
          ∀ entry ∈ rest, Passable record entry.1.path := by
        refine forall₂_congr fun entry hentry => ?_
        constructor
        · exact hplaced.passable_before hpassable (hbelow entry hentry)
        · exact hplaced.passable hfirst (hbelow entry hentry)
      rw [and_iff_right hpassable, ← hsame]
      exact ih hrest fun entry hentry other hother =>
        hapart entry (List.mem_cons_of_mem _ hentry) other (List.mem_cons_of_mem _ hother)

/-- What several writes leave behind, one after the other. -/
theorem PlacedAll.of_foldlM (h : entries.foldlM writePart? record = some placed) :
    PlacedAll entries record placed := by
  induction entries generalizing record with
  | nil =>
    obtain rfl := Option.some.inj h
    exact ⟨fun front entry back hsplit => by simp at hsplit, fun _ _ => rfl⟩
  | cons first rest ih =>
    rw [List.foldlM_cons] at h
    obtain ⟨next, hnext, h⟩ := Option.bind_eq_some_iff.mp h
    have hfirst := Placed.of_place? hnext
    have hall := ih (List.forall_mem_cons.mp hne).2 (fun entry hentry other hother =>
      hapart entry (List.mem_cons_of_mem _ hentry) other (List.mem_cons_of_mem _ hother)) h
    constructor
    · intro front entry back hsplit hlast
      cases front with
      | nil =>
        obtain ⟨rfl, rfl⟩ := List.cons.inj hsplit
        -- the writes that follow are at places apart
        have hothers : ∀ other ∈ rest,
            Location.Apart (other.1.path.map .key) (first.1.path.map .key) := by
          intro other hother
          have hmem := List.mem_cons_of_mem first hother
          refine apart_map_key (fun hstart => hlast other hother ?_)
            fun hstart => hlast other hother ?_
          · exact hapart other hmem first List.mem_cons_self hstart
          · exact (hapart first List.mem_cons_self other hmem hstart).symm
        rw [Json.at?_eq_locate?, hall.same _ hothers, ← Json.at?_eq_locate?]
        exact hfirst.read
      | cons _ front => exact hall.read front entry back (List.cons.inj hsplit).2 hlast
    · intro place hplace
      obtain ⟨hown, hothers⟩ := List.forall_mem_cons.mp hplace
      rw [hall.same place hothers, hfirst.same place hown]

end Several

/-- Parts are written in place like one after the other, up to where one of them stops. -/
theorem placeParts_eq (entries : List (KeyAttribute × String)) (record : Json) :
    (placeParts entries record).2 = (entries.foldlM writePart? record).isSome ∧
      ∀ placed, entries.foldlM writePart? record = some placed →
        (placeParts entries record).1 = placed := by
  induction entries generalizing record with
  | nil => exact ⟨rfl, fun placed h => Option.some.inj h⟩
  | cons first rest ih =>
    obtain ⟨attr, part⟩ := first
    rw [placeParts, place_eq, List.foldlM_cons, writePart?]
    cases place? (partValue attr.type part) attr.path record with
    | none => exact ⟨rfl, fun placed h => by cases h⟩
    | some next => exact ih next

/-! ## Keys -/

variable {key : PrimaryKey}

/-- A key can be written into a record: there is a key attribute, the way to each of them is
passable, and a composite key has a part for each. -/
structure Fits (key : PrimaryKey) (record value : Json) : Prop where
  keyed : key.attributes ≠ []
  way : ∀ attr ∈ key.attributes, Passable record attr.path
  parts : 2 ≤ key.attributes.length → ∃ text, value = .string text ∧
    (CompositeKey.decode key.separator text).length = key.attributes.length

/-- A record into which a key has been written. -/
structure Written (key : PrimaryKey) (record value placed : Json) : Prop where
  /-- a key that is not composite is the value of its attribute -/
  single : ∀ attr, key.attributes = [attr] → placed.at? attr.path = some value
  /-- each attribute of a composite key has the value of its part, if two are one of the later -/
  parts : 2 ≤ key.attributes.length → ∀ text, value = .string text →
    ∀ front entry back,
      key.attributes.zip (CompositeKey.decode key.separator text) = front ++ entry :: back →
        (∀ other ∈ back, other.1 ≠ entry.1) →
          placed.at? entry.1.path = some (partValue entry.1.type entry.2)
  /-- whatever is apart from the key attributes is as before -/
  apart : ∀ place : Location,
    (∀ attr ∈ key.attributes, Location.Apart (attr.path.map .key) place) →
      placed.locate? place = record.locate? place

/-- Attributes of parts are those of the key. -/
theorem mem_of_mem_zip {parts : List String} {entry : KeyAttribute × String}
    (h : entry ∈ key.attributes.zip parts) : entry.1 ∈ key.attributes :=
  (List.of_mem_zip (a := entry.1) (b := entry.2) h).1

/-- A key is written in place as it is written at once, and where that fails nothing is. -/
theorem write_eq (key : PrimaryKey) (record value : Json) :
    key.write record value =
      match key.write? record value with
      | some placed => (placed, true)
      | none => (record, false) := by
  unfold write write?
  rcases key.attributes with _ | ⟨single, _ | ⟨second, rest⟩⟩
  · rfl
  · exact place_eq value single.path record
  cases value with
  | string text =>
    simp only
    by_cases hlength :
        (CompositeKey.decode key.separator text).length = (single :: second :: rest).length
    · rw [if_pos hlength, if_pos hlength]
      -- the copy takes the place of the record if all parts have been written into it
      generalize (single :: second :: rest).zip (CompositeKey.decode key.separator text) = entries
      obtain ⟨hwritten, hplaced⟩ := placeParts_eq entries record
      cases hfold : entries.foldlM writePart? record with
      | none =>
        rw [hfold] at hwritten
        simp only [hwritten, Option.isSome_none, Bool.false_eq_true, if_false]
      | some placed =>
        rw [hfold] at hwritten
        simp only [hwritten, Option.isSome_some, if_true, hplaced placed hfold]
    · rw [if_neg hlength, if_neg hlength]
  | _ => rfl

theorem write?_single {single : KeyAttribute} (hkeys : key.attributes = [single])
    (record value : Json) : key.write? record value = place? value single.path record := by
  unfold write?
  rw [hkeys]

section Single

variable {single : KeyAttribute} (hkeys : key.attributes = [single])
include hkeys

/-- One key attribute only asks for a passable way. -/
theorem fits_single_iff (record value : Json) :
    key.Fits record value ↔ Passable record single.path := by
  constructor
  · intro h
    exact h.way single (by rw [hkeys]; exact List.mem_singleton_self _)
  · intro h
    refine ⟨by rw [hkeys]; exact List.cons_ne_nil _ _, fun attr hattr => ?_, fun hlength => ?_⟩
    · rw [hkeys, List.mem_singleton] at hattr
      rwa [hattr]
    · simp [hkeys] at hlength

/-- What has been placed for a key of one attribute is the key. -/
theorem Written.of_single (h : place? value single.path record = some placed) :
    key.Written record value placed := by
  have hplaced := Placed.of_place? h
  refine ⟨fun attr hattr => ?_, fun hlength => ?_, fun place hplace => ?_⟩
  · obtain rfl := List.singleton_inj.mp (hkeys.symm.trans hattr)
    exact hplaced.read
  · simp [hkeys] at hlength
  · exact hplaced.same place (hplace single (by rw [hkeys]; exact List.mem_singleton_self _))

end Single

section Composite

variable (hcomposite : 2 ≤ key.attributes.length)
include hcomposite

/-- A key of several parts is a text. -/
theorem write?_eq_none_of_not_text (record : Json) (hvalue : ∀ text, value ≠ .string text) :
    key.write? record value = none := by
  unfold write?
  split
  · rfl
  · next hsingle => simp [hsingle] at hcomposite
  · split
    · exact absurd rfl (hvalue _)
    · rfl

variable {text : String}

/-- A text with a part for each attribute can be written where the way to each is passable. -/
theorem fits_text_iff (hlength :
    (CompositeKey.decode key.separator text).length = key.attributes.length) :
    key.Fits record (.string text) ↔ ∀ attr ∈ key.attributes, Passable record attr.path := by
  have hne : key.attributes ≠ [] := List.ne_nil_of_length_pos (by omega)
  exact ⟨fun h => h.way, fun h => ⟨hne, h, fun _ => ⟨text, rfl, hlength⟩⟩⟩

/-- What has been placed for all parts is the key. -/
theorem Written.of_parts
    (h : PlacedAll (key.attributes.zip (CompositeKey.decode key.separator text)) record placed) :
    key.Written record (.string text) placed := by
  refine ⟨fun attr hattr => ?_, fun _ text' htext => ?_, fun place hplace => ?_⟩
  · simp [hattr] at hcomposite
  · obtain rfl := Json.string.inj htext
    exact h.read
  · exact h.same place fun entry hentry => hplace _ (mem_of_mem_zip hentry)

end Composite

/-- When a key can be written, and what is left behind then. -/
theorem Proper.write?_spec (hproper : key.Proper) (record value : Json) :
    ((key.write? record value).isSome = true ↔ key.Fits record value) ∧
      ∀ placed, key.write? record value = some placed → key.Written record value placed := by
  rcases hkeys : key.attributes with _ | ⟨single, _ | ⟨second, rest⟩⟩
  · have hnone : key.write? record value = none := by
      unfold write?
      rw [hkeys]
    rw [hnone]
    exact ⟨iff_of_false Bool.false_ne_true fun h => h.keyed hkeys, fun placed h => by cases h⟩
  · have hne : single.path ≠ [] :=
      hproper.ne_nil single (by rw [hkeys]; exact List.mem_singleton_self _)
    rw [write?_single hkeys, fits_single_iff hkeys, isSome_place?_iff value hne]
    exact ⟨Iff.rfl, fun placed => Written.of_single hkeys⟩
  have hcomposite : 2 ≤ key.attributes.length := by
    rw [hkeys, List.length_cons, List.length_cons]
    omega
  by_cases htext : ∃ text, value = .string text ∧
      (CompositeKey.decode key.separator text).length = key.attributes.length
  · obtain ⟨text, rfl, hlength⟩ := htext
    have hentries : ∀ entry ∈ key.attributes.zip (CompositeKey.decode key.separator text),
        entry.1.path ≠ [] := fun entry hentry => hproper.ne_nil _ (mem_of_mem_zip hentry)
    have hapart : ∀ entry ∈ key.attributes.zip (CompositeKey.decode key.separator text),
        ∀ other ∈ key.attributes.zip (CompositeKey.decode key.separator text),
          entry.1.path <+: other.1.path → entry.1 = other.1 :=
      fun entry hentry other hother =>
        hproper.apart _ (mem_of_mem_zip hentry) _ (mem_of_mem_zip hother)
    -- each attribute has its part
    have hall : (∀ entry ∈ key.attributes.zip (CompositeKey.decode key.separator text),
        Passable record entry.1.path) ↔ ∀ attr ∈ key.attributes, Passable record attr.path := by
      have hfirst := List.map_fst_zip (Nat.le_of_eq hlength.symm)
      rw [← List.forall_mem_map (f := Prod.fst) (P := fun attr : KeyAttribute =>
        Passable record attr.path), hfirst]
    rw [write?_composite hcomposite, if_pos hlength, fits_text_iff hcomposite hlength, ← hall]
    exact ⟨isSome_foldlM_writePart?_iff hentries hapart, fun placed h =>
      Written.of_parts hcomposite (PlacedAll.of_foldlM hentries hapart h)⟩
  · have hnone : key.write? record value = none := by
      by_cases hvalue : ∃ text, value = .string text
      · obtain ⟨text, rfl⟩ := hvalue
        rw [write?_composite hcomposite, if_neg fun hlength => htext ⟨text, rfl, hlength⟩]
      · exact write?_eq_none_of_not_text hcomposite record fun text h => hvalue ⟨text, h⟩
    rw [hnone]
    exact ⟨iff_of_false Bool.false_ne_true fun h => htext (h.parts hcomposite),
      fun placed h => by cases h⟩

end PrimaryKey

/-! ## Stores -/

/-- A key is written as a whole, exactly if it fits the record, and then nothing apart from the key
attributes changes; or it is not written, and the record stays as it is. -/
theorem Store.IsCompiled.setKey_atomic {store : Store} (hstore : store.IsCompiled)
    (record key : Json) :
    ((store.setKey record key).2 = false → (store.setKey record key).1 = record) ∧
      ((store.setKey record key).2 = true →
        store.key.Written record key (store.setKey record key).1) ∧
      ((store.setKey record key).2 = true ↔ store.key.Fits record key) := by
  obtain ⟨hfits, hwritten⟩ := hstore.proper.write?_spec record key
  rw [← hfits, Store.setKey, PrimaryKey.write_eq]
  cases hwrite : store.key.write? record key with
  | none => simp
  | some placed => simpa using hwritten placed hwrite

/-- A unit with a number where the object with its serial number should be. -/
def Store.blockedUnit : Json := .object [("shop", .string "north"), ("meta", .ofInt 5)]

/-- The key of another unit is not written into it, although the first part could be. In place of
null the object is made. -/
theorem Store.setKey_atomic_units : units.IsCompiled ∧
    (units.setKey blockedUnit (.string "south-12")).2 = false ∧
    (units.setKey blockedUnit (.string "south-12")).1 = blockedUnit ∧
    (units.setKey spare (.string "south-12")).2 = true ∧
    (units.setKey spare (.string "south-12")).1.at? ["meta", "serial"] = some (.ofInt 12) := by
  have hstore : units.IsCompiled := isCompiled_compiled ..
  have hblocked : (units.setKey blockedUnit (.string "south-12")).2 = false := by
    rw [setKey, key_units]
    decide
  have hwritten : (units.setKey spare (.string "south-12")).2 = true := by
    rw [setKey, key_units]
    decide
  obtain ⟨hkept, -, -⟩ := IsCompiled.setKey_atomic hstore blockedUnit (.string "south-12")
  obtain ⟨-, hplaced, -⟩ := IsCompiled.setKey_atomic hstore spare (.string "south-12")
  have hserial := (hplaced hwritten).parts (by rw [key_units]; exact Nat.le_refl 2) _ rfl
    [(⟨["shop"], some .string⟩, "south")] (⟨["meta", "serial"], some .int⟩, "12") []
    (by rw [key_units]; decide) (by simp)
  have hvalue : PrimaryKey.partValue (some .int) "12" = .ofInt 12 :=
    PrimaryKey.partValue_intText (n := .clamp 12) (by decide)
  exact ⟨hstore, hblocked, hkept hblocked, hwritten, hserial.trans (congrArg some hvalue)⟩

end NestedRecord
