import NestedRecord.Proofs.Graph.Metadata
import NestedRecord.Proofs.Json.Write

/-!
# Overwriting values

A write whose place is there leaves the keys and their order as they are: it is an overwrite. Of
overwrites it can be said what `Json.SameOutside` leaves open, that the value is the same one again.

- `Json.overwrite value location record`: the record with another value at a place that it has; a
  record without the place stays as it is. `Cursor.setAt?_eq_overwrite` finds it in the writes of
  cursors.
- `overwrite_overwrite`, `overwrite_comm` and `overwrite_eq_self`: the second of two values at one
  place counts, places apart from one another do not meet, and nothing happens when the value is
  there.
- `overwriteAll_sameOutside` and `locate?_overwriteAll_self`: what overwrites leave alone, and what
  is found at their places.
- `eq_of_overwriteAll`: overwrites that leave the old values leave the old record.

Writes of cursors may fail and overwrites do not, which makes them easy to exchange. A procedure is
turned into overwrites once, from what is known about its places, and then only these are reordered
and dropped.
-/

namespace NestedRecord

namespace Fields

variable {α : Type}

/-- Of two changes of a key the second one works on the result of the first. -/
theorem update_update (f g : α → α) (fields : Fields α) (key : String) :
    update f (update g fields key) key = update (f ∘ g) fields key := by
  induction fields with
  | nil => rfl
  | cons field rest ih =>
    obtain ⟨k, v⟩ := field
    by_cases hk : k = key
    · simp [update, hk]
    · simp [update, hk, ih]

/-- Changes of two keys may be exchanged. -/
theorem update_comm (f g : α → α) (fields : Fields α) {key other : String} (h : key ≠ other) :
    update f (update g fields other) key = update g (update f fields key) other := by
  induction fields with
  | nil => rfl
  | cons field rest ih =>
    obtain ⟨k, v⟩ := field
    by_cases hk : k = key
    · have ho : k ≠ other := fun heq => h (hk.symm.trans heq)
      simp [update, hk, h]
    · by_cases ho : k = other
      · simp [update, ho, Ne.symm h]
      · simp [update, hk, ho, ih]

/-- A change that keeps the value of its key keeps the table. -/
theorem update_eq_self {f : α → α} {fields : Fields α} {key : String}
    (h : ∀ value, get? fields key = some value → f value = value) :
    update f fields key = fields := by
  induction fields with
  | nil => rfl
  | cons field rest ih =>
    obtain ⟨k, v⟩ := field
    by_cases hk : k = key
    · simp [update, hk, h v (by simp [get?, hk])]
    · rw [update, if_neg hk, ih fun value hget => h value (by simpa [get?, hk] using hget)]

/-- Writing a key that is present changes its value. -/
theorem set_eq_update {fields : Fields α} {key : String} (h : has fields key = true) (value : α) :
    set fields key value = update (fun _ => value) fields key := by
  induction fields with
  | nil => simp [has] at h
  | cons field rest ih =>
    obtain ⟨k, v⟩ := field
    by_cases hk : k = key
    · simp [set, update, hk]
    · rw [set, update, if_neg hk, if_neg hk, ih (by simpa [has, get?, hk] using h)]

/-- Writing the value that is there changes nothing. -/
theorem set_of_get? {fields : Fields α} {key : String} {value : α}
    (h : get? fields key = some value) : set fields key value = fields := by
  rw [set_eq_update (has_iff.mpr ⟨value, h⟩)]
  exact update_eq_self fun other hother => Option.some.inj (h.symm.trans hother)

/-- Of two values that are set under a key the second counts. -/
theorem set_set (fields : Fields α) (key : String) (value value' : α) :
    set (set fields key value) key value' = set fields key value' := by
  induction fields with
  | nil => simp [set]
  | cons field rest ih =>
    obtain ⟨k, v⟩ := field
    by_cases hk : k = key
    · simp [set, hk]
    · simp [set, hk, ih]

/-- A change that may fail, where it does not. -/
theorem modify?_eq_update {f : α → Option α} {g : α → α} {fields fields' : Fields α} {key : String}
    (hfg : ∀ value value', get? fields key = some value → f value = some value' →
      g value = value')
    (h : modify? f fields key = some fields') : fields' = update g fields key := by
  induction fields generalizing fields' with
  | nil => cases h
  | cons field rest ih =>
    obtain ⟨k, v⟩ := field
    by_cases hk : k = key
    · simp only [modify?, hk, if_true, Option.map_eq_some_iff] at h
      obtain ⟨v', hv', rfl⟩ := h
      simp [update, hk, hfg v v' (by simp [get?, hk]) hv']
    · simp only [modify?, hk, if_false, Option.map_eq_some_iff] at h
      obtain ⟨rest', hrest', rfl⟩ := h
      have hinner := ih (fun value value' hget => hfg value value' (by simpa [get?, hk] using hget))
        hrest'
      simp [update, hk, hinner]

end Fields

namespace Json

/-! ## One step down -/

/-- Changes the part that one step leads to, where there is one. -/
def updateChild (f : Json → Json) : Json → Step → Json
  | .object members, .key key => .object (Fields.update f members key)
  | .array items, .index index => .array (items.modify index f)
  | value, _ => value

/-- A change of one part is seen at its step only. -/
theorem child?_updateChild (f : Json → Json) (value : Json) (step other : Step) :
    (value.updateChild f step).child? other =
      if other = step then (value.child? other).map f else value.child? other := by
  cases value with
  | object members =>
    cases step with
    | index => cases other <;> simp [updateChild, child?]
    | key key =>
      cases other with
      | index => simp [updateChild, child?]
      | key k => simp [updateChild, child?, Fields.get?_update]
  | array items =>
    cases step with
    | key => cases other <;> simp [updateChild, child?]
    | index index =>
      cases other with
      | key => simp [updateChild, child?]
      | index j =>
        by_cases hj : j = index
        · simp [updateChild, child?, hj]
        · simp [updateChild, child?, hj, Ne.symm hj]
  | _ => cases step <;> cases other <;> simp [updateChild, child?]

theorem updateChild_updateChild (f g : Json → Json) (value : Json) (step : Step) :
    (value.updateChild g step).updateChild f step = value.updateChild (f ∘ g) step := by
  cases value <;> cases step <;>
    simp [updateChild, Fields.update_update, List.modify_modify_eq]

/-- Changes behind two steps may be exchanged. -/
theorem updateChild_comm (f g : Json → Json) (value : Json) {step other : Step}
    (h : step ≠ other) :
    (value.updateChild g other).updateChild f step =
      (value.updateChild f step).updateChild g other := by
  cases value <;> cases step <;> cases other <;> try rfl
  case object.key.key members key k =>
    have hne : key ≠ k := fun heq => h (heq ▸ rfl)
    simp [updateChild, Fields.update_comm f g members hne]
  case array.index.index items i j =>
    have hne : j ≠ i := fun heq => h (heq ▸ rfl)
    simp [updateChild, List.modify_modify_ne _ _ _ hne]

/-- A change that keeps the part keeps the value. -/
theorem updateChild_eq_self {f : Json → Json} {value : Json} {step : Step}
    (h : ∀ child, value.child? step = some child → f child = child) :
    value.updateChild f step = value := by
  cases value <;> cases step <;> try rfl
  case object.key members key => exact congrArg Json.object (Fields.update_eq_self h)
  case array.index items index =>
    refine congrArg Json.array (List.ext_getElem? fun i => ?_)
    by_cases hi : index = i
    · subst hi
      rw [List.getElem?_modify_eq]
      cases hitem : items[index]? with
      | none => rfl
      | some item => exact congrArg some (h item hitem)
    · simp [hi]

/-- A change that is made is the change of the part. -/
theorem modifyChild?_eq_updateChild {f : Json → Option Json} {g : Json → Json} {value value' : Json}
    {step : Step}
    (hfg : ∀ child child', value.child? step = some child → f child = some child' →
      g child = child')
    (h : modifyChild? f value step = some value') : value' = value.updateChild g step := by
  cases value <;> cases step <;> try cases h
  case object.key members key =>
    obtain ⟨members', hmembers, rfl⟩ := Option.map_eq_some_iff.mp h
    exact congrArg Json.object (Fields.modify?_eq_update hfg hmembers)
  case array.index items index =>
    obtain ⟨item, hitem, h⟩ := Option.bind_eq_some_iff.mp h
    obtain ⟨item', hitem', rfl⟩ := Option.map_eq_some_iff.mp h
    rw [updateChild, List.modify_eq_set_getElem?, hitem]
    exact congrArg (fun item => Json.array (items.set index item))
      (hfg item item' hitem hitem').symm

/-! ## Overwrites -/

/-- The record with another value at a place; without the place it stays as it is. -/
def overwrite (value : Json) : Location → Json → Json
  | [], _ => value
  | step :: rest, record => record.updateChild (overwrite value rest) step

/-- An overwritten place has its new value, if it was there. -/
theorem locate?_overwrite_self (value : Json) :
    ∀ (location : Location) (record : Json),
      (overwrite value location record).locate? location =
        (record.locate? location).map fun _ => value
  | [], _ => rfl
  | step :: rest, record => by
    show ((record.updateChild (overwrite value rest) step).child? step).bind _ =
      ((record.child? step).bind _).map _
    rw [child?_updateChild, if_pos rfl]
    cases record.child? step with
    | none => rfl
    | some child => exact locate?_overwrite_self value rest child

/-- Places apart from it keep their value. -/
theorem locate?_overwrite_of_apart (value : Json) :
    ∀ {location place : Location} (record : Json), ¬ location <+: place → ¬ place <+: location →
      (overwrite value location record).locate? place = record.locate? place
  | [], _, _, h, _ => absurd List.nil_prefix h
  | _ :: _, [], _, _, h => absurd List.nil_prefix h
  | step :: rest, head :: tail, record, h, h' => by
    show ((record.updateChild (overwrite value rest) step).child? head).bind _ =
      (record.child? head).bind _
    rw [child?_updateChild]
    by_cases hhead : head = step
    · subst hhead
      rw [if_pos rfl]
      cases record.child? head with
      | none => rfl
      | some child =>
        exact locate?_overwrite_of_apart value child
          (fun hstart => h (List.cons_prefix_cons.mpr ⟨rfl, hstart⟩))
          (fun hstart => h' (List.cons_prefix_cons.mpr ⟨rfl, hstart⟩))
    · rw [if_neg hhead]

/-- Of two values that are written to one place the second counts. -/
theorem overwrite_overwrite (value value' : Json) :
    ∀ (location : Location) (record : Json),
      overwrite value' location (overwrite value location record) =
        overwrite value' location record
  | [], _ => rfl
  | step :: rest, record => by
    show (record.updateChild (overwrite value rest) step).updateChild (overwrite value' rest) step =
      record.updateChild (overwrite value' rest) step
    rw [updateChild_updateChild]
    exact congrArg (updateChild · record step) (funext (overwrite_overwrite value value' rest))

/-- Places apart from one another are overwritten in either order. -/
theorem overwrite_comm (value value' : Json) :
    ∀ {location place : Location} (record : Json), ¬ location <+: place → ¬ place <+: location →
      overwrite value' place (overwrite value location record) =
        overwrite value location (overwrite value' place record)
  | [], _, _, h, _ => absurd List.nil_prefix h
  | _ :: _, [], _, _, h => absurd List.nil_prefix h
  | step :: rest, head :: tail, record, h, h' => by
    show (record.updateChild (overwrite value rest) step).updateChild (overwrite value' tail) head =
      (record.updateChild (overwrite value' tail) head).updateChild (overwrite value rest) step
    by_cases hhead : head = step
    · subst hhead
      rw [updateChild_updateChild, updateChild_updateChild]
      exact congrArg (updateChild · record head) (funext fun child =>
        overwrite_comm value value' child
          (fun hstart => h (List.cons_prefix_cons.mpr ⟨rfl, hstart⟩))
          (fun hstart => h' (List.cons_prefix_cons.mpr ⟨rfl, hstart⟩)))
    · exact updateChild_comm _ _ record hhead

/-- Overwriting a value by itself changes nothing, nor does overwriting what is not there. -/
theorem overwrite_eq_self {value : Json} :
    ∀ {location : Location} {record : Json},
      (∀ present, record.locate? location = some present → present = value) →
        overwrite value location record = record
  | [], record, h => (h record rfl).symm
  | step :: rest, record, h =>
    updateChild_eq_self fun child hchild => overwrite_eq_self fun present hpresent =>
      h present (by
        show (record.child? step).bind _ = _
        rw [hchild]
        exact hpresent)

theorem outline_updateChild (f : Json → Json) (value : Json) (step : Step) :
    (value.updateChild f step).outline = value.outline := by
  cases value <;> cases step <;> try rfl
  case array.index items index => simp [updateChild, outline]

/-- An overwrite changes nothing outside its place. -/
theorem overwrite_sameOutside (value : Json) :
    ∀ (location : Location) (record : Json),
      SameOutside (· = location) record (overwrite value location record)
  | [], _ => fun _ hplace => absurd List.nil_prefix (hplace [] rfl)
  | step :: rest, record => by
    intro place hplace
    cases place with
    | nil =>
      refine ⟨?_, fun hinside => absurd List.nil_prefix (hinside _ rfl)⟩
      exact congrArg some (outline_updateChild _ record step)
    | cons head tail =>
      show (((record.updateChild (overwrite value rest) step).child? head).bind _).map outline =
        ((record.child? head).bind _).map outline ∧ (_ →
          ((record.updateChild (overwrite value rest) step).child? head).bind _ =
            (record.child? head).bind _)
      -- a place is either behind the same step or not affected at all
      rw [child?_updateChild]
      by_cases hhead : head = step
      · subst hhead
        rw [if_pos rfl]
        cases record.child? head with
        | none => exact ⟨rfl, fun _ => rfl⟩
        | some child =>
          have htail : ∀ location, location = rest → ¬ location <+: tail := by
            rintro location rfl hstart
            exact hplace _ rfl (List.cons_prefix_cons.mpr ⟨rfl, hstart⟩)
          obtain ⟨houtline, hlocate⟩ := overwrite_sameOutside value rest child tail htail
          refine ⟨houtline, fun hinside => hlocate ?_⟩
          rintro location rfl hstart
          exact hinside _ rfl (List.cons_prefix_cons.mpr ⟨rfl, hstart⟩)
      · rw [if_neg hhead]
        exact ⟨rfl, fun _ => rfl⟩

/-! ## Overwrites one after the other -/

/-- Overwrites places one after the other. -/
def overwriteAll (writes : List (Location × Json)) (record : Json) : Json :=
  writes.foldl (fun record write => overwrite write.2 write.1 record) record

theorem overwriteAll_cons (write : Location × Json) (writes : List (Location × Json))
    (record : Json) :
    overwriteAll (write :: writes) record =
      overwriteAll writes (overwrite write.2 write.1 record) :=
  rfl

variable {writes : List (Location × Json)} {location : Location}

/-- Places apart from all that is overwritten keep their value. -/
theorem locate?_overwriteAll_of_apart
    (h : ∀ write ∈ writes, Location.Apart write.1 location) (record : Json) :
    (overwriteAll writes record).locate? location = record.locate? location := by
  induction writes generalizing record with
  | nil => rfl
  | cons write rest ih =>
    obtain ⟨habove, hbelow⟩ := h write List.mem_cons_self
    rw [overwriteAll_cons, ih fun other hmem => h other (List.mem_cons_of_mem _ hmem)]
    exact locate?_overwrite_of_apart write.2 record habove hbelow

/-- A value is forgotten when its place is overwritten later. -/
theorem overwriteAll_overwrite (value : Json)
    (h : ∀ write ∈ writes, write.1 = location ∨ Location.Apart write.1 location)
    (hlater : ∃ write ∈ writes, write.1 = location) (record : Json) :
    overwriteAll writes (overwrite value location record) = overwriteAll writes record := by
  induction writes generalizing record with
  | nil =>
    obtain ⟨_, hmem, -⟩ := hlater
    cases hmem
  | cons write rest ih =>
    rw [overwriteAll_cons, overwriteAll_cons]
    -- the first write overwrites the value, or is exchanged with it
    rcases h write List.mem_cons_self with rfl | ⟨habove, hbelow⟩
    · rw [overwrite_overwrite]
    · rw [overwrite_comm value write.2 record hbelow habove]
      refine ih (fun other hmem => h other (List.mem_cons_of_mem _ hmem)) ?_ _
      obtain ⟨other, hmem, rfl⟩ := hlater
      rcases List.mem_cons.mp hmem with rfl | hrest
      · exact absurd (List.prefix_refl _) habove
      · exact ⟨other, hrest, rfl⟩

/-- Overwrites change nothing outside their places. -/
theorem overwriteAll_sameOutside (writes : List (Location × Json)) (record : Json) :
    SameOutside (fun location => ∃ write ∈ writes, write.1 = location) record
      (overwriteAll writes record) := by
  induction writes generalizing record with
  | nil => exact .refl _ _
  | cons write rest ih =>
    rw [overwriteAll_cons]
    refine ((overwrite_sameOutside write.2 write.1 record).mono ?_).trans ((ih _).mono ?_)
    · rintro location rfl
      exact ⟨write, List.mem_cons_self, rfl⟩
    · rintro location ⟨other, hmem, rfl⟩
      exact ⟨other, List.mem_cons_of_mem _ hmem, rfl⟩

/-- Of overwrites that lie apart each value is found in the end. -/
theorem locate?_overwriteAll_self
    (hapart : writes.Pairwise fun first second => Location.Apart first.1 second.1)
    {write : Location × Json} (hmem : write ∈ writes) {record : Json}
    (hpresent : (record.locate? write.1).isSome) :
    (overwriteAll writes record).locate? write.1 = some write.2 := by
  induction writes generalizing record with
  | nil => cases hmem
  | cons first rest ih =>
    obtain ⟨hfirst, hrest⟩ := List.pairwise_cons.mp hapart
    rw [overwriteAll_cons]
    -- later writes are apart, and earlier ones keep the place there
    rcases List.mem_cons.mp hmem with rfl | hmem
    · rw [locate?_overwriteAll_of_apart fun other hother => (hfirst other hother).symm,
        locate?_overwrite_self]
      obtain ⟨value, hvalue⟩ := Option.isSome_iff_exists.mp hpresent
      rw [hvalue]
      rfl
    · refine ih hrest hmem ?_
      rw [locate?_overwrite_of_apart first.2 record (hfirst write hmem).1 (hfirst write hmem).2]
      exact hpresent

/-- Overwriting values by themselves changes nothing. -/
theorem overwriteAll_eq_self {record : Json}
    (h : ∀ write ∈ writes, ∀ present, record.locate? write.1 = some present → present = write.2) :
    overwriteAll writes record = record := by
  induction writes with
  | nil => rfl
  | cons write rest ih =>
    rw [overwriteAll_cons, overwrite_eq_self (h write List.mem_cons_self)]
    exact ih fun other hmem => h other (List.mem_cons_of_mem _ hmem)

/-- Overwrites of places that are equal or apart leave the record as it was if each place has its
old value in the end. -/
theorem eq_of_overwriteAll {record : Json}
    (hplaces : writes.Pairwise fun first second =>
      second.1 = first.1 ∨ Location.Apart second.1 first.1)
    (hvalues : ∀ write ∈ writes,
      (overwriteAll writes record).locate? write.1 = record.locate? write.1) :
    overwriteAll writes record = record := by
  induction writes with
  | nil => rfl
  | cons write rest ih =>
    obtain ⟨hfirst, hrest⟩ := List.pairwise_cons.mp hplaces
    suffices hgone : overwriteAll (write :: rest) record = overwriteAll rest record by
      rw [hgone] at hvalues ⊢
      exact ih hrest fun other hmem => hvalues other (List.mem_cons_of_mem _ hmem)
    by_cases hlater : ∃ other ∈ rest, other.1 = write.1
    · exact overwriteAll_overwrite write.2 hfirst hlater record
    · -- the value stays until the end, so it is the old one
      have hapart : ∀ other ∈ rest, Location.Apart other.1 write.1 :=
        fun other hmem => (hfirst other hmem).resolve_left fun heq => hlater ⟨other, hmem, heq⟩
      have hvalue := hvalues write List.mem_cons_self
      rw [overwriteAll_cons, locate?_overwriteAll_of_apart hapart, locate?_overwrite_self] at hvalue
      rw [overwriteAll_cons, overwrite_eq_self fun present hpresent => ?_]
      rw [hpresent] at hvalue
      exact (Option.some.inj hvalue).symm

/-! ## The overwrites of cursors -/

/-- A value that is changed below a location is there. -/
theorem eq_overwrite_of_step {value : Json} {f : Json → Option Json} {step : Step} {rest : Location}
    {before after : Json}
    (hf : ∀ {child child'}, (child.locate? rest).isSome → f child = some child' →
      child' = overwrite value rest child)
    (hpresent : (before.locate? (step :: rest)).isSome)
    (h : modifyChild? f before step = some after) :
    after = overwrite value (step :: rest) before := by
  refine modifyChild?_eq_updateChild (fun child child' hchild hchild' => (hf ?_ hchild').symm) h
  obtain ⟨present, hlocate⟩ := Option.isSome_iff_exists.mp hpresent
  have hinner : (before.child? step).bind (·.locate? rest) = some present := hlocate
  rw [hchild] at hinner
  exact Option.isSome_of_eq_some hinner

/-- Writing along names that are there is an overwrite. -/
theorem upsert?_eq_overwrite {value : Json} :
    ∀ (names : List String) {before after : Json}, (before.locate? (names.map .key)).isSome →
      upsert? (fun _ => value) names before = some after →
        after = overwrite value (names.map .key) before
  | [], _, _, _, h => (Option.some.inj h).symm
  | [key], before, after, hpresent, h => by
    cases before with
    | object members =>
      obtain rfl := Option.some.inj h
      have hhas : Fields.has members key = true := by
        obtain ⟨present, hlocate⟩ := Option.isSome_iff_exists.mp hpresent
        obtain ⟨child, hchild, -⟩ := Option.bind_eq_some_iff.mp
          (show (Fields.get? members key).bind _ = some present from hlocate)
        exact Fields.has_iff.mpr ⟨child, hchild⟩
      exact congrArg Json.object (Fields.set_eq_update hhas value)
    | _ => simp [upsert?] at h
  | key :: next :: rest, before, after, hpresent, h => by
    have hchanged : modifyChild? (upsert? (fun _ => value) (next :: rest)) before (.key key) =
        some after := h
    exact eq_overwrite_of_step (upsert?_eq_overwrite (next :: rest)) hpresent hchanged

/-- So is writing below a location. -/
theorem modifyAt?_eq_overwrite {value : Json} {f : Json → Option Json} {inner : Location}
    (hf : ∀ {before after}, (before.locate? inner).isSome → f before = some after →
      after = overwrite value inner before) :
    ∀ (location : Location) {before after : Json}, (before.locate? (location ++ inner)).isSome →
      modifyAt? f location before = some after → after = overwrite value (location ++ inner) before
  | [], _, _, hpresent, h => hf hpresent h
  | _ :: rest, _, _, hpresent, h =>
    eq_overwrite_of_step (modifyAt?_eq_overwrite hf rest) hpresent h

end Json

namespace Cursor

variable {cursor : Cursor} {record : Json} {depth : Nat} {names : List String}

/-- Setting a place that is there overwrites it. -/
theorem setAt?_eq_overwrite {after value : Json}
    (hpresent : (record.locate? (cursor.place depth names)).isSome)
    (h : cursor.setAt? record depth names value = some after) :
    after = Json.overwrite value (cursor.place depth names) record :=
  Json.modifyAt?_eq_overwrite (Json.upsert?_eq_overwrite names) _ hpresent h

/-- A place that is there has an owner. -/
theorem owned_of_isSome (hnames : names ≠ [])
    (hpresent : (record.locate? (cursor.place depth names)).isSome) :
    Owned (cursor.place depth names) record := by
  have hplace : cursor.place depth names =
      cursor.place depth names.dropLast ++ [.key (names.getLast hnames)] := by
    unfold place
    rw [List.append_assoc, ← List.map_singleton, ← List.map_append,
      List.dropLast_append_getLast hnames]
  rw [hplace] at hpresent ⊢
  rw [Json.locate?_append] at hpresent
  obtain ⟨value, hvalue⟩ := Option.isSome_iff_exists.mp hpresent
  obtain ⟨owner, howner, hread⟩ := Option.bind_eq_some_iff.mp hvalue
  refine ⟨owner, by rw [List.dropLast_concat]; exact howner, ?_⟩
  obtain ⟨child, hchild, -⟩ := Option.bind_eq_some_iff.mp
    (show (owner.child? (.key (names.getLast hnames))).bind _ = some value from hread)
  cases owner <;> first | rfl | cases hchild

end Cursor

end NestedRecord
