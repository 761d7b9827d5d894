import NestedRecord.Proofs.Join.Footprint
import NestedRecord.Proofs.Json.Alike

/-!
# Calls of different stores

Every store has its slice of a record: the places and the persisted states that its calls write. A
call of the store reads nothing else that any call changes, so it makes of a slice what it would
make of it without the calls of other stores, and those leave the slice alone. However the calls of
several stores are interleaved, each slice is what the calls of its own store make of it.

Commuting two calls would be the obvious way, but a call is a program over the lists of a record,
and two programs are hard to exchange. Slices are easier: every call is compared with itself, run in
another state which has the same slice. That a call reads nothing beyond its slice, apart from what
no call changes, is `Alongside`; it has the record from the beginning in it, from which the elements
that are visited are known.

- `Joining.Agree` says that two states have the same slice of a store, `Joining.Alongside` that
  calls have made them of one record as well.
- `IsCompiled.agree_perform`: the same events of a store keep two states in agreement.
  `IsCompiled.agree_of_others`: events of other stores keep a state in agreement with what it was.
- `Store.receive_agrees` compares calls of all stores with those of one.
- `Store.receive_interleaves` is the result, for any two interleavings.
-/

namespace NestedRecord

namespace Joining

/-! ## Reading along a route -/

/-- Values that a route cannot tell apart: the same stands on the way, and equal values at the
end. -/
structure ReadAlike (route : List String) (a b : Json) : Prop where
  way : ∀ place : Location, place.names <+: route → place.names ≠ route →
    (b.locate? place).map Json.outline = (a.locate? place).map Json.outline
  ends : ∀ (front : Location) (key : String), (front ++ [.key key] : Location).names = route →
    b.locate? (front ++ [.key key]) = a.locate? (front ++ [.key key])

namespace ReadAlike

variable {route : List String} {a b x y : Json} {name : String}

/-- What stands on the way is read alike along the rest of the route. -/
theorem inner {place : Location} (h : ReadAlike (place.names ++ route) a b)
    (hx : a.locate? place = some x) (hy : b.locate? place = some y) : ReadAlike route x y := by
  have hbelow : ∀ rest : Location, a.locate? (place ++ rest) = x.locate? rest ∧
      b.locate? (place ++ rest) = y.locate? rest := by
    intro rest
    rw [Json.locate?_append, Json.locate?_append, hx, hy]
    exact ⟨rfl, rfl⟩
  constructor
  · intro rest hstart hne
    have hway := h.way (place ++ rest)
    rw [Location.names_append, (hbelow rest).1, (hbelow rest).2] at hway
    exact hway ((List.prefix_append_right_inj _).mpr hstart) fun heq =>
      hne (List.append_cancel_left heq)
  · intro front key hnames
    have hends := h.ends (place ++ front) key
    rw [List.append_assoc, Location.names_append, hnames, (hbelow _).1, (hbelow _).2] at hends
    exact hends rfl

/-- One name further, the values are still read alike. -/
theorem forall₂_stepDown (hroute : route ≠ []) (h : ReadAlike (name :: route) a b) :
    List.Forall₂ (ReadAlike route) (stepDown [a] name) (stepDown [b] name) := by
  have houtline := h.way [.key name] ⟨route, rfl⟩ fun heq =>
    hroute (List.cons.inj heq).2.symm
  have hinner : ∀ x y, a.locate? [.key name] = some x → b.locate? [.key name] = some y →
      ReadAlike route x y := fun x y hx hy =>
    inner (show ReadAlike (Location.names [.key name] ++ route) a b from h) hx hy
  have hitem : ∀ (index : Nat) x y, a.locate? [.key name, .index index] = some x →
      b.locate? [.key name, .index index] = some y → ReadAlike route x y :=
    fun index x y hx hy =>
      inner (show ReadAlike (Location.names [.key name, .index index] ++ route) a b from h) hx hy
  have helement : ∀ (value : Json) (items : List Json), value.locate? [.key name] =
      some (.array items) → ∀ index, value.locate? [.key name, .index index] = items[index]? := by
    intro value items hitems index
    rw [show ([.key name, .index index] : Location) = [.key name] ++ [.index index] from rfl,
      Json.locate?_index, Json.itemsAt, hitems]
  simp only [stepDown, List.flatMap_cons, List.flatMap_nil, List.append_nil]
  cases hx : a.locate? [.key name] with
  | none =>
    rw [hx, Option.map_none, Option.map_eq_none_iff] at houtline
    rw [← Json.locate?_key, ← Json.locate?_key, hx, houtline]
    exact .nil
  | some x =>
    rw [hx] at houtline
    obtain ⟨y, hy, heq⟩ := Option.map_eq_some_iff.mp houtline
    rw [← Json.locate?_key, ← Json.locate?_key, hx, hy]
    -- lists of one length are entered, all else is read as one value
    cases x <;> cases y <;> simp only [Json.outline, reduceCtorEq] at heq <;>
      try exact .cons (hinner _ _ hx hy) .nil
    case array.array xs ys =>
      rw [Outline.array.injEq] at heq
      refine List.forall₂_iff_get.mpr ⟨heq.symm, fun index hi hj => ?_⟩
      refine hitem index _ _ ?_ ?_
      · rw [helement a xs hx]
        exact List.getElem?_eq_getElem hi
      · rw [helement b ys hy]
        exact List.getElem?_eq_getElem hj

/-- Lists of values that are read alike give the same values along the route. -/
theorem foldl_stepDown : ∀ {route : List String} {xs ys : List Json}, route ≠ [] →
    List.Forall₂ (ReadAlike route) xs ys → route.foldl stepDown ys = route.foldl stepDown xs
  | [name], xs, ys, _, h => by
    -- at the last name it is the value itself that both have
    have hmember : ∀ x y, ReadAlike [name] x y → y.get? name = x.get? name := by
      intro x y hxy
      rw [← Json.locate?_key, ← Json.locate?_key]
      exact hxy.ends [] name rfl
    show stepDown ys name = stepDown xs name
    induction h with
    | nil => rfl
    | cons hxy _ ih =>
      unfold stepDown at ih ⊢
      rw [List.flatMap_cons, List.flatMap_cons, ih, hmember _ _ hxy]
  | name :: next :: route, xs, ys, _, h => by
    show (next :: route).foldl stepDown (stepDown ys name) =
      (next :: route).foldl stepDown (stepDown xs name)
    refine foldl_stepDown (List.cons_ne_nil next route) ?_
    induction h with
    | nil => exact .nil
    | @cons x y xs ys hxy _ ih =>
      have hfirst := hxy.forall₂_stepDown (List.cons_ne_nil next route)
      simp only [stepDown, List.flatMap_cons, List.flatMap_nil, List.append_nil] at hfirst ih ⊢
      exact List.rel_append hfirst ih

end ReadAlike

/-! ## The slice of a store -/

/-- Two states have the same slice of a store. -/
structure Agree (blueprint : Blueprint) (foreign : String) (a b : State) : Prop where
  contents : ∀ place, Footprint blueprint foreign place →
    b.record.locate? place = a.record.locate? place
  states : ∀ place, Persisted blueprint foreign place →
    Fields.get? b.states place.pointer = Fields.get? a.states place.pointer

/-- Two states that calls have made of one record, with the same slice of a store. -/
structure Alongside (blueprint : Blueprint) (foreign : String) (start : Json) (a b : State) :
    Prop extends Agree blueprint foreign a b where
  left : Json.SameOutside (Joined blueprint) start a.record
  right : Json.SameOutside (Joined blueprint) start b.record

/-- A state that calls have made of another one. -/
structure Since (blueprint : Blueprint) (start state : State) : Prop where
  record : Json.SameOutside (Joined blueprint) start.record state.record
  states : ∀ pointer, (∀ foreign place, Persisted blueprint foreign place →
    pointer ≠ place.pointer) → Fields.get? state.states pointer = Fields.get? start.states pointer

section

variable {blueprint : Blueprint} {foreign : String} {a b c start state : State}

theorem Agree.refl (blueprint : Blueprint) (foreign : String) (a : State) :
    Agree blueprint foreign a a := ⟨fun _ _ => rfl, fun _ _ => rfl⟩

theorem Agree.symm (h : Agree blueprint foreign a b) : Agree blueprint foreign b a :=
  ⟨fun place hplace => (h.contents place hplace).symm,
    fun place hplace => (h.states place hplace).symm⟩

theorem Agree.trans (h : Agree blueprint foreign a b) (h' : Agree blueprint foreign b c) :
    Agree blueprint foreign a c :=
  ⟨fun place hplace => (h'.contents place hplace).trans (h.contents place hplace),
    fun place hplace => (h'.states place hplace).trans (h.states place hplace)⟩

theorem Since.refl (blueprint : Blueprint) (start : State) : Since blueprint start start :=
  ⟨.refl _ _, fun _ _ => rfl⟩

/-- Events of any store keep what calls have made of a state. -/
theorem Since.perform {events : List (Event Action)} (surroundings : Surroundings)
    (h : Since blueprint start state)
    (hevents : ∀ event ∈ events, FromJoin blueprint foreign event) :
    Since blueprint start ((JoinProcedures.machine surroundings).perform events state) := by
  refine Machine.perform_induction (JoinProcedures.machine surroundings) _ ?_ h
  intro event hevent state hstate
  have hown := hevents event hevent
  refine ⟨hown.sameOutside surroundings hstate.record, fun pointer hapart => ?_⟩
  refine (act_states event.action event.cursor state fun place hpersists => ?_).trans
    (hstate.states pointer hapart)
  exact hapart foreign place ⟨event, hown, hpersists⟩

end

end Joining

namespace Store.IsCompiled

open Joining

variable {store : Store} (hstore : store.IsCompiled)
  (hplain : store.blueprint.flattened.PlainNames)
  (hbare : store.blueprint.flattened.BareAttachments) {foreign other : String} {join : Join}
  {surroundings : Surroundings} {start : Json} {a b : State}

include hstore hplain hbare

/-! ### The same events on the same slice -/

/-- States with the same slice of a store are read alike along the path of an attachment of it. -/
theorem readAlike (h : Alongside store.blueprint foreign start a b)
    (hjoin : join ∈ store.metadata.joinsOf foreign) (hattaches : join.Attaches) :
    ReadAlike (segments join.path) a.record b.record := by
  have hkeeps : Keeps store.blueprint foreign join.path := .attachment hjoin hattaches
  constructor
  · intro place hstart hne
    have hnot : ∀ location, Joined store.blueprint location → ¬ location <+: place := by
      rintro location ⟨called, hlocation⟩ habove
      have hinside := Location.names_above habove
      have hequal := (hstore.names_eq_of_kept hplain hbare hlocation hkeeps
        (hinside.trans hstart)).1
      rw [hequal] at hinside
      exact hne (hstart.eq_of_length_le hinside.length_le)
    exact (h.right.outline_eq hnot).trans (h.left.outline_eq hnot).symm
  · intro front key hnames
    by_cases hplace : Footprint store.blueprint foreign (front ++ [.key key])
    · exact h.contents _ hplace
    -- a place with the names of the attachment that no call writes has been left alone
    have habove : ∀ location, Joined store.blueprint location →
        ¬ location <+: front ++ [.key key] := by
      rintro location ⟨called, hlocation⟩ hstart
      have hinside := Location.names_above hstart
      rw [hnames] at hinside
      obtain ⟨hequal, rfl⟩ := hstore.names_eq_of_kept hplain hbare hlocation hkeeps hinside
      exact hplace (Location.eq_of_names_eq hstart (hequal.trans hnames.symm) ▸ hlocation)
    have hbelow : ∀ location, Joined store.blueprint location →
        ¬ front ++ [.key key] <+: location := by
      rintro location ⟨called, hlocation⟩ hstart
      obtain ⟨⟨path, hpath, hsegments⟩, front', key', rfl⟩ :=
        hlocation.exists_keeps hstore.levelsDeclared
      have hinside := Location.names_above hstart
      rw [hnames, hsegments] at hinside
      obtain ⟨hequal, rfl⟩ := hstore.eq_of_kept hplain hbare hkeeps hpath hinside
      exact hplace (Location.eq_of_names_eq hstart (by rw [hnames, hsegments, hequal]) ▸ hlocation)
    exact ((h.right _ habove).2 hbelow).trans ((h.left _ habove).2 hbelow).symm

/-- An aggregate over an attachment finds the same records in states with the same slice. -/
theorem attached_eq (h : Alongside store.blueprint foreign start a b)
    (hjoin : join ∈ store.metadata.joinsOf foreign) (hattaches : join.Attaches)
    {resolved : ResolvedPath} (hleads : store.blueprint.resolveLenient join.path = .ok resolved)
    {inlined : Inlined} (hmem : inlined ∈ (attachmentAt store.blueprint join resolved).inlined)
    {cursor : Cursor} (hfits : cursor.Fits resolved.loops) :
    inlined.attached cursor b.record = inlined.attached cursor a.record := by
  have hread := hstore.readAlike hplain hbare h hjoin hattaches
  obtain ⟨hresolved, -, hnames⟩ := Blueprint.leads_of_lenient hstore.levelsDeclared hleads
  obtain ⟨aggregate, -, hinlined⟩ := List.mem_filterMap.mp hmem
  obtain ⟨rest, target, -, -, -, hloops, rfl⟩ := inlined?_eq_some hinlined
  let route : List String :=
    (resolved.loops.drop target.depth).flatMap (·.access) ++ resolved.leaf
  have hroute : route ≠ [] := fun heq =>
    hresolved.leaf_ne_nil (List.append_eq_nil_iff.mp heq).2
  -- the element's names and the route are together those of the attachment
  have helement : (cursor.place target.depth []).names ++ route = segments join.path := by
    rw [Cursor.place_eq, (hfits.upTo target.depth).names_below, List.append_nil,
      ← List.append_assoc, ← List.flatMap_append, List.take_append_drop]
    exact hnames
  rw [← helement] at hread
  have helements : List.Forall₂ (ReadAlike route)
      (a.record.locate? (cursor.place target.depth [])).toList
      (b.record.locate? (cursor.place target.depth [])).toList := by
    have houtline := hread.way (cursor.place target.depth []) (List.prefix_append ..) (by
      simpa using hroute)
    cases hx : a.record.locate? (cursor.place target.depth []) with
    | none =>
      rw [hx, Option.map_none, Option.map_eq_none_iff] at houtline
      rw [houtline]
      exact .nil
    | some x =>
      rw [hx] at houtline
      obtain ⟨y, hy, -⟩ := Option.map_eq_some_iff.mp houtline
      rw [hy]
      exact .cons (hread.inner hx hy) .nil
  have hfold := ReadAlike.foldl_stepDown hroute helements
  unfold Inlined.attached
  rw [Cursor.getAt?_eq_locate?, Cursor.getAt?_eq_locate?]
  exact congrArg (List.filter Json.isObject) hfold

/-- A place of the slice has an owner in both states or in neither. -/
theorem owned_iff_of_alongside {place : Location}
    (h : Alongside store.blueprint foreign start a b)
    (hplace : Footprint store.blueprint foreign place) :
    Owned place b.record ↔ Owned place a.record := by
  have hspares : ∀ location, Joined store.blueprint location → location <+: place →
      location = place := fun location ⟨called, hlocation⟩ hstart =>
    (hstore.eq_of_above hplain hbare hlocation hplace hstart).1
  obtain ⟨-, front, key, hkey⟩ := hplace.exists_keeps hstore.levelsDeclared
  have hne : place ≠ [] := by simp [hkey]
  exact (owned_iff h.right hne hspares).trans (owned_iff h.left hne hspares).symm

/-- Writing the same value at a place of a store leaves its places the same. -/
theorem contents_write (h : Alongside store.blueprint foreign start a b) {cursor : Cursor}
    {depth : Nat} {leaf : List String} (hleaf : leaf ≠ [])
    (hwritten : Footprint store.blueprint foreign (cursor.place depth leaf)) (value : Json)
    {place : Location} (hplace : Footprint store.blueprint foreign place) :
    (b.write cursor depth leaf value).record.locate? place =
      (a.write cursor depth leaf value).record.locate? place := by
  have howned := hstore.owned_iff_of_alongside hplain hbare h hwritten
  have hset : ∀ record : Json, (cursor.setAt? record depth leaf value).isSome ↔
      Owned (cursor.place depth leaf) record := fun _ => Cursor.setAt?_isSome hleaf
  rw [← hset, ← hset] at howned
  unfold State.write
  cases hx : cursor.setAt? a.record depth leaf value with
  | none =>
    rw [hx] at howned
    rw [Option.not_isSome_iff_eq_none.mp fun hsome => Bool.false_ne_true (howned.mp hsome)]
    exact h.contents place hplace
  | some x =>
    rw [hx] at howned
    obtain ⟨y, hy⟩ := Option.isSome_iff_exists.mp (howned.mpr rfl)
    have hwa := Cursor.setAt?_written hx
    have hwb := Cursor.setAt?_written hy
    rw [hy]
    show y.locate? place = x.locate? place
    -- two places of a store are one or lie apart
    by_cases hsame : cursor.place depth leaf = place
    · rw [← hsame, hwa.locate?_self, hwb.locate?_self]
    · have habove : ¬ cursor.place depth leaf <+: place := fun hstart =>
        hsame (hstore.eq_of_above hplain hbare hwritten hplace hstart).1
      have hbelow : ¬ place <+: cursor.place depth leaf := fun hstart =>
        hsame (hstore.eq_of_above hplain hbare hplace hwritten hstart).1.symm
      rw [hwa.locate?_eq habove hbelow, hwb.locate?_eq habove hbelow]
      exact h.contents place hplace

/-- Writing the value of a state of an aggregate and persisting the state keeps slices the same. -/
theorem agree_put (h : Alongside store.blueprint foreign start a b) {cursor : Cursor} {depth : Nat}
    {leaf : List String} (hleaf : leaf ≠ [])
    (hpersisted : Persisted store.blueprint foreign (cursor.place depth leaf))
    (next : AggregateState) (journal journal' : Journal) :
    Agree store.blueprint foreign
      { a.write cursor depth leaf next.value with
        states := Fields.set a.states (cursor.pointerAt depth leaf) next, journal }
      { b.write cursor depth leaf next.value with
        states := Fields.set b.states (cursor.pointerAt depth leaf) next,
        journal := journal' } where
  contents place hplace := hstore.contents_write hplain hbare h hleaf
    hpersisted.footprint next.value hplace
  states place hplace := by
    by_cases hpointer : place.pointer = cursor.pointerAt depth leaf
    · rw [hpointer, Fields.get?_set_self, Fields.get?_set_self]
    · rw [Fields.get?_set_of_ne _ _ hpointer, Fields.get?_set_of_ne _ _ hpointer]
      exact h.states place hplace

/-- Bringing an aggregate over an attachment of a store up to date keeps slices the same. -/
theorem agree_refresh (h : Alongside store.blueprint foreign start a b)
    (hjoin : join ∈ store.metadata.joinsOf foreign) (hattaches : join.Attaches)
    {resolved : ResolvedPath} (hleads : store.blueprint.resolveLenient join.path = .ok resolved)
    (hlevel : resolved.isScalar = false) {inlined : Inlined}
    (hmem : inlined ∈ (attachmentAt store.blueprint join resolved).inlined) {cursor : Cursor}
    (hfits : cursor.Fits resolved.loops) (change : Attached.Change) :
    Agree store.blueprint foreign (inlined.refresh surroundings cursor change a)
      (inlined.refresh surroundings cursor change b) := by
  have hattached := hstore.attached_eq hplain hbare h hjoin hattaches hleads hmem hfits
  have hpersisted : Persisted store.blueprint foreign
      (cursor.place inlined.depth inlined.targetLeaf) :=
    ⟨⟨.attach (attachmentAt store.blueprint join resolved), cursor⟩,
      ⟨join, hjoin, _, .attachment hattaches hleads hlevel, hfits⟩, inlined, hmem, rfl⟩
  have hleaf : inlined.targetLeaf ≠ [] := by
    obtain ⟨aggregate, -, hinlined⟩ := List.mem_filterMap.mp hmem
    obtain ⟨rest, target, -, htarget, -, -, rfl⟩ := inlined?_eq_some hinlined
    exact (Blueprint.leads_of_strict hstore.levelsDeclared htarget).1.leaf_ne_nil
  unfold Inlined.refresh
  cases surroundings.kinds.get? inlined.op with
  | none => exact h.toAgree
  | some kind =>
    have hstate := h.states _ hpersisted
    rw [← Cursor.pointerAt_eq] at hstate
    -- the next state reads the persisted one and the attached records, which agree
    have hnext : inlined.next surroundings kind cursor b
        (Fields.get? b.states (cursor.pointerAt inlined.depth inlined.targetLeaf)) change =
      inlined.next surroundings kind cursor a
        (Fields.get? a.states (cursor.pointerAt inlined.depth inlined.targetLeaf)) change := by
      rw [hstate]
      unfold Inlined.next
      rw [hattached]
    simp only [hnext]
    exact hstore.agree_put hplain hbare h hleaf hpersisted _ _ _

/-- So does bringing any of the aggregates over the attachment up to date, one after the other. -/
theorem agree_refreshAll (hjoin : join ∈ store.metadata.joinsOf foreign)
    (hattaches : join.Attaches) {resolved : ResolvedPath}
    (hleads : store.blueprint.resolveLenient join.path = .ok resolved)
    (hlevel : resolved.isScalar = false) {cursor : Cursor} (hfits : cursor.Fits resolved.loops)
    (change : Attached.Change) :
    ∀ {some : List Inlined} {a b : State},
      some ⊆ (attachmentAt store.blueprint join resolved).inlined →
      Alongside store.blueprint foreign start a b →
        Agree store.blueprint foreign (refreshAll surroundings some cursor change a)
          (refreshAll surroundings some cursor change b)
  | [], _, _, _, h => h.toAgree
  | first :: rest, a, b, hsub, h => by
    have hmem := hsub List.mem_cons_self
    have hkeeps : ∀ state : State, Json.SameOutside (Joined store.blueprint) state.record
        (first.refresh surroundings cursor change state).record := by
      intro state
      refine (Inlined.refresh_sameOutside surroundings first cursor change state).mono ?_
      rintro place rfl
      exact ⟨foreign, ⟨.attach (attachmentAt store.blueprint join resolved), cursor⟩,
        ⟨join, hjoin, _, .attachment hattaches hleads hlevel, hfits⟩, .inr ⟨first, hmem, rfl⟩⟩
    show Agree _ _
      (refreshAll surroundings rest cursor change (first.refresh surroundings cursor change a))
      (refreshAll surroundings rest cursor change (first.refresh surroundings cursor change b))
    exact agree_refreshAll hjoin hattaches hleads hlevel hfits change
      (fun inlined hinlined => hsub (List.mem_cons_of_mem _ hinlined))
      ⟨hstore.agree_refresh hplain hbare h hjoin hattaches hleads hlevel hmem hfits change,
        h.left.trans (hkeeps a), h.right.trans (hkeeps b)⟩

/-- An attachment of a store whose content changes does so in states with the same slice, and its
aggregates follow. -/
theorem agree_attach (h : Alongside store.blueprint foreign start a b)
    (hjoin : join ∈ store.metadata.joinsOf foreign) (hattaches : join.Attaches)
    {resolved : ResolvedPath} (hleads : store.blueprint.resolveLenient join.path = .ok resolved)
    (hlevel : resolved.isScalar = false) {cursor : Cursor} (hfits : cursor.Fits resolved.loops) :
    Agree store.blueprint foreign
      (attach surroundings (attachmentAt store.blueprint join resolved) cursor a)
      (attach surroundings (attachmentAt store.blueprint join resolved) cursor b) := by
  have hplace : Footprint store.blueprint foreign (cursor.place cursor.depth resolved.leaf) :=
    ⟨⟨.attach (attachmentAt store.blueprint join resolved), cursor⟩,
      ⟨join, hjoin, _, .attachment hattaches hleads hlevel, hfits⟩,
      .inl (Cursor.place_depth cursor resolved.leaf)⟩
  have hleaf := (Blueprint.leads_of_lenient hstore.levelsDeclared hleads).1.leaf_ne_nil
  have howned := hstore.owned_iff_of_alongside hplain hbare h hplace
  have hchange : changeAt? surroundings (attachmentAt store.blueprint join resolved) cursor
      b.record =
    changeAt? surroundings (attachmentAt store.blueprint join resolved) cursor a.record := by
    have hcontent := h.contents _ hplace
    rw [Cursor.place_depth] at hcontent
    unfold changeAt?
    rw [show (attachmentAt store.blueprint join resolved).leaf = resolved.leaf from rfl, hcontent]
  -- nothing happens when nothing changes or there is no owner
  have hidle : ∀ state : State, (∀ change,
      changeAt? surroundings (attachmentAt store.blueprint join resolved) cursor state.record =
        some change → ¬ Owned (cursor.place cursor.depth resolved.leaf) state.record) →
      attach surroundings (attachmentAt store.blueprint join resolved) cursor state = state :=
    fun state hnot => attach_eq_self fun change hsome =>
      Option.not_isSome_iff_eq_none.mp fun hset =>
        hnot change hsome ((Cursor.setAt?_isSome hleaf).mp hset)
  by_cases hwrites : ∃ change,
      changeAt? surroundings (attachmentAt store.blueprint join resolved) cursor a.record =
        some change ∧ Owned (cursor.place cursor.depth resolved.leaf) a.record
  · obtain ⟨change, hsome, hown⟩ := hwrites
    have hset : ∀ record : Json, Owned (cursor.place cursor.depth resolved.leaf) record →
        ∃ next, cursor.setAt? record cursor.depth resolved.leaf change.content = some next :=
      fun _ howner => Option.isSome_iff_exists.mp ((Cursor.setAt?_isSome hleaf).mpr howner)
    obtain ⟨x, hx⟩ := hset a.record hown
    obtain ⟨y, hy⟩ := hset b.record (howned.mpr hown)
    have hkeeps : ∀ {before after : Json},
        cursor.setAt? before cursor.depth resolved.leaf change.content = some after →
        Json.SameOutside (Joined store.blueprint) before after := by
      intro before after hset
      refine (Cursor.setAt?_written hset).sameOutside.mono ?_
      rintro place rfl
      exact ⟨foreign, hplace⟩
    have hwritten : Agree store.blueprint foreign { a with record := x }
        { b with record := y } := by
      refine ⟨fun place hfootprint => ?_, h.states⟩
      have hcontents := hstore.contents_write hplain hbare h hleaf hplace change.content hfootprint
      simpa only [State.write, hx, hy, Option.getD_some] using hcontents
    rw [attach_eq hsome hx, attach_eq (hchange.trans hsome) hy]
    exact hstore.agree_refreshAll hplain hbare hjoin hattaches hleads hlevel hfits change
      (List.Subset.refl _) ⟨hwritten, h.left.trans (hkeeps hx), h.right.trans (hkeeps hy)⟩
  · rw [hidle a fun change hsome hown => hwrites ⟨change, hsome, hown⟩,
      hidle b fun change hsome hown => hwrites ⟨change, hchange.symm.trans hsome, howned.mp hown⟩]
    exact h.toAgree

/-- An event of a store keeps slices of the store the same. -/
theorem agree_act {event : Event Action} (hevent : FromJoin store.blueprint foreign event)
    (h : Alongside store.blueprint foreign start a b) :
    Agree store.blueprint foreign (act surroundings event.action event.cursor a)
      (act surroundings event.action event.cursor b) := by
  have hpersisted : ∀ feed : Feed, event.action = .feed feed → Persisted store.blueprint foreign
      (event.cursor.place event.cursor.depth feed.leaf) := fun feed hfeed =>
    ⟨event, hevent, by rw [hfeed]; exact Cursor.place_depth event.cursor feed.leaf⟩
  obtain ⟨action, cursor⟩ := event
  obtain ⟨join, hjoin, loops, hstands, hfits⟩ := hevent
  cases hstands with
  | attachment hattaches hleads hlevel =>
    exact hstore.agree_attach hplain hbare h hjoin hattaches hleads hlevel hfits
  | @feed aggregate resolved _ _ _ hleads _ =>
    replace hpersisted := hpersisted _ rfl
    have hleaf := (Blueprint.leads_of_strict hstore.levelsDeclared hleads).1.leaf_ne_nil
    have hstate := h.states _ hpersisted
    rw [← Cursor.pointerAt_eq] at hstate
    show Agree _ _ (supply surroundings ⟨resolved.leaf, aggregate⟩ cursor a)
      (supply surroundings ⟨resolved.leaf, aggregate⟩ cursor b)
    unfold supply
    cases surroundings.kinds.get? aggregate.op with
    | none => exact h.toAgree
    | some kind =>
      -- the same state is fed the same records
      simp only [hstate]
      exact hstore.agree_put hplain hbare h hleaf hpersisted _ _ _

/-- The same events of a store keep slices of the store the same. -/
theorem agree_perform :
    ∀ {events : List (Event Action)} {a b : State},
      (∀ event ∈ events, FromJoin store.blueprint foreign event) →
      Alongside store.blueprint foreign start a b →
        Agree store.blueprint foreign ((JoinProcedures.machine surroundings).perform events a)
          ((JoinProcedures.machine surroundings).perform events b)
  | [], _, _, _, h => h.toAgree
  | event :: rest, a, b, hevents, h => by
    have hevent := hevents event List.mem_cons_self
    show Agree _ _ ((JoinProcedures.machine surroundings).perform rest
        (act surroundings event.action event.cursor a))
      ((JoinProcedures.machine surroundings).perform rest
        (act surroundings event.action event.cursor b))
    exact agree_perform (fun other hother => hevents other (List.mem_cons_of_mem _ hother))
      ⟨hstore.agree_act hplain hbare hevent h, hevent.sameOutside surroundings h.left,
        hevent.sameOutside surroundings h.right⟩

/-! ### Events of other stores -/

/-- Events of another store leave the slice of a store as it is. -/
theorem agree_of_others (surroundings : Surroundings) {events : List (Event Action)}
    (hne : foreign ≠ other)
    (hevents : ∀ event ∈ events, FromJoin store.blueprint other event) (state : State) :
    Agree store.blueprint foreign state
      ((JoinProcedures.machine surroundings).perform events state) := by
  refine Machine.perform_induction (JoinProcedures.machine surroundings) _ ?_
    (Agree.refl store.blueprint foreign state)
  intro event hevent before hbefore
  have hown := hevents event hevent
  -- a place of the slice at, in or around a touched one would belong to both stores
  refine hbefore.trans ⟨fun place hplace => ?_, fun place hplace => ?_⟩
  · refine (act_sameOutside event.action event.cursor before place fun location htouches hstart =>
      ?_).2 fun location htouches hstart => ?_
    · exact hne (hstore.eq_of_above hplain hbare ⟨event, hown, htouches⟩ hplace hstart).2.symm
    · exact hne (hstore.eq_of_above hplain hbare hplace ⟨event, hown, htouches⟩ hstart).2
  · refine act_states event.action event.cursor before fun location hpersists hpointer => ?_
    have hpersisted : Persisted store.blueprint other location := ⟨event, hown, hpersists⟩
    obtain ⟨path, hvalue⟩ := hplace.exists_valueAt
    obtain ⟨path', hvalue'⟩ := hpersisted.exists_valueAt
    obtain rfl := hvalue.eq_of_pointer hstore.levelsDeclared hvalue' hpointer
    exact hne (hstore.eq_of_above hplain hbare hplace.footprint hpersisted.footprint
      (List.prefix_refl place)).2

end Store.IsCompiled

/-! ## Calls -/

namespace Joining

/-- States with the same record and the same persisted states, up to the order of members. -/
structure State.Alike (a b : State) : Prop where
  record : a.record.Alike b.record
  states : ∀ pointer, Fields.get? b.states pointer = Fields.get? a.states pointer

/-- States that calls have made of one are alike when all their slices are the same. -/
theorem alike_of_agree {blueprint : Blueprint} {start a b : State}
    (ha : Since blueprint start a) (hb : Since blueprint start b)
    (h : ∀ foreign, Agree blueprint foreign a b) : a.Alike b := by
  constructor
  · intro place
    -- below a place of a store stands what its slice holds, elsewhere what stood there at first
    by_cases hwritten : ∃ location, Joined blueprint location ∧ location <+: place
    · obtain ⟨location, ⟨foreign, hlocation⟩, rest, rfl⟩ := hwritten
      rw [Json.locate?_append, Json.locate?_append, (h foreign).contents location hlocation]
    · have hnot : ∀ location, Joined blueprint location → ¬ location <+: place :=
        fun location hlocation hstart => hwritten ⟨location, hlocation, hstart⟩
      exact (hb.record.outline_eq hnot).trans (ha.record.outline_eq hnot).symm
  · intro pointer
    by_cases hpersisted : ∃ foreign place, Persisted blueprint foreign place ∧
        pointer = place.pointer
    · obtain ⟨foreign, place, hplace, rfl⟩ := hpersisted
      exact (h foreign).states place hplace
    · have hnot : ∀ foreign place, Persisted blueprint foreign place →
          pointer ≠ place.pointer := fun foreign place hplace heq =>
        hpersisted ⟨foreign, place, hplace, heq⟩
      exact (hb.states pointer hnot).trans (ha.states pointer hnot).symm

end Joining

namespace Store

open Joining

/-- What a call makes of a state. One of a store that is not joined makes nothing of it. -/
def received (store : Store) (environment : Environment) (state : State)
    (call : String × Delta) : State :=
  (store.join? environment call.1 call.2 state.record state.states).getD state

/-- Takes in deltas of whatever stores, one after the other. -/
def receive (store : Store) (environment : Environment) (calls : List (String × Delta))
    (state : State) : State :=
  calls.foldl (store.received environment) state

section Calls

variable {store : Store} {environment : Environment} {call : String × Delta} {foreign : String}
  {start a b : State}

/-- A call of a joined store runs the procedures of the store. -/
theorem received_of_joined {procedures : JoinProcedures}
    (hjoined : store.joined? call.1 = some procedures) :
    store.received environment a call =
      procedures.run { environment with delta := call.2, identityKey := store.config.identityKey }
        a.record a.states := by
  rw [received, join?, hjoined]
  rfl

theorem received_of_not_joined (hjoined : store.joined? call.1 = none) :
    store.received environment a call = a := by
  rw [received, join?, hjoined]
  rfl

variable (hstore : store.IsCompiled) (hplain : store.blueprint.flattened.PlainNames)
  (hbare : store.blueprint.flattened.BareAttachments)

include hstore

/-- A call keeps what calls have made of a state. -/
theorem since_received (environment : Environment) (call : String × Delta)
    (ha : Since store.blueprint start a) :
    Since store.blueprint start (store.received environment a call) := by
  cases hjoined : store.joined? call.1 with
  | none =>
    rw [received_of_not_joined hjoined]
    exact ha
  | some procedures =>
    rw [received_of_joined hjoined]
    obtain ⟨events, hrun, -, hfrom⟩ := JoinProcedures.exists_events (hstore.of_joined? hjoined)
      { environment with delta := call.2, identityKey := store.config.identityKey } a.record
      a.states
    rw [hrun]
    exact Since.perform _ ⟨ha.record, ha.states⟩ hfrom

include hplain hbare

/-- A call of a store makes the same of the slice of the store, whichever state it is in. -/
theorem agree_received (environment : Environment) (ha : Since store.blueprint start a)
    (hb : Since store.blueprint start b) (h : Agree store.blueprint call.1 a b) :
    Agree store.blueprint call.1 (store.received environment a call)
      (store.received environment b call) := by
  cases hjoined : store.joined? call.1 with
  | none =>
    rw [received_of_not_joined hjoined, received_of_not_joined hjoined]
    exact h
  | some procedures =>
    have hcompile := hstore.of_joined? hjoined
    rw [received_of_joined hjoined, received_of_joined hjoined,
      hstore.run_eq_perform hplain hbare hcompile _ a.states ha.record,
      hstore.run_eq_perform hplain hbare hcompile _ b.states hb.record]
    refine hstore.agree_perform hplain hbare (fun event hevent => ?_)
      ⟨⟨h.contents, h.states⟩, ha.record, hb.record⟩
    obtain ⟨loops, hplaced, hfits⟩ := Program.placed_of_mem_events hevent
    exact JoinProcedures.fromJoin_of_placed hcompile call.2 hplaced hfits

/-- A call of another store leaves the slice of a store as it is. -/
theorem agree_received_of_ne (environment : Environment) (hne : foreign ≠ call.1) (a : State) :
    Agree store.blueprint foreign a (store.received environment a call) := by
  cases hjoined : store.joined? call.1 with
  | none =>
    rw [received_of_not_joined hjoined]
    exact .refl _ _ _
  | some procedures =>
    rw [received_of_joined hjoined]
    obtain ⟨events, hrun, -, hfrom⟩ := JoinProcedures.exists_events (hstore.of_joined? hjoined)
      { environment with delta := call.2, identityKey := store.config.identityKey } a.record
      a.states
    rw [hrun]
    have hothers := hstore.agree_of_others hplain hbare
      { environment with delta := call.2, identityKey := store.config.identityKey } hne hfrom
      { record := a.record, states := a.states }
    exact ⟨hothers.contents, hothers.states⟩

/-- Calls of all stores leave the slice of a store as its own calls alone do. -/
theorem receive_agrees (environment : Environment) (calls : List (String × Delta))
    (foreign : String) (ha : Since store.blueprint start a) (hb : Since store.blueprint start b)
    (h : Agree store.blueprint foreign a b) :
    Since store.blueprint start (store.receive environment calls a) ∧
      Agree store.blueprint foreign (store.receive environment calls a)
        (store.receive environment (calls.filter (·.1 = foreign)) b) := by
  induction calls generalizing a b with
  | nil => exact ⟨ha, h⟩
  | cons call rest ih =>
    have hnext := since_received hstore environment call ha
    -- a call of the store is made on both sides, one of another store on the left only
    by_cases hown : call.1 = foreign
    · subst hown
      rw [List.filter_cons_of_pos (by simp)]
      exact ih hnext (since_received hstore environment call hb)
        (agree_received hstore hplain hbare environment ha hb h)
    · rw [List.filter_cons_of_neg (by simpa using hown)]
      have hkept := agree_received_of_ne hstore hplain hbare environment (Ne.symm hown) a
      exact ih hnext hb (hkept.symm.trans h)

end Calls

/-- However calls of several stores are interleaved, they make the same of the record and of the
states, up to the order of members: only the order of the calls of each store matters. In particular
two calls of different stores do the same in either order. -/
theorem receive_interleaves {store : Store} (hstore : store.IsCompiled)
    (hplain : store.blueprint.flattened.PlainNames)
    (hbare : store.blueprint.flattened.BareAttachments) (environment : Environment)
    {calls calls' : List (String × Delta)}
    (heach : ∀ foreign, calls.filter (·.1 = foreign) = calls'.filter (·.1 = foreign))
    (state : State) :
    (store.receive environment calls state).Alike (store.receive environment calls' state) := by
  have hstart := Since.refl store.blueprint state
  have hagrees := fun calls foreign => receive_agrees hstore hplain hbare environment calls foreign
    hstart hstart (.refl store.blueprint foreign state)
  refine alike_of_agree (hagrees calls "").1 (hagrees calls' "").1 fun foreign => ?_
  -- both have the slice that the calls of the store alone make
  have hslice := (hagrees calls foreign).2
  rw [heach foreign] at hslice
  exact hslice.trans (hagrees calls' foreign).2.symm

/-- A vendor who has no badge yet and whose earnings are not known. -/
def newVendor : Json :=
  .object [("id", .ofNat 1), ("carts", .array [cartWith 1 [order "a" 10], cartWith 2 []])]

/-- What happens to the orders of the carts. -/
def cartEvents : List (String × Delta) :=
  [("orders", .insert (order "b" 5)), ("orders", .delete (order "a" 0))]

/-- The vendor gets a badge. -/
def badgeEvent : String × Delta := ("badges", .set [.object [("amount", .string "gold")]])

/-- Orders change before or after the vendor gets a badge: the badge and the earnings are the same,
in the order in which they have been added. -/
theorem receive_interleaves_vendors :
    (vendors.receive {} (cartEvents ++ [badgeEvent]) { record := newVendor, states := [] }).Alike
      (vendors.receive {} (badgeEvent :: cartEvents) { record := newVendor, states := [] }) ∧
    (vendors.receive {} (cartEvents ++ [badgeEvent])
        { record := newVendor, states := [] }).record.render ≠
      (vendors.receive {} (badgeEvent :: cartEvents)
        { record := newVendor, states := [] }).record.render := by
  have heach : ∀ foreign, (cartEvents ++ [badgeEvent]).filter (·.1 = foreign) =
      (badgeEvent :: cartEvents).filter (·.1 = foreign) := by
    intro foreign
    by_cases horders : "orders" = foreign
    · subst horders
      rfl
    · by_cases hbadges : "badges" = foreign
      · subst hbadges
        rfl
      · simp [cartEvents, badgeEvent, horders, hbadges]
  have hcompiled : vendors.IsCompiled := isCompiled_compiled _ _ _
  exact ⟨receive_interleaves hcompiled (by decide +kernel) (by decide +kernel) {} heach
    { record := newVendor, states := [] }, by decide +kernel⟩

end Store

end NestedRecord
