import NestedRecord.Proofs.Procedure.Settling
import NestedRecord.Proofs.Store.Compiled

/-!
# The copies that a reference embeds

A reference leads to objects at every element of the lists on its way, or to the elements of one
list more when it leads to a list itself.

- `Blueprint.Embeds` are the places of its copies, read off the declared levels, and
  `Blueprint.Copies` are the copies in a record, in order of the positions on the way.
- `Reference.copiesAt` reads them below the elements that the loops of a reference reach;
  `copies_copiesAt` says that these are all.
- `Reference.exists_events`: both procedures of a reference go once to each of these elements.
- `Store.IsCompiled.of_reference?`: a reference of a compiled store is compiled from its path.

The places are defined without loops and cursors, and the procedures know nothing else, so the two
are compared once and for all here. What is in a record beside objects at these places is not looked
at by a reference.
-/

namespace NestedRecord

open Fields (get?)

/-! ## Places of copies -/

/-- Where the objects stand that a path leads to: at its place, or in the list there. -/
inductive Target.Holds : Target → Location → Location → Prop
  | object (node : String) (place : Location) : Holds (.level node .object) place place
  | element (node : String) (place : Location) (index : Nat) :
      Holds (.level node .array) place (place ++ [.index index])

/-- The places of the objects that a path leads to, whichever element is taken of each list. -/
def Blueprint.Embeds (blueprint : Blueprint) (path : String) (location : Location) : Prop :=
  ∃ root resolved place, get? blueprint.flattened.nodes blueprint.flattened.root = some root ∧
    blueprint.resolveStrict path = .ok resolved ∧
    Resolver.Instance { nodes := blueprint.flattened.nodes } root (segments path) place ∧
    resolved.target.Holds place location

/-- The positions in lists on the way to a part, outer lists first. -/
def Location.indexes (location : Location) : List Nat :=
  location.filterMap fun
    | .index index => some index
    | .key _ => none

/-- The objects at the places of a path with these places, in the order in which a record has
them. -/
structure Blueprint.Copies (blueprint : Blueprint) (path : String) (record : Json)
    (copies : List (Location × Json)) : Prop where
  mem_iff : ∀ location copy, (location, copy) ∈ copies ↔
    blueprint.Embeds path location ∧ record.locate? location = some copy ∧ copy.isObject = true
  ascending : copies.Pairwise fun first second => first.1.indexes < second.1.indexes

/-- Names below an element have no positions. -/
theorem Cursor.indexes_below (cursor : Cursor) (names : List String) :
    (cursor.below names).indexes = cursor.indexes := by
  obtain ⟨entered⟩ := cursor
  have hkeys (names : List String) : Location.indexes (names.map Step.key) = [] := by
    simp [Location.indexes]
  unfold Cursor.below Cursor.element Cursor.indexes Location.indexes at *
  rw [List.filterMap_append, hkeys, List.append_nil]
  induction entered with
  | nil => rfl
  | cons first rest ih =>
    rw [List.flatMap_cons, List.filterMap_append, ih, Entered.location, List.filterMap_append,
      hkeys]
    rfl

/-- Through one more list stands who has entered it behind the others. -/
theorem Cursor.fits_concat {cursor : Cursor} {loops : List Loop} {last : Loop} :
    cursor.Fits (loops ++ [last]) ↔
      ∃ (outer : Cursor) (index : Nat), outer.Fits loops ∧
        cursor = outer.enter last.access index := by
  obtain ⟨entered⟩ := cursor
  unfold Cursor.Fits Cursor.enter
  simp only [List.map_append, List.map_cons, List.map_nil]
  constructor
  · intro h
    obtain ⟨front, back, rfl, hfront, hback⟩ := List.map_eq_append_iff.mp h
    obtain ⟨⟨access, index⟩, rfl, rfl⟩ := List.map_eq_singleton_iff.mp hback
    exact ⟨⟨front⟩, index, hfront, rfl⟩
  · rintro ⟨⟨front⟩, index, hfront, hentered⟩
    rw [Cursor.mk.inj hentered, List.map_append, hfront]
    rfl

/-- An element of one list more stands behind the list, at its index. -/
theorem Cursor.below_enter (cursor : Cursor) (access : List String) (index : Nat) :
    (cursor.enter access index).below [] = cursor.below access ++ [.index index] := by
  rw [Cursor.below, Cursor.element_enter, List.map_nil, List.append_nil]

namespace Blueprint

variable {blueprint : Blueprint} {path : String} {resolved : ResolvedPath}

/-- The places of the copies are those below cursors through the lists of the path, with the list
that it leads to. -/
theorem embeds_iff (hlevels : blueprint.LevelsDeclared)
    (h : blueprint.resolveStrict path = .ok resolved) (hscalar : resolved.isScalar = false)
    {location : Location} :
    blueprint.Embeds path location ↔
      ∃ cursor : Cursor, cursor.Fits resolved.elementLoops.1 ∧
        location = cursor.below resolved.elementLoops.2 := by
  obtain ⟨root, hroot, hwalk⟩ := Resolver.walk?_of_resolve h
  have hnode : get? blueprint.flattened.nodes blueprint.flattened.root = some root := by
    simpa [Resolver.node?] using hroot
  have hvirtual := (leads_of_strict hlevels h).2.2.2
  have hplace (place : Location) :
      Resolver.Instance { nodes := blueprint.flattened.nodes } root (segments path) place ↔
        resolved.Place place :=
    Resolver.instance_iff_of_walk? hwalk hvirtual
  have hembeds : blueprint.Embeds path location ↔
      ∃ cursor : Cursor, cursor.Fits resolved.loops ∧
        resolved.target.Holds (cursor.below resolved.leaf) location := by
    constructor
    · rintro ⟨root', resolved', place, hroot', hresolved', hinstance, hholds⟩
      obtain rfl : root = root' := Option.some.inj (hnode.symm.trans hroot')
      obtain rfl : resolved = resolved' := Except.ok.inj (h.symm.trans hresolved')
      obtain ⟨cursor, hfits, rfl⟩ := (hplace place).mp hinstance
      exact ⟨cursor, hfits, hholds⟩
    · rintro ⟨cursor, hfits, hholds⟩
      exact ⟨root, resolved, _, hnode, h, (hplace _).mpr ⟨cursor, hfits, rfl⟩, hholds⟩
  rw [hembeds]
  obtain ⟨path, loops, leaf, target, isVirtual⟩ := resolved
  -- a reference to a list goes through one list more
  cases target with
  | scalar node name type => cases hscalar
  | level node kind =>
    cases kind with
    | object =>
      refine exists_congr fun cursor => and_congr_right fun _ => ?_
      constructor
      · rintro ⟨⟩
        rfl
      · rintro rfl
        exact .object node _
    | array =>
      simp only [ResolvedPath.elementLoops, Cursor.fits_concat]
      constructor
      · rintro ⟨cursor, hfits, hholds⟩
        cases hholds with
        | element _ _ index =>
          exact ⟨_, ⟨cursor, index, hfits, rfl⟩, (Cursor.below_enter cursor leaf index).symm⟩
      · rintro ⟨_, ⟨cursor, index, hfits, rfl⟩, rfl⟩
        refine ⟨cursor, hfits, ?_⟩
        rw [Cursor.below_enter]
        exact .element node _ index

end Blueprint

/-! ## Reading the copies -/

theorem Json.isObject_iff {value : Json} :
    value.isObject = true ↔ ∃ members, value = .object members := by
  cases value <;> simp [Json.isObject]

namespace Reference

/-- A copy at a cursor is an object that stands there. -/
theorem embedded?_eq_some {record copy : Json} {leaf : List String} {cursor : Cursor} :
    embedded? record leaf cursor = some copy ↔
      record.locate? (cursor.below leaf) = some copy ∧ copy.isObject = true := by
  unfold embedded?
  rw [Cursor.get?_eq_locate?]
  constructor
  · intro h
    split at h
    · next members hmembers =>
      obtain rfl := Option.some.inj h
      exact ⟨hmembers, rfl⟩
    · cases h
  · rintro ⟨hlocate, hobject⟩
    obtain ⟨members, rfl⟩ := Json.isObject_iff.mp hobject
    rw [hlocate]

/-- The copies at cursors, each with its place. -/
def copiesAt (record : Json) (leaf : List String) (cursors : List Cursor) :
    List (Location × Json) :=
  cursors.filterMap fun cursor => (embedded? record leaf cursor).map (cursor.below leaf, ·)

/-- At an element without a copy there is nothing. -/
theorem copiesAt_cons_none {record : Json} {leaf : List String} {cursor : Cursor}
    (h : embedded? record leaf cursor = none) (rest : List Cursor) :
    copiesAt record leaf (cursor :: rest) = copiesAt record leaf rest := by
  rw [copiesAt, List.filterMap_cons_none (by rw [h]; rfl)]
  rfl

/-- At any other there is its copy, with its place. -/
theorem copiesAt_cons_some {record copy : Json} {leaf : List String} {cursor : Cursor}
    (h : embedded? record leaf cursor = some copy) (rest : List Cursor) :
    copiesAt record leaf (cursor :: rest) =
      (cursor.below leaf, copy) :: copiesAt record leaf rest := by
  rw [copiesAt, List.filterMap_cons_some (by rw [h]; rfl)]
  rfl

/-- The copies are the objects that stand below the elements. -/
theorem mem_copiesAt {record : Json} {leaf : List String} {cursors : List Cursor}
    {location : Location} {copy : Json} :
    (location, copy) ∈ copiesAt record leaf cursors ↔
      ∃ cursor ∈ cursors, location = cursor.below leaf ∧
        embedded? record leaf cursor = some copy := by
  simp only [copiesAt, List.mem_filterMap, Option.map_eq_some_iff, Prod.mk.injEq]
  constructor
  · rintro ⟨cursor, hcursor, found, hfound, rfl, rfl⟩
    exact ⟨cursor, hcursor, rfl, hfound⟩
  · rintro ⟨cursor, hcursor, rfl, hfound⟩
    exact ⟨cursor, hcursor, copy, hfound, rfl, rfl⟩

/-- The copies below all elements that the loops of a path reach are its copies in the record. -/
theorem copies_copiesAt {blueprint : Blueprint} (hlevels : blueprint.LevelsDeclared)
    {path : String} {resolved : ResolvedPath} (h : blueprint.resolveStrict path = .ok resolved)
    (hscalar : resolved.isScalar = false) (record : Json) :
    blueprint.Copies path record (copiesAt record resolved.elementLoops.2
      (record.reach {} resolved.elementLoops.1)) where
  mem_iff location copy := by
    rw [mem_copiesAt, Blueprint.embeds_iff hlevels h hscalar]
    constructor
    · rintro ⟨cursor, hcursor, rfl, hcopy⟩
      exact ⟨⟨cursor, (Json.mem_reach_root.mp hcursor).1, rfl⟩, embedded?_eq_some.mp hcopy⟩
    · rintro ⟨⟨cursor, hfits, rfl⟩, hlocate, hobject⟩
      -- what stands below an element is there only if the element is
      have hpresent : (record.locate? cursor.element).isSome := by
        rw [Cursor.below] at hlocate
        exact Json.locate?_isSome_of_append (Option.isSome_of_eq_some hlocate)
      exact ⟨cursor, Json.mem_reach_root.mpr ⟨hfits, hpresent⟩, rfl,
        embedded?_eq_some.mpr ⟨hlocate, hobject⟩⟩
  ascending := by
    have hcursors := List.pairwise_map.mp
      (Json.reach_ascending record {} resolved.elementLoops.1)
    refine List.Pairwise.filterMap _ ?_ hcursors
    intro cursor cursor' hlt entry hentry entry' hentry'
    obtain ⟨copy, -, rfl⟩ := Option.map_eq_some_iff.mp hentry
    obtain ⟨copy', -, rfl⟩ := Option.map_eq_some_iff.mp hentry'
    rw [Cursor.indexes_below, Cursor.indexes_below]
    exact hlt

/-! ## Compiled references -/

/-- Both procedures of a reference go once to each element that its loops reach. -/
structure Follows (reference : Reference) (loops : List Loop) (leaf : List String) : Prop where
  collects : ∀ record, reference.collect.events record =
    (record.reach {} loops).map fun cursor => ⟨leaf, cursor⟩
  replaces : ∀ record, reference.replace.events record =
    (record.reach {} loops).map fun cursor => ⟨leaf, cursor⟩
  placed : ∀ loops' leaf', (loops', leaf') ∈ reference.replace.placed →
    loops' = loops ∧ leaf' = leaf
  lists : ∀ list ∈ Pass.listsInner reference.replace.root.inner, list <+: loops

/-- A compiled reference follows the loops of its path. -/
theorem exists_follows {blueprint : Blueprint} {path store : String} {reference : Reference}
    (h : compile blueprint path store = .ok reference) :
    reference.path = path ∧ reference.identityKey = blueprint.config.identityKey ∧
      ∃ resolved, blueprint.resolveStrict path = .ok resolved ∧ resolved.isScalar = false ∧
        reference.Follows resolved.elementLoops.1 resolved.elementLoops.2 := by
  obtain ⟨resolved, hdemand, h⟩ := Except.bind_eq_ok.mp h
  have hresolve := Blueprint.resolve_of_demand hdemand
  cases hscalar : resolved.isScalar with
  | true =>
    rw [if_pos hscalar] at h
    cases h
  | false =>
    simp only [hscalar, Bool.false_eq_true, if_false] at h
    obtain ⟨collect, hcollect, h⟩ := Except.bind_eq_ok.mp h
    obtain ⟨replace, hreplace, h⟩ := Except.bind_eq_ok.mp h
    cases h
    have hcollect := Blueprint.synthesize_of_finish hcollect
    have hreplace := Blueprint.synthesize_of_finish hreplace
    have hassembled := (Scaffold.assembled_start _).add (Scaffold.root_of_synthesize hreplace).1
    refine ⟨rfl, rfl, resolved, hresolve, hscalar, Scaffold.events_of_add hcollect,
      Scaffold.events_of_add hreplace, fun loops' leaf' hplaced => ?_, fun list hlist => ?_⟩
    · have hmem := (hassembled.placed_program hreplace).mem_iff.mp hplaced
      exact Prod.mk.inj (List.mem_singleton.mp hmem)
    · obtain ⟨entry, hentry, hstart⟩ := hassembled.lists_program hreplace list hlist
      obtain rfl := List.mem_singleton.mp hentry
      exact hstart

end Reference

/-! ## References of stores -/

/-- What a table of pairs has under a key is one of the pairs. -/
theorem Fields.mem_of_get?_ofPairs {α : Type} {pairs : List (String × α)} {key : String} {value : α}
    (h : get? (ofPairs pairs) key = some value) : (key, value) ∈ pairs := by
  -- for any table to start with, so that the induction goes through
  suffices hfold : ∀ (pairs : List (String × α)) (fields : Fields α),
      get? (pairs.foldl (fun fields pair => set fields pair.1 pair.2) fields) key = some value →
        (key, value) ∈ pairs ∨ get? fields key = some value from
    (hfold pairs [] h).resolve_right nofun
  intro pairs
  induction pairs with
  | nil => exact fun fields h => .inr h
  | cons pair rest ih =>
    intro fields h
    rcases ih _ h with hrest | hset
    · exact .inl (List.mem_cons_of_mem _ hrest)
    · by_cases hkey : key = pair.1
      · subst hkey
        rw [get?_set_self] at hset
        obtain rfl := Option.some.inj hset
        exact .inl List.mem_cons_self
      · rw [get?_set_of_ne fields pair.2 hkey] at hset
        exact .inr hset

/-- A reference of a store is compiled from a path that the descriptor declares for it. -/
theorem Store.IsCompiled.of_reference? {store : Store} (h : store.IsCompiled) {foreign : String}
    {reference : Reference} (hreference : store.reference? foreign = some reference) :
    (reference.path, foreign) ∈ store.metadata.references ∧
      Reference.compile store.blueprint reference.path foreign = .ok reference := by
  have hstore := h.exists_flatten.2
  unfold ofBlueprint at hstore
  obtain ⟨key, -, hstore⟩ := Except.bind_eq_ok.mp hstore
  obtain ⟨aggregates, -, hstore⟩ := Except.bind_eq_ok.mp hstore
  obtain ⟨computeds, -, hstore⟩ := Except.bind_eq_ok.mp hstore
  obtain ⟨references, hreferences, hstore⟩ := Except.bind_eq_ok.mp hstore
  obtain ⟨joins, -, hstore⟩ := Except.bind_eq_ok.mp hstore
  obtain ⟨cloner, -, hstore⟩ := Except.bind_eq_ok.mp hstore
  have hfields : Fields.ofPairs references = store.references :=
    congrArg Store.references (Except.ok.inj hstore)
  have hmem : (foreign, reference) ∈ references :=
    Fields.mem_of_get?_ofPairs (by rw [hfields]; exact hreference)
  obtain ⟨⟨path, target⟩, hdeclared, hcompile⟩ :=
    exists_of_forall₂_right (Except.forall₂_of_mapM hreferences) hmem
  obtain ⟨compiled, hcompiled, heq⟩ := Except.bind_eq_ok.mp hcompile
  cases heq
  rw [(Reference.exists_follows hcompiled).1]
  exact ⟨hdeclared, hcompiled⟩

end NestedRecord
