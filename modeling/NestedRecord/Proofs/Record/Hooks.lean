import NestedRecord.Proofs.Graph.Paths
import NestedRecord.Proofs.Record.Preserving

/-!
# Hooks at declared places

Walks over a record carry the dotted path of the place that they stand at, and look hooks up under
it. Where names are plain, what they find there is what the attribute of that place declares.

* `Tuple.lastHook?` is the hook that counts for an attribute.
* `Descriptor.HookedAt` says that a table holds the hooks of a descriptor below a path. `own` and
  `inside` take it apart along the descriptor.
* `Flattened.hookedAt_of_flatten`: the tables of a flattened descriptor hold them.
* `Drawn.exists_below` finds the level below an attribute.

A descriptor is followed with the path that it stands at, and one statement about its table of hooks
covers everything below. Paths of different declarations differ where names are plain, so a later
declaration does not overwrite the hook of an earlier one.
-/

namespace NestedRecord

open Fields (get?)

/-- The hook of a kind that counts for an attribute: the last one. -/
def Tuple.lastHook? {ν : Type} (tuple : Tuple ν) (kind : HookKind) : Option Hook :=
  ((tuple.hooks.filter (·.1 = kind)).getLast?).map (·.2)

theorem Flattened.PlainNames.separate {flattened : Flattened} (h : flattened.PlainNames) :
    flattened.SeparateNames where
  distinct := h.distinct
  dotless entry hentry decl hdecl := ((h entry hentry).2 decl hdecl).2
  named entry hentry _ decl hdecl _ := ((h entry hentry).2 decl hdecl).1

namespace Descriptor

variable {kind : HookKind} {hooks : Fields Hook} {path name : String}
  {descriptor inner : Descriptor} {tuple tuple' : Tuple Descriptor}

/-- A name has one declaration that counts. -/
theorem Assigns.unique (h : descriptor.Assigns name tuple) (h' : descriptor.Assigns name tuple') :
    tuple = tuple' := by
  obtain ⟨directives, hfind, hread⟩ := h
  obtain ⟨directives', hfind', hread'⟩ := h'
  rw [hfind] at hfind'
  cases hfind'
  exact Except.ok.inj (hread.symm.trans hread')

/-- What is declared under a name stands among the attributes. -/
theorem Assigns.exists_mem (h : descriptor.Assigns name tuple) :
    ∃ directives, (name, .tuple directives) ∈ descriptor.attributes ∧
      Tuple.ofDirectives directives = .ok tuple := by
  obtain ⟨directives, hfind, hread⟩ := h
  exact ⟨directives, List.mem_reverse.mp (List.mem_of_find?_eq_some hfind), hread⟩

/-- The names of the attributes in order of declaration. -/
def names (descriptor : Descriptor) : List String := descriptor.attributes.map (·.1)

/-- Where names differ, every attribute is what is declared under its name. -/
theorem assigns_of_mem {directives : List (Directive Descriptor)} (hnodup : descriptor.names.Nodup)
    (hmem : (name, .tuple directives) ∈ descriptor.attributes)
    (hread : Tuple.ofDirectives directives = .ok tuple) : descriptor.Assigns name tuple :=
  ⟨directives, find?_reverse_of_nodup hnodup hmem, hread⟩

/-- What holds of the names of all levels holds of those of a nested one. -/
theorem Levels.inside {p : List String → Prop} (h : descriptor.Levels p)
    (hdeclared : descriptor.Assigns name tuple) (hnested : tuple.nested = some inner) :
    inner.Levels p := by
  obtain ⟨directives, hmem, hread⟩ := hdeclared.exists_mem
  cases h with
  | mk _ below => exact below hmem hread hnested

/-- A table holds the hooks of a kind that are declared below a path, and no other ones there. -/
def HookedAt (kind : HookKind) (hooks : Fields Hook) (path : String) (descriptor : Descriptor) :
    Prop :=
  ∀ declaration ∈ descriptor.declarations,
    get? hooks (declaration.pathFrom path) = declaration.lastHook? kind

theorem HookedAt.own (h : descriptor.HookedAt kind hooks path)
    (hdeclared : descriptor.Assigns name tuple) :
    get? hooks (joinPath path name) = tuple.lastHook? kind := by
  obtain ⟨directives, hmem, hread⟩ := hdeclared.exists_mem
  cases descriptor with
  | mk attributes => exact h _ (mem_declarations hmem hread)

/-- The table holds the hooks of a nested descriptor below the path of its attribute. -/
theorem HookedAt.inside (h : descriptor.HookedAt kind hooks path)
    (hdeclared : descriptor.Assigns name tuple) (hnested : tuple.nested = some inner) :
    inner.HookedAt kind hooks (joinPath path name) := by
  intro declaration hdeclaration
  obtain ⟨directives, hmem, hread⟩ := hdeclared.exists_mem
  cases descriptor with
  | mk attributes => exact h _ (mem_declarations_inside hmem hread hnested hdeclaration)

end Descriptor

/-- Where no two declarations share a path, a table of hooks holds what each of them declares. -/
theorem Flattened.hookedAt_setAll {descriptor : Descriptor} (kind : HookKind)
    (hnodup : (descriptor.declarations.map (·.path)).Nodup) :
    descriptor.HookedAt kind
      (Fields.setAll (Declaration.hooks kind descriptor.declarations) []) "" := by
  have hbelongs := Flattened.belongs_hooks hnodup kind
  intro declaration hmem
  refine Option.ext fun hook => ?_
  rw [show declaration.pathFrom "" = declaration.path from rfl]
  constructor
  · intro hget
    obtain ⟨other, hother, hpath, hlast⟩ := (hbelongs declaration.path hook).mp hget
    rwa [← List.inj_on_of_nodup_map hnodup hother hmem hpath]
  · exact fun hlast => (hbelongs declaration.path hook).mpr ⟨declaration, hmem, rfl, hlast⟩

/-- The tables of a flattened descriptor hold the hooks that it declares. -/
theorem Flattened.hookedAt_of_flatten {store rootName : String} {descriptor : Descriptor}
    {flattened : Flattened} (h : (flatten store rootName descriptor).1 = .ok flattened)
    (hplain : flattened.PlainNames) :
    descriptor.HookedAt .validate flattened.onValidate "" ∧
      descriptor.HookedAt .transform flattened.onTransform "" := by
  obtain ⟨s, level, hends, hdrawn, -⟩ := exists_drawn h
  have hnodup := nodup_paths hends hplain.separate hdrawn
  have hnotes := notes_of_flatten h
  rw [hnotes.onValidate, hnotes.onTransform]
  exact ⟨hookedAt_setAll .validate hnodup, hookedAt_setAll .transform hnodup⟩

namespace Drawn

variable {s : Flattening} {flattened : Flattened} {descriptor : Descriptor} {name : String}
  {level : Level}

/-- The names of a level are those of its descriptor. -/
theorem names_eq (hdrawn : Drawn s descriptor name level) :
    level.attributes.map (·.1.name) = descriptor.names := by
  cases hdrawn with
  | @mk attributes _ node visited entered declared drawn =>
    rw [Level.attributes_ofVisited, List.map_map]
    exact AttributeDrawn.names_eq drawn

/-- The attributes of a drawn level have different names, if all levels do. -/
theorem nodup_names (hends : flattened.EndsIn s) (hdistinct : flattened.DistinctNames)
    (hdrawn : Drawn s descriptor name level) : (level.attributes.map (·.1.name)).Nodup := by
  cases Drawn.distinct hends hdistinct descriptor .object hdrawn with
  | level names _ => exact names

/-- The level below an attribute that declares its attributes. -/
theorem exists_below (hends : flattened.EndsIn s) (hdistinct : flattened.DistinctNames)
    (hdrawn : Drawn s descriptor name level) {attr : AttributeDecl × Shape}
    (hattr : attr ∈ level.attributes) {tuple : Tuple Descriptor} {inner : Descriptor}
    {kind : NodeKind} (hdeclared : descriptor.Assigns attr.1.name tuple)
    (hnesting : tuple.nesting = some kind) (hnested : tuple.nested = some inner) :
    ∃ child below directives, attr.2 = .level kind below.attributes ∧ Drawn s inner child below ∧
      (attr.1.name, .tuple directives) ∈ descriptor.attributes ∧ .nested inner ∈ directives := by
  obtain ⟨directives, tuple', visited, hdeclared', hread, hmem, rfl, hvisited⟩ :=
    hdrawn.exists_assigned hends hdistinct hattr
  obtain rfl := hdeclared.unique hdeclared'
  obtain ⟨child, node, below, -, hkind, hbelow, hvisit⟩ := hvisited.exists_level hread hnested
  refine ⟨child, below, directives, ?_, hbelow, hmem, Tuple.mem_of_nested hread hnested⟩
  rw [congrArg Visited.shape hvisit, Option.some.inj (hnesting.symm.trans hkind)]

/-- Every attribute that is declared has been visited. -/
theorem exists_visited_of_mem (hdrawn : Drawn s descriptor name level)
    {entry : String × Attribute Descriptor} (hentry : entry ∈ descriptor.attributes) :
    ∃ visited, AttributeDrawn s (Drawn s) entry visited ∧
      (visited.decl, visited.shape) ∈ level.attributes := by
  cases hdrawn with
  | @mk attributes _ node visited entered declared drawn =>
    obtain ⟨attr, hattr, hvisited⟩ := exists_of_forall₂_right drawn.flip hentry
    rw [Level.attributes_ofVisited]
    exact ⟨attr, hvisited, List.mem_map_of_mem hattr⟩

/-- Every attribute of a level is one that is declared. -/
theorem exists_entry_of_mem (hdrawn : Drawn s descriptor name level)
    {attr : AttributeDecl × Shape} (hattr : attr ∈ level.attributes) :
    ∃ entry ∈ descriptor.attributes, ∃ visited, AttributeDrawn s (Drawn s) entry visited ∧
      attr = (visited.decl, visited.shape) := by
  cases hdrawn with
  | @mk attributes _ node visited entered declared drawn =>
    rw [Level.attributes_ofVisited] at hattr
    obtain ⟨known, hknown, rfl⟩ := List.mem_map.mp hattr
    obtain ⟨entry, hentry, hvisited⟩ := exists_of_forall₂_right drawn hknown
    exact ⟨entry, hentry, known, hvisited, rfl⟩

/-- Where something is declared under a name, the level has an attribute of the name. -/
theorem exists_attribute (hdrawn : Drawn s descriptor name level) {key : String}
    {tuple : Tuple Descriptor} (hdeclared : descriptor.Assigns key tuple) :
    ∃ attr ∈ level.attributes, attr.1.name = key := by
  obtain ⟨-, visited, -, -, hfind, -⟩ := hdrawn.exists_last hdeclared
  exact ⟨_, List.mem_reverse.mp (List.mem_of_find?_eq_some hfind),
    by simpa using List.find?_some hfind⟩

end Drawn

end NestedRecord
