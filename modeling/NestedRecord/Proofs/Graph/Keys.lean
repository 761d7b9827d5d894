import NestedRecord.Proofs.Graph.Tables
import NestedRecord.Proofs.Path.Declared

/-!
# Keys of the levels of a flattened descriptor

A key attribute belongs to the innermost list around it, or to the root if there is none: objects
hand their keys on to the level around, lists keep them. So the key of a level is read off its own
declarations.

* `Flattening.Keyed` says what a walk at a position does with keys: those of its level go to the
  owner that the position names, and every level that is entered has the key of its descriptor. It
  is closed under sequences; `Keyed.of_redraws` is a single attribute, `Keyed.below` a nested level.
* `Descriptor.keys_fold`: the walk over a descriptor does so.
* `Flattened.keysBubble_of_flatten` is the result for a flattened descriptor.

The owner of the keys is a part of the position and is passed on by the walk: a list takes its own
place, an object does not. That each level ends up with its own keys is thus an induction over the
descriptor in which the level around stands in the statement, `Keyed`, and what is handed on to it
is `handedOn`. Keys are noted by path, relative to the owner, in order of declaration.
-/

namespace NestedRecord

open Fields (get? has keys)

/-- Key attributes of a level, noted one after the other. -/
def KeyTable.addAll (owner : String) (paths : List String) (table : KeyTable) : KeyTable where
  first := table.first
  noted := table.noted ++ if table.first = some owner then paths else []
  levels name := (table.levels name).map (· ++ if name = owner then paths else [])

theorem KeyTable.addAll_nil (owner : String) (table : KeyTable) :
    table.addAll owner [] = table := by
  simp [addAll]

namespace Flattening

variable {s s' s'' : Flattening} {position : Position} {descriptor : Descriptor}
  {paths paths' : List String}

/-- From one state to the next the level of a position, whose descriptor this is, has been visited:
its keys are those of the owner, and levels that have been entered have their own. -/
structure Keyed (position : Position) (paths : List String) (descriptor : Descriptor)
    (s s' : Flattening) : Prop where
  grows : Grows s s'
  first : (keys s'.nodes).head? = (keys s.nodes).head?
  noted : s'.metadata.primaryKey = s.metadata.primaryKey ++
    if (keys s.nodes).head? = some position.keyOwner then paths else []
  kept : ∀ {name node}, get? s.nodes name = some node →
    ∃ node', get? s'.nodes name = some node' ∧
      node'.primaryKey = node.primaryKey ++ if name = position.keyOwner then paths else []
  entered : ∀ {name node}, get? s.nodes name = none → get? s'.nodes name = some node →
    ∃ names inner, descriptor.Nests names node.kind inner ∧
      (∀ trail, Trail s position.node trail → Trail s' name (names.reverse ++ trail)) ∧
      node.primaryKey = if node.kind = .array then inner.keyPaths else []
  foreign : ∀ {name node}, get? s'.virtualNodes name = some node →
    get? s.virtualNodes name = some node ∨ node.primaryKey = []

theorem Grows.origin_eq (h : Grows s s') {name : String} {node node' : Node}
    (hget : get? s.nodes name = some node) (hget' : get? s'.nodes name = some node') :
    node'.origin = node.origin := by
  obtain ⟨known, hknown, horigin⟩ := h.levels (level?_of_get? hget)
  obtain rfl : node' = known := Option.some.inj ((level?_of_get? hget').symm.trans hknown)
  exact horigin

namespace Keyed

/-- A visit of nothing notes nothing. -/
theorem refl (s : Flattening) : Keyed position [] descriptor s s where
  grows := .refl s
  first := rfl
  noted := by simp
  kept hget := ⟨_, hget, by simp⟩
  entered hnone hget := by
    rw [hnone] at hget
    cases hget
  foreign hget := .inl hget

/-- One visit after the other; the owner of the keys is a level from the beginning. -/
theorem trans (h : Keyed position paths descriptor s s')
    (h' : Keyed position paths' descriptor s' s'') (howner : has s.nodes position.keyOwner = true) :
    Keyed position (paths ++ paths') descriptor s s'' where
  grows := h.grows.trans h'.grows
  first := h'.first.trans h.first
  noted := by
    rw [h'.noted, h.noted, h.first]
    split <;> simp
  kept hget := by
    obtain ⟨node', hget', hkey⟩ := h.kept hget
    obtain ⟨node'', hget'', hkey'⟩ := h'.kept hget'
    refine ⟨node'', hget'', ?_⟩
    rw [hkey', hkey]
    split <;> simp
  entered {name node} hnone hget := by
    cases hget' : get? s'.nodes name with
    | none =>
      obtain ⟨names, inner, hnests, htrail, hkey⟩ := h'.entered hget' hget
      exact ⟨names, inner, hnests, fun trail h₀ => htrail trail (h₀.mono h.grows), hkey⟩
    | some node' =>
      -- the level has been entered before, so it is not the owner, and its key stays as it is
      obtain ⟨names, inner, hnests, htrail, hkey⟩ := h.entered hnone hget'
      have hne : name ≠ position.keyOwner := by
        rintro rfl
        rw [has, hnone] at howner
        cases howner
      obtain ⟨known, hknown, hkept⟩ := h'.kept hget'
      obtain rfl : node = known := Option.some.inj (hget.symm.trans hknown)
      rw [if_neg hne, List.append_nil] at hkept
      have hkind : node.kind = node'.kind := congrArg (·.2.2.1) (h'.grows.origin_eq hget' hget)
      refine ⟨names, inner, hkind ▸ hnests, fun trail h₀ => (htrail trail h₀).mono h'.grows, ?_⟩
      rw [hkept, hkey, hkind]
  foreign hget := by
    rcases h'.foreign hget with hold | hnil
    · exact h.foreign hold
    · exact .inr hnil

/-- The visit of an attribute without levels of its own. -/
theorem of_redraws {name : String} {decls : List AttributeDecl} (h : Redraws name decls s s')
    (hkeys : s'.keyTable = s.keyTable.addAll position.keyOwner paths) :
    Keyed position paths descriptor s s' where
  grows := grows_of_redraws h
  first := congrArg KeyTable.first hkeys
  noted := congrArg KeyTable.noted hkeys
  kept {other node} hget := by
    obtain ⟨node', hget', -⟩ := exists_of_redraws h hget
    have hlevel := congrFun (congrArg KeyTable.levels hkeys) other
    simp only [keyTable, KeyTable.addAll, hget, hget', Option.map_some, Option.some.injEq] at hlevel
    exact ⟨node', hget', hlevel⟩
  entered hnone hget := by
    obtain ⟨node, hbefore, -⟩ := exists_before_redraws h hget
    rw [hnone] at hbefore
    cases hbefore
  foreign hget := .inl (h.virtualNodes ▸ hget)

/-- A level of an attached store has no key. -/
theorem enter_foreign {node : Node} (hfresh : s.level? node.uniqueName = none)
    (hvirtual : node.isVirtual = true) (hkey : node.primaryKey = []) :
    Keyed position [] descriptor s (s.enter node) where
  grows := grows_enter hfresh
  first := by rw [keys_nodes_enter hfresh, if_pos hvirtual, List.append_nil]
  noted := by simp [metadata_enter]
  kept hget := ⟨_, get?_nodes_enter_of_some hfresh hget, by simp⟩
  entered hnone hget := by
    rw [get?_nodes_enter, hvirtual, if_neg (by simp), hnone] at hget
    cases hget
  foreign hget := by
    rcases get?_virtualNodes_enter_cases hget with ⟨-, -, rfl⟩ | hget
    · exact .inr hkey
    · exact .inl hget

end Keyed

/-- What a level hands on to the level around: a list keeps its keys. -/
def handedOn (kind : NodeKind) (paths : List String) : List String :=
  match kind with
  | .array => []
  | .object => paths

/-- At a level other than the one below, what is noted there is what is handed on. -/
theorem noted_below {name child other : String} (kind : NodeKind) (hne : other ≠ child) :
    (if other = (position.below child name kind).keyOwner then paths else []) =
      if other = position.keyOwner then handedOn kind paths else [] := by
  cases kind with
  | array => rw [handedOn, ite_self, Position.below, if_neg hne]
  | object => rfl

/-- The keys of a level that is entered are noted there if it is a list. -/
theorem noted_entered {name child : String} (kind : NodeKind) (hne : child ≠ position.keyOwner) :
    (if child = (position.below child name kind).keyOwner then
      paths.map ((position.below child name kind).keyFront ++ ·) else []) =
        if kind = .array then paths else [] := by
  cases kind with
  | array => simp [Position.below]
  | object => rw [Position.below, if_neg hne, if_neg (by simp)]

theorem has_ne_of_fresh {fresh name : String} (hfresh : s.level? fresh = none)
    (hhas : has s.nodes name = true) : name ≠ fresh := by
  obtain ⟨node, hget⟩ := Fields.has_iff.mp hhas
  exact ne_of_fresh hfresh (level?_of_get? hget)

/-- The level below a nested attribute is entered, and its descriptor is visited. -/
theorem Keyed.below {name : String} (node : Node) {inner : Descriptor}
    (hnests : descriptor.Nests [name] node.kind inner)
    (hinside : ∀ {names kind deeper}, inner.Nests names kind deeper →
      descriptor.Nests (name :: names) kind deeper)
    (hfresh : s.level? node.uniqueName = none) (hdeclared : node.isVirtual = false)
    (hup : node.parentName = some position.node) (hunder : node.nameInParent = some name)
    (hkey : node.primaryKey = []) (haround : has s.nodes position.node = true)
    (howner : has s.nodes position.keyOwner = true)
    (hwalk : Keyed (position.below node.uniqueName name node.kind) (inner.keyPaths.map
      ((position.below node.uniqueName name node.kind).keyFront ++ ·)) inner (s.enter node) s') :
    Keyed position (handedOn node.kind (inner.keyPaths.map
      ((position.below node.uniqueName name node.kind).keyFront ++ ·))) descriptor s s' := by
  have hentered := grows_enter hfresh
  have hchild : get? (s.enter node).nodes node.uniqueName = some node :=
    get?_nodes_enter_self hdeclared
  have hfirst : (keys (s.enter node).nodes).head? = (keys s.nodes).head? := by
    have hnonempty := List.ne_nil_of_mem (Fields.mem_keys_iff_has.mpr haround)
    rw [keys_nodes_enter hfresh, List.head?_append_of_ne_nil _ hnonempty]
  have htrail : ∀ {trail}, Trail s position.node trail →
      Trail (s.enter node) (position.below node.uniqueName name node.kind).node
        (name :: trail) := by
    intro trail htrail
    rw [show (position.below node.uniqueName name node.kind).node = node.uniqueName by
      cases node.kind <;> rfl]
    exact .inside (level?_of_get? hchild) hup hunder (htrail.mono hentered)
  constructor
  case grows => exact hentered.trans hwalk.grows
  case first => exact hwalk.first.trans hfirst
  case noted =>
    rw [hwalk.noted, metadata_enter, hfirst]
    cases hhead : (keys s.nodes).head? with
    | none => simp
    | some first =>
      have hhas := Fields.mem_keys_iff_has.mp (List.mem_of_head? hhead)
      simp only [Option.some.injEq, noted_below node.kind (has_ne_of_fresh hfresh hhas)]
  case kept =>
    intro other known hget
    have hne := has_ne_of_fresh hfresh (Fields.has_iff.mpr ⟨known, hget⟩)
    obtain ⟨node', hget', hkey⟩ := hwalk.kept (get?_nodes_enter_of_some hfresh hget)
    exact ⟨node', hget', hkey.trans (congrArg _ (noted_below node.kind hne))⟩
  case entered =>
    intro other node' hnone hget
    by_cases heq : other = node.uniqueName
    · -- the level itself: it has been entered without a key, and is kept from then on
      subst heq
      have horigin := hwalk.grows.origin_eq hchild hget
      have hkind : node'.kind = node.kind := congrArg (·.2.2.1) horigin
      obtain ⟨known, hknown, hnoted⟩ := hwalk.kept hchild
      obtain rfl : node' = known := Option.some.inj (hget.symm.trans hknown)
      refine ⟨[name], inner, hkind ▸ hnests, fun trail h₀ => ?_, ?_⟩
      · have hbelow := (htrail h₀).mono hwalk.grows
        cases hkinds : node.kind <;> rw [hkinds] at hbelow <;> exact hbelow
      · rw [hnoted, hkey, hkind, noted_entered node.kind (has_ne_of_fresh hfresh howner).symm]
        rfl
    · -- a level below it: one name more leads there
      obtain ⟨names, deeper, hdeeper, hreach, hnoted⟩ :=
        hwalk.entered ((get?_nodes_enter_of_ne heq).trans hnone) hget
      refine ⟨name :: names, deeper, hinside hdeeper, fun trail h₀ => ?_, hnoted⟩
      have hreach := hreach (name :: trail) (htrail h₀)
      rwa [List.reverse_cons, List.append_assoc]
  case foreign =>
    intro other known hget
    rcases hwalk.foreign hget with hold | hnil
    · rcases get?_virtualNodes_enter_cases hold with ⟨hforeign, -, -⟩ | hold
      · rw [hdeclared] at hforeign
        cases hforeign
      · exact .inl hold
    · exact .inr hnil

end Flattening

/-- A walk over a level passes on its keys, and those of the levels below. -/
def LevelWalk.Keys (descriptor : Descriptor) (walk : LevelWalk) : Prop :=
  ∀ {root opened pending position s level s'}, Flattening.Grown root opened pending s →
    s.Stands position → has s.nodes position.keyOwner = true → walk position s = .ok level s' →
      Flattening.Keyed position (descriptor.keyPaths.map (position.keyFront ++ ·)) descriptor s s'

namespace Walk

open Descriptor (attributeDeclarations)
open Flattening

variable {s s' : Flattening} {root store name : String} {opened pending : List String}
  {position : Position} {descriptor : Descriptor}

/-- A key attribute is noted by its path from the owner on. -/
theorem addKey_eq {ν : Type} (position : Position) (name : String) (tuple : Tuple ν)
    (table : KeyTable) : addKey position name tuple table =
      table.addAll position.keyOwner
        ((if tuple.isKey then [name] else []).map (position.keyFront ++ ·)) := by
  unfold addKey
  split
  · rfl
  · exact (table.addAll_nil position.keyOwner).symm

/-- What the level below hands on is what is declared there, seen from the level around. -/
theorem handedOn_keyPaths (position : Position) (child name : String) (kind : NodeKind)
    (inner : Descriptor) :
    handedOn kind (inner.keyPaths.map ((position.below child name kind).keyFront ++ ·)) =
      (Declaration.keyPaths (inner.declarations.map (.inside name (some kind)))).map
        (position.keyFront ++ ·) := by
  cases kind with
  | array => rw [Declaration.keyPaths_array, List.map_nil, handedOn]
  | object =>
    rw [Declaration.keyPaths_object name fun declaration => Descriptor.names_ne_nil, List.map_map,
      handedOn]
    refine List.map_congr_left fun path _ => ?_
    simp [Position.below, String.append_assoc]

/-- A step that adds attributes to a level and notes no keys. -/
theorem keyed_of_steady {other : String} {decls : List AttributeDecl} (h : Redraws other decls s s')
    (hkeys : s'.keyTable = s.keyTable) : Keyed position [] descriptor s s' :=
  .of_redraws h (hkeys.trans (KeyTable.addAll_nil _ _).symm)

/-- To note a list at the level around changes no key. -/
theorem keyed_noted (around child : String) (kind : NodeKind) (visited : Flattening) :
    Keyed position [] descriptor visited (noted around child kind visited) := by
  cases kind with
  | object => exact .refl visited
  | array =>
    have hrevises : Revises around [] visited (noted around child .array visited) :=
      .update (·.withArray child) (fun node => rfl) around visited
    exact keyed_of_steady hrevises.toRedraws
      (visited.keyTable_update (·.withArray child) (fun node => rfl) around)

/-- The level below a nested attribute keeps its keys or hands them on. -/
theorem keyed_visitBelow {kind : NodeKind} {attached : Option String} {nested : Option Descriptor}
    (hnested : ∀ inner, nested = some inner →
      LevelWalk.Keys inner (inner.fold (visitLevel store)) ∧ descriptor.Nests [name] kind inner ∧
        ∀ {names kind deeper}, inner.Nests names kind deeper →
          descriptor.Nests (name :: names) kind deeper)
    (h : Grown root opened pending s) (hstands : s.Stands position)
    (howner : has s.nodes position.keyOwner = true) {below : Below}
    (hrun : visitBelow store position name kind attached
      (nested.map (Descriptor.fold (visitLevel store))) s = .ok below s') :
    Keyed position ((Declaration.keyPaths (((nested.map Descriptor.declarations).getD []).map
      (.inside name (some kind)))).map (position.keyFront ++ ·)) descriptor s s' := by
  have hcounted (counter : Nat) : Keyed position [] descriptor s { s with counter := counter } := by
    have hsame : Redraws name [] s { s with counter := counter } := .of_nodes rfl rfl
    exact keyed_of_steady hsame rfl
  cases nested with
  | none =>
    obtain ⟨parent, counter, -, hfresh, rfl, -⟩ := visitVirtualLevel_eq_ok hrun
    exact (hcounted counter).trans (.enter_foreign hfresh rfl rfl) howner
  | some inner =>
    obtain ⟨hwalk, hnests, hinside⟩ := hnested inner rfl
    obtain ⟨parent, counter, level, visited, hparent, hfresh, hlevel, rfl, -⟩ :=
      exists_noted_of_visitDeclaredLevel hrun
    have hentered : Nested root opened pending position name kind attached below.child s
        (Flattening.enter { s with counter := counter }
          (childWith parent below.child name kind false attached)) :=
      nested_enter h hparent hfresh
    -- below an object the keys still go to the owner around, below a list to the level itself
    have hup : parent.uniqueName = position.node := h.named (level?_of_get? hparent)
    have hchild : has (Flattening.enter { s with counter := counter }
        (childWith parent below.child name kind false attached)).nodes below.child = true := by
      exact Fields.has_iff.mpr ⟨_, get?_nodes_enter_self rfl⟩
    have howner' : has (Flattening.enter { s with counter := counter }
        (childWith parent below.child name kind false attached)).nodes
          (position.below below.child name kind).keyOwner = true := by
      cases kind with
      | array => exact hchild
      | object => exact hentered.grows.nodes howner
    have hvisited := hwalk hentered.grown (stands_below hentered hstands hchild) howner' hlevel
    have hbelow : Keyed position _ descriptor { s with counter := counter } visited :=
      Keyed.below (childWith parent below.child name kind false attached) hnests hinside
        hfresh rfl (congrArg some hup) rfl rfl hstands.node howner hvisited
    have hkeyed := ((hcounted counter).trans hbelow howner).trans
      (keyed_noted position.node below.child kind visited) howner
    rw [List.nil_append, List.append_nil] at hkeyed
    exact handedOn_keyPaths position below.child name kind inner ▸ hkeyed

/-- The keys of an attribute and of what is nested in it. -/
theorem keyed_visitAttribute {attributes : List (String × Attribute Descriptor)}
    {attr : Attribute Descriptor} (hattr : (name, attr) ∈ attributes)
    (hnested : ∀ directives, attr = .tuple directives → ∀ inner, .nested inner ∈ directives →
      LevelWalk.Keys inner (inner.fold (visitLevel store)))
    (h : Grown root opened pending s) (hstands : s.Stands position)
    (howner : has s.nodes position.keyOwner = true) {visited : Visited}
    (hrun : visitAttribute store position name (attr.map (Descriptor.fold (visitLevel store))) s =
      .ok visited s') :
    Keyed position ((Declaration.keyPaths (attributeDeclarations (name, attr))).map
      (position.keyFront ++ ·)) (.mk attributes) s s' := by
  obtain ⟨directives, tuple, rfl, read, hrun | ⟨hplain, hrun⟩⟩ :=
    exists_read_of_visitAttribute hrun
  · obtain ⟨kind, attached, below, decl, s₁, s₂, hkind, hnokey, -, hkeys, hsteady, hbelow, -,
      hkeys', hredraws⟩ := exists_fills_of_visitNested hrun
    have hkind : tuple.nesting = some kind := hkind
    have hnokey : tuple.isKey = false := hnokey
    have hbefore := hsteady name
    have hgrows := grows_of_redraws hbefore.toRedraws
    have hinner := keyed_visitBelow (fun inner heq => ⟨hnested directives rfl inner
        (Tuple.mem_of_nested read heq), .level hattr read hkind heq, .inside hattr read heq⟩)
      (h.steady hbefore) (hstands.mono hgrows) (hgrows.nodes howner) hbelow
    -- around the level below, the steps of the attribute itself note no key
    have hkeyed := ((keyed_of_steady hbefore.toRedraws hkeys).trans hinner howner).trans
      (keyed_of_steady hredraws hkeys') howner
    rw [Descriptor.attributeDeclarations_read read, Declaration.keyPaths_cons, List.map_append,
      hnokey, if_neg Bool.false_ne_true, hkind]
    rwa [List.nil_append, List.append_nil] at hkeyed
  · have hredraws := (adds_visitScalar _ _ _ _ _ _ _ hrun).1.toRedraws
    have hkeys := (fills_visitScalar _ _ _ _ _ _ hrun).2
    rw [Descriptor.attributeDeclarations_read read, Tuple.nested_eq_none hplain,
      Declaration.keyPaths_cons, List.map_append,
      show Declaration.keyPaths (((Option.map _ none).getD []).map _) = [] from rfl,
      List.map_nil, List.append_nil]
    exact .of_redraws hredraws (hkeys.trans (addKey_eq position name tuple _))

/-- The keys of attributes that are visited one after the other. -/
theorem keyed_visitAttributes {attributes entries : List (String × Attribute Descriptor)}
    (hnested : ∀ entry ∈ attributes, ∀ directives, entry.2 = .tuple directives →
      ∀ inner, .nested inner ∈ directives → LevelWalk.Keys inner (inner.fold (visitLevel store)))
    (hentries : ∀ entry ∈ entries, entry ∈ attributes) :
    ∀ {s : Flattening} {level level' : Level}, Grown root opened pending s → s.Stands position →
      has s.nodes position.keyOwner = true →
      visitAttributes store position level (entries.map fun entry =>
        (entry.1, entry.2.map (Descriptor.fold (visitLevel store)))) s = .ok level' s' →
      Keyed position ((Declaration.keyPaths (entries.flatMap attributeDeclarations)).map
        (position.keyFront ++ ·)) (.mk attributes) s s' := by
  induction entries with
  | nil =>
    intro s level level' h hstands howner hrun
    obtain ⟨-, rfl⟩ := pure_eq_ok.mp hrun
    exact .refl s
  | cons entry rest ih =>
    intro s level level' h hstands howner hrun
    obtain ⟨visited, s₁, hfirst, hrest⟩ := bind_eq_ok.mp hrun
    have hmem := hentries entry List.mem_cons_self
    obtain ⟨hgrown, hgrows⟩ := grown_visitAttribute (fun directives htuple walk hwalk => by
      obtain ⟨inner, rfl⟩ := Attribute.exists_of_nested_map htuple hwalk
      exact inner.sound_fold store) h hstands hfirst
    have hfirst := keyed_visitAttribute hmem (hnested entry hmem) h hstands howner hfirst
    have hrest := ih (fun entry hentry => hentries entry (List.mem_cons_of_mem _ hentry)) hgrown
      (hstands.mono hgrows) (hgrows.nodes howner) hrest
    rw [List.flatMap_cons, Declaration.keyPaths_append, List.map_append]
    exact hfirst.trans hrest howner

end Walk

/-- The walk over a descriptor passes on its keys, and those of the levels below. -/
theorem Descriptor.keys_fold (store : String) (descriptor : Descriptor) :
    LevelWalk.Keys descriptor (descriptor.fold (Walk.visitLevel store)) := by
  refine levels_induction (p := fun descriptor => LevelWalk.Keys descriptor
    (descriptor.fold (Walk.visitLevel store))) (fun attributes hnested => ?_) descriptor
  intro root opened pending position s level s' hgrown hstands howner hrun
  rw [fold_mk] at hrun
  rw [keyPaths, declarations_mk]
  exact Walk.keyed_visitAttributes hnested (fun _ => id) hgrown hstands howner hrun

/-! ## Keys of a flattened descriptor -/

namespace Flattened

/-- Every level owns the key attributes that objects only lead to, and key columns are ordered by
the number of lists around them. -/
structure KeysBubble (flattened : Flattened) (descriptor : Descriptor) : Prop where
  root : ∃ node, (flattened.root, node) ∈ flattened.nodes ∧ node.primaryKey = descriptor.keyPaths
  metadata : flattened.metadata.primaryKey = descriptor.keyPaths
  /-- a list stands where one is nested in the descriptor -/
  stands : ∀ {key node}, (key, node) ∈ flattened.nodes → node.kind = .array →
    ∃ names inner, flattened.StandsAt key names ∧ descriptor.Nests names .array inner
  /-- its key attributes are those of what is nested there -/
  lists : ∀ {key node names kind inner}, (key, node) ∈ flattened.nodes → node.kind = .array →
    flattened.StandsAt key names → descriptor.Nests names kind inner →
      node.primaryKey = inner.keyPaths
  /-- a list of another store has none -/
  foreign : ∀ {key node}, (key, node) ∈ flattened.virtualNodes → node.primaryKey = []
  /-- key columns of one number of lists stay in order of declaration -/
  mandatory : ∃ order, StablySorted (·.1) (Declaration.keyColumns descriptor.declarations) order ∧
    flattened.metadata.sortMandatory = order.map (·.2)

/-- A walk from the root alone enters every list, with the key of what is nested there. -/
theorem EndsIn.exists_nested {flattened : Flattened} {s : Flattening} {store : String}
    {counter : Nat} {position : Position} {paths : List String} {descriptor : Descriptor}
    (h : flattened.EndsIn s) (hroot : position.node = flattened.root)
    (hkeyed : Flattening.Keyed position paths descriptor
      (Flattening.rooted store flattened.root counter) s)
    {key : String} {node : Node} (hmem : (key, node) ∈ flattened.nodes)
    (harray : node.kind = .array) :
    ∃ names inner, flattened.StandsAt key names ∧ descriptor.Nests names .array inner ∧
      node.primaryKey = inner.keyPaths := by
  have hnode := h.mem_nodes_iff.mp hmem
  have hfresh : get? (Flattening.rooted store flattened.root counter).nodes key = none := by
    -- the root is an object
    have hne : flattened.root ≠ key := by
      rintro rfl
      rw [(h.formed.top hnode).1] at harray
      cases harray
    simp [Flattening.rooted, get?, hne]
  obtain ⟨names, inner, hnests, htrail, hkey⟩ := hkeyed.entered hfresh hnode
  have htop : Flattening.Trail (Flattening.rooted store flattened.root counter) position.node
      [] := by
    rw [hroot]
    exact .top (Flattening.level?_of_get? (Flattening.get?_rooted store _ counter)) rfl
  have hstands := StandsAt.of_trail h (htrail [] htop)
  rw [List.append_nil, List.reverse_reverse] at hstands
  rw [harray, if_pos rfl] at hkey
  exact ⟨names, inner, hstands, harray ▸ hnests, hkey⟩

/-- Key attributes belong to the innermost list around them, or to the root. -/
theorem keysBubble_of_flatten {flattened : Flattened} {store rootName : String}
    {descriptor : Descriptor} (h : (flatten store rootName descriptor).1 = .ok flattened)
    (hplain : flattened.PlainNames) : flattened.KeysBubble descriptor := by
  obtain ⟨s, level, counter, hwalk, heq⟩ := Flattening.exists_walk_of_flatten h
  have hends := endsIn_of_walk hwalk heq
  have hget := Flattening.get?_rooted store flattened.root counter
  have hkeyed := descriptor.keys_fold store (Flattening.grown_rooted store _ counter)
    (Flattening.stands_rooted store _ counter) (Fields.has_iff.mpr ⟨_, hget⟩) hwalk
  simp only [String.empty_append, List.map_id'] at hkeyed
  -- plain names are a condition on the graph and give the one on the descriptor
  have hlevels : descriptor.Levels List.Nodup := by
    obtain ⟨s', level', hends', hdrawn, -⟩ := exists_drawn h
    exact hdrawn.levels fun hget => hends'.nodup_names hplain.distinct hget
  constructor
  case root =>
    obtain ⟨node, hnode, hkey⟩ := hkeyed.kept hget
    exact ⟨node, hends.mem_nodes_iff.mpr hnode, hkey.trans (if_pos rfl)⟩
  case metadata =>
    rw [heq]
    exact hkeyed.noted.trans (if_pos rfl)
  case stands =>
    intro key node hmem harray
    obtain ⟨names, inner, hstands, hnests, -⟩ := hends.exists_nested rfl hkeyed hmem harray
    exact ⟨names, inner, hstands, hnests⟩
  case lists =>
    intro key node names kind inner hmem harray hstands hnests
    obtain ⟨names', inner', hstands', hnests', hkey⟩ :=
      hends.exists_nested rfl hkeyed hmem harray
    obtain rfl := hstands.names_unique hends hstands'
    rw [(hnests.unique hnests' hlevels).2]
    exact hkey
  case foreign =>
    intro key node hmem
    rw [hends.virtualNodes] at hmem
    have hnode := Fields.get?_of_mem (List.nodup_append.mp hends.formed.distinct).2.1 hmem
    exact (hkeyed.foreign hnode).resolve_left fun hfound => by cases hfound
  case mandatory => exact (notes_of_flatten h).sortMandatory

/-- Branches with a key each below an object, their tills with keys of their own below another one,
and the keys of the firm around them. -/
def firms : Descriptor :=
  .mk [("firm", .tuple [.word "int", .word "<<firm>>"]),
    ("branches", .tuple [.word "array", .nested (.mk
      [("address", .tuple [.word "object", .nested (.mk
        [("city", .tuple [.word "text", .word "<<city>>"]),
         ("tills", .tuple [.word "array", .nested (.mk
           [("till", .tuple [.word "int", .word "<<till>>"])])])])]),
       ("branch", .tuple [.word "int", .word "<<branch>>"])])]),
    ("seat", .tuple [.word "object", .nested (.mk
      [("land", .tuple [.word "text", .word "<<land>>"])])])]

/-- The keys of the firms, level by level. -/
theorem keysBubble_of_flatten_firms : ∃ flattened, (flatten "shop" "main" firms).1 = .ok flattened ∧
    flattened.PlainNames ∧ flattened.KeysBubble firms ∧
    flattened.nodes.map (fun entry => (entry.1, entry.2.primaryKey)) =
      [("main0", ["firm", "seat.land"]), ("branches1", ["address.city", "branch"]),
       ("address2", []), ("tills3", ["till"]), ("seat4", [])] ∧
    flattened.metadata.sortMandatory = ["firm", "land", "city", "branch", "till"] := by
  have hkeys : (flatten "shop" "main" firms).1.toOption.map (fun flattened =>
      (decide flattened.PlainNames,
        flattened.nodes.map fun entry => (entry.1, entry.2.primaryKey),
        flattened.metadata.sortMandatory)) =
      some (true, [("main0", ["firm", "seat.land"]), ("branches1", ["address.city", "branch"]),
        ("address2", []), ("tills3", ["till"]), ("seat4", [])],
        ["firm", "land", "city", "branch", "till"]) := by
    decide +kernel
  obtain ⟨flattened, hflatten, hall⟩ := Option.map_eq_some_iff.mp hkeys
  simp only [Prod.mk.injEq, decide_eq_true_eq] at hall
  have hok := Except.eq_ok_of_toOption hflatten
  exact ⟨flattened, hok, hall.1, keysBubble_of_flatten hok hall.1, hall.2.1, hall.2.2⟩

end Flattened

end NestedRecord
