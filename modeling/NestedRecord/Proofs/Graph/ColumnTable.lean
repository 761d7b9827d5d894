import NestedRecord.Proofs.Descriptor.Columns
import NestedRecord.Proofs.Graph.Columns
import NestedRecord.Proofs.Path.Declared

/-!
# The column table of a flattened descriptor

A walk keeps the column of each annotated attribute under a key that is made of the names on the way
to it. Where names can be told apart in such keys, the table is the list of annotated attributes,
and none of them is lost.

* `Walk.Maps` says which columns a step writes; it is closed under sequences. `maps_visitScalar` is
  the visit of a scalar attribute, the only one that writes a column.
* `Descriptor.maps_fold`: the walk over a descriptor writes the columns of its annotated attributes.
* `Flattened.mapsColumns_of_flatten` is the result.

The table is kept apart from the others (`Tables`) since its keys are not paths: a path of a
declared attribute is known to be unique, while these keys are unique only as far as names can be
told apart in them. In general a later attribute may overwrite the column of an earlier one, so the
walk is followed as a sequence of writes, and that no key is written twice is used at the very end.
-/

namespace NestedRecord

open Fields (get?)

/-- The entries of annotated attributes below a column key. -/
def columnEntries (column : String) (annotated : List Annotated) : List (String × String) :=
  annotated.map fun attr => (columnKey column attr.way attr.name, attr.column)

theorem columnEntries_append (column : String) (front back : List Annotated) :
    columnEntries column (front ++ back) =
      columnEntries column front ++ columnEntries column back := List.map_append

/-- Inside an attribute, keys begin with that of the attribute. -/
theorem columnEntries_inside (column name : String) (nesting : Option NodeKind)
    (annotated : List Annotated) : columnEntries column (annotated.map (.inside name nesting)) =
      columnEntries (nestedKey column name ++ if nesting = some .array then "[]" else "")
        annotated := by
  rw [columnEntries, List.map_map, columnEntries]
  refine List.map_congr_left fun attr _ => ?_
  simp [Annotated.inside, columnKey]

namespace Metadata

theorem columns_removeExternal (metadata : Metadata) (target : String) :
    (metadata.removeExternal target).columns = metadata.columns := by
  unfold removeExternal
  split <;> rfl

theorem columns_declareLocal (metadata : Metadata) (aggregate : LocalAggregate) :
    (metadata.declareLocal aggregate).columns = metadata.columns :=
  columns_removeExternal metadata aggregate.target

theorem columns_promote (metadata : Metadata) (aggregate : ExternalAggregate) :
    (metadata.promote aggregate).columns = metadata.columns :=
  columns_removeExternal (metadata.withoutLocal aggregate.target) aggregate.target

end Metadata

namespace Walk

variable {α β : Type} {store name path : String} {pairs pairs' : List (String × String)}
  {position : Position}

/-! ## Steps -/

/-- A step writes columns, one after the other. -/
def Maps (pairs : List (String × String)) (w : Walk α) : Prop :=
  ∀ s a s', w s = .ok a s' → s'.metadata.columns = Fields.setAll pairs s.metadata.columns

namespace Maps

theorem pure (a : α) : Maps [] (pure a) := by
  intro s b s' h
  obtain ⟨-, rfl⟩ := pure_eq_ok.mp h
  rfl

theorem bind {w : Walk α} {k : α → Walk β} (hw : Maps pairs w) (hk : ∀ a, Maps pairs' (k a)) :
    Maps (pairs ++ pairs') (w >>= k) := by
  intro s b s'' h
  obtain ⟨a, s', hfirst, hrest⟩ := bind_eq_ok.mp h
  rw [hk a s' b s'' hrest, hw s a s' hfirst, Fields.setAll_append]

/-- A step that writes no column, in front of others. -/
theorem before {w : Walk α} {k : α → Walk β} (hw : Maps [] w) (hk : ∀ a, Maps pairs (k a)) :
    Maps pairs (w >>= k) := hw.bind hk

/-- Steps that write no column, behind another one. -/
theorem after {w : Walk α} {k : α → Walk β} (hw : Maps pairs w) (hk : ∀ a, Maps [] (k a)) :
    Maps pairs (w >>= k) := List.append_nil pairs ▸ hw.bind hk

theorem get : Maps [] (MonadState.get : Walk Flattening) := by
  intro s a s' h
  cases h
  rfl

theorem refuse (store path rule : String) : Maps pairs (refuse store path rule : Walk α) := by
  intro s a s' h
  cases h

theorem lasting : Lasting (Maps []) := ⟨pure, bind, get, refuse⟩

theorem require (holds : Bool) (store path rule : String) :
    Maps [] (require holds store path rule) := lasting.require holds store path rule

theorem forSome {value : Option α} {k : α → Walk Unit} (hk : ∀ a, Maps [] (k a)) :
    Maps [] (forSome value k) := lasting.forSome fun a _ => hk a

theorem modify {change : Flattening → Flattening}
    (h : ∀ s, (change s).metadata.columns = Fields.setAll pairs s.metadata.columns) :
    Maps pairs (modify change) := by
  intro s a s' hrun
  obtain rfl := modify_eq_ok.mp hrun
  exact h s

theorem updateNode (store name : String) (change : Node → Node) :
    Maps [] (updateNode store name change) := by
  intro s a s' h
  obtain ⟨-, rfl⟩ := updateNode_eq_ok h
  rfl

end Maps

theorem maps_registerLinks (target : String) (links : List Link) :
    Maps [] (registerLinks store target links) := by
  refine Maps.lasting.registerLinks (fun aggregate _ => ?_)
    (fun aggregate _ => .modify fun s => s.metadata.columns_declareLocal aggregate) links
  exact Maps.lasting.promote (fun _ => .modify fun _ => rfl)
    (.modify fun s => s.metadata.columns_promote aggregate)

theorem maps_attachedStore (links : List Link) :
    ∀ attached, Maps [] (attachedStore store path attached links) :=
  Maps.lasting.attachedStore links

theorem maps_registerHooks (path : String) (hooks : List (HookKind × Hook)) :
    Maps [] (registerHooks path hooks) := by
  refine Maps.lasting.registerHooks (fun kind hook => .modify fun s => ?_) hooks
  cases kind <;> rfl

theorem maps_registerReference (path referenced : String) :
    Maps [] (registerReference store path referenced) :=
  Maps.lasting.registerReference (.modify fun _ => rfl)

/-- A column is written under the key of its attribute, whether or not it is a key column. -/
theorem maps_registerColumn (column : String) (primary : Bool) :
    Maps [(nestedKey position.column name, column)]
      (registerColumn store position name column primary) := by
  refine .after (.modify fun s => rfl) fun _ => ?_
  cases primary with
  | false => exact .pure _
  | true =>
    refine .before (.modify fun s => ?_) fun _ => .updateNode _ _ _
    simp only
    split <;> rfl

/-! ## Attributes -/

/-- A scalar attribute writes its column, if it has one. -/
theorem maps_visitScalar (tuple : Tuple LevelWalk) :
    Maps (tuple.column.map fun column => (nestedKey position.column name, column.1)).toList
      (visitScalar store position name tuple) := by
  rw [visitScalar_eq]
  refine .before (.forSome fun _ => .updateNode _ _ _) fun _ => .after ?_ fun _ => ?_
  · cases tuple.column with
    | none => exact .pure _
    | some column => exact maps_registerColumn column.1 column.2
  · exact .before (.forSome fun _ => .modify fun s => rfl) fun _ =>
      .before (maps_registerLinks _ _) fun _ =>
      .before (.forSome fun _ => maps_registerReference _ _) fun _ =>
      .before (maps_registerHooks _ _) fun _ => .before (.updateNode _ _ _) fun _ => .pure _

/-- The visit of a nested attribute writes the columns that the visit below it does. -/
theorem maps_visitNested {tuple : Tuple LevelWalk}
    (h : ∀ kind attached, tuple.nesting = some kind →
      Maps pairs (visitBelow store position name kind attached tuple.nested)) :
    Maps pairs (visitNested store position name tuple) := by
  cases hkind : tuple.nesting with
  | none =>
    rw [visitNested, hkind]
    exact .refuse _ _ _
  | some kind =>
    rw [visitNested_eq store position name hkind]
    refine .before (.require _ _ _ _) fun _ => .before (maps_attachedStore _ _) fun attached =>
      .before (.require _ _ _ _) fun _ => .before (maps_registerHooks _ _) fun _ =>
      .after (h kind attached hkind) fun below => ?_
    exact .before (.forSome fun _ => .modify fun s => rfl) fun _ =>
      .before (.forSome fun _ => maps_registerReference _ _) fun _ =>
      .before (.updateNode _ _ _) fun _ => .pure _

end Walk

/-! ## A whole descriptor -/

namespace Flattening

theorem columns_enter (s : Flattening) (counter : Nat) (node : Node) :
    (enter { s with counter := counter } node).metadata.columns = s.metadata.columns := by
  unfold enter
  split <;> rfl

theorem columns_noted (around child : String) (kind : NodeKind) (visited : Flattening) :
    (Walk.noted around child kind visited).metadata.columns = visited.metadata.columns := by
  cases kind <;> rfl

end Flattening

/-- A walk over a level writes the columns of these attributes. -/
def LevelWalk.Maps (annotated : List Annotated) (walk : LevelWalk) : Prop :=
  ∀ position : Position, Walk.Maps (columnEntries position.column annotated) (walk position)

namespace Walk

open Descriptor (attributeAnnotated)

variable {store name : String} {position : Position}

/-- The column key of a level below is that of its attribute, with `[]` behind it for a list. -/
theorem column_below (position : Position) (child name : String) (kind : NodeKind) :
    (position.below child name kind).column =
      nestedKey position.column name ++ if some kind = some .array then "[]" else "" := by
  cases kind with
  | array => rfl
  | object => exact (String.append_empty (s := nestedKey position.column name)).symm

/-- The level below a nested attribute writes the columns of what is nested. -/
theorem maps_visitBelow {kind : NodeKind} {attached : Option String} {nested : Option Descriptor}
    (hnested : ∀ inner, nested = some inner →
      LevelWalk.Maps inner.annotated (inner.fold (visitLevel store))) :
    Maps (columnEntries
        (nestedKey position.column name ++ if some kind = some .array then "[]" else "")
        ((nested.map Descriptor.annotated).getD []))
      (visitBelow store position name kind attached
        (nested.map (Descriptor.fold (visitLevel store)))) := by
  intro s below s' hrun
  cases nested with
  | none =>
    obtain ⟨parent, counter, -, -, rfl, -⟩ := visitVirtualLevel_eq_ok hrun
    exact Flattening.columns_enter s counter _
  | some inner =>
    obtain ⟨parent, counter, level, visited, -, -, hlevel, rfl, -⟩ :=
      exists_noted_of_visitDeclaredLevel hrun
    -- entering the level and noting it afterwards write no column
    have hwalk := hnested inner rfl _ _ _ _ hlevel
    rw [column_below, Flattening.columns_enter] at hwalk
    exact (Flattening.columns_noted _ _ _ _).trans hwalk

/-- An attribute writes the columns of the annotated attributes in it. -/
theorem maps_visitAttribute {attr : Attribute Descriptor} (hbelow : ∀ directives,
      attr = .tuple directives → ∀ inner, .nested inner ∈ directives →
        LevelWalk.Maps inner.annotated (inner.fold (visitLevel store))) :
    Maps (columnEntries position.column (attributeAnnotated (name, attr)))
      (visitAttribute store position name (attr.map (Descriptor.fold (visitLevel store)))) := by
  intro s visited s' hrun
  obtain ⟨directives, tuple, rfl, read, hrun | ⟨hplain, hrun⟩⟩ :=
    exists_read_of_visitAttribute hrun
  · obtain ⟨kind, -, -, -, -, -, hkind, -⟩ := exists_fills_of_visitNested hrun
    have hkind : tuple.nesting = some kind := hkind
    have hnested : tuple.isNested = true := by rw [Tuple.isNested, hkind]; rfl
    rw [Descriptor.attributeAnnotated_read read, if_pos hnested, columnEntries_inside]
    refine maps_visitNested (fun other attached hother => ?_) _ _ _ hrun
    rw [show tuple.nesting = some other from hother]
    exact maps_visitBelow fun inner heq =>
      hbelow directives rfl inner (Tuple.mem_of_nested read heq)
  · have hown := maps_visitScalar _ _ _ _ hrun
    rw [Descriptor.attributeAnnotated_read read, hplain, if_neg Bool.false_ne_true, hown]
    cases hcolumn : tuple.column <;> simp [Tuple.map, hcolumn, columnEntries, columnKey]

/-- The attributes of a level write their columns one after the other. -/
theorem maps_visitAttributes {attributes : List (String × Attribute Descriptor)}
    (hnested : ∀ entry ∈ attributes, ∀ directives, entry.2 = .tuple directives →
      ∀ inner, .nested inner ∈ directives →
        LevelWalk.Maps inner.annotated (inner.fold (visitLevel store))) :
    ∀ level, Maps (columnEntries position.column (attributes.flatMap attributeAnnotated))
      (visitAttributes store position level (attributes.map fun entry =>
        (entry.1, entry.2.map (Descriptor.fold (visitLevel store))))) := by
  induction attributes with
  | nil => exact fun level => .pure level
  | cons entry rest ih =>
    intro level
    rw [List.flatMap_cons, columnEntries_append]
    exact .bind (maps_visitAttribute (hnested entry List.mem_cons_self)) fun visited =>
      ih (fun entry hentry => hnested entry (List.mem_cons_of_mem _ hentry)) _

end Walk

/-- The walk over a descriptor writes the columns of its annotated attributes. -/
theorem Descriptor.maps_fold (store : String) (descriptor : Descriptor) :
    LevelWalk.Maps descriptor.annotated (descriptor.fold (Walk.visitLevel store)) := by
  refine levels_induction (p := fun descriptor => LevelWalk.Maps descriptor.annotated
    (descriptor.fold (Walk.visitLevel store))) (fun attributes hnested => ?_) descriptor
  intro position
  rw [fold_mk, annotated_mk]
  exact Walk.maps_visitAttributes hnested {}

namespace Flattened

variable {store rootName : String} {descriptor : Descriptor} {flattened : Flattened}

/-- The column table holds the columns of the annotated attributes, written in their order. -/
theorem columns_of_flatten (h : (flatten store rootName descriptor).1 = .ok flattened) :
    flattened.metadata.columns =
      Fields.setAll (descriptor.annotated.map fun attr => (attr.key, attr.column)) [] := by
  obtain ⟨s, level, counter, hwalk, heq⟩ := Flattening.exists_walk_of_flatten h
  rw [heq]
  exact descriptor.maps_fold store _ _ _ _ hwalk

/-- Each annotated attribute keeps its column under a key of its own. -/
structure MapsColumns (flattened : Flattened) (descriptor : Descriptor) : Prop where
  /-- the annotated attributes are the scalar declarations with a column, in their order -/
  declared : descriptor.annotated.map Annotated.found =
    descriptor.declarations.filterMap (·.annotated?)
  /-- the table has an entry for each of them, in the same order -/
  columns : flattened.metadata.columns =
    descriptor.annotated.map fun attr => (attr.key, attr.column)
  distinct : (descriptor.annotated.map (·.key)).Nodup
  /-- a key leads to one attribute: the names and the lists on the way can be read off it -/
  determines : ∀ attr ∈ descriptor.annotated, ∀ way name, UnbracketedWay way name →
    columnKey "" way name = attr.key → way = attr.way ∧ name = attr.name
  /-- and has the column of this attribute -/
  own : ∀ attr ∈ descriptor.annotated,
    get? flattened.metadata.columns attr.key = some attr.column

/-- Where names are not empty, hold no brackets and differ at each level, no two annotated
attributes share a key. -/
theorem nodup_keys (hnodup : descriptor.Levels List.Nodup)
    (hnames : descriptor.Levels fun names => ∀ name ∈ names, Unbracketed name) :
    (descriptor.annotated.map (·.key)).Nodup := by
  refine List.pairwise_map.mpr (hnodup.nodup_annotated.imp_of_mem ?_)
  refine fun hattr hother hne hkey => hne ?_
  obtain ⟨hway, hname⟩ := columnKey_injective (Descriptor.unbracketedWay_of_annotated hnames hattr)
    (Descriptor.unbracketedWay_of_annotated hnames hother) hkey
  rw [Annotated.names, hway, hname, Annotated.names]

/-- The column table loses no annotated attribute where names are not empty, hold no brackets and
differ at each level. -/
theorem mapsColumns_of_flatten (h : (flatten store rootName descriptor).1 = .ok flattened)
    (hlevels : descriptor.Levels fun names => names.Nodup ∧ ∀ name ∈ names, Unbracketed name) :
    flattened.MapsColumns descriptor := by
  have hnames : descriptor.Levels fun names => ∀ name ∈ names, Unbracketed name :=
    hlevels.imp fun _ => And.right
  have hdistinct := nodup_keys (hlevels.imp fun _ => And.left) hnames
  -- no key is written twice, so the table is the list of what is written
  have hcolumns : flattened.metadata.columns =
      descriptor.annotated.map fun attr => (attr.key, attr.column) := by
    rw [columns_of_flatten h, Fields.setAll_of_nodup _ _ fun _ _ => rfl, List.nil_append]
    rwa [List.map_map]
  constructor
  case declared => exact descriptor.annotated_eq
  case columns => exact hcolumns
  case distinct => exact hdistinct
  case determines =>
    intro attr hattr way name hway hkey
    exact columnKey_injective hway (Descriptor.unbracketedWay_of_annotated hnames hattr) hkey
  case own =>
    intro attr hattr
    rw [hcolumns]
    refine Fields.get?_of_mem ?_ (List.mem_map_of_mem hattr)
    rwa [Fields.keys, List.map_map]

/-- One column of the menus is that of two attributes, and both keep it. -/
theorem mapsColumns_of_flatten_menus : ∃ flattened,
    (flatten "menus" "main" menus).1 = .ok flattened ∧ flattened.MapsColumns menus ∧
      flattened.metadata.columns = [("id", "idMenu"), ("dishes[][id]", "idDish"),
        ("dishes[][price]", "price"), ("dishes[][shown][gross]", "price")] := by
  have haccepted : (flatten "menus" "main" menus).1.toOption.map (fun flattened =>
      (decide (∀ entry ∈ flattened.nodes, (entry.2.attributes.map (·.name)).Nodup ∧
        ∀ name ∈ entry.2.attributes.map (·.name), Unbracketed name), flattened.metadata.columns)) =
      some (true, [("id", "idMenu"), ("dishes[][id]", "idDish"), ("dishes[][price]", "price"),
        ("dishes[][shown][gross]", "price")]) := by
    decide +kernel
  obtain ⟨flattened, hflatten, hboth⟩ := Option.map_eq_some_iff.mp haccepted
  simp only [Prod.mk.injEq, decide_eq_true_eq] at hboth
  have hok := Except.eq_ok_of_toOption hflatten
  exact ⟨flattened, hok, mapsColumns_of_flatten hok (levels_of_flatten hok hboth.1), hboth.2⟩

end Flattened

end NestedRecord
