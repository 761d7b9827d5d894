import NestedRecord.Proofs.Descriptor.Declarations
import NestedRecord.Proofs.Graph.Flattened
import NestedRecord.Proofs.Sorting

/-!
# What a walk notes of each attribute

Beside the graph, a walk fills tables: columns, computed fields, hooks and references. Attribute by
attribute it writes there what the attribute declares, so a table is read off the declarations of
the descriptor: it is filled with them in order of declaration. References of nested attributes
alone come behind what is nested.

- `Tables.enter` is what is noted of one attribute, `KeyTable.add` how a key is noted at a level.
- `Walk.Fills` says what a step notes; it is closed under sequences. `fills_visitScalar` is the
  visit of a scalar attribute, `exists_fills_of_visitNested` that of a nested one.
- `Descriptor.fills_fold`: the walk over a descriptor notes its declarations.
- `Flattened.Notes` reads each table off the declarations, `Flattened.notes_of_flatten` for every
  flattened descriptor.

The tables are described twice. `Tables.enter` follows the walk, one attribute at a time and all
tables at once, which is what the induction over the descriptor needs. `Tables.fill` goes table by
table over the list of all declarations, which is what a reader of one table wants to know.
`enterAll_eq_fill` says that these are the same.
-/

namespace NestedRecord

open Fields (get? keys)

/-! ## Writing one value after the other -/

namespace Fields

variable {α : Type} {pairs front back : List (String × α)} {fields : Fields α} {key : String}

/-- Writes values one after the other. -/
def setAll (pairs : List (String × α)) (fields : Fields α) : Fields α :=
  pairs.foldl (fun fields pair => set fields pair.1 pair.2) fields

/-- The value that is written last under a key. -/
def lastValue? (key : String) (pairs : List (String × α)) : Option α :=
  ((pairs.filter (·.1 = key)).getLast?).map (·.2)

theorem setAll_append (front back : List (String × α)) (fields : Fields α) :
    setAll (front ++ back) fields = setAll back (setAll front fields) := List.foldl_append

/-- Values written under new keys, each of them once, stand behind the others in their order. -/
theorem setAll_of_nodup (pairs : List (String × α)) : ∀ {fields : Fields α},
    (pairs.map (·.1)).Nodup → (∀ pair ∈ pairs, has fields pair.1 = false) →
      setAll pairs fields = fields ++ pairs := by
  induction pairs with
  | nil => exact fun _ _ => (List.append_nil _).symm
  | cons pair rest ih =>
    intro fields hnodup hnew
    obtain ⟨hfirst, hrest⟩ := List.nodup_cons.mp hnodup
    have hset : set fields pair.1 pair.2 = fields ++ [pair] :=
      set_of_not_has fields pair.1 pair.2 (hnew pair List.mem_cons_self)
    show setAll rest (set fields pair.1 pair.2) = _
    rw [hset, ih hrest, List.append_assoc]
    · rfl
    · intro other hother
      have hne : pair.1 ≠ other.1 := fun heq => hfirst (List.mem_map.mpr ⟨other, hother, heq.symm⟩)
      have hnone : get? fields other.1 = none := by
        simpa [has] using hnew other (List.mem_cons_of_mem _ hother)
      rw [has, get?_append, hnone, Option.none_or, get?, if_neg hne, get?]
      rfl

/-- A value counts as long as none is written under its key later. -/
theorem lastValue?_cons (pair : String × α) (rest : List (String × α)) (key : String) :
    lastValue? key (pair :: rest) =
      (lastValue? key rest).or (if pair.1 = key then some pair.2 else none) := by
  rw [lastValue?, lastValue?, List.filter_cons]
  by_cases h : pair.1 = key
  · rw [if_pos (decide_eq_true h), if_pos h, List.getLast?_cons]
    cases (rest.filter (·.1 = key)).getLast? <;> rfl
  · rw [if_neg (by simpa using h), if_neg h, Option.or_none]

/-- Of the values of a key one is written last. -/
theorem exists_lastValue?_of_mem {pair : String × α} (h : pair ∈ pairs) :
    ∃ last, lastValue? pair.1 pairs = some last ∧ (pair.1, last) ∈ pairs := by
  have hne : pairs.filter (·.1 = pair.1) ≠ [] :=
    List.ne_nil_of_mem (List.mem_filter.mpr ⟨h, decide_eq_true rfl⟩)
  obtain ⟨last, hlast⟩ := List.getLast?_isSome.mpr hne |> Option.isSome_iff_exists.mp
  obtain ⟨hmem, hkey⟩ := List.mem_filter.mp (List.mem_of_getLast? hlast)
  refine ⟨last.2, congrArg (Option.map _) hlast, ?_⟩
  rwa [← of_decide_eq_true hkey]

/-- Of values written under one key the last one is left. -/
theorem get?_setAll (pairs : List (String × α)) :
    ∀ fields : Fields α, get? (setAll pairs fields) key =
      (lastValue? key pairs).or (get? fields key) := by
  induction pairs with
  | nil => exact fun fields => rfl
  | cons pair rest ih =>
    intro fields
    show get? (setAll rest (set fields pair.1 pair.2)) key = _
    rw [ih, lastValue?_cons, Option.or_assoc]
    by_cases h : pair.1 = key
    · rw [if_pos h, ← h, get?_set_self, Option.some_or]
    · rw [if_neg h, Option.none_or, get?_set_of_ne _ _ (Ne.symm h)]

end Fields

/-! ## Tables -/

/-- The tables that a walk fills in order of declaration. -/
structure Tables where
  sortGroup : Fields Nat := []
  mandatory : List (Nat × String) := []
  computeds : List Computed := []
  onValidate : Fields Hook := []
  onTransform : Fields Hook := []

namespace Tables

variable {ν : Type}

def addColumn (depth : Nat) (column : String × Bool) (tables : Tables) : Tables :=
  { tables with
    sortGroup := Fields.set tables.sortGroup column.1 depth
    mandatory := tables.mandatory ++ if column.2 then [(depth, column.1)] else [] }

def addComputed (path : String) (handler : Handler) (tables : Tables) : Tables :=
  { tables with computeds := tables.computeds ++ [⟨path, handler⟩] }

def addHook (path : String) (tables : Tables) (entry : HookKind × Hook) : Tables :=
  match entry.1 with
  | .validate => { tables with onValidate := Fields.set tables.onValidate path entry.2 }
  | .transform => { tables with onTransform := Fields.set tables.onTransform path entry.2 }

/-- What is noted of an attribute with a path and so many lists around. -/
def enter (path : String) (depth : Nat) (tuple : Tuple ν) (tables : Tables) : Tables :=
  tuple.hooks.foldl (addHook path)
    (tuple.computed.elim id (addComputed path) (tuple.column.elim id (addColumn depth) tables))

end Tables

/-- The keys of the levels. -/
structure KeyTable where
  /-- the level in front -/
  first : Option String
  /-- the key in the metadata -/
  noted : List String
  /-- the key of each level -/
  levels : String → Option (List String)

namespace KeyTable

/-- Notes a key attribute of the level in front in the metadata. -/
def note (owner path : String) (table : KeyTable) : KeyTable :=
  { table with noted := table.noted ++ if table.first = some owner then [path] else [] }

/-- Notes a key attribute at its level. -/
def noteAt (owner path : String) (table : KeyTable) : KeyTable :=
  { table with
    levels := fun name => (table.levels name).map (· ++ if name = owner then [path] else []) }

/-- One more key attribute of a level. -/
def add (owner path : String) (table : KeyTable) : KeyTable :=
  (table.note owner path).noteAt owner path

end KeyTable

namespace Flattening

def tables (s : Flattening) : Tables where
  sortGroup := s.metadata.sortGroup
  mandatory := s.mandatory
  computeds := s.metadata.computeds
  onValidate := s.onValidate
  onTransform := s.onTransform

def keyTable (s : Flattening) : KeyTable where
  first := (keys s.nodes).head?
  noted := s.metadata.primaryKey
  levels name := (get? s.nodes name).map (·.primaryKey)

/-- A change of a level that keeps its key. -/
theorem keyTable_update (s : Flattening) (change : Node → Node)
    (hkey : ∀ node, (change node).primaryKey = node.primaryKey) (name : String) :
    { s with nodes := Fields.update change s.nodes name }.keyTable = s.keyTable := by
  simp only [keyTable, Fields.keys_update, KeyTable.mk.injEq, true_and]
  funext other
  rw [Fields.get?_update]
  split
  · rw [Option.map_map]
    exact congrArg (Option.map · _) (funext hkey)
  · rfl

variable {f f' : Tables → Tables} {references references' : List (String × String)}
  {s s' s'' : Flattening}

/-- From one state to the next the tables are filled, and references are written in some order. -/
structure Fills (f : Tables → Tables) (references : List (String × String))
    (s s' : Flattening) : Prop where
  tables : s'.tables = f s.tables
  references : ∃ order : List (String × String), order.Perm references ∧
    s'.metadata.references = Fields.setAll order s.metadata.references

theorem Fills.of_eq (tables : s'.tables = s.tables)
    (references : s'.metadata.references = s.metadata.references) : Fills id [] s s' :=
  ⟨tables, [], .refl [], references⟩

theorem Fills.trans (h : Fills f references s s') (h' : Fills f' references' s' s'') :
    Fills (f' ∘ f) (references ++ references') s s'' where
  tables := by rw [h'.tables, h.tables, Function.comp]
  references := by
    obtain ⟨order, hperm, horder⟩ := h.references
    obtain ⟨order', hperm', horder'⟩ := h'.references
    refine ⟨order ++ order', hperm.append hperm', ?_⟩
    rw [horder', horder, Fields.setAll_append]

theorem Fills.perm (h : Fills f references s s') (hperm : references.Perm references') :
    Fills f references' s s' where
  tables := h.tables
  references := by
    obtain ⟨order, horder, heq⟩ := h.references
    exact ⟨order, horder.trans hperm, heq⟩

end Flattening

/-! ## Steps -/

namespace Walk

variable {α β : Type} {f f' : Tables → Tables} {g g' : KeyTable → KeyTable}
  {references references' : List (String × String)} {store name path : String}
  {position : Position}

/-- A step that fills the tables, and the keys of the levels. -/
def Fills (f : Tables → Tables) (g : KeyTable → KeyTable) (references : List (String × String))
    (w : Walk α) : Prop :=
  ∀ s a s', w s = .ok a s' → s.Fills f references s' ∧ s'.keyTable = g s.keyTable

/-- A step that notes nothing. -/
abbrev Silent (w : Walk α) : Prop := Fills id id [] w

namespace Fills

theorem of_eq {w : Walk α} (h : Fills f g references w) (hf : f = f') (hg : g = g')
    (hreferences : references = references') : Fills f' g' references' w := by
  rwa [← hf, ← hg, ← hreferences]

theorem pure (a : α) : Silent (pure a) := by
  intro s b s' h
  obtain ⟨-, rfl⟩ := pure_eq_ok.mp h
  exact ⟨.of_eq rfl rfl, rfl⟩

/-- What a sequence notes is what its steps note, in their order. -/
theorem bind {w : Walk α} {k : α → Walk β} (hw : Fills f g references w)
    (hk : ∀ a, Fills f' g' references' (k a)) :
    Fills (f' ∘ f) (g' ∘ g) (references ++ references') (w >>= k) := by
  intro s b s'' h
  obtain ⟨a, s', hfirst, hrest⟩ := bind_eq_ok.mp h
  obtain ⟨hfills, hkeys⟩ := hw s a s' hfirst
  obtain ⟨hfills', hkeys'⟩ := hk a s' b s'' hrest
  exact ⟨hfills.trans hfills', by rw [hkeys', hkeys, Function.comp]⟩

/-- A step that notes nothing, in front of others. -/
theorem before {w : Walk α} {k : α → Walk β} (hw : Silent w)
    (hk : ∀ a, Fills f g references (k a)) : Fills f g references (w >>= k) := hw.bind hk

theorem get : Silent (MonadState.get : Walk Flattening) := by
  intro s a s' h
  cases h
  exact ⟨.of_eq rfl rfl, rfl⟩

theorem refuse (store path rule : String) :
    Fills f g references (refuse store path rule : Walk α) := by
  intro s a s' h
  cases h

theorem lasting : Lasting Silent := ⟨pure, bind, get, refuse⟩

theorem require (holds : Bool) (store path rule : String) :
    Silent (require holds store path rule) := lasting.require holds store path rule

theorem forSome (value : Option α) {k : α → Walk Unit} {f : α → Tables → Tables}
    {g : α → KeyTable → KeyTable} {references : α → List (String × String)}
    (hk : ∀ a, Fills (f a) (g a) (references a) (k a)) :
    Fills (value.elim id f) (value.elim id g) (value.elim [] references) (forSome value k) := by
  cases value with
  | none => exact pure ()
  | some a => exact hk a

theorem silent_forSome {value : Option α} {k : α → Walk Unit} (hk : ∀ a, Silent (k a)) :
    Silent (Walk.forSome value k) := lasting.forSome fun a _ => hk a

/-- A step that leaves the graph and the references alone. -/
theorem modify {change : Flattening → Flattening}
    (htables : ∀ s, (change s).tables = f s.tables)
    (hreferences : ∀ s, (change s).metadata.references = s.metadata.references)
    (hkeys : ∀ s, (change s).keyTable = s.keyTable) : Fills f id [] (modify change) := by
  intro s a s' h
  obtain rfl := modify_eq_ok.mp h
  exact ⟨⟨htables s, [], .refl [], hreferences s⟩, hkeys s⟩

/-- A change of a level that keeps its key. -/
theorem updateNode (name : String) {change : Node → Node}
    (hkey : ∀ node, (change node).primaryKey = node.primaryKey) :
    Silent (updateNode store name change) := by
  intro s a s' h
  obtain ⟨-, rfl⟩ := updateNode_eq_ok h
  exact ⟨.of_eq rfl rfl, s.keyTable_update change hkey name⟩

end Fills

/-! ## Aggregates and attachments -/

end Walk

namespace Metadata

/-- What is noted of attributes apart from their aggregates and attachments. -/
def noted (metadata : Metadata) : Fields Nat × List Computed × List String × Fields String :=
  (metadata.sortGroup, metadata.computeds, metadata.primaryKey, metadata.references)

theorem noted_removeExternal (metadata : Metadata) (target : String) :
    (metadata.removeExternal target).noted = metadata.noted := by
  unfold removeExternal
  split <;> rfl

theorem noted_declareLocal (metadata : Metadata) (aggregate : LocalAggregate) :
    (metadata.declareLocal aggregate).noted = metadata.noted :=
  noted_removeExternal metadata aggregate.target

theorem noted_promote (metadata : Metadata) (aggregate : ExternalAggregate) :
    (metadata.promote aggregate).noted = metadata.noted :=
  noted_removeExternal (metadata.withoutLocal aggregate.target) aggregate.target

end Metadata

namespace Walk

variable {α : Type} {store name path : String} {position : Position}

theorem silent_updateMetadata {change : Metadata → Metadata}
    (h : ∀ metadata, (change metadata).noted = metadata.noted) :
    Silent (updateMetadata change) := by
  refine .modify (fun s => ?_) (fun s => congrArg (·.2.2.2) (h s.metadata)) fun s => ?_
  · have hgroup := congrArg (·.1) (h s.metadata)
    have hcomputeds := congrArg (·.2.1) (h s.metadata)
    simp only [Metadata.noted] at hgroup hcomputeds
    simp only [Flattening.tables, hgroup, hcomputeds, id]
  · have hkey := congrArg (·.2.2.1) (h s.metadata)
    simp only [Metadata.noted] at hkey
    simp only [Flattening.keyTable, hkey]

/-- Links are kept in other tables. -/
theorem silent_registerLinks (target : String) (links : List Link) :
    Silent (registerLinks store target links) := by
  refine Fills.lasting.registerLinks (fun aggregate _ => ?_)
    (fun aggregate _ => silent_updateMetadata fun metadata => metadata.noted_declareLocal aggregate)
    links
  exact Fills.lasting.promote (fun _ => .modify (fun _ => rfl) (fun _ => rfl) fun _ => rfl)
    (silent_updateMetadata fun metadata => metadata.noted_promote aggregate)

theorem silent_attachedStore (links : List Link) :
    ∀ attached, Silent (attachedStore store path attached links) :=
  Fills.lasting.attachedStore links

theorem silent_declare (decl : AttributeDecl) (result : α) :
    Silent (do declare store name decl; return result) :=
  .before (.updateNode _ fun _ => rfl) fun _ => .pure result

/-! ## What is noted of one attribute -/

/-- The hooks of an attribute are noted under its path. -/
theorem fills_registerHooks (path : String) (hooks : List (HookKind × Hook)) :
    Fills (hooks.foldl (Tables.addHook path) ·) id [] (registerHooks path hooks) := by
  unfold registerHooks
  induction hooks with
  | nil => exact .pure _
  | cons first rest ih =>
    obtain ⟨kind, hook⟩ := first
    -- which table the hook is written to depends on its kind, but each of them is a plain change
    refine .of_eq (.bind (f := (Tables.addHook path · (kind, hook))) (.modify ?_ ?_ ?_)
      fun _ => ih) rfl rfl rfl
    all_goals intro s; cases kind <;> rfl

/-- A reference goes to a store that is not referenced yet. -/
theorem fills_registerReference (path referenced : String) :
    Fills id id [(path, referenced)] (registerReference store path referenced) := by
  unfold registerReference
  refine .before (.require _ _ _ _) fun _ => .before .get fun s => ?_
  simp only
  split
  · exact .refuse _ _ _
  · intro s a s' h
    obtain rfl := modify_eq_ok.mp h
    exact ⟨⟨rfl, [(path, referenced)], .refl _, rfl⟩, rfl⟩

theorem head?_any_eq (nodes : Nodes) (owner : String) :
    (nodes.head?.any fun entry => entry.1 == owner) = decide ((keys nodes).head? = some owner) := by
  cases nodes with
  | nil => rfl
  | cons entry rest => simp [keys, Bool.beq_eq_decide_eq]

/-- A key attribute is noted in the metadata if its level is the one in front. -/
theorem fills_noteKey (depth : Nat) (owner path column : String) :
    Fills (fun tables => { tables with mandatory := tables.mandatory ++ [(depth, column)] })
      (KeyTable.note owner path) []
      (modify fun state =>
        let ofRoot := state.nodes.head?.any fun entry => entry.1 == owner
        let metadata :=
          if ofRoot then
            { state.metadata with primaryKey := state.metadata.primaryKey ++ [path] }
          else state.metadata
        { state with metadata, mandatory := state.mandatory ++ [(depth, column)] }) := by
  intro s a s' h
  obtain rfl := modify_eq_ok.mp h
  simp only [head?_any_eq, Flattening.keyTable, KeyTable.note]
  by_cases hfirst : (keys s.nodes).head? = some owner
  · simp only [hfirst, decide_true, if_true]
    exact ⟨⟨rfl, [], .refl [], rfl⟩, trivial⟩
  · simp only [hfirst, decide_false, Bool.false_eq_true, if_false, List.append_nil]
    exact ⟨⟨rfl, [], .refl [], rfl⟩, trivial⟩

/-- A key attribute is noted at the level that owns it. -/
theorem fills_noteKeyAt (owner path : String) :
    Fills id (KeyTable.noteAt owner path) []
      (updateNode store owner fun node =>
        { node with primaryKey := node.primaryKey ++ [path] }) := by
  intro s a s' h
  obtain ⟨-, rfl⟩ := updateNode_eq_ok h
  refine ⟨.of_eq rfl rfl, ?_⟩
  simp only [Flattening.keyTable, KeyTable.noteAt, Fields.keys_update, KeyTable.mk.injEq, true_and]
  funext other
  rw [Fields.get?_update]
  by_cases hother : other = owner
  · simp only [hother, if_true, Option.map_map]
    rfl
  · cases get? s.nodes other <;> simp [hother]

/-- A key column notes its attribute at the level that owns the key. -/
theorem fills_registerColumn (store : String) (position : Position) (name : String)
    (column : String × Bool) :
    Fills (Tables.addColumn position.depth column)
      (if column.2 then KeyTable.add position.keyOwner (position.keyFront ++ name) else id) []
      (registerColumn store position name column.1 column.2) := by
  obtain ⟨column, primary⟩ := column
  have hgroup : Fills (fun tables =>
        { tables with sortGroup := Fields.set tables.sortGroup column position.depth }) id []
      (updateMetadata fun metadata =>
        { metadata with
          columns := Fields.set metadata.columns (position.columnKey name) column
          sortGroup := Fields.set metadata.sortGroup column position.depth }) :=
    .modify (fun s => rfl) (fun s => rfl) fun s => rfl
  cases primary with
  | false =>
    refine .of_eq (hgroup.bind fun _ => .pure _) (funext fun tables => ?_) rfl rfl
    simp [Tables.addColumn]
  | true =>
    exact .of_eq (hgroup.bind fun _ => (fills_noteKey position.depth position.keyOwner
      (position.keyFront ++ name) column).bind fun _ => fills_noteKeyAt _ _) rfl rfl rfl

/-- What a key attribute notes at the level that owns its key. -/
def addKey {ν : Type} (position : Position) (name : String) (tuple : Tuple ν) :
    KeyTable → KeyTable :=
  if tuple.isKey then KeyTable.add position.keyOwner (position.keyFront ++ name) else id

theorem fills_forSome_reference (path : String) (reference : Option String) :
    Fills id id (reference.map (path, ·)).toList
      (forSome reference fun referenced => registerReference store path referenced) := by
  cases reference with
  | none => exact .pure _
  | some referenced => exact fills_registerReference path referenced

/-- A computed field is noted behind those before. -/
theorem fills_addComputed (path : String) (handler : Handler) :
    Fills (Tables.addComputed path handler) id []
      (updateMetadata fun metadata =>
        { metadata with computeds := metadata.computeds ++ [⟨path, handler⟩] }) :=
  .modify (fun _ => rfl) (fun _ => rfl) fun _ => rfl

/-- The visit of a scalar attribute notes all that it declares. -/
theorem fills_visitScalar (position : Position) (name : String) (tuple : Tuple LevelWalk) :
    Fills (Tables.enter (position.attributePath name) position.depth tuple)
      (addKey position name tuple) (tuple.reference.map (position.attributePath name, ·)).toList
      (visitScalar store position name tuple) := by
  rw [visitScalar_eq]
  have hconversion : Silent (forSome (scalarDecl name tuple).conversion? fun conversion =>
      updateNode store position.node fun node =>
        { node with conversions := Fields.set node.conversions name conversion }) :=
    .silent_forSome fun conversion => .updateNode _ fun node => rfl
  have hcolumn := Fills.forSome tuple.column fun column =>
    fills_registerColumn store position name column
  have hcomputed := Fills.forSome tuple.computed fun handler =>
    fills_addComputed (position.attributePath name) handler
  refine .of_eq (.before hconversion fun _ => .bind hcolumn fun _ => .bind hcomputed fun _ =>
    .before (silent_registerLinks _ _) fun _ => .bind (fills_forSome_reference _ _) fun _ =>
    .bind (fills_registerHooks _ _) fun _ => silent_declare _ _) rfl ?_ ?_
  · unfold addKey Tuple.isKey
    rcases tuple.column with _ | ⟨column, primary⟩ <;> cases tuple.computed <;> rfl
  · rcases tuple.column with _ | ⟨column, primary⟩ <;> cases tuple.computed <;> simp

/-- What follows the visit of the level below a nested attribute. -/
theorem fills_closing (position : Position) (name : String) (kind : NodeKind)
    (attached reference : Option String) (decl : AttributeDecl) (result : α) :
    Fills id id (reference.map (position.attributePath name, ·)).toList (do
      forSome attached fun source => updateMetadata (·.addJoin
        ⟨source, position.attributePath name, if kind = .array then .many else .one⟩)
      forSome reference fun referenced =>
        registerReference store (position.attributePath name) referenced
      declare store position.node decl
      return result) := by
  refine .before (.silent_forSome fun source => silent_updateMetadata fun metadata => rfl)
    fun _ => ?_
  exact .of_eq ((fills_forSome_reference _ _).bind fun _ => silent_declare _ _) rfl rfl
    (List.append_nil _)

/-- The visit of a nested attribute: around that of the level below, its hooks and its reference are
noted, and no key. -/
theorem exists_fills_of_visitNested {tuple : Tuple LevelWalk} {visited : Visited}
    {s s' : Flattening} (hrun : visitNested store position name tuple s = .ok visited s') :
    ∃ kind attached below decl s₁ s₂, tuple.nesting = some kind ∧ tuple.isKey = false ∧
      s.Fills (Tables.enter (position.attributePath name) position.depth tuple) [] s₁ ∧
      s₁.keyTable = s.keyTable ∧ (∀ other, Revises other [] s s₁) ∧
      visitBelow store position name kind attached tuple.nested s₁ = .ok below s₂ ∧
      s₂.Fills id (tuple.reference.map (position.attributePath name, ·)).toList s' ∧
      s'.keyTable = s₂.keyTable ∧ Redraws position.node [decl] s₂ s' := by
  obtain ⟨hnesting, hcolumn, hcomputed, hattached, hhooks, hbelow, hjoin, hreference, hdeclare⟩ :=
    nestedVisit_of_eq_ok hrun
  obtain ⟨hsilent, hkeys⟩ := silent_attachedStore _ _ _ _ _ hattached
  obtain ⟨hfills, hkeys'⟩ := fills_registerHooks _ _ _ _ _ hhooks
  obtain ⟨hnoted, hsame⟩ := fills_closing position name _ _ _ _ _ _ _ _
    (bind_eq_ok.mpr ⟨(), _, hjoin, bind_eq_ok.mpr ⟨(), _, hreference, hdeclare⟩⟩)
  obtain ⟨hnodes, hvirtualNodes⟩ := nodes_of_join hjoin
  have hreferred :=
    Steady.forSome (fun _ => steady_registerReference _ _ _) position.node _ _ _ hreference
  have hdeclared := (adds_declare _ _ _ _ _ _ _ hdeclare).1
  -- neither a column nor a computed field is left to be noted, only the hooks are
  refine ⟨_, _, _, nestedDecl name tuple _, _, _, hnesting, ?_, ?_, ?_, fun other => ?_, hbelow,
    hnoted, hsame, ((Redraws.of_nodes hnodes hvirtualNodes).trans hreferred.1.toRedraws).trans
      hdeclared.toRedraws⟩
  · rw [Tuple.isKey, hcolumn]
    rfl
  · rw [show Tables.enter (position.attributePath name) position.depth tuple =
      (tuple.hooks.foldl (Tables.addHook (position.attributePath name)) ·) by
        unfold Tables.enter
        rw [hcolumn, hcomputed]
        rfl]
    exact hsilent.trans hfills
  · rw [hkeys', hkeys]
    rfl
  · exact (steady_attachedStore _ _ _ _ other _ _ _ hattached).1.trans
      (steady_registerHooks _ _ other _ _ _ hhooks).1

end Walk

/-! ## What is noted of a whole descriptor -/

namespace Tables

/-- What is noted of declarations below a place with so many lists around. -/
def enterAll (place : String) (depth : Nat) (declarations : List Declaration) (tables : Tables) :
    Tables :=
  declarations.foldl (fun tables declaration =>
    tables.enter (declaration.pathFrom place) (depth + declaration.depth) declaration.tuple) tables

theorem enterAll_cons (place : String) (depth : Nat) (declaration : Declaration)
    (rest : List Declaration) :
    enterAll place depth (declaration :: rest) = enterAll place depth rest ∘
      enter (declaration.pathFrom place) (depth + declaration.depth) declaration.tuple := rfl

theorem enterAll_append (place : String) (depth : Nat) (front back : List Declaration) :
    enterAll place depth (front ++ back) = enterAll place depth back ∘ enterAll place depth front :=
  funext fun _ => List.foldl_append

/-- What is declared inside an attribute is noted below its path, one deeper in a list. -/
theorem enterAll_inside (place : String) (depth : Nat) (name : String)
    (nesting : Option NodeKind) (declarations : List Declaration) :
    enterAll place depth (declarations.map (.inside name nesting)) =
      enterAll (joinPath place name) (depth + if nesting = some .array then 1 else 0)
        declarations := by
  funext tables
  rw [enterAll, List.foldl_map]
  refine List.foldl_ext _ _ _ fun tables declaration _ => ?_
  rw [Nat.add_right_comm, Nat.add_assoc]
  rfl

end Tables

/-- The references of declarations below a place. -/
def Declaration.references (place : String) (declarations : List Declaration) :
    List (String × String) :=
  declarations.filterMap fun declaration =>
    declaration.tuple.reference.map (declaration.pathFrom place, ·)

theorem Declaration.references_cons (place : String) (declaration : Declaration)
    (rest : List Declaration) :
    references place (declaration :: rest) =
      (declaration.tuple.reference.map (declaration.pathFrom place, ·)).toList ++
        references place rest := by
  rw [references, List.filterMap_cons]
  cases declaration.tuple.reference <;> rfl

theorem Declaration.references_append (place : String) (front back : List Declaration) :
    references place (front ++ back) = references place front ++ references place back :=
  List.filterMap_append

theorem Declaration.references_inside (place name : String) (nesting : Option NodeKind)
    (declarations : List Declaration) :
    references place (declarations.map (.inside name nesting)) =
      references (joinPath place name) declarations := List.filterMap_map

namespace Flattening

/-- Entering a level notes nothing. -/
theorem fills_enter (s : Flattening) (counter : Nat) (node : Node) :
    Fills id [] s (enter { s with counter := counter } node) := by
  unfold enter
  split <;> exact .of_eq rfl rfl

theorem fills_noted (around child : String) (kind : NodeKind) (visited : Flattening) :
    Fills id [] visited (Walk.noted around child kind visited) := by
  cases kind <;> exact .of_eq rfl rfl

end Flattening

/-- A walk over a level notes these declarations. -/
def LevelWalk.Fills (declarations : List Declaration) (walk : LevelWalk) : Prop :=
  ∀ position s level s', walk position s = .ok level s' →
    s.Fills (Tables.enterAll position.path position.depth declarations)
      (Declaration.references position.path declarations) s'

namespace Walk

open Descriptor (attributeDeclarations)

variable {store name : String} {position : Position} {s s' : Flattening}

/-- The level below a nested attribute notes what is nested. -/
theorem fills_visitBelow {kind : NodeKind} {attached : Option String}
    {nested : Option Descriptor} (hnested : ∀ inner, nested = some inner →
      LevelWalk.Fills inner.declarations (inner.fold (visitLevel store))) {below : Below}
    (hrun : visitBelow store position name kind attached
      (nested.map (Descriptor.fold (visitLevel store))) s = .ok below s') :
    s.Fills (Tables.enterAll (position.attributePath name)
        (position.depth + if some kind = some .array then 1 else 0)
        ((nested.map Descriptor.declarations).getD []))
      (Declaration.references (position.attributePath name)
        ((nested.map Descriptor.declarations).getD [])) s' := by
  cases nested with
  | none =>
    obtain ⟨parent, counter, -, -, rfl, -⟩ := visitVirtualLevel_eq_ok hrun
    exact Flattening.fills_enter s counter _
  | some inner =>
    obtain ⟨parent, counter, level, visited, -, -, hlevel, rfl, -⟩ :=
      exists_noted_of_visitDeclaredLevel hrun
    have hplace : (position.below below.child name kind).path = position.attributePath name ∧
        (position.below below.child name kind).depth =
          position.depth + if some kind = some .array then 1 else 0 := by
      cases kind <;> exact ⟨rfl, rfl⟩
    have hwalk := hnested inner rfl _ _ _ _ hlevel
    rw [hplace.1, hplace.2] at hwalk
    have hall := ((Flattening.fills_enter s counter _).trans hwalk).trans
      (Flattening.fills_noted position.node below.child kind visited)
    rwa [List.append_nil] at hall

/-- What is noted of an attribute: its own declaration, and what is nested in it. -/
theorem fills_visitAttribute {attr : Attribute Descriptor} (hnested : ∀ directives,
      attr = .tuple directives → ∀ inner, .nested inner ∈ directives →
        LevelWalk.Fills inner.declarations (inner.fold (visitLevel store))) {visited : Visited}
    (hrun : visitAttribute store position name (attr.map (Descriptor.fold (visitLevel store))) s =
      .ok visited s') :
    s.Fills (Tables.enterAll position.path position.depth (attributeDeclarations (name, attr)))
      (Declaration.references position.path (attributeDeclarations (name, attr))) s' := by
  obtain ⟨directives, tuple, rfl, read, hrun | ⟨hplain, hrun⟩⟩ :=
    exists_read_of_visitAttribute hrun
  · obtain ⟨kind, attached, below, -, s₁, s₂, hkind, -, hown, -, -, hbelow, hreference, -⟩ :=
      exists_fills_of_visitNested hrun
    have hinner := fills_visitBelow (fun inner heq =>
      hnested directives rfl inner (Tuple.mem_of_nested read heq)) hbelow
    rw [← show tuple.nesting = some kind from hkind] at hinner
    -- the reference is written behind what is nested, but declared before it
    have hall := ((hown.trans hinner).trans hreference).perm List.perm_append_comm
    rw [Descriptor.attributeDeclarations_read read, Tables.enterAll_cons, Tables.enterAll_inside,
      Declaration.references_cons, Declaration.references_inside]
    exact hall
  · have hall := (fills_visitScalar _ _ _ _ _ _ hrun).1
    rw [← List.append_nil (Option.toList _)] at hall
    rw [Descriptor.attributeDeclarations_read read, Tuple.nested_eq_none hplain,
      Tables.enterAll_cons, Declaration.references_cons]
    exact hall

/-- The attributes of a level note their declarations one after the other. -/
theorem fills_visitAttributes {attributes : List (String × Attribute Descriptor)}
    (hnested : ∀ entry ∈ attributes, ∀ directives, entry.2 = .tuple directives →
      ∀ inner, .nested inner ∈ directives →
        LevelWalk.Fills inner.declarations (inner.fold (visitLevel store))) :
    ∀ {s : Flattening} {level level' : Level},
      visitAttributes store position level (attributes.map fun entry =>
        (entry.1, entry.2.map (Descriptor.fold (visitLevel store)))) s = .ok level' s' →
      s.Fills (Tables.enterAll position.path position.depth
          (attributes.flatMap attributeDeclarations))
        (Declaration.references position.path (attributes.flatMap attributeDeclarations)) s' := by
  induction attributes with
  | nil =>
    intro s level level' hrun
    obtain ⟨-, rfl⟩ := pure_eq_ok.mp hrun
    exact .of_eq rfl rfl
  | cons entry rest ih =>
    intro s level level' hrun
    obtain ⟨visited, s₁, hfirst, hrest⟩ := bind_eq_ok.mp hrun
    have hfirst := fills_visitAttribute (hnested entry List.mem_cons_self) hfirst
    have hrest := ih (fun entry hentry => hnested entry (List.mem_cons_of_mem _ hentry)) hrest
    rw [List.flatMap_cons, Tables.enterAll_append, Declaration.references_append]
    exact hfirst.trans hrest

end Walk

/-- The walk over a descriptor notes its declarations. -/
theorem Descriptor.fills_fold (store : String) (descriptor : Descriptor) :
    LevelWalk.Fills descriptor.declarations (descriptor.fold (Walk.visitLevel store)) := by
  refine levels_induction (p := fun descriptor => LevelWalk.Fills descriptor.declarations
    (descriptor.fold (Walk.visitLevel store))) (fun attributes hnested => ?_) descriptor
  intro position s level s' hrun
  rw [fold_mk] at hrun
  rw [declarations_mk]
  exact Walk.fills_visitAttributes hnested hrun

/-! ## What is in the tables -/

namespace Declaration

/-- The computed fields among declarations. -/
def computeds (declarations : List Declaration) : List Computed :=
  declarations.filterMap fun declaration => declaration.tuple.computed.map (⟨declaration.path, ·⟩)

/-- The hooks of a kind with their paths. -/
def hooks (kind : HookKind) (declarations : List Declaration) : List (String × Hook) :=
  declarations.flatMap fun declaration =>
    (declaration.tuple.hooks.filter (·.1 = kind)).map (declaration.path, ·.2)

end Declaration

namespace Tables

open Declaration (annotations keyColumns hooks)

/-- The tables behind which each table of declarations is written, read off them in their order. -/
def fill (declarations : List Declaration) (tables : Tables) : Tables where
  sortGroup := Fields.setAll (annotations declarations) tables.sortGroup
  mandatory := tables.mandatory ++ keyColumns declarations
  computeds := tables.computeds ++ Declaration.computeds declarations
  onValidate := Fields.setAll (hooks .validate declarations) tables.onValidate
  onTransform := Fields.setAll (hooks .transform declarations) tables.onTransform

theorem fill_nil (tables : Tables) : fill [] tables = tables := by
  simp [fill, annotations, keyColumns, Declaration.computeds, hooks, Fields.setAll]

theorem fill_append (front back : List Declaration) (tables : Tables) :
    fill (front ++ back) tables = fill back (fill front tables) := by
  simp only [fill, annotations, keyColumns, Declaration.computeds, hooks, List.filterMap_append,
    List.flatMap_append, Fields.setAll_append, List.append_assoc]

/-- The hooks of an attribute are written one after the other, those of each kind in its table. -/
theorem foldl_addHook (path : String) (entries : List (HookKind × Hook)) (tables : Tables) :
    entries.foldl (addHook path) tables = { tables with
      onValidate := Fields.setAll
        ((entries.filter (·.1 = .validate)).map (path, ·.2)) tables.onValidate
      onTransform := Fields.setAll
        ((entries.filter (·.1 = .transform)).map (path, ·.2)) tables.onTransform } := by
  induction entries generalizing tables with
  | nil => rfl
  | cons entry rest ih =>
    obtain ⟨kind, hook⟩ := entry
    rw [List.foldl_cons, ih]
    cases kind <;> rfl

/-- One declaration fills each table with its own entries. -/
theorem enter_eq_fill (declaration : Declaration) (tables : Tables) :
    enter declaration.path declaration.depth declaration.tuple tables =
      fill [declaration] tables := by
  unfold enter
  rw [foldl_addHook]
  -- no column, a plain one or a key column; with a computed field or without
  rcases hcolumn : declaration.tuple.column with _ | ⟨column, _ | _⟩ <;>
    cases hcomputed : declaration.tuple.computed <;>
    simp [hcolumn, hcomputed, fill, annotations, keyColumns, Declaration.computeds, hooks,
      Declaration.column?, Declaration.keyColumn?, addColumn, addComputed, Fields.setAll]

/-- At the root, noting all declarations is filling the tables with them. -/
theorem enterAll_eq_fill (declarations : List Declaration) :
    enterAll "" 0 declarations = fill declarations := by
  induction declarations with
  | nil => exact funext fun tables => (fill_nil tables).symm
  | cons declaration rest ih =>
    funext tables
    rw [enterAll_cons, Nat.zero_add, Function.comp_apply, ih]
    exact (congrArg (fill rest) (enter_eq_fill declaration tables)).trans
      (fill_append [declaration] rest tables).symm

end Tables

/-- What a flattened descriptor has noted of attributes. -/
structure Flattened.Notes (flattened : Flattened) (declarations : List Declaration) : Prop where
  sortGroup : flattened.metadata.sortGroup = Fields.setAll (Declaration.annotations declarations) []
  sortMandatory : ∃ order, StablySorted (·.1) (Declaration.keyColumns declarations) order ∧
    flattened.metadata.sortMandatory = order.map (·.2)
  computeds : flattened.metadata.computeds = Declaration.computeds declarations
  onValidate : flattened.onValidate = Fields.setAll (Declaration.hooks .validate declarations) []
  onTransform : flattened.onTransform = Fields.setAll (Declaration.hooks .transform declarations) []
  references : ∃ order : List (String × String),
    order.Perm (Declaration.references "" declarations) ∧
      flattened.metadata.references = Fields.setAll order []

/-- The tables of a flattened descriptor are those of its declarations. -/
theorem Flattened.notes_of_flatten {store rootName : String} {descriptor : Descriptor}
    {flattened : Flattened} (h : (flatten store rootName descriptor).1 = .ok flattened) :
    flattened.Notes descriptor.declarations := by
  obtain ⟨s, level, counter, hwalk, heq⟩ := Flattening.exists_walk_of_flatten h
  obtain ⟨htables, hreferences⟩ := descriptor.fills_fold store _ _ _ _ hwalk
  have htables : s.tables = Tables.fill descriptor.declarations {} := by
    rw [htables, ← Tables.enterAll_eq_fill]
    rfl
  rw [heq]
  constructor
  case sortGroup => exact congrArg Tables.sortGroup htables
  case sortMandatory =>
    -- key columns are collected in order of declaration, and sorted once the walk is over
    refine ⟨_, stablySorted_stableSort Prod.fst _, ?_⟩
    show (stableSort _ s.tables.mandatory).map (·.2) = _
    rw [htables]
    rfl
  case computeds => exact congrArg Tables.computeds htables
  case onValidate => exact congrArg Tables.onValidate htables
  case onTransform => exact congrArg Tables.onTransform htables
  case references => exact hreferences

end NestedRecord
