import NestedRecord.Proofs.Graph.Tree

/-!
# What is registered under a path

The metadata of a store speaks of attributes by their paths. The walk registers a path while it
visits the attribute, so every path of a key, a computed field or an external aggregate is that of a
declared scalar attribute.

The paths in the metadata and the attributes in the graph are entered at different moments: a path
is registered first, and the attribute is declared at the end of its visit. So the invariant does
not hold between the steps of a visit but around it. `Enrolls` collects what has been registered on
the way, and `Registered.enroll` settles it when the attribute is there.

* `Flattening.Declares` is a declared scalar attribute with the names that lead to it;
  `Flattening.Registered` is the invariant of the walk.
* `Extends` says that no level and no attribute is lost on the way from one state to the next.
* `Metadata.Enrolls` tells which paths a step adds to the metadata: none at all, or those of the
  attribute that is visited.
* `exists_registered_of_flatten` is the result for a flattened descriptor.
-/

namespace NestedRecord

open Fields (get? has entries)

/-! ## Paths added to the metadata -/

namespace Metadata

variable {keyed scalar : String → Prop} {metadata metadata' metadata'' : Metadata}

/-- A step registers no other paths than these: paths of keys, and of fields that are maintained
here. -/
structure Enrolls (keyed scalar : String → Prop) (metadata metadata' : Metadata) : Prop where
  keys : ∀ path ∈ metadata'.primaryKey, path ∈ metadata.primaryKey ∨ keyed path
  computeds : ∀ computed ∈ metadata'.computeds,
    computed ∈ metadata.computeds ∨ scalar computed.path
  externals : ∀ aggregate ∈ entries metadata'.externals,
    aggregate ∈ entries metadata.externals ∨ scalar aggregate.target

/-- No path is added. -/
def NoPath (_ : String) : Prop := False

namespace Enrolls

theorem refl (metadata : Metadata) : Enrolls keyed scalar metadata metadata :=
  ⟨fun _ => .inl, fun _ => .inl, fun _ => .inl⟩

theorem trans (h : Enrolls keyed scalar metadata metadata')
    (h' : Enrolls keyed scalar metadata' metadata'') :
    Enrolls keyed scalar metadata metadata'' where
  keys path hpath := (h'.keys path hpath).elim (h.keys path) .inr
  computeds computed hmem := (h'.computeds computed hmem).elim (h.computeds computed) .inr
  externals aggregate hmem := (h'.externals aggregate hmem).elim (h.externals aggregate) .inr

end Enrolls

/-- Taking the external aggregate of a target out adds none. -/
theorem mem_of_mem_removeExternal {target : String} {aggregate : ExternalAggregate}
    (h : aggregate ∈ entries (metadata.removeExternal target).externals) :
    aggregate ∈ entries metadata.externals := by
  unfold removeExternal at h
  split at h
  · exact h
  · next store _ _ =>
    simp only [Fields.entries_filter_isEmpty] at h
    exact (entries_withoutTarget_sublist metadata.externals store target).subset h

theorem keys_removeExternal (metadata : Metadata) (target : String) :
    (metadata.removeExternal target).primaryKey = metadata.primaryKey ∧
      (metadata.removeExternal target).computeds = metadata.computeds := by
  unfold removeExternal
  split <;> exact ⟨rfl, rfl⟩

theorem enrolls_removeExternal (metadata : Metadata) (target : String) :
    Enrolls keyed scalar metadata (metadata.removeExternal target) where
  keys _ hpath := .inl ((keys_removeExternal metadata target).1 ▸ hpath)
  computeds _ hmem := .inl ((keys_removeExternal metadata target).2 ▸ hmem)
  externals _ hmem := .inl (mem_of_mem_removeExternal hmem)

theorem enrolls_declareLocal (metadata : Metadata) (aggregate : LocalAggregate) :
    Enrolls keyed scalar metadata (metadata.declareLocal aggregate) :=
  (enrolls_removeExternal metadata aggregate.target).trans
    ⟨fun _ => .inl, fun _ => .inl, fun _ => .inl⟩

/-- Promoting an aggregate registers its target. -/
theorem enrolls_promote (metadata : Metadata) {aggregate : ExternalAggregate}
    (htarget : scalar aggregate.target) :
    Enrolls keyed scalar metadata (metadata.promote aggregate) := by
  have hlocal : Enrolls keyed scalar metadata (metadata.withoutLocal aggregate.target) :=
    ⟨fun _ => .inl, fun _ => .inl, fun _ => .inl⟩
  refine (hlocal.trans (enrolls_removeExternal _ aggregate.target)).trans
    ⟨fun _ => .inl, fun _ => .inl, fun other hmem => ?_⟩
  have hpush := Fields.entries_push
    ((metadata.withoutLocal aggregate.target).removeExternal aggregate.target).externals
    aggregate.store aggregate
  rcases List.mem_append.mp (hpush.mem_iff.mp hmem) with hold | hnew
  · exact .inl hold
  · obtain rfl := List.mem_singleton.mp hnew
    exact .inr htarget

end Metadata

open Metadata (Enrolls NoPath)

namespace Flattening

variable {s s' s'' : Flattening} {root name : String} {position : Position}
  {keyed scalar : String → Prop}

/-! ## What the walk keeps -/

/-- No level and no attribute is lost, and each level stays as deep as it was entered. -/
structure Extends (s s' : Flattening) : Prop where
  grows : Grows s s'
  attributes : ∀ {name node}, get? s.nodes name = some node →
    ∃ node', get? s'.nodes name = some node' ∧ node'.nestingLevel = node.nestingLevel ∧
      ∀ decl ∈ node.attributes, decl ∈ node'.attributes

namespace Extends

theorem refl (s : Flattening) : Extends s s := ⟨.refl s, fun h => ⟨_, h, rfl, fun _ => id⟩⟩

theorem trans (h : Extends s s') (h' : Extends s' s'') : Extends s s'' where
  grows := h.grows.trans h'.grows
  attributes hget := by
    obtain ⟨node', hget', hlevel, hmem⟩ := h.attributes hget
    obtain ⟨node'', hget'', hlevel', hmem'⟩ := h'.attributes hget'
    exact ⟨node'', hget'', hlevel'.trans hlevel, fun decl hdecl => hmem' decl (hmem decl hdecl)⟩

theorem of_redraws {decls : List AttributeDecl} (h : Redraws name decls s s') : Extends s s' where
  grows := grows_of_redraws h
  attributes {other node} hget := by
    obtain ⟨node', hget', heq⟩ := exists_of_redraws h hget
    refine ⟨node', hget', ?_, fun _ hdecl => (mem_attributes_of_outline heq).mpr (.inl hdecl)⟩
    rw [(Node.nesting_of_outline heq).1]
    split <;> rfl

theorem enter {node : Node} (hfresh : s.level? node.uniqueName = none) :
    Extends s (s.enter node) where
  grows := grows_enter hfresh
  attributes hget := ⟨_, get?_nodes_enter_of_some hfresh hget, rfl, fun _ => id⟩

end Extends

/-- The names lead to a declared scalar attribute, innermost first, with so many lists around. -/
def Declares (s : Flattening) (name : String) (names : List String) (depth : Nat) : Prop :=
  ∃ level node decl, Trail s level names ∧ get? s.nodes level = some node ∧
    node.nestingLevel = depth ∧ decl ∈ node.attributes ∧ decl.name = name ∧ decl.child = none

theorem Declares.mono (hextends : Extends s s') {names : List String} {depth : Nat}
    (h : s.Declares name names depth) : s'.Declares name names depth := by
  obtain ⟨level, node, decl, htrail, hget, hdepth, hdecl, hname, hchild⟩ := h
  obtain ⟨node', hget', hlevel, hmem⟩ := hextends.attributes hget
  exact ⟨level, node', decl, htrail.mono hextends.grows, hget', hlevel.trans hdepth,
    hmem decl hdecl, hname, hchild⟩

/-- What stands before the names of key attributes at a level that is no list and lies in none. -/
def keyFront : List String → String
  | [] => ""
  | name :: rest => keyFront rest ++ name ++ "."

/-- A key attribute of the root. -/
def DeclaresKey (s : Flattening) (path : String) : Prop :=
  ∃ name names, s.Declares name names 0 ∧ path = keyFront names ++ name

/-- A scalar attribute of some level. -/
def DeclaresScalar (s : Flattening) (path : String) : Prop :=
  ∃ name names depth, s.Declares name names depth ∧ path = trailPath (name :: names)

/-- The registered paths are those of declared attributes. -/
structure Registered (root : String) (s : Flattening) : Prop where
  first : (Fields.keys s.nodes).head? = some root
  keys : ∀ path ∈ s.metadata.primaryKey, s.DeclaresKey path
  computeds : ∀ computed ∈ s.metadata.computeds, s.DeclaresScalar computed.path
  externals : ∀ aggregate ∈ entries s.metadata.externals, s.DeclaresScalar aggregate.target

theorem DeclaresKey.mono (hextends : Extends s s') {path : String} (h : s.DeclaresKey path) :
    s'.DeclaresKey path := by
  obtain ⟨name, names, hdeclares, hpath⟩ := h
  exact ⟨name, names, hdeclares.mono hextends, hpath⟩

theorem DeclaresScalar.mono (hextends : Extends s s') {path : String}
    (h : s.DeclaresScalar path) : s'.DeclaresScalar path := by
  obtain ⟨name, names, depth, hdeclares, hpath⟩ := h
  exact ⟨name, names, depth, hdeclares.mono hextends, hpath⟩

/-- A step may register paths of attributes that are declared when it is over. -/
theorem Registered.enroll (h : Registered root s) (hextends : Extends s s')
    (hfirst : (Fields.keys s'.nodes).head? = some root)
    (henrolls : Enrolls keyed scalar s.metadata s'.metadata)
    (hkeyed : ∀ path, keyed path → s'.DeclaresKey path)
    (hscalar : ∀ path, scalar path → s'.DeclaresScalar path) : Registered root s' where
  first := hfirst
  keys path hpath := (henrolls.keys path hpath).elim
    (fun hold => (h.keys path hold).mono hextends) (hkeyed path)
  computeds computed hmem := (henrolls.computeds computed hmem).elim
    (fun hold => (h.computeds computed hold).mono hextends) (hscalar computed.path)
  externals aggregate hmem := (henrolls.externals aggregate hmem).elim
    (fun hold => (h.externals aggregate hold).mono hextends) (hscalar aggregate.target)

/-- A step that registers nothing. -/
theorem Registered.keep (h : Registered root s) (hextends : Extends s s')
    (hfirst : (Fields.keys s'.nodes).head? = some root)
    (henrolls : Enrolls NoPath NoPath s.metadata s'.metadata) : Registered root s' :=
  h.enroll hextends hfirst henrolls nofun nofun

/-- Where the walk stands: the level is there, and the keys declared here are keys of the root only
if there is no list around. -/
def Located (root : String) (position : Position) (s : Flattening) : Prop :=
  ∃ names node, Trail s position.node names ∧ position.path = trailPath names ∧
    get? s.nodes position.node = some node ∧
    (position.keyOwner = root → node.nestingLevel = 0 ∧ position.keyFront = keyFront names)

theorem Located.mono (hextends : Extends s s') (h : Located root position s) :
    Located root position s' := by
  obtain ⟨names, node, htrail, hpath, hget, hkeys⟩ := h
  obtain ⟨node', hget', hlevel, -⟩ := hextends.attributes hget
  exact ⟨names, node', htrail.mono hextends.grows, hpath, hget', fun howner =>
    ⟨hlevel.trans (hkeys howner).1, (hkeys howner).2⟩⟩

theorem Located.stands (h : Located root position s) : s.Stands position := by
  obtain ⟨names, node, htrail, hpath, hget, -⟩ := h
  exact ⟨Fields.has_iff.mpr ⟨node, hget⟩, names, htrail, hpath⟩

end Flattening

open Flattening

namespace Walk

variable {α β : Type} {s s' : Flattening} {root store name path : String} {position : Position}
  {keyed scalar : String → Prop}

/-! ## Steps that register paths

Each step is given the paths that it may register. Only two steps register any: the column of a key,
and the links of a target. -/

/-- A step that registers no other paths than these and leaves the root in front. -/
def Enrolling (root : String) (keyed scalar : String → Prop) (w : Walk α) : Prop :=
  ∀ s a s', (Fields.keys s.nodes).head? = some root → w s = .ok a s' →
    (Fields.keys s'.nodes).head? = some root ∧ Enrolls keyed scalar s.metadata s'.metadata

namespace Enrolling

theorem pure (a : α) : Enrolling root keyed scalar (pure a) := by
  intro s b s' hfirst h
  obtain ⟨-, rfl⟩ := pure_eq_ok.mp h
  exact ⟨hfirst, .refl _⟩

theorem bind {w : Walk α} {f : α → Walk β} (hw : Enrolling root keyed scalar w)
    (hf : ∀ a, Enrolling root keyed scalar (f a)) : Enrolling root keyed scalar (w >>= f) := by
  intro s b s'' hfirst h
  obtain ⟨a, s', hhead, hrest⟩ := bind_eq_ok.mp h
  obtain ⟨hfirst', henrolls⟩ := hw s a s' hfirst hhead
  obtain ⟨hfirst'', henrolls'⟩ := hf a s' b s'' hfirst' hrest
  exact ⟨hfirst'', henrolls.trans henrolls'⟩

theorem get : Enrolling root keyed scalar (MonadState.get : Walk Flattening) := by
  intro s a s' hfirst h
  cases h
  exact ⟨hfirst, .refl _⟩

theorem refuse (store path rule : String) :
    Enrolling root keyed scalar (refuse store path rule : Walk α) := by
  intro s a s' _ h
  cases h

theorem lasting : Lasting (Enrolling root keyed scalar) := ⟨pure, bind, get, refuse⟩

theorem require (holds : Bool) (store path rule : String) :
    Enrolling root keyed scalar (require holds store path rule) :=
  lasting.require holds store path rule

theorem forSome {value : Option α} {f : α → Walk Unit}
    (hf : ∀ a, value = some a → Enrolling root keyed scalar (f a)) :
    Enrolling root keyed scalar (forSome value f) := lasting.forSome hf

theorem modify {f : Flattening → Flattening} (hnodes : ∀ s, (f s).nodes = s.nodes)
    (henrolls : ∀ s, (Fields.keys s.nodes).head? = some root →
      Enrolls keyed scalar s.metadata (f s).metadata) :
    Enrolling root keyed scalar (modify f) := by
  intro s a s' hfirst h
  obtain rfl := modify_eq_ok.mp h
  exact ⟨(hnodes s).symm ▸ hfirst, henrolls s hfirst⟩

theorem updateMetadata {f : Metadata → Metadata}
    (h : ∀ metadata, Enrolls keyed scalar metadata (f metadata)) :
    Enrolling root keyed scalar (updateMetadata f) :=
  modify (fun _ => rfl) fun s _ => h s.metadata

theorem updateNode (store name : String) (f : Node → Node) :
    Enrolling root keyed scalar (updateNode store name f) := by
  intro s a s' hfirst h
  obtain ⟨-, rfl⟩ := updateNode_eq_ok h
  exact ⟨(Fields.keys_update f s.nodes name).symm ▸ hfirst, .refl _⟩

end Enrolling

theorem enrolling_registerHooks (path : String) (hooks : List (HookKind × Hook)) :
    Enrolling root keyed scalar (registerHooks path hooks) := by
  refine Enrolling.lasting.registerHooks (fun kind hook => ?_) hooks
  cases kind <;> exact .modify (fun _ => rfl) fun _ _ => .refl _

theorem enrolling_registerReference (store path referenced : String) :
    Enrolling root keyed scalar (registerReference store path referenced) :=
  Enrolling.lasting.registerReference
    (.updateMetadata fun _ => ⟨fun _ => .inl, fun _ => .inl, fun _ => .inl⟩)

/-- Links register aggregates of their target. -/
theorem enrolling_registerLinks (hpath : scalar path) (links : List Link) :
    Enrolling root keyed scalar (registerLinks store path links) := by
  refine Enrolling.lasting.registerLinks (fun aggregate htarget => ?_)
    (fun aggregate _ => .updateMetadata fun metadata => metadata.enrolls_declareLocal aggregate)
    links
  subst htarget
  exact Enrolling.lasting.promote (fun _ => .modify (fun _ => rfl) fun _ _ => .refl _)
    (.updateMetadata fun metadata => metadata.enrolls_promote hpath)

theorem enrolling_attachedStore (store path : String) (links : List Link) :
    ∀ attached, Enrolling root keyed scalar (attachedStore store path attached links) :=
  Enrolling.lasting.attachedStore links

/-- A key is one of the root if the level that owns it is in front. -/
theorem enrolling_registerColumn (column : String) (primary : Bool)
    (hkeyed : position.keyOwner = root → keyed (position.keyFront ++ name)) :
    Enrolling root keyed scalar (registerColumn store position name column primary) := by
  unfold registerColumn
  refine .bind (.updateMetadata fun _ => ⟨fun _ => .inl, fun _ => .inl, fun _ => .inl⟩) fun _ => ?_
  split
  · refine .bind (.modify (fun _ => rfl) fun s hfirst => ?_) fun _ => .updateNode _ _ _
    show Enrolls keyed scalar s.metadata (if _ then _ else _)
    split
    · next howner =>
      refine ⟨fun path hpath => ?_, fun _ => .inl, fun _ => .inl⟩
      rcases List.mem_append.mp hpath with hold | hnew
      · exact .inl hold
      · obtain rfl := List.mem_singleton.mp hnew
        rw [Fields.keys, List.head?_map, Option.map_eq_some_iff] at hfirst
        obtain ⟨⟨key, node⟩, hhead, rfl⟩ := hfirst
        rw [hhead, Option.any_some, beq_iff_eq] at howner
        exact .inr (hkeyed howner.symm)
    · exact .refl _
  · exact .pure _

/-- A scalar attribute registers its own path, and that of its key. -/
theorem enrolling_visitScalar (tuple : Tuple LevelWalk)
    (hkeyed : position.keyOwner = root → keyed (position.keyFront ++ name))
    (hscalar : scalar (position.attributePath name)) :
    Enrolling root keyed scalar (visitScalar store position name tuple) := by
  rw [visitScalar_eq]
  refine .bind (.forSome fun _ _ => .updateNode _ _ _) fun _ => ?_
  refine .bind (.forSome fun column _ => enrolling_registerColumn _ _ hkeyed) fun _ => ?_
  refine .bind (.forSome fun handler _ => .updateMetadata fun metadata =>
    ⟨fun _ => .inl, fun computed hmem => ?_, fun _ => .inl⟩) fun _ => ?_
  · rcases List.mem_append.mp hmem with hold | hnew
    · exact .inl hold
    · obtain rfl := List.mem_singleton.mp hnew
      exact .inr hscalar
  refine .bind (enrolling_registerLinks hscalar _) fun _ => ?_
  refine .bind (.forSome fun _ _ => enrolling_registerReference _ _ _) fun _ => ?_
  refine .bind (enrolling_registerHooks _ _) fun _ => ?_
  exact .bind (.updateNode _ _ _) fun _ => .pure _

/-! ## Visiting attributes -/

/-- A step that keeps the invariant and loses nothing. -/
def Preserving (root : String) (w : Walk α) : Prop :=
  ∀ s a s', Registered root s → w s = .ok a s' → Registered root s' ∧ Extends s s'

namespace Preserving

theorem bind {w : Walk α} {f : α → Walk β} (hw : Preserving root w)
    (hf : ∀ a, Preserving root (f a)) : Preserving root (w >>= f) := by
  intro s b s'' h hrun
  obtain ⟨a, s', hfirst, hrest⟩ := bind_eq_ok.mp hrun
  obtain ⟨h', hextends⟩ := hw s a s' h hfirst
  obtain ⟨h'', hextends'⟩ := hf a s' b s'' h' hrest
  exact ⟨h'', hextends.trans hextends'⟩

/-- A step that registers nothing and only adds attributes. -/
theorem of_adds {w : Walk α} {decls : List AttributeDecl} (hw : Adds name decls w)
    (henrolling : Enrolling root NoPath NoPath w) : Preserving root w := by
  intro s a s' h hrun
  have hextends : Extends s s' := .of_redraws (hw s a s' hrun).1.toRedraws
  obtain ⟨hfirst, henrolls⟩ := henrolling s a s' h.first hrun
  exact ⟨h.keep hextends hfirst henrolls, hextends⟩

theorem of_steady {w : Walk α} (hw : Steady w) (henrolling : Enrolling root NoPath NoPath w) :
    Preserving root w := of_adds (hw root) henrolling

/-- An attachment is no scalar attribute and needs no declaration. -/
theorem addJoin (join : Join) : Preserving root (updateMetadata (·.addJoin join)) := by
  intro s a s' h hrun
  obtain rfl := modify_eq_ok.mp hrun
  have hredraws : Redraws root [] s { s with metadata := s.metadata.addJoin join } :=
    .of_nodes rfl rfl
  have hextends := Extends.of_redraws hredraws
  exact ⟨h.keep hextends h.first ⟨fun _ => .inl, fun _ => .inl, fun _ => .inl⟩, hextends⟩

theorem forSome {value : Option α} {f : α → Walk Unit} (hf : ∀ a, Preserving root (f a)) :
    Preserving root (forSome value f) := by
  cases value with
  | none => exact of_steady (.pure ()) (.pure ())
  | some a => exact hf a

end Preserving

/-- What a scalar attribute registers is declared when it has been visited. -/
theorem registered_visitScalar {tuple : Tuple LevelWalk} (h : Registered root s)
    (hlocated : Located root position s) {visited : Visited}
    (hrun : visitScalar store position name tuple s = .ok visited s') :
    Registered root s' ∧ Extends s s' := by
  obtain ⟨hrevises, -⟩ := adds_visitScalar store position name tuple s visited s' hrun
  have hextends : Extends s s' := .of_redraws hrevises.toRedraws
  obtain ⟨names, node, htrail, hpath, hget, hkeys⟩ := hlocated
  obtain ⟨node', hget', heq⟩ := exists_of_redraws hrevises.toRedraws hget
  rw [if_pos rfl] at heq
  -- the attribute is declared by now, at the end of the level
  have hdeclares : s'.Declares name names node.nestingLevel := by
    refine ⟨position.node, node', scalarDecl name tuple, htrail.mono hextends.grows, hget',
      (Node.nesting_of_outline heq).1, ?_, rfl, rfl⟩
    rw [(Node.same_of_outline heq).2.2.2]
    exact List.mem_append_right _ (List.mem_singleton_self _)
  have henrolling : Enrolling root
      (fun path => position.keyOwner = root ∧ path = position.keyFront ++ name)
      (fun path => path = position.attributePath name) (visitScalar store position name tuple) :=
    enrolling_visitScalar tuple (fun howner => ⟨howner, rfl⟩) rfl
  obtain ⟨hfirst, henrolls⟩ := henrolling s visited s' h.first hrun
  refine ⟨h.enroll hextends hfirst henrolls ?_ ?_, hextends⟩
  · rintro path ⟨howner, rfl⟩
    obtain ⟨hdepth, hfront⟩ := hkeys howner
    exact ⟨name, names, hdepth ▸ hdeclares, by rw [hfront]⟩
  · rintro path rfl
    refine ⟨name, names, node.nestingLevel, hdeclares, ?_⟩
    rw [trailPath, ← hpath]
    rfl

/-- Entering a level registers nothing. -/
theorem registered_enter (h : Registered root s) {child : String} (hfresh : s.level? child = none)
    (parent : Node) (name : String) (kind : NodeKind) (foreign : Bool) (attached : Option String)
    (counter : Nat) :
    Registered root (Flattening.enter { s with counter := counter }
        (childWith parent child name kind foreign attached)) ∧
      Extends s (Flattening.enter { s with counter := counter }
        (childWith parent child name kind foreign attached)) := by
  have hfree : Flattening.level? { s with counter := counter }
      (childWith parent child name kind foreign attached).uniqueName = none := hfresh
  have hcounter : Redraws name [] s { s with counter := counter } := .of_nodes rfl rfl
  have hextends := (Extends.of_redraws hcounter).trans (Extends.enter hfree)
  refine ⟨h.keep hextends ?_ ?_, hextends⟩
  · rw [keys_nodes_enter hfree, List.head?_append, h.first, Option.some_or]
  · rw [metadata_enter]
    exact .refl _

/-- The position of a level that has been entered. -/
theorem located_below {opened pending : List String} (h : Registered root s)
    (hgrown : Grown root opened pending s) (hlocated : Located root position s) {parent : Node}
    {child : String} {kind : NodeKind} {attached : Option String} {counter : Nat}
    (hparent : get? s.nodes position.node = some parent) (hfresh : s.level? child = none) :
    Located root (position.below child name kind) (Flattening.enter { s with counter := counter }
      (childWith parent child name kind false attached)) := by
  have hextends := (registered_enter h hfresh parent name kind false attached counter).2
  obtain ⟨names, around, htrail, hpath, haround, hkeys⟩ := hlocated
  obtain rfl : parent = around := Option.some.inj (hparent.symm.trans haround)
  have hget : get? (Flattening.enter { s with counter := counter }
      (childWith parent child name kind false attached)).nodes child =
        some (childWith parent child name kind false attached) :=
    get?_nodes_enter_self rfl
  have hup : parent.uniqueName = position.node := hgrown.named (level?_of_get? hparent)
  have htrail' := Trail.inside (level?_of_get? hget) (congrArg some hup) rfl
    (htrail.mono hextends.grows)
  have hpath' : position.attributePath name = trailPath (name :: names) := by
    rw [trailPath, ← hpath]
    rfl
  cases kind with
  | array =>
    refine ⟨name :: names, _, htrail', hpath', hget, fun howner => ?_⟩
    -- the list owns its keys, and it is not the root
    obtain ⟨top, htop, -⟩ := hgrown.top
    obtain rfl : child = root := howner
    rw [level?_of_get? htop] at hfresh
    cases hfresh
  | object =>
    refine ⟨name :: names, _, htrail', hpath', hget, fun howner => ?_⟩
    obtain ⟨hdepth, hfront⟩ := hkeys howner
    refine ⟨hdepth, ?_⟩
    show position.keyFront ++ name ++ "." = _
    rw [hfront]
    rfl

end Walk

/-- A walk over a level registers declared attributes and loses nothing. -/
def LevelWalk.Registering (walk : LevelWalk) : Prop :=
  walk.Sound ∧ ∀ {root opened pending position s level s'}, Grown root opened pending s →
    Registered root s → Located root position s → walk position s = .ok level s' →
      Registered root s' ∧ Extends s s'

namespace Walk

variable {s s' : Flattening} {root store name : String} {opened pending : List String}
  {position : Position}

/-- What is below an attribute is registered when its level has been walked through. -/
theorem registered_visitBelow {kind : NodeKind} {attached : Option String}
    {nested : Option LevelWalk} (hwalk : ∀ walk, nested = some walk → walk.Registering)
    (hgrown : Grown root opened pending s) (h : Registered root s)
    (hlocated : Located root position s) {below : Below}
    (hrun : visitBelow store position name kind attached nested s = .ok below s') :
    Registered root s' ∧ Extends s s' := by
  cases nested with
  | none =>
    obtain ⟨parent, counter, hparent, hfresh, rfl, -⟩ := visitVirtualLevel_eq_ok hrun
    exact registered_enter h hfresh parent name kind true attached counter
  | some walk =>
    obtain ⟨parent, counter, level, visited, hparent, hfresh, hlevel, hrevises, hnotes, -,
      hmetadata, -⟩ := visitDeclaredLevel_eq_ok hrun
    have hentered : Nested root opened pending position name kind attached below.child s
        (Flattening.enter { s with counter := counter }
          (childWith parent below.child name kind false attached)) :=
      nested_enter hgrown hparent hfresh
    obtain ⟨hregistered, hextends⟩ :=
      registered_enter h hfresh parent name kind false attached counter
    obtain ⟨hvisited, hextends'⟩ := (hwalk walk rfl).2 hentered.grown hregistered
      (located_below h hgrown hlocated hparent hfresh) hlevel
    have hextends'' : Extends visited s' := .of_redraws hrevises.toRedraws
    refine ⟨hvisited.keep hextends'' ?_ ?_, (hextends.trans hextends').trans hextends''⟩
    · rw [hnotes.keys, hvisited.first]
    · rw [hmetadata]
      exact .refl _

/-- A nested attribute registers no scalar path itself, only what is below it does. -/
theorem registered_visitNested {tuple : Tuple LevelWalk}
    (hwalk : ∀ walk, tuple.nested = some walk → walk.Registering)
    (hgrown : Grown root opened pending s) (h : Registered root s)
    (hlocated : Located root position s) {visited : Visited}
    (hrun : visitNested store position name tuple s = .ok visited s') :
    Registered root s' ∧ Extends s s' := by
  obtain ⟨-, -, -, hattached, hhooks, hbelow, hjoin, hreference, hdeclare⟩ :=
    nestedVisit_of_eq_ok hrun
  have hattaching : Preserving root
      (attachedStore store (position.attributePath name) none tuple.links) :=
    .of_steady (steady_attachedStore _ _ _ _) (enrolling_attachedStore _ _ _ _)
  have hhooking : Preserving root
      (registerHooks (position.attributePath name) tuple.hooks) :=
    .of_steady (steady_registerHooks _ _) (enrolling_registerHooks _ _)
  obtain ⟨hregistered, hextends⟩ := hattaching _ _ _ h hattached
  obtain ⟨hregistered', hextends'⟩ := hhooking _ _ _ hregistered hhooks
  -- the steps before the level is entered keep the graph as it has grown
  have hgrown' := (hgrown.steady (steady_attachedStore _ _ _ _ name _ _ _ hattached).1).steady
    (steady_registerHooks _ _ name _ _ _ hhooks).1
  obtain ⟨hvisited, hextends''⟩ := registered_visitBelow hwalk hgrown' hregistered'
    ((hlocated.mono hextends).mono hextends') hbelow
  have hreferring : ∀ referenced, Preserving root
      (registerReference store (position.attributePath name) referenced) := fun _ =>
    .of_steady (steady_registerReference _ _ _) (enrolling_registerReference _ _ _)
  obtain ⟨hjoined, hextends₃⟩ := Preserving.forSome (fun _ => .addJoin _) _ _ _ hvisited hjoin
  obtain ⟨hreferred, hextends₄⟩ := Preserving.forSome hreferring _ _ _ hjoined hreference
  obtain ⟨hdeclared, hextends₅⟩ := Preserving.of_adds (adds_declare _ _ _ _)
    (.bind (.updateNode _ _ _) fun _ => .pure _) _ _ _ hreferred hdeclare
  exact ⟨hdeclared, ((((hextends.trans hextends').trans hextends'').trans hextends₃).trans
    hextends₄).trans hextends₅⟩

theorem registered_visitAttribute {attr : Attribute LevelWalk}
    (hwalk : ∀ directives, attr = .tuple directives → ∀ walk : LevelWalk,
      .nested walk ∈ directives → walk.Registering)
    (hgrown : Grown root opened pending s) (h : Registered root s)
    (hlocated : Located root position s) {visited : Visited}
    (hrun : visitAttribute store position name attr s = .ok visited s') :
    Registered root s' ∧ Extends s s' := by
  obtain ⟨directives, tuple, rfl, read, hrun | ⟨-, hrun⟩⟩ := visitAttribute_eq_ok hrun
  · refine registered_visitNested (fun walk hmem => ?_) hgrown h hlocated hrun
    exact hwalk directives rfl walk (Tuple.mem_of_nested read hmem)
  · exact registered_visitScalar h hlocated hrun

theorem registered_visitAttributes {attributes : List (String × Attribute LevelWalk)}
    (hwalk : ∀ entry ∈ attributes, ∀ directives, entry.2 = .tuple directives →
      ∀ walk : LevelWalk, .nested walk ∈ directives → walk.Registering) {level level' : Level}
    (hgrown : Grown root opened pending s) (h : Registered root s)
    (hlocated : Located root position s)
    (hrun : visitAttributes store position level attributes s = .ok level' s') :
    Registered root s' ∧ Extends s s' := by
  refine (visitAttributes_induction (motive := fun t => Grown root opened pending t ∧
    Registered root t ∧ Extends s t) ?_ ⟨hgrown, h, .refl s⟩ hrun).2
  intro entry hentry t visited t' ⟨hgrown, hregistered, hextends⟩ hvisit
  have hlocated' := hlocated.mono hextends
  obtain ⟨hgrown', -⟩ := grown_visitAttribute (fun directives htuple walk hmem =>
    (hwalk entry hentry directives htuple walk hmem).1) hgrown hlocated'.stands hvisit
  obtain ⟨hregistered', hextends'⟩ :=
    registered_visitAttribute (hwalk entry hentry) hgrown hregistered hlocated' hvisit
  exact ⟨hgrown', hregistered', hextends.trans hextends'⟩

end Walk

/-- The walk over a descriptor registers declared attributes. -/
theorem Descriptor.registering_fold (store : String) (descriptor : Descriptor) :
    LevelWalk.Registering (descriptor.fold (Walk.visitLevel store)) := by
  refine fold_induction (p := LevelWalk.Registering) (fun attributes hwalk => ⟨?_, ?_⟩) descriptor
  · intro root opened pending position s level s' hgrown hstands hrun
    exact Walk.grown_visitAttributes (fun entry hentry directives htuple walk hmem =>
      (hwalk entry hentry directives htuple walk hmem).1) hgrown hstands hrun
  · intro root opened pending position s level s' hgrown h hlocated hrun
    exact Walk.registered_visitAttributes hwalk hgrown h hlocated hrun

/-! ## The whole walk -/

namespace Flattening

/-- Nothing is registered before the walk. -/
theorem registered_rooted (store root : String) (counter : Nat) :
    Registered root (rooted store root counter) where
  first := rfl
  keys := List.forall_mem_nil _
  computeds := List.forall_mem_nil _
  externals := List.forall_mem_nil _

theorem located_rooted (store root : String) (counter : Nat) :
    Located root
      { node := root, path := "", column := "", keyOwner := root, keyFront := "", depth := 0 }
      (rooted store root counter) := by
  have hget := get?_rooted store root counter
  exact ⟨[], Node.root root, .top (level?_of_get? hget) rfl, rfl, hget, fun _ => ⟨rfl, rfl⟩⟩

end Flattening

/-- What a flattened descriptor registers; nothing is attached to the root. -/
theorem Flattened.exists_registered_of_flatten {store rootName : String} {descriptor : Descriptor}
    {flattened : Flattened} (h : (flatten store rootName descriptor).1 = .ok flattened) :
    ∃ s, flattened.EndsIn s ∧ Registered flattened.root s ∧
      (∃ top, get? s.nodes flattened.root = some top ∧ top.joinedStore = none) ∧
      ∃ columns, flattened.metadata = { s.metadata with sortMandatory := columns } := by
  obtain ⟨s, level, counter, hwalk, heq⟩ := exists_walk_of_flatten h
  have hgrown := grown_rooted store flattened.root counter
  obtain ⟨hregistered, hextends⟩ := (descriptor.registering_fold store).2 hgrown
    (registered_rooted store _ counter) (located_rooted store _ counter) hwalk
  refine ⟨s, endsIn_of_walk hwalk heq, hregistered, ?_, _, congrArg Flattened.metadata heq⟩
  have hroot := get?_rooted store flattened.root counter
  obtain ⟨top, htop, -⟩ := hextends.attributes hroot
  obtain ⟨known, hknown, horigin⟩ := hextends.grows.levels (level?_of_get? hroot)
  obtain rfl : top = known := Option.some.inj ((level?_of_get? htop).symm.trans hknown)
  exact ⟨top, htop, congrArg (·.2.2.2) horigin⟩

end NestedRecord
