import NestedRecord.Proofs.Graph.Registering
import NestedRecord.Proofs.Path.Approach

/-!
# Declared paths resolve

Where the attributes of every level have names of their own, and none is empty or holds a point, the
names that lead to an attribute are followed to that attribute.

The metadata registers attributes by paths, while the walk over the descriptor goes on, and the
compilers look these paths up again when the graph is complete. A name that is found at a level has
to be the one that was registered, and the levels on the way have to be known to the resolver; both
are known of a finished walk.

* `Flattening.walks_of_trail`: a walk from a level is one from the root down the trail of the level,
  through as many lists more as there are around it. `resolve_of_trail` says so of a whole path.
* `Blueprint.exists_key`, `exists_computed`, `exists_external` and `exists_attachment`: what the
  metadata registers is found.
-/

namespace NestedRecord

open Fields (get? has entries)

/-- Where the names differ, an attribute is found under its name. -/
theorem Node.attribute?_of_mem {node : Node} (hnodup : (node.attributes.map (·.name)).Nodup)
    {decl : AttributeDecl} (hdecl : decl ∈ node.attributes) :
    node.attribute? decl.name = some decl := by
  have hsome : (node.attribute? decl.name).isSome := by
    rw [Node.attribute?, List.find?_isSome]
    exact ⟨decl, hdecl, decide_eq_true rfl⟩
  obtain ⟨found, hfound⟩ := Option.isSome_iff_exists.mp hsome
  have hname : found.name = decl.name := by simpa using List.find?_some hfound
  rw [hfound, List.inj_on_of_nodup_map hnodup (List.mem_of_find?_eq_some hfound) hdecl hname]

namespace Resolver

variable {resolver : Resolver} {path root : String} {node below : Node} {decl : AttributeDecl}
  {child : String}

theorem next?_of_value (hdecl : node.attribute? decl.name = some decl)
    (hchild : decl.child = none) : resolver.next? node decl.name = some (decl, none) := by
  simp [next?, hdecl, hchild]

theorem next?_of_level (hdecl : node.attribute? decl.name = some decl)
    (hchild : decl.child = some child) (hbelow : resolver.node? child = some below) :
    resolver.next? node decl.name = some (decl, some below) := by
  simp [next?, hdecl, hchild, hbelow]

/-- A walk from the root is what the path resolves to, if no name is empty. -/
theorem resolve_of_walks {resolved : ResolvedPath} (hroot : resolver.node? root = some node)
    (hnames : ∀ name ∈ segments path, name ≠ "")
    (h : resolver.Walks path node (segments path) resolved) :
    resolver.resolve root path = .ok resolved := by
  apply Except.eq_ok_of_toOption
  have hnone : ¬ (segments path).any (·.isEmpty) := by
    simpa using fun hempty => hnames "" hempty rfl
  rw [toOption_resolve, if_neg hnone, hroot]
  exact h.walk?_eq

end Resolver

namespace Flattening

variable {s : Flattening} {root name : String} {names : List String} {top : Node}

/-- A name that is one name of a dotted path. -/
def PlainName (name : String) : Prop := name ≠ "" ∧ '.' ∉ name.toList

/-- The attribute names of every level differ, and each is one name of a dotted path. -/
def Plain (s : Flattening) : Prop :=
  ∀ name node, get? s.nodes name = some node → (node.attributes.map (·.name)).Nodup ∧
    ∀ decl ∈ node.attributes, PlainName decl.name

/-- What is walked from a level is walked from the root, too, down the trail of the level. -/
theorem walks_of_trail (hgrown : Grown root [] [] s) (hformed : Formed root [] s)
    (hplain : s.Plain) {resolver : Resolver}
    (hresolver : ∀ {name node}, get? s.nodes name = some node → resolver.node? name = some node)
    (htop : get? s.nodes root = some top) {path : String} (htrail : Trail s name names) :
    ∀ {node : Node} {rest : List String} {resolved : ResolvedPath},
      get? s.nodes name = some node → resolver.Walks path node rest resolved →
        ∃ whole, resolver.Walks path top (names.reverse ++ rest) whole ∧
          whole.isScalar = resolved.isScalar ∧
          whole.depth = node.nestingLevel + resolved.depth := by
  induction htrail with
  | @top name known level hroot =>
    intro node rest resolved hget hwalks
    obtain rfl : node = known := Option.some.inj ((level?_of_get? hget).symm.trans level)
    obtain rfl := hgrown.eq_root level hroot
    cases Option.some.inj (htop.symm.trans hget)
    exact ⟨resolved, hwalks, rfl, by rw [(hformed.top hget).2.1, Nat.zero_add]⟩
  | @inside name parent attr known names level up under rest ih =>
    intro node rest resolved hget hwalks
    obtain rfl : node = known := Option.some.inj ((level?_of_get? hget).symm.trans level)
    obtain ⟨around, decl, haround, hdecl, hchild, hattr⟩ := hgrown.exists_attribute level up
    obtain rfl : decl.name = attr := Option.some.inj (hattr.symm.trans under)
    have hdeclared := hgrown.declared haround
    -- the attribute that leads to the level is found by its name, as names are plain
    have hnext : resolver.next? around decl.name = some (decl, some node) :=
      Resolver.next?_of_level (Node.attribute?_of_mem (hplain _ _ haround).1 hdecl) hchild
        (hresolver hget)
    obtain ⟨hnesting, -⟩ := hformed.below level up haround
    rw [List.reverse_cons, List.append_assoc]
    cases hkind : node.kind with
    | array =>
      obtain ⟨whole, hwhole, hscalar, hdepth⟩ := ih haround
        (.list hdeclared hnext (by rw [Node.isArray, hkind]; rfl) hwalks)
      refine ⟨whole, hwhole, hscalar, ?_⟩
      rw [hdepth, hnesting, hkind, if_pos rfl, ResolvedPath.depth_inside, List.length_singleton,
        Nat.add_assoc]
    | object =>
      obtain ⟨whole, hwhole, hscalar, hdepth⟩ := ih haround
        (.object hdeclared hnext (by rw [Node.isArray, hkind]; rfl) hwalks)
      refine ⟨whole, hwhole, by rw [hscalar, ResolvedPath.isScalar_behind], ?_⟩
      rw [hdepth, hnesting, hkind, ResolvedPath.depth_behind]
      rfl

/-- The names of a trail are those of attributes. -/
theorem Trail.plainName (hgrown : Grown root [] [] s) (hplain : s.Plain)
    (htrail : Trail s name names) : ∀ attr ∈ names, PlainName attr := by
  intro attr hattr
  obtain ⟨parent, around, decl, haround, hdecl, rfl⟩ := htrail.declared hgrown attr hattr
  exact (hplain parent around haround).2 decl hdecl

/-- A path that goes on from a trail with one more name. -/
theorem resolve_of_trail (hgrown : Grown root [] [] s) (hformed : Formed root [] s)
    (hplain : s.Plain) {resolver : Resolver}
    (hresolver : ∀ {name node}, get? s.nodes name = some node → resolver.node? name = some node)
    {node : Node} (htrail : Trail s name names) (hget : get? s.nodes name = some node)
    {attr : String} (hattr : PlainName attr) {resolved : ResolvedPath}
    (hwalks : resolver.Walks (trailPath (attr :: names)) node [attr] resolved) :
    ∃ whole, resolver.resolve root (trailPath (attr :: names)) = .ok whole ∧
      whole.isScalar = resolved.isScalar ∧ whole.depth = node.nestingLevel + resolved.depth := by
  obtain ⟨top, htop, -⟩ := hgrown.top
  obtain ⟨whole, hwhole, hrest⟩ :=
    walks_of_trail hgrown hformed hplain hresolver htop htrail hget hwalks
  have hnames : ∀ other ∈ attr :: names, PlainName other :=
    List.forall_mem_cons.mpr ⟨hattr, htrail.plainName hgrown hplain⟩
  have hsegments := (segments_trailPath (List.cons_ne_nil attr names) hnames).2
  refine ⟨whole, Resolver.resolve_of_walks (hresolver htop) ?_ ?_, hrest⟩
  · rw [hsegments]
    exact fun other hother => (hnames other (List.mem_reverse.mp hother)).1
  · rw [hsegments, List.reverse_cons]
    exact hwhole

/-- A declared scalar attribute is found. -/
theorem exists_scalar (hgrown : Grown root [] [] s) (hformed : Formed root [] s) (hplain : s.Plain)
    {resolver : Resolver}
    (hresolver : ∀ {name node}, get? s.nodes name = some node → resolver.node? name = some node)
    {depth : Nat} (h : s.Declares name names depth) :
    ∃ resolved, resolver.resolve root (trailPath (name :: names)) = .ok resolved ∧
      resolved.isScalar = true ∧ resolved.depth = depth := by
  obtain ⟨level, node, decl, htrail, hget, rfl, hdecl, rfl, hchild⟩ := h
  obtain ⟨hnodup, hnames⟩ := hplain level node hget
  exact resolve_of_trail hgrown hformed hplain hresolver htrail hget (hnames decl hdecl)
    (.value (hgrown.declared hget)
      (Resolver.next?_of_value (Node.attribute?_of_mem hnodup hdecl) hchild))

/-- The path of a key attribute is the path of the attribute. -/
theorem keyFront_append :
    ∀ {names : List String}, (∀ name ∈ names, PlainName name) → ∀ attr : String,
      keyFront names ++ attr = trailPath (attr :: names)
  | [], _, attr => by simp [keyFront, trailPath, joinPath]
  | name :: rest, hnames, attr => by
    have hne := (segments_trailPath (List.cons_ne_nil name rest) hnames).1
    have hrest := keyFront_append (fun other hother => hnames other (List.mem_cons_of_mem _ hother))
      name
    have hjoin : trailPath (attr :: name :: rest) = trailPath (name :: rest) ++ "." ++ attr := by
      rw [trailPath, joinPath, if_neg (by simpa using hne)]
    rw [hjoin, ← hrest, keyFront]

end Flattening

namespace Blueprint

open Flattening

variable {blueprint : Blueprint} {store rootName : String} {descriptor : Descriptor}

/-- Where the walk over the descriptor ended, with all that is known there. -/
structure Finished (blueprint : Blueprint) (s : Flattening) : Prop where
  ends : blueprint.flattened.EndsIn s
  registered : Registered blueprint.flattened.root s
  bare : ∃ top, get? s.nodes blueprint.flattened.root = some top ∧ top.joinedStore = none
  metadata : ∃ columns, blueprint.metadata = { s.metadata with sortMandatory := columns }
  plain : s.Plain

/-- A flattened descriptor has a finished walk, with plain names at all levels. -/
theorem exists_finished (h : (flatten store rootName descriptor).1 = .ok blueprint.flattened)
    (hplain : blueprint.flattened.PlainNames) : ∃ s, blueprint.Finished s := by
  obtain ⟨s, hends, hregistered, hbare, hmetadata⟩ := Flattened.exists_registered_of_flatten h
  refine ⟨s, hends, hregistered, hbare, hmetadata, fun name node hget => ?_⟩
  exact hplain (name, node) (hends.nodes ▸ Fields.mem_of_get? hget)

namespace Finished

variable {s : Flattening}

theorem node?_strict (h : blueprint.Finished s) {name : String} {node : Node}
    (hget : get? s.nodes name = some node) :
    Resolver.node? { nodes := blueprint.flattened.nodes } name = some node := by
  rw [Resolver.node?, h.ends.nodes, hget, Option.some_or]

theorem node?_resolver (h : blueprint.Finished s) (name : String) :
    blueprint.resolver.node? name = s.level? name := by
  rw [resolver, Resolver.node?, level?, h.ends.nodes, h.ends.virtualNodes]

/-- A declared scalar attribute is found through declared levels. -/
theorem exists_scalar (h : blueprint.Finished s) {name : String} {names : List String} {depth : Nat}
    (hdeclares : s.Declares name names depth) :
    ∃ resolved, blueprint.resolveStrict (trailPath (name :: names)) = .ok resolved ∧
      resolved.isScalar = true ∧ resolved.depth = depth :=
  Flattening.exists_scalar h.ends.grown h.ends.formed h.plain (fun hget => h.node?_strict hget)
    hdeclares

theorem exists_registered (h : blueprint.Finished s) {path : String}
    (hpath : s.DeclaresScalar path) :
    ∃ resolved, blueprint.resolveStrict path = .ok resolved ∧ resolved.isScalar = true := by
  obtain ⟨name, names, depth, hdeclares, rfl⟩ := hpath
  obtain ⟨resolved, hresolved, hscalar, -⟩ := h.exists_scalar hdeclares
  exact ⟨resolved, hresolved, hscalar⟩

/-- A key attribute of the root is a scalar outside of lists. -/
theorem exists_key (h : blueprint.Finished s) {path : String}
    (hpath : path ∈ blueprint.metadata.primaryKey) :
    ∃ resolved, blueprint.resolveStrict path = .ok resolved ∧ resolved.isScalar = true ∧
      resolved.depth = 0 := by
  obtain ⟨columns, hmetadata⟩ := h.metadata
  rw [hmetadata] at hpath
  obtain ⟨name, names, hdeclares, rfl⟩ := h.registered.keys path hpath
  have hnames : ∀ other ∈ names, PlainName other := by
    obtain ⟨level, node, decl, htrail, -⟩ := hdeclares
    exact htrail.plainName h.ends.grown h.plain
  rw [keyFront_append hnames]
  exact h.exists_scalar hdeclares

/-- Computed fields are found. -/
theorem exists_computed (h : blueprint.Finished s) {computed : Computed}
    (hcomputed : computed ∈ blueprint.metadata.computeds) :
    ∃ resolved, blueprint.resolveStrict computed.path = .ok resolved ∧
      resolved.isScalar = true := by
  obtain ⟨columns, hmetadata⟩ := h.metadata
  rw [hmetadata] at hcomputed
  exact h.exists_registered (h.registered.computeds computed hcomputed)

/-- Targets of external aggregates are found. -/
theorem exists_external (h : blueprint.Finished s) {aggregate : ExternalAggregate}
    (haggregate : aggregate ∈ entries blueprint.metadata.externals) :
    ∃ resolved, blueprint.resolveStrict aggregate.target = .ok resolved ∧
      resolved.isScalar = true := by
  obtain ⟨columns, hmetadata⟩ := h.metadata
  rw [hmetadata] at haggregate
  exact h.exists_registered (h.registered.externals aggregate haggregate)

/-- A path that leads to a level through levels of any kind does so leniently. -/
theorem exists_lenient (h : blueprint.Finished s) {path : String} {resolved : ResolvedPath}
    (hresolve : blueprint.resolver.resolve blueprint.flattened.root path = .ok resolved)
    (hlevel : resolved.isScalar = false) :
    ∃ resolved, blueprint.resolveLenient path = .ok resolved ∧ resolved.isScalar = false := by
  cases hstrict : blueprint.resolveStrict path with
  | error unresolved => exact ⟨resolved, by rw [resolveLenient, hstrict]; exact hresolve, hlevel⟩
  | ok other =>
    have hlevels : blueprint.LevelsDeclared := fun name node hget =>
      h.ends.grown.declared (h.ends.nodes ▸ hget)
    obtain ⟨hleads, -, hnames, -⟩ := leads_of_strict hlevels hstrict
    obtain ⟨hleads', -, hnames'⟩ := leads_of_resolve hresolve
    have htarget := (hleads.eq_of_names hleads' (hnames.trans hnames'.symm)).2.2.1
    refine ⟨other, resolveLenient_of_strict hstrict, ?_⟩
    rw [ResolvedPath.isScalar, htarget]
    exact hlevel

/-- An attachment is a level, declared here or not. -/
theorem exists_attachment (h : blueprint.Finished s) {join : Join}
    (hjoin : join ∈ blueprint.metadata.attachments) :
    ∃ resolved, blueprint.resolveLenient join.path = .ok resolved ∧ resolved.isScalar = false := by
  obtain ⟨columns, hmetadata⟩ := h.metadata
  rw [hmetadata] at hjoin
  have hgrown := h.ends.grown
  obtain ⟨placed, hperm, -, hplaced⟩ := hgrown.attached
  obtain ⟨⟨child, join⟩, hentry, rfl⟩ := List.mem_map.mp (hperm.mem_iff.mp hjoin)
  obtain ⟨-, node, names, hlevel, hstore, -, htrail, hpath⟩ := hplaced _ hentry
  cases htrail with
  | top hlevel' hparent =>
    -- nothing is attached to the root
    obtain rfl := Option.some.inj (hlevel.symm.trans hlevel')
    obtain ⟨top, htop, hnone⟩ := h.bare
    rw [hgrown.eq_root hlevel hparent, level?_of_get? htop] at hlevel
    cases Option.some.inj hlevel
    rw [hnone] at hstore
    cases hstore
  | inside hlevel' up under rest =>
    obtain rfl := Option.some.inj (hlevel.symm.trans hlevel')
    obtain ⟨around, decl, haround, hdecl, hchild, hattr⟩ := hgrown.exists_attribute hlevel up
    obtain rfl := Option.some.inj (hattr.symm.trans under)
    obtain ⟨hnodup, hnames⟩ := h.plain _ around haround
    have hresolver : ∀ {name node}, get? s.nodes name = some node →
        blueprint.resolver.node? name = some node :=
      fun hget => (h.node?_resolver _).trans (level?_of_get? hget)
    obtain ⟨resolved, hresolve, hscalar, -⟩ := resolve_of_trail hgrown h.ends.formed h.plain
      hresolver rest haround (hnames decl hdecl) (.level (hgrown.declared haround)
        (Resolver.next?_of_level (Node.attribute?_of_mem hnodup hdecl) hchild
          ((h.node?_resolver child).trans hlevel)))
    rw [hpath]
    exact h.exists_lenient hresolve hscalar

end Finished

end Blueprint

end NestedRecord
