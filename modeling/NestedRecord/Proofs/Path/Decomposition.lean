import NestedRecord.Proofs.Graph.Tree

/-!
# What a resolved path tells of the graph

A path that resolves is cut at the lists it goes through, and nothing of it is lost. The resolver
notes the lists on its way, the walk over the descriptor noted at each level the lists around it,
and both come to the same.

* `Flattened.levelsOn` are the levels on the way that names go.
* `Flattened.Decomposes` says what a resolved path tells of its names, of the levels on its way
  and of the level at its end.
* `Flattened.Tells` is what of this names from any level on tell; `tells_cons` adds a name in front
  and `EndsIn.tells_of_walk?` is the induction along the walk.
* `Resolver.resolve_mono`: more levels do not change what a path resolves to.
* `Blueprint.decomposesPaths_of_flatten` is the result, for both ways of resolving.

The statement for a walk from any level on has to mention the lists around that level, since a level
knows all lists above it and a walk only those it has come through. At the root there are none, and
the two agree.
-/

namespace NestedRecord

open Fields (get?)

namespace Resolver

variable {resolver bigger : Resolver} {path : String} {resolved : ResolvedPath}

/-- A path that resolves does so in the same way where there are more levels. -/
theorem resolve_mono
    (hbigger : ∀ name node, resolver.node? name = some node → bigger.node? name = some node)
    {root : String} (h : resolver.resolve root path = .ok resolved) :
    bigger.resolve root path = .ok resolved := by
  have hsome := congrArg Except.toOption h
  apply Except.eq_ok_of_toOption
  rw [toOption_resolve] at hsome ⊢
  split at hsome
  · cases hsome
  · next hnames =>
    obtain ⟨node, hnode, hwalk⟩ := Option.bind_eq_some_iff.mp hsome
    rw [if_neg hnames, hbigger root node hnode]
    exact walk?_mono hbigger hwalk

end Resolver

namespace Flattened

/-- The level that the first attribute of a name leads to. -/
def below? (flattened : Flattened) (node : Node) (name : String) : Option Node :=
  ((node.attribute? name).bind (·.child)).bind (get? flattened.levels)

/-- The levels on the way that names go from a level on, this one included. The way ends where an
attribute leads to no level. -/
def levelsOn (flattened : Flattened) (node : Node) : List String → List Node
  | [] => [node]
  | name :: rest =>
    match flattened.below? node name with
    | some below => node :: levelsOn flattened below rest
    | none => [node]

/-- The names of the lists among levels. -/
def lists (levels : List Node) : List String := (levels.filter Node.isArray).map (·.uniqueName)

/-- What a resolved path tells of the graph. -/
structure Decomposes (flattened : Flattened) (path : String) (resolved : ResolvedPath) : Prop where
  /-- the accesses of the loops and the leaf are the names of the path -/
  names : resolved.loops.flatMap (·.access) ++ resolved.leaf = segments path
  access_ne_nil : ∀ loop ∈ resolved.loops, loop.access ≠ []
  /-- the loops are those of the lists entered before the last name, and the path is virtual if it
  enters a level of a joined store -/
  crossed : ∃ root, get? flattened.nodes flattened.root = some root ∧
    resolved.loops.map (·.key) = lists (flattened.levelsOn root (segments path).dropLast) ∧
    (resolved.isVirtual = true ↔
      ∃ node ∈ flattened.levelsOn root (segments path), node.isVirtual = true)
  /-- a value stands inside the lists around its owner, and inside the owner if that is a list -/
  owner : ∀ {name attr type}, resolved.target = .scalar name attr type →
    ∃ node, (name, node) ∈ flattened.levels ∧
      resolved.loops.map (·.key) = node.arrayAncestors ++ lists [node]
  /-- a level stands inside the lists around it -/
  level : ∀ {name kind}, resolved.target = .level name kind →
    ∃ node, (name, node) ∈ flattened.levels ∧ node.kind = kind ∧
      resolved.loops.map (·.key) = node.arrayAncestors

/-- What names from a level on tell of the levels below it. -/
structure Tells (flattened : Flattened) (node : Node) (names : List String)
    (resolved : ResolvedPath) : Prop where
  crossed : lists [node] ++ resolved.loops.map (·.key) =
    lists (flattened.levelsOn node names.dropLast)
  foreign : resolved.isVirtual = true ↔
    ∃ level ∈ flattened.levelsOn node names, level.isVirtual = true
  owner : ∀ {name attr type}, resolved.target = .scalar name attr type →
    ∃ owner, (name, owner) ∈ flattened.levels ∧
      node.arrayAncestors ++ (lists [node] ++ resolved.loops.map (·.key)) =
        owner.arrayAncestors ++ lists [owner]
  level : ∀ {name kind}, resolved.target = .level name kind →
    ∃ level, (name, level) ∈ flattened.levels ∧ level.kind = kind ∧
      node.arrayAncestors ++ (lists [node] ++ resolved.loops.map (·.key)) = level.arrayAncestors

variable {flattened : Flattened} {s : Flattening} {name : String} {node below : Node}
  {rest : List String}

/-- A name that leads to a level goes on from there. -/
theorem levelsOn_of_some (h : flattened.below? node name = some below) :
    flattened.levelsOn node (name :: rest) = node :: flattened.levelsOn below rest := by
  rw [levelsOn, h]

theorem levelsOn_of_none (h : flattened.below? node name = none) :
    flattened.levelsOn node (name :: rest) = [node] := by
  rw [levelsOn, h]

theorem lists_append (front back : List Node) : lists (front ++ back) = lists front ++ lists back := by
  rw [lists, List.filter_append, List.map_append]
  rfl

theorem lists_cons (first : Node) (levels : List Node) :
    lists (first :: levels) = lists [first] ++ lists levels :=
  lists_append [first] levels

/-- A list below is one more loop, an object is passed through. -/
theorem keys_step (child : Node) (name : String) (inner : ResolvedPath) :
    (if child.isArray then inner.inside [⟨child.uniqueName, [name]⟩]
      else inner.behind [name]).loops.map (·.key) =
        lists [child] ++ inner.loops.map (·.key) := by
  cases harray : child.isArray with
  | true => simp [ResolvedPath.inside, lists, harray]
  | false =>
    obtain ⟨path, loops, leaf, target, isVirtual⟩ := inner
    cases loops <;> simp [ResolvedPath.behind, lists, harray]

/-- What names tell from the level below is what one more name tells from the level above. -/
theorem tells_cons {inner : ResolvedPath}
    (hbelow : flattened.below? node name = some below) (hvirtual : node.isVirtual = false)
    (hancestors : below.arrayAncestors = node.arrayAncestors ++ lists [node])
    (hrest : rest ≠ []) (h : flattened.Tells below rest inner) :
    flattened.Tells node (name :: rest)
      (if below.isArray then inner.inside [⟨below.uniqueName, [name]⟩]
        else inner.behind [name]) := by
  -- where a path leads does not depend on what is in front of it
  have htarget : (if below.isArray then inner.inside [⟨below.uniqueName, [name]⟩]
      else inner.behind [name]).target = inner.target := by
    split <;> simp
  have hforeign : (if below.isArray then inner.inside [⟨below.uniqueName, [name]⟩]
      else inner.behind [name]).isVirtual = inner.isVirtual := by
    split <;> simp
  constructor
  case crossed =>
    rw [keys_step, h.crossed, List.dropLast_cons_of_ne_nil hrest, levelsOn_of_some hbelow]
    exact (lists_cons node _).symm
  case foreign =>
    rw [hforeign, h.foreign, levelsOn_of_some hbelow]
    simp [hvirtual]
  case owner =>
    intro owner attr type howner
    rw [htarget] at howner
    rw [keys_step, ← List.append_assoc, ← hancestors]
    exact h.owner howner
  case level =>
    intro level kind hlevel
    rw [htarget] at hlevel
    rw [keys_step, ← List.append_assoc, ← hancestors]
    exact h.level hlevel

namespace EndsIn

open Flattening

theorem get?_levels (h : flattened.EndsIn s) (name : String) :
    get? flattened.levels name = s.level? name := by
  rw [levels, Fields.get?_append, h.nodes, h.virtualNodes, level?]

/-- The resolver goes on to the level below an attribute. -/
theorem below?_of_next? (h : flattened.EndsIn s) {decl : AttributeDecl} {child : Option Node}
    (hnext : Resolver.next? { nodes := s.nodes, virtualNodes := s.virtualNodes } node name =
      some (decl, child)) : flattened.below? node name = child := by
  obtain ⟨found, hfound, hstep⟩ := Option.bind_eq_some_iff.mp hnext
  rw [below?, hfound, Option.bind_some]
  cases hkey : found.child with
  | none =>
    rw [hkey] at hstep
    exact (Prod.mk.inj (Option.some.inj hstep)).2
  | some key =>
    rw [hkey] at hstep
    obtain ⟨known, hknown, heq⟩ := Option.map_eq_some_iff.mp hstep
    rw [Option.bind_some, h.get?_levels]
    exact hknown.trans (Prod.mk.inj heq).2

/-- A level of a joined store has no attributes. -/
theorem below?_of_virtual (h : flattened.EndsIn s) (hlevel : s.level? name = some node)
    (hvirtual : node.isVirtual = true) (attr : String) : flattened.below? node attr = none := by
  have hnone : node.attributes = [] := by
    cases hget : get? s.nodes name with
    | some known =>
      obtain rfl : known = node := Option.some.inj ((level?_of_get? hget).symm.trans hlevel)
      rw [h.grown.declared hget] at hvirtual
      cases hvirtual
    | none =>
      rw [level?, hget, Option.none_or] at hlevel
      exact (h.formed.bare hlevel).1
  rw [below?, Node.attribute?, hnone]
  rfl

/-- The lists around a level that stands under an attribute of another one. -/
theorem arrayAncestors_of_parent (h : flattened.EndsIn s) {parent : String}
    (hparent : s.level? parent = some node) (hlevel : s.level? name = some below)
    (hup : below.parentName = some parent) :
    below.arrayAncestors = node.arrayAncestors ++ lists [node] := by
  obtain ⟨around, -, haround, -⟩ := h.grown.exists_attribute hlevel hup
  obtain rfl : around = node := Option.some.inj ((level?_of_get? haround).symm.trans hparent)
  rw [(h.formed.below hlevel hup haround).2, lists, List.filter_singleton]
  cases around.isArray with
  | true => simp [h.grown.named hparent]
  | false => rfl

/-- What names tell from a level on, one name after the other. -/
theorem tells_of_walk? (h : flattened.EndsIn s) {path : String} {names : List String}
    {resolved : ResolvedPath} (hlevel : s.level? name = some node)
    (hwalk : Resolver.walk? { nodes := s.nodes, virtualNodes := s.virtualNodes } path node names =
      some resolved) : flattened.Tells node names resolved := by
  have hmem {name : String} {node : Node} (hlevel : s.level? name = some node) :
      (node.uniqueName, node) ∈ flattened.levels := by
    rw [h.grown.named hlevel]
    exact h.mem_levels_iff.mpr hlevel
  rw [Resolver.walk?_eq_some_iff] at hwalk
  induction hwalk generalizing name with
  | @foreign node _ _ foreign =>
    -- whatever follows is read inside the records of the joined store
    have hon (names : List String) : flattened.levelsOn node names = [node] := by
      cases names with
      | nil => rfl
      | cons next names => exact levelsOn_of_none (h.below?_of_virtual hlevel foreign next)
    refine ⟨by rw [hon]; simp, by simp [hon, foreign], ?_, fun htarget => nomatch htarget⟩
    intro owner attr type htarget
    cases htarget
    exact ⟨node, hmem hlevel, by simp⟩
  | @value node _ _ declared next =>
    refine ⟨by simp [levelsOn], by simp [levelsOn_of_none (h.below?_of_next? next), declared], ?_,
      fun htarget => nomatch htarget⟩
    intro owner attr type htarget
    cases htarget
    exact ⟨node, hmem hlevel, by simp⟩
  | @level node child _ _ declared next =>
    obtain ⟨key, hchild, -, hup, -⟩ := exists_level_of_next? h.grown hlevel declared next
    refine ⟨by simp [levelsOn], ?_, fun htarget => (nomatch htarget), ?_⟩
    · rw [levelsOn_of_some (h.below?_of_next? next)]
      simp [levelsOn, declared]
    intro level kind htarget
    cases htarget
    exact ⟨child, hmem hchild, rfl, by simp [h.arrayAncestors_of_parent hlevel hchild hup]⟩
  | list declared next array inner ih =>
    obtain ⟨key, hchild, -, hup, -⟩ := exists_level_of_next? h.grown hlevel declared next
    have htells := tells_cons (h.below?_of_next? next) declared
      (h.arrayAncestors_of_parent hlevel hchild hup) inner.ne_nil (ih hchild)
    rwa [if_pos array] at htells
  | object declared next object inner ih =>
    obtain ⟨key, hchild, -, hup, -⟩ := exists_level_of_next? h.grown hlevel declared next
    have htells := tells_cons (h.below?_of_next? next) declared
      (h.arrayAncestors_of_parent hlevel hchild hup) inner.ne_nil (ih hchild)
    rwa [if_neg (by simp [object])] at htells

end EndsIn

end Flattened

namespace Blueprint

variable {blueprint : Blueprint}

/-- What is resolved, with or without the levels of joined stores, tells of the graph. -/
structure DecomposesPaths (blueprint : Blueprint) : Prop where
  strict : ∀ {path resolved}, blueprint.resolveStrict path = .ok resolved →
    blueprint.flattened.Decomposes path resolved
  lenient : ∀ {path resolved},
    blueprint.resolver.resolve blueprint.flattened.root path = .ok resolved →
      blueprint.flattened.Decomposes path resolved
  /-- a path through declared levels is followed in the same way when joined stores are, too -/
  agree : ∀ {path resolved}, blueprint.resolveStrict path = .ok resolved →
    blueprint.resolver.resolve blueprint.flattened.root path = .ok resolved
  resolveLenient_eq : ∀ path,
    blueprint.resolveLenient path = blueprint.resolver.resolve blueprint.flattened.root path

/-- A path that resolves strictly resolves leniently, in the same way. -/
theorem resolve_of_strict {path : String} {resolved : ResolvedPath}
    (h : blueprint.resolveStrict path = .ok resolved) :
    blueprint.resolver.resolve blueprint.flattened.root path = .ok resolved := by
  refine Resolver.resolve_mono (fun name node hnode => ?_) h
  rw [Resolver.node?, Fields.get?_nil, Option.or_none] at hnode
  rw [Resolver.node?, resolver, hnode, Option.some_or]

/-- Every path that resolves in a flattened descriptor is cut at the lists on its way. -/
theorem decomposesPaths_of_flatten {store rootName : String} {descriptor : Descriptor}
    (h : (flatten store rootName descriptor).1 = .ok blueprint.flattened) :
    blueprint.DecomposesPaths := by
  obtain ⟨s, hends⟩ := Flattened.exists_endsIn_of_flatten h
  obtain ⟨top, htop, -⟩ := hends.grown.top
  obtain ⟨hkind, -, hancestors⟩ := hends.formed.top htop
  -- what a walk from the root tells of its path, as no list lies around the root
  have hlenient {path : String} {resolved : ResolvedPath}
      (hresolve : blueprint.resolver.resolve blueprint.flattened.root path = .ok resolved) :
      blueprint.flattened.Decomposes path resolved := by
    obtain ⟨node, hnode, hwalk⟩ := Resolver.walk?_of_resolve hresolve
    rw [resolver, hends.nodes, hends.virtualNodes] at hnode hwalk
    have hlevel := Flattening.level?_of_get? htop
    obtain rfl : top = node := Option.some.inj (hlevel.symm.trans hnode)
    have htells := hends.tells_of_walk? hlevel hwalk
    have hobject : Flattened.lists [top] = [] := by
      simp [Flattened.lists, Node.isArray, hkind]
    constructor
    case names => exact Resolver.walk?_names hwalk
    case access_ne_nil => exact (Resolver.walk?_ne_nil hwalk).2
    case crossed =>
      refine ⟨top, by rw [hends.nodes]; exact htop, ?_, htells.foreign⟩
      rw [← htells.crossed, hobject, List.nil_append]
    case owner =>
      intro name attr type htarget
      obtain ⟨node, hmem, hkeys⟩ := htells.owner htarget
      rw [hancestors, hobject] at hkeys
      exact ⟨node, hmem, hkeys⟩
    case level =>
      intro name kind htarget
      obtain ⟨node, hmem, hkind, hkeys⟩ := htells.level htarget
      rw [hancestors, hobject] at hkeys
      exact ⟨node, hmem, hkind, hkeys⟩
  constructor
  case strict => exact fun hstrict => hlenient (resolve_of_strict hstrict)
  case lenient => exact hlenient
  case agree => exact resolve_of_strict
  case resolveLenient_eq =>
    intro path
    rw [resolveLenient]
    split
    · next hstrict => exact (resolve_of_strict hstrict).symm
    · rfl

/-- The lines of notes stand in two lists, with an object between them; what is read of an order
stands in a list of another store. -/
theorem decomposesPaths_of_flatten_parcels : ∃ blueprint : Blueprint,
    (flatten "shop" "main" Flattened.parcels).1 = .ok blueprint.flattened ∧
    (blueprint.resolveStrict "parcels.address.notes.line").toOption.map
      (fun resolved => (resolved.loops, resolved.leaf)) =
        some ([⟨"parcels1", ["parcels"]⟩, ⟨"notes3", ["address", "notes"]⟩], ["line"]) ∧
    (blueprint.resolveLenient "parcels.orders.item.price").toOption.map
      (fun resolved => (resolved.loops, resolved.leaf, resolved.isVirtual)) =
        some ([⟨"parcels1", ["parcels"]⟩, ⟨"orders4", ["orders"]⟩], ["item", "price"], true) ∧
    blueprint.DecomposesPaths := by
  have hall : (flatten "shop" "main" Flattened.parcels).1.toOption.map (fun flattened =>
      let blueprint : Blueprint := { flattened, config := {} }
      ((blueprint.resolveStrict "parcels.address.notes.line").toOption.map
          (fun resolved => (resolved.loops, resolved.leaf)),
        (blueprint.resolveLenient "parcels.orders.item.price").toOption.map
          (fun resolved => (resolved.loops, resolved.leaf, resolved.isVirtual)))) =
      some (some ([⟨"parcels1", ["parcels"]⟩, ⟨"notes3", ["address", "notes"]⟩], ["line"]),
        some ([⟨"parcels1", ["parcels"]⟩, ⟨"orders4", ["orders"]⟩], ["item", "price"], true)) := by
    decide +kernel
  obtain ⟨flattened, hflatten, hall⟩ := Option.map_eq_some_iff.mp hall
  obtain ⟨hstrict, hlenient⟩ := Prod.mk.inj hall
  have hok := Except.eq_ok_of_toOption hflatten
  exact ⟨{ flattened, config := {} }, hok, hstrict, hlenient, decomposesPaths_of_flatten hok⟩

end Blueprint

end NestedRecord
