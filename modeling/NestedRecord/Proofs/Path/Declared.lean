import NestedRecord.Proofs.Descriptor.Declarations
import NestedRecord.Proofs.Graph.Portrait
import NestedRecord.Proofs.Path.Completeness
import NestedRecord.Proofs.Store.Compiled

/-!
# Paths that resolve are paths of declared attributes

The walk over a descriptor and the resolver describe the same tree: a path resolves exactly if its
names lead to a declared attribute, and then to that attribute.

* `Descriptor.Declares` says what a descriptor declares under names, `Flattened.StandsAt` which
  level stands under names, and `Flattened.IsTarget` what a path to something declared leads to.
* `Resolver.target?` is what the resolver finds when loops are left aside.
* `Drawn.target?_of_declares` and `Drawn.leads_of_target?` compare the two level by level;
  `Blueprint.resolvesDeclared_of_flatten` is the result for whole paths.

Descriptor and graph are followed together, since neither can be reached from the other: a drawing
says which level stands for which part of a descriptor, and one step under it is one step in both. A
name can be followed in one way only as names differ at each level. Below an attachment there is no
drawing any more, and the resolver takes all names there.
-/

namespace NestedRecord

open Fields (get? has)

/-- What is declared under a path. -/
inductive Declared where
  | scalar (type : Option ScalarType)
  /-- a nested object or list; a foreign one has no descriptor of its own -/
  | level (kind : NodeKind) (foreign : Bool)

/-- Whether it is a join attachment whose shape belongs to another store. -/
def Declared.isForeign : Declared → Bool
  | .scalar _ => false
  | .level _ foreign => foreign

/-- A descriptor declares something under names. -/
inductive Descriptor.Declares : Descriptor → List String → Declared → Prop
  | scalar {attributes : List (String × Attribute Descriptor)} {name : String}
      {directives : List (Directive Descriptor)} {tuple : Tuple Descriptor}
      (mem : (name, .tuple directives) ∈ attributes)
      (read : Tuple.ofDirectives directives = .ok tuple) (plain : tuple.isNested = false) :
      Declares (.mk attributes) [name] (.scalar tuple.scalarType)
  | level {attributes : List (String × Attribute Descriptor)} {name : String}
      {directives : List (Directive Descriptor)} {tuple : Tuple Descriptor} {kind : NodeKind}
      (mem : (name, .tuple directives) ∈ attributes)
      (read : Tuple.ofDirectives directives = .ok tuple) (nesting : tuple.nesting = some kind) :
      Declares (.mk attributes) [name] (.level kind tuple.nested.isNone)
  | inside {attributes : List (String × Attribute Descriptor)} {name : String}
      {directives : List (Directive Descriptor)} {tuple : Tuple Descriptor} {inner : Descriptor}
      {names : List String} {declared : Declared} (mem : (name, .tuple directives) ∈ attributes)
      (read : Tuple.ofDirectives directives = .ok tuple) (nested : tuple.nested = some inner)
      (rest : Declares inner names declared) : Declares (.mk attributes) (name :: names) declared

/-- The level of a name stands under names, from the root on. -/
inductive Flattened.StandsAt (flattened : Flattened) : String → List String → Prop
  | top : StandsAt flattened flattened.root []
  | inside {name child : String} {names : List String} {around : Node} {decl : AttributeDecl}
      (rest : StandsAt flattened name names) (haround : (name, around) ∈ flattened.nodes)
      (hdecl : decl ∈ around.attributes) (hchild : decl.child = some child) :
      StandsAt flattened child (names ++ [decl.name])

/-- What a path to something declared leads to: a scalar attribute of the level that it stands at,
or the level that stands under the path, which is one of an attached store if it is foreign. -/
inductive Flattened.IsTarget (flattened : Flattened) : List String → Declared → Target → Prop
  | scalar {level : String} {node : Node} {decl : AttributeDecl} {names : List String}
      (stands : flattened.StandsAt level names) (owner : (level, node) ∈ flattened.nodes)
      (mem : decl ∈ node.attributes) :
      IsTarget flattened (names ++ [decl.name]) (.scalar decl.scalarType)
        (.scalar level decl.name decl.scalarType)
  | level {level : String} {node : Node} {names : List String} {foreign : Bool}
      (stands : flattened.StandsAt level names)
      (entered : (level, node) ∈ if foreign then flattened.virtualNodes else flattened.nodes) :
      IsTarget flattened names (.level node.kind foreign) (.level level node.kind)

/-- What names below a level lead to, if paths into joined stores are followed or not. -/
inductive Flattened.Leads (flattened : Flattened) (descriptor : Descriptor) (foreign : Bool)
    (front : List String) : List String → Target → Prop
  | declared {names : List String} {declared : Declared} {target : Target}
      (declares : descriptor.Declares names declared)
      (seen : declared.isForeign = true → foreign = true)
      (leads : flattened.IsTarget (front ++ names) declared target) :
      Leads flattened descriptor foreign front names target
  /-- below an attachment every further name is one of a scalar -/
  | beyond {names rest : List String} {kind : NodeKind} {level : String} (seen : foreign = true)
      (declares : descriptor.Declares names (.level kind true))
      (leads : flattened.IsTarget (front ++ names) (.level kind true) (.level level kind))
      (further : rest ≠ []) (named : ∀ name ∈ rest, name ≠ "") :
      Leads flattened descriptor foreign front (names ++ rest)
        (.scalar level (ofSegments rest) none)

theorem Descriptor.Declares.ne_nil {descriptor : Descriptor} {names : List String}
    {declared : Declared} (h : descriptor.Declares names declared) : names ≠ [] := by
  cases h <;> exact List.cons_ne_nil _ _

/-! ## What names lead to -/

namespace Resolver

variable {resolver : Resolver} {path root : String} {node : Node}

/-- What names lead to from a level on. -/
def target? (resolver : Resolver) (node : Node) : List String → Option Target
  | [] => none
  | name :: rest =>
    if node.isVirtual then
      some (.scalar node.uniqueName (ofSegments (name :: rest)) none)
    else
      match resolver.next? node name with
      | none => none
      | some (decl, none) =>
        if rest = [] then some (.scalar node.uniqueName decl.name decl.scalarType) else none
      | some (_, some child) =>
        if rest = [] then some (.level child.uniqueName child.kind) else target? resolver child rest

variable {name : String} {rest : List String} {decl : AttributeDecl} {child : String} {below : Node}

/-- Names lead to a single value only if it is the last of them. -/
theorem target?_scalar (hdeclared : node.isVirtual = false)
    (hdecl : node.attribute? name = some decl) (hchild : decl.child = none) :
    resolver.target? node (name :: rest) =
      if rest = [] then some (.scalar node.uniqueName decl.name decl.scalarType) else none := by
  simp [target?, hdeclared, next?, hdecl, hchild]

theorem target?_nested (hdeclared : node.isVirtual = false)
    (hdecl : node.attribute? name = some decl) (hchild : decl.child = some child) :
    resolver.target? node (name :: rest) = (resolver.node? child).bind fun below =>
      if rest = [] then some (.level below.uniqueName below.kind)
      else resolver.target? below rest := by
  cases hbelow : resolver.node? child <;> simp [target?, hdeclared, next?, hdecl, hchild, hbelow]

theorem target?_virtual (hvirtual : node.isVirtual = true) (hrest : rest ≠ []) :
    resolver.target? node rest = some (.scalar node.uniqueName (ofSegments rest) none) := by
  obtain ⟨name, others, rfl⟩ := List.exists_cons_of_ne_nil hrest
  simp [target?, hvirtual]

/-- The target of a walk is what its names lead to. -/
theorem target_walk? (names : List String) : ∀ node : Node,
    (resolver.walk? path node names).map (·.target) = resolver.target? node names := by
  induction names with
  | nil => exact fun node => rfl
  | cons name rest ih =>
    intro node
    unfold walk? target?
    cases node.isVirtual with
    | true => rfl
    | false =>
      simp only [Bool.false_eq_true, if_false]
      cases resolver.next? node name with
      | none => rfl
      | some step =>
        obtain ⟨decl, child?⟩ := step
        cases child? with
        | none => cases rest <;> rfl
        | some child =>
          cases rest with
          | nil => rfl
          | cons next rest =>
            simp only [reduceCtorEq, if_false]
            rw [← ih child, Option.map_map]
            congr 1
            funext below
            show (if child.isArray then below.inside _ else below.behind _).target = below.target
            split <;> simp

/-- A path resolves to what its names lead to, if none is empty. -/
theorem resolve_iff_target? {target : Target} :
    (∃ resolved, resolver.resolve root path = .ok resolved ∧ resolved.target = target) ↔
      (∀ name ∈ segments path, name ≠ "") ∧ ∃ node, resolver.node? root = some node ∧
        resolver.target? node (segments path) = some target := by
  have hsome : (∃ resolved, resolver.resolve root path = .ok resolved ∧
      resolved.target = target) ↔
      (resolver.resolve root path).toOption.map (·.target) = some target := by
    cases resolver.resolve root path <;> simp [Except.toOption]
  have hempty : (segments path).any (·.isEmpty) = true ↔ ¬ ∀ name ∈ segments path, name ≠ "" := by
    simp
  rw [hsome, toOption_resolve]
  by_cases hnames : ∀ name ∈ segments path, name ≠ ""
  · rw [if_neg fun h => hempty.mp h hnames, Option.map_bind, Option.bind_eq_some_iff]
    simp only [Function.comp_apply, target_walk?]
    exact (and_iff_right hnames).symm
  · rw [if_pos (hempty.mpr hnames)]
    simp [hnames]

end Resolver

/-! ## Names of a drawing -/

/-- The resolver that follows paths into joined stores or not. -/
def Flattening.resolver (s : Flattening) (foreign : Bool) : Resolver where
  nodes := s.nodes
  virtualNodes := if foreign then s.virtualNodes else []

variable {flattened : Flattened} {s : Flattening} {foreign : Bool} {descriptor : Descriptor}
  {names front : List String} {key : String} {node : Node} {level : Level}

namespace Flattened

/-- The attribute names of every level differ. -/
def DistinctNames (flattened : Flattened) : Prop :=
  ∀ entry ∈ flattened.nodes, (entry.2.attributes.map (·.name)).Nodup

theorem PlainNames.distinct (h : flattened.PlainNames) : flattened.DistinctNames :=
  fun entry hentry => (h entry hentry).1

theorem EndsIn.nodup_names (h : flattened.EndsIn s) (hdistinct : flattened.DistinctNames)
    (hget : get? s.nodes key = some node) : (node.attributes.map (·.name)).Nodup :=
  hdistinct _ (h.mem_nodes_iff.mpr hget)

/-- A declared level is found, whether others are looked for or not. -/
theorem EndsIn.node?_declared (hget : get? s.nodes key = some node) :
    (s.resolver foreign).node? key = some node := by
  rw [Resolver.node?, Flattening.resolver, hget, Option.some_or]

theorem EndsIn.named_of_foreign (h : flattened.EndsIn s)
    (hget : get? s.virtualNodes key = some node) : node.uniqueName = key :=
  h.grown.named (by rw [Flattening.level?, h.get?_nodes_of_foreign hget, Option.none_or, hget])

/-- A level of a joined store is found only if it is looked for. -/
theorem EndsIn.node?_foreign (h : flattened.EndsIn s) (hget : get? s.virtualNodes key = some node) :
    (s.resolver foreign).node? key = if foreign then some node else none := by
  rw [Resolver.node?, Flattening.resolver, h.get?_nodes_of_foreign hget, Option.none_or]
  cases foreign with
  | true => exact hget
  | false => rfl

/-- A name that leads to a declared level. -/
theorem EndsIn.target?_level (h : flattened.EndsIn s) {name child : String} {decl : AttributeDecl}
    {below : Node} (hget : get? s.nodes key = some node)
    (hattr : node.attribute? name = some decl) (hchild : decl.child = some child)
    (entered : get? s.nodes child = some below) (rest : List String) :
    (s.resolver foreign).target? node (name :: rest) =
      if rest = [] then some (.level child below.kind)
      else (s.resolver foreign).target? below rest := by
  rw [Resolver.target?_nested (h.grown.declared hget) hattr hchild, node?_declared entered,
    Option.bind_some, h.grown.named (Flattening.level?_of_get? entered)]

/-- A name that leads to a level of a joined store. -/
theorem EndsIn.target?_attachment (h : flattened.EndsIn s) {name child : String}
    {decl : AttributeDecl} {below : Node} (hget : get? s.nodes key = some node)
    (hattr : node.attribute? name = some decl) (hchild : decl.child = some child)
    (entered : get? s.virtualNodes child = some below) (rest : List String) :
    (s.resolver foreign).target? node (name :: rest) =
      if foreign then
        some (if rest = [] then .level child below.kind else .scalar child (ofSegments rest) none)
      else none := by
  rw [Resolver.target?_nested (h.grown.declared hget) hattr hchild, h.node?_foreign entered]
  cases foreign with
  | false => rfl
  | true =>
    have hnamed := h.named_of_foreign entered
    by_cases hrest : rest = []
    · simp [hrest, hnamed]
    · simp [hrest, hnamed, Resolver.target?_virtual (h.grown.foreign entered) hrest]

/-- One level stands under names. -/
theorem StandsAt.unique (h : flattened.EndsIn s) (hdistinct : flattened.DistinctNames)
    {a b : String}
    (ha : flattened.StandsAt a names) (hb : flattened.StandsAt b names) : a = b := by
  induction ha generalizing b with
  | top =>
    generalize hnil : ([] : List String) = names at hb
    cases hb with
    | top => rfl
    | inside => simp at hnil
  | @inside name child names around decl rest haround hdecl hchild ih =>
    generalize hnames : names ++ [decl.name] = names' at hb
    cases hb with
    | top => simp at hnames
    | @inside name' _ _ around' decl' rest' haround' hdecl' hchild' =>
      obtain ⟨rfl, hlast⟩ := List.append_inj' hnames rfl
      obtain rfl := ih rest'
      rw [h.mem_nodes_iff] at haround haround'
      obtain rfl := Option.some.inj (haround.symm.trans haround')
      have hname : decl.name = decl'.name := List.singleton_inj.mp hlast
      obtain rfl := List.inj_on_of_nodup_map (h.nodup_names hdistinct haround) hdecl hdecl' hname
      exact Option.some.inj (hchild.symm.trans hchild')

/-- A level stands where its trail comes from. -/
theorem StandsAt.of_trail (h : flattened.EndsIn s) {trail : List String}
    (htrail : s.Trail key trail) : flattened.StandsAt key trail.reverse := by
  induction htrail with
  | top level hroot =>
    obtain rfl := h.grown.eq_root level hroot
    exact .top
  | inside level up under rest ih =>
    obtain ⟨around, decl, haround, hdecl, hchild, hattr⟩ := h.grown.exists_attribute level up
    obtain rfl := Option.some.inj (under.symm.trans hattr)
    rw [List.reverse_cons]
    exact .inside ih (h.mem_nodes_iff.mpr haround) hdecl hchild

/-- A level stands under one sequence of names. -/
theorem StandsAt.names_unique (h : flattened.EndsIn s) {names' : List String}
    (hstands : flattened.StandsAt key names) (hstands' : flattened.StandsAt key names') :
    names = names' := by
  obtain ⟨top, htop, hnone⟩ := h.grown.top
  have hbelow {name child : String} {around : Node} {decl : AttributeDecl}
      (haround : (name, around) ∈ flattened.nodes) (hdecl : decl ∈ around.attributes)
      (hchild : decl.child = some child) : ∃ below, s.level? child = some below ∧
        below.parentName = some name ∧ below.nameInParent = some decl.name :=
    h.grown.child (h.mem_nodes_iff.mp haround) hdecl hchild
  -- the outermost level has no parent, so no attribute leads to it
  have hroot {name : String} {around : Node} {decl : AttributeDecl}
      (haround : (name, around) ∈ flattened.nodes) (hdecl : decl ∈ around.attributes) :
      decl.child ≠ some flattened.root := by
    intro hchild
    obtain ⟨below, hlevel, hup, -⟩ := hbelow haround hdecl hchild
    obtain rfl : top = below :=
      Option.some.inj ((Flattening.level?_of_get? htop).symm.trans hlevel)
    rw [hnone] at hup
    cases hup
  induction hstands generalizing names' with
  | top =>
    cases hstands' with
    | top => rfl
    | inside rest haround hdecl hchild => exact absurd hchild (hroot haround hdecl)
  | inside rest haround hdecl hchild ih =>
    cases hstands' with
    | top => exact absurd hchild (hroot haround hdecl)
    | inside rest' haround' hdecl' hchild' =>
      obtain ⟨below, hlevel, hup, hunder⟩ := hbelow haround hdecl hchild
      obtain ⟨below', hlevel', hup', hunder'⟩ := hbelow haround' hdecl' hchild'
      obtain rfl : below = below' := Option.some.inj (hlevel.symm.trans hlevel')
      obtain rfl := Option.some.inj (hup.symm.trans hup')
      rw [ih rest', Option.some.inj (hunder.symm.trans hunder')]

/-- Names lead to one target. -/
theorem IsTarget.unique (h : flattened.EndsIn s) (hplain : flattened.PlainNames)
    {declared : Declared} {target target' : Target} (ht : flattened.IsTarget names declared target)
    (ht' : flattened.IsTarget names declared target') : target = target' := by
  cases ht with
  | @scalar level node decl names stands =>
    generalize hnames : names ++ [decl.name] = names' at ht'
    generalize htype : decl.scalarType = type at ht'
    cases ht' with
    | scalar stands' =>
      obtain ⟨rfl, hlast⟩ := List.append_inj' hnames rfl
      rw [stands.unique h hplain.distinct stands', List.singleton_inj.mp hlast]
  | @level level node names foreign stands =>
    generalize hkind : node.kind = kind at ht'
    cases ht' with
    | level stands' => rw [stands.unique h hplain.distinct stands']

end Flattened

open Flattened (StandsAt IsTarget Leads)

/-- The visit of an attribute of a drawn level, with what is declared for it there. -/
theorem Drawn.exists_visited {attributes : List (String × Attribute Descriptor)}
    (h : flattened.EndsIn s) (hdistinct : flattened.DistinctNames)
    (hdrawn : Drawn s (.mk attributes) key level) (hget : get? s.nodes key = some node)
    {entry : String × Attribute Descriptor} (hentry : entry ∈ attributes) :
    ∃ visited, AttributeDrawn s (Drawn s) entry visited ∧ visited.decl ∈ node.attributes ∧
      node.attribute? entry.1 = some visited.decl := by
  cases hdrawn with
  | @mk _ _ known visited entered declared drawn =>
    cases Option.some.inj (hget.symm.trans entered)
    obtain ⟨attr, hattr, hdrawn⟩ := exists_of_forall₂_right drawn.flip hentry
    have hmem : attr.decl ∈ node.attributes := declared ▸ List.mem_map_of_mem hattr
    refine ⟨attr, hdrawn, hmem, ?_⟩
    rw [← hdrawn.name_eq]
    exact Node.attribute?_of_mem (h.nodup_names hdistinct hget) hmem

/-- An attribute of a drawn level comes from the descriptor. -/
theorem Drawn.exists_entry {attributes : List (String × Attribute Descriptor)}
    (hdrawn : Drawn s (.mk attributes) key level) (hget : get? s.nodes key = some node)
    {decl : AttributeDecl} (hdecl : decl ∈ node.attributes) :
    ∃ entry ∈ attributes, ∃ visited, AttributeDrawn s (Drawn s) entry visited ∧
      visited.decl = decl := by
  cases hdrawn with
  | @mk _ _ known visited entered declared drawn =>
    cases Option.some.inj (hget.symm.trans entered)
    rw [declared] at hdecl
    obtain ⟨attr, hattr, rfl⟩ := List.mem_map.mp hdecl
    obtain ⟨entry, hentry, hdrawn⟩ := exists_of_forall₂_right drawn hattr
    exact ⟨entry, hentry, attr, hdrawn, rfl⟩

/-- The names of a drawn descriptor are those of its levels. -/
theorem Drawn.levels {p : List String → Prop}
    (hnames : ∀ {name node}, get? s.nodes name = some node → p (node.attributes.map (·.name))) :
    ∀ (descriptor : Descriptor) {name : String} {level : Level}, Drawn s descriptor name level →
      descriptor.Levels p := by
  refine Descriptor.levels_induction fun attributes ih => ?_
  intro name level hdrawn
  cases hdrawn with
  | @mk _ _ node visited entered declared drawn =>
    refine .mk ?_ fun {attr directives tuple inner} mem read nested => ?_
    · have hsame : attributes.map (·.1) = node.attributes.map (·.name) := by
        rw [declared, List.map_map]
        exact (AttributeDrawn.names_eq drawn).symm
      exact hsame ▸ hnames entered
    · obtain ⟨attrVisited, -, hattr⟩ := exists_of_forall₂_right drawn.flip mem
      obtain ⟨child, -, below, -, -, hbelow, -⟩ := hattr.exists_level read nested
      exact ih _ mem directives rfl inner (Tuple.mem_of_nested read nested) hbelow

/-- What holds of the attribute names of each level of the graph holds of the descriptor's. -/
theorem Flattened.levels_of_flatten {store rootName : String} {p : List String → Prop}
    (h : (flatten store rootName descriptor).1 = .ok flattened)
    (hnames : ∀ entry ∈ flattened.nodes, p (entry.2.attributes.map (·.name))) :
    descriptor.Levels p := by
  obtain ⟨s, level, hends, hdrawn, -⟩ := exists_drawn h
  exact hdrawn.levels fun hget => hnames _ (hends.mem_nodes_iff.mpr hget)

/-- What is declared below a drawn level is found there, and below an attachment everything is. -/
theorem Drawn.target?_of_declares (h : flattened.EndsIn s) (hplain : flattened.PlainNames)
    {declared : Declared} (hdeclares : descriptor.Declares names declared)
    (hseen : declared.isForeign = true → foreign = true) :
    ∀ {key : String} {level : Level} {node : Node} {front : List String},
      Drawn s descriptor key level → get? s.nodes key = some node → flattened.StandsAt key front →
      ∃ target, (s.resolver foreign).target? node names = some target ∧
        flattened.IsTarget (front ++ names) declared target ∧
        ∀ kind level, declared = .level kind true → target = .level level kind →
          ∀ rest, rest ≠ [] → (s.resolver foreign).target? node (names ++ rest) =
            some (.scalar level (ofSegments rest) none) := by
  induction hdeclares with
  | @scalar attributes name directives tuple mem read plain =>
    intro key level node front hdrawn hget hstands
    obtain ⟨visited, hvisited, hdecl, hattr⟩ := hdrawn.exists_visited h hplain.distinct hget mem
    obtain rfl := hvisited.eq_of_plain read plain
    refine ⟨_, (Resolver.target?_scalar (h.grown.declared hget) hattr rfl).trans (if_pos rfl), ?_,
      fun kind level heq => nomatch heq⟩
    rw [h.grown.named (Flattening.level?_of_get? hget)]
    exact .scalar hstands (h.mem_nodes_iff.mpr hget) hdecl
  | @level attributes name directives tuple kind mem read nesting =>
    intro key level node front hdrawn hget hstands
    obtain ⟨visited, hvisited, hdecl, hattr⟩ := hdrawn.exists_visited h hplain.distinct hget mem
    cases hnested : tuple.nested with
    | some inner =>
      obtain ⟨child, below, _, entered, kept, -, rfl⟩ := hvisited.exists_level read hnested
      cases Option.some.inj (nesting.symm.trans kept)
      exact ⟨_, (h.target?_level hget hattr rfl entered []).trans (if_pos rfl),
        .level (.inside hstands (h.mem_nodes_iff.mpr hget) hdecl rfl) (h.mem_nodes_iff.mpr entered),
        fun kind level heq => nomatch heq⟩
    | none =>
      obtain ⟨child, below, entered, rfl, rfl⟩ := hvisited.exists_attachment read nesting hnested
      obtain rfl : foreign = true := hseen (by simp [Declared.isForeign, hnested])
      have htarget (rest : List String) :=
        (h.target?_attachment hget hattr rfl entered rest).trans (if_pos rfl)
      refine ⟨_, htarget [], .level (.inside hstands (h.mem_nodes_iff.mpr hget) hdecl rfl)
        (h.virtualNodes ▸ Fields.mem_of_get? entered), fun kind' level _ heq rest hrest => ?_⟩
      obtain ⟨rfl, -⟩ := Target.level.inj heq
      exact (htarget rest).trans (congrArg some (if_neg hrest))
  | @inside attributes name directives tuple inner names declared mem read nested rest ih =>
    intro key level node front hdrawn hget hstands
    obtain ⟨visited, hvisited, hdecl, hattr⟩ := hdrawn.exists_visited h hplain.distinct hget mem
    obtain ⟨child, below, _, entered, -, drawn, rfl⟩ := hvisited.exists_level read nested
    -- behind the first name both go on from the level below
    have hnext {others : List String} (hothers : others ≠ []) :
        (s.resolver foreign).target? node (name :: others) =
          (s.resolver foreign).target? below others :=
      (h.target?_level hget hattr rfl entered others).trans (if_neg hothers)
    obtain ⟨target, htarget, hleads, hbeyond⟩ := ih hseen drawn entered
      (.inside hstands (h.mem_nodes_iff.mpr hget) hdecl rfl)
    rw [List.append_assoc] at hleads
    refine ⟨target, (hnext rest.ne_nil).trans htarget, hleads,
      fun kind level heq hlevel others hothers => ?_⟩
    exact (hnext (List.append_ne_nil_of_left_ne_nil rest.ne_nil _)).trans
      (hbeyond kind level heq hlevel others hothers)

/-- What a level leads to its parent leads to by one name more. -/
theorem Flattened.Leads.inside {attributes : List (String × Attribute Descriptor)} {name : String}
    {directives : List (Directive Descriptor)} {tuple : Tuple Descriptor} {inner : Descriptor}
    {target : Target} (mem : (name, .tuple directives) ∈ attributes)
    (read : Tuple.ofDirectives directives = .ok tuple) (nested : tuple.nested = some inner)
    (h : flattened.Leads inner foreign (front ++ [name]) names target) :
    flattened.Leads (.mk attributes) foreign front (name :: names) target := by
  cases h with
  | declared declares seen leads =>
    rw [List.append_assoc] at leads
    exact .declared (.inside mem read nested declares) seen leads
  | beyond seen declares leads further named =>
    rw [List.append_assoc] at leads
    exact .beyond seen (.inside mem read nested declares) leads further named

/-- What is found below a drawn level is declared there, or lies below an attachment. -/
theorem Drawn.leads_of_target? (h : flattened.EndsIn s) :
    ∀ (descriptor : Descriptor) {key : String} {level : Level} {node : Node}
      {front names : List String} {target : Target},
      Drawn s descriptor key level → get? s.nodes key = some node → flattened.StandsAt key front →
      (∀ name ∈ names, name ≠ "") → (s.resolver foreign).target? node names = some target →
      flattened.Leads descriptor foreign front names target := by
  refine Descriptor.levels_induction fun attributes ih => ?_
  intro key level node front names target hdrawn hget hstands hnames htarget
  have hdeclared := h.grown.declared hget
  cases names with
  | nil => cases htarget
  | cons name rest =>
    have hrest (other : String) (hother : other ∈ rest) : other ≠ "" :=
      hnames other (List.mem_cons_of_mem _ hother)
    cases hattr : node.attribute? name with
    | none => simp [Resolver.target?, hdeclared, Resolver.next?, hattr] at htarget
    | some decl =>
      have hname : decl.name = name := by simpa using List.find?_some hattr
      have hdecl := List.mem_of_find?_eq_some hattr
      obtain ⟨⟨name', attr⟩, hentry, visited, hvisited, rfl⟩ := hdrawn.exists_entry hget hdecl
      obtain rfl : name' = name := hvisited.name_eq.symm.trans hname
      -- a value ends the names, a level is gone into, an attachment takes all that are left
      cases hvisited with
      | scalar read plain =>
        rw [Resolver.target?_scalar hdeclared hattr rfl] at htarget
        split at htarget
        · next hnone =>
          subst hnone
          obtain rfl := Option.some.inj htarget
          rw [h.grown.named (Flattening.level?_of_get? hget)]
          exact .declared (.scalar hentry read plain)
            (fun hforeign => absurd hforeign Bool.false_ne_true)
            (.scalar hstands (h.mem_nodes_iff.mpr hget) hdecl)
        · cases htarget
      | @level _ child _ tuple kind inner below _ read nesting nested entered kept drawn =>
        have hdeclares := Descriptor.Declares.level hentry read (kept ▸ nesting)
        rw [nested] at hdeclares
        have hbelow : flattened.StandsAt child (front ++ [name']) :=
          .inside hstands (h.mem_nodes_iff.mpr hget) hdecl rfl
        rw [h.target?_level hget hattr rfl entered] at htarget
        split at htarget
        · next hnone =>
          subst hnone
          obtain rfl := Option.some.inj htarget
          exact .declared hdeclares (fun hforeign => absurd hforeign Bool.false_ne_true)
            (.level hbelow (h.mem_nodes_iff.mpr entered))
        · exact .inside hentry read nested (ih _ hentry _ rfl inner
            (Tuple.mem_of_nested read nested) drawn entered hbelow hrest htarget)
      | @attachment _ child _ tuple kind below read nesting nested entered kept =>
        have hdeclares := Descriptor.Declares.level hentry read (kept ▸ nesting)
        rw [nested] at hdeclares
        have hleads : flattened.IsTarget (front ++ [name']) (.level below.kind true)
            (.level child below.kind) :=
          .level (.inside hstands (h.mem_nodes_iff.mpr hget) hdecl rfl)
            (h.virtualNodes ▸ Fields.mem_of_get? entered)
        rw [h.target?_attachment hget hattr rfl entered] at htarget
        split at htarget
        · next hforeign =>
          obtain rfl := Option.some.inj htarget
          split
          · next hnone => exact hnone ▸ .declared hdeclares (fun _ => hforeign) hleads
          · next hsome => exact .beyond hforeign hdeclares hleads hsome hrest
        · cases htarget

/-- Declared names are those of attributes, so none is empty. -/
theorem Drawn.ne_empty_of_declares (h : flattened.EndsIn s) (hplain : flattened.PlainNames)
    {declared : Declared} (hdeclares : descriptor.Declares names declared) :
    ∀ {key : String} {level : Level} {node : Node}, Drawn s descriptor key level →
      get? s.nodes key = some node → ∀ name ∈ names, name ≠ "" := by
  have hfirst {attributes : List (String × Attribute Descriptor)} {key : String} {level : Level}
      {node : Node} {entry : String × Attribute Descriptor}
      (hdrawn : Drawn s (.mk attributes) key level) (hget : get? s.nodes key = some node)
      (hentry : entry ∈ attributes) : entry.1 ≠ "" := by
    obtain ⟨visited, hvisited, hdecl, -⟩ := hdrawn.exists_visited h hplain.distinct hget hentry
    rw [← hvisited.name_eq]
    exact ((hplain _ (h.mem_nodes_iff.mpr hget)).2 _ hdecl).1
  induction hdeclares with
  | scalar mem =>
    intro key level node hdrawn hget
    exact List.forall_mem_singleton.mpr (hfirst hdrawn hget mem)
  | level mem =>
    intro key level node hdrawn hget
    exact List.forall_mem_singleton.mpr (hfirst hdrawn hget mem)
  | @inside attributes name directives tuple inner names declared mem read nested rest ih =>
    intro key level node hdrawn hget
    obtain ⟨visited, hvisited, -⟩ := hdrawn.exists_visited h hplain.distinct hget mem
    obtain ⟨child, below, _, entered, -, drawn, -⟩ := hvisited.exists_level read nested
    exact List.forall_mem_cons.mpr ⟨hfirst hdrawn hget mem, ih drawn entered⟩

namespace Flattened

/-- A path resolves exactly to what its names lead to. -/
theorem EndsIn.resolve_iff_leads (h : flattened.EndsIn s) (hplain : flattened.PlainNames)
    (hdrawn : Drawn s descriptor flattened.root level) {path : String} {target : Target} :
    (∃ resolved, (s.resolver foreign).resolve flattened.root path = .ok resolved ∧
      resolved.target = target) ↔
        flattened.Leads descriptor foreign [] (segments path) target := by
  obtain ⟨top, htop, -⟩ := h.grown.top
  rw [Resolver.resolve_iff_target?]
  constructor
  · rintro ⟨hnames, node, hnode, htarget⟩
    rw [node?_declared htop] at hnode
    cases Option.some.inj hnode
    exact hdrawn.leads_of_target? h descriptor htop .top hnames htarget
  · intro hleads
    generalize segments path = names at hleads ⊢
    cases hleads with
    | declared declares seen leads =>
      obtain ⟨other, hother, hleads, -⟩ :=
        hdrawn.target?_of_declares h hplain declares seen htop .top
      refine ⟨hdrawn.ne_empty_of_declares h hplain declares htop, top, node?_declared htop, ?_⟩
      rw [leads.unique h hplain hleads]
      exact hother
    | beyond seen declares leads further named =>
      obtain ⟨other, -, hleads, hbeyond⟩ :=
        hdrawn.target?_of_declares h hplain declares (fun _ => seen) htop .top
      refine ⟨List.forall_mem_append.mpr
        ⟨hdrawn.ne_empty_of_declares h hplain declares htop, named⟩, top, node?_declared htop, ?_⟩
      exact hbeyond _ _ rfl (hleads.unique h hplain leads) _ further

end Flattened

/-- Paths resolve exactly to what a descriptor declares. -/
structure Blueprint.ResolvesDeclared (blueprint : Blueprint) (descriptor : Descriptor) : Prop where
  /-- Through declared levels every declared attribute is found but attachments of foreign shape. -/
  strict : ∀ path target,
    (∃ resolved, blueprint.resolveStrict path = .ok resolved ∧ resolved.target = target) ↔
      ∃ declared, descriptor.Declares (segments path) declared ∧ declared.isForeign = false ∧
        blueprint.flattened.IsTarget (segments path) declared target
  /-- Into joined stores every declared attribute is found, and every path below an attachment. -/
  lenient : ∀ path target,
    (∃ resolved, blueprint.resolver.resolve blueprint.flattened.root path = .ok resolved ∧
      resolved.target = target) ↔
        (∃ declared, descriptor.Declares (segments path) declared ∧
          blueprint.flattened.IsTarget (segments path) declared target) ∨
        ∃ names rest kind level, segments path = names ++ rest ∧ rest ≠ [] ∧
          (∀ name ∈ rest, name ≠ "") ∧ descriptor.Declares names (.level kind true) ∧
          blueprint.flattened.IsTarget names (.level kind true) (.level level kind) ∧
          target = .scalar level (ofSegments rest) none
  /-- Every declared attribute is there to be found. -/
  total : ∀ names declared, descriptor.Declares names declared →
    ∃ target, blueprint.flattened.IsTarget names declared target

/-- Where the attributes of every level have names of their own, and none is empty or holds a point,
the walk over a descriptor and the resolver describe the same tree. -/
theorem Blueprint.resolvesDeclared_of_flatten {blueprint : Blueprint} {store rootName : String}
    {descriptor : Descriptor}
    (h : (flatten store rootName descriptor).1 = .ok blueprint.flattened)
    (hplain : blueprint.flattened.PlainNames) : blueprint.ResolvesDeclared descriptor := by
  obtain ⟨s, level, hends, hdrawn, -⟩ := Flattened.exists_drawn h
  have hresolve (foreign : Bool) (path : String) (target : Target) :
      (∃ resolved, (s.resolver foreign).resolve blueprint.flattened.root path = .ok resolved ∧
        resolved.target = target) ↔
          blueprint.flattened.Leads descriptor foreign [] (segments path) target :=
    hends.resolve_iff_leads hplain hdrawn
  have hstrict : ({ nodes := blueprint.flattened.nodes } : Resolver) = s.resolver false := by
    rw [hends.nodes]
    rfl
  have hlenient : blueprint.resolver = s.resolver true := by
    rw [resolver, hends.nodes, hends.virtualNodes]
    rfl
  refine ⟨fun path target => ?_, fun path target => ?_, fun names declared hdeclares => ?_⟩
  · rw [resolveStrict, hstrict, hresolve]
    generalize segments path = names
    constructor
    · intro hleads
      cases hleads with
      | declared declares seen leads =>
        exact ⟨_, declares, Bool.eq_false_iff.mpr fun h => Bool.noConfusion (seen h), leads⟩
      | beyond seen => cases seen
    · rintro ⟨declared, declares, hforeign, leads⟩
      exact .declared declares (fun h => absurd h (Bool.eq_false_iff.mp hforeign)) leads
  · rw [hlenient, hresolve]
    generalize segments path = names
    constructor
    · intro hleads
      cases hleads with
      | declared declares seen leads => exact .inl ⟨_, declares, leads⟩
      | beyond seen declares leads further named =>
        exact .inr ⟨_, _, _, _, rfl, further, named, declares, leads, rfl⟩
    · rintro (⟨declared, declares, leads⟩ |
        ⟨front, rest, kind, level, rfl, further, named, declares, leads, rfl⟩)
      · exact .declared declares (fun _ => rfl) leads
      · exact .beyond rfl declares leads further named
  · obtain ⟨top, htop, -⟩ := hends.grown.top
    obtain ⟨target, -, hleads, -⟩ :=
      hdrawn.target?_of_declares hends hplain hdeclares (fun _ => rfl) htop .top
    exact ⟨target, hleads⟩

/-- In a shop the notes of parcels resolve and so does everything about their orders, the latter
through joined stores only. -/
theorem Blueprint.resolvesDeclared_of_flatten_parcels : ∃ blueprint : Blueprint,
    (flatten "shop" "main" Flattened.parcels).1 = .ok blueprint.flattened ∧
    blueprint.flattened.PlainNames ∧
    (blueprint.resolveStrict "parcels.address.notes").toOption.map (·.target) =
      some (.level "notes3" .array) ∧
    (blueprint.resolveStrict "parcels.orders").toOption.map (·.target) = none ∧
    (blueprint.resolver.resolve blueprint.flattened.root "parcels.orders.item.price").toOption.map
      (·.target) = some (.scalar "orders4" "item.price" none) ∧
    blueprint.ResolvesDeclared Flattened.parcels := by
  have hall : (flatten "shop" "main" Flattened.parcels).1.toOption.map (fun flattened =>
      let blueprint : Blueprint := { flattened, config := {} }
      (decide flattened.PlainNames,
        (blueprint.resolveStrict "parcels.address.notes").toOption.map (·.target),
        (blueprint.resolveStrict "parcels.orders").toOption.map (·.target),
        (blueprint.resolver.resolve blueprint.flattened.root
          "parcels.orders.item.price").toOption.map (·.target))) =
      some (true, some (.level "notes3" .array), none,
        some (.scalar "orders4" "item.price" none)) := by
    decide +kernel
  obtain ⟨flattened, hflatten, hall⟩ := Option.map_eq_some_iff.mp hall
  simp only [Prod.mk.injEq, decide_eq_true_eq] at hall
  have hok := Except.eq_ok_of_toOption hflatten
  exact ⟨{ flattened, config := {} }, hok, hall.1, hall.2.1, hall.2.2.1, hall.2.2.2,
    resolvesDeclared_of_flatten hok hall.1⟩

end NestedRecord
