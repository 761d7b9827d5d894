import NestedRecord.Proofs.Graph.Flattened

/-!
# The tree that a walk builds

The levels that the walk over a descriptor enters form a tree with the root in front, and each level
knows its place in it: how many lists there are around it and which, and which lists lie right
below it.

Levels are entered before their attributes are declared, so a level may be there without being an
inner node of any tree yet. As in `Ancestry` the invariant holds up to the opened levels. It does
not depend on the names that levels get, except that a free name is none of those in use: this is
what makes the order of entering an order of the tree.

* `Flattening.Formed` is the invariant of the walk. It says of a level that is still opened only
  what is known when it is entered.
* `Formed.enter` and `Formed.redraw` are the two ways in which the walk changes the graph.
* `LevelWalk.Forming` says that a walk keeps the invariant, `forming_fold` that the walk over a
  descriptor does.
-/

namespace NestedRecord

open Fields (get? has keys)

/-- The levels that the attributes of a level lead to. -/
def Node.children (node : Node) : List String := node.attributes.filterMap (·.child)

theorem Node.children_extend (node : Node) (decls : List AttributeDecl) :
    (node.extend decls).children = node.children ++ decls.filterMap (·.child) :=
  List.filterMap_append

/-- The outline of a level shows how many lists there are around it, and which. -/
theorem Node.nesting_of_outline {a b : Node} (h : a.outline = b.outline) :
    a.nestingLevel = b.nestingLevel ∧ a.arrayAncestors = b.arrayAncestors := by
  have hlevel : a.outline.nestingLevel = b.outline.nestingLevel := by rw [h]
  have hancestors : a.outline.arrayAncestors = b.outline.arrayAncestors := by rw [h]
  exact ⟨hlevel, hancestors⟩

namespace Flattening

variable {s s' : Flattening} {name root : String} {opened opened' pending : List String}

/-- Whether the level of a name is a declared list. -/
def isList (s : Flattening) (name : String) : Bool := (get? s.nodes name).any Node.isArray

/-- The invariant of the walk as to the tree. -/
structure Formed (root : String) (opened : List String) (s : Flattening) : Prop where
  first : (keys s.nodes).head? = some root
  distinct : (keys s.nodes ++ keys s.virtualNodes).Nodup
  waiting : opened.Nodup ∧ ∀ name ∈ opened, (s.level? name).isSome
  /-- no level is led to twice, and an opened one not yet -/
  once : ∀ {name node}, get? s.nodes name = some node →
    (node.children ++ opened).Nodup
  bare : ∀ {name node}, get? s.virtualNodes name = some node →
    node.attributes = [] ∧ node.childArrays = []
  before : ∀ {name node parent}, get? s.nodes name = some node → node.parentName = some parent →
    (keys s.nodes).idxOf parent < (keys s.nodes).idxOf name
  top : ∀ {node}, get? s.nodes root = some node → node.kind = .object ∧ node.nestingLevel = 0 ∧
    node.arrayAncestors = []
  /-- a level is one list deeper than the level around it if it is a list -/
  below : ∀ {name node parent around}, s.level? name = some node → node.parentName = some parent →
    get? s.nodes parent = some around →
      node.nestingLevel = around.nestingLevel + (if node.kind = .array then 1 else 0) ∧
      node.arrayAncestors = around.arrayAncestors ++ (if around.isArray then [parent] else [])
  arrays : ∀ {name node}, get? s.nodes name = some node →
    node.childArrays = node.children.filter s.isList
  keyed : ∀ {name node}, get? s.nodes name = some node → node.isArray = true → name ∉ opened →
    node.primaryKey ≠ []
  /-- a level has a conversion if a single value in it is converted -/
  converting : ∀ {name node decl}, get? s.nodes name = some node → decl ∈ node.attributes →
    decl.child = none → decl.conversion? ≠ none → node.conversions ≠ []

theorem not_mem_keys_of_fresh (h : s.level? name = none) :
    name ∉ keys s.nodes ++ keys s.virtualNodes := by
  rw [level?, Option.or_eq_none_iff] at h
  rw [List.mem_append, Fields.mem_keys_iff_has, Fields.mem_keys_iff_has, has, has, h.1, h.2]
  simp

/-- The names of the declared levels after one has been entered. -/
theorem keys_nodes_enter {node : Node} (hfresh : s.level? node.uniqueName = none) :
    keys (s.enter node).nodes =
      keys s.nodes ++ if node.isVirtual then [] else [node.uniqueName] := by
  have hnot := not_mem_keys_of_fresh hfresh
  rw [List.mem_append, not_or, Fields.mem_keys_iff_has, Bool.not_eq_true] at hnot
  unfold enter
  split
  · simp
  · show keys (Fields.set s.nodes node.uniqueName node) = _
    rw [Fields.set_of_not_has _ _ _ hnot.1, keys, List.map_append]
    rfl

/-- The names of the virtual levels after one has been entered. -/
theorem keys_virtualNodes_enter {node : Node} (hfresh : s.level? node.uniqueName = none) :
    keys (s.enter node).virtualNodes =
      keys s.virtualNodes ++ if node.isVirtual then [node.uniqueName] else [] := by
  have hnot : node.uniqueName ∉ keys s.virtualNodes := fun hmem =>
    not_mem_keys_of_fresh hfresh (List.mem_append_right _ hmem)
  rw [Fields.mem_keys_iff_has, Bool.not_eq_true] at hnot
  unfold enter
  split
  · show keys (Fields.set s.virtualNodes node.uniqueName node) = _
    rw [Fields.set_of_not_has _ _ _ hnot, keys, List.map_append]
    rfl
  · simp

/-- A level that is entered brings its name with it. -/
theorem keys_enter_perm {node : Node} (hfresh : s.level? node.uniqueName = none) :
    (keys (s.enter node).nodes ++ keys (s.enter node).virtualNodes).Perm
      (node.uniqueName :: (keys s.nodes ++ keys s.virtualNodes)) := by
  rw [keys_nodes_enter hfresh, keys_virtualNodes_enter hfresh]
  cases node.isVirtual with
  | true =>
    rw [if_pos rfl, if_pos rfl, List.append_nil, ← List.append_assoc]
    exact List.perm_append_singleton _ _
  | false =>
    rw [if_neg Bool.false_ne_true, if_neg Bool.false_ne_true, List.append_nil, List.append_assoc]
    exact List.perm_middle

/-- No level is entered around one that is there. -/
theorem parent_ne_of_fresh (hgrown : Grown root opened pending s) {fresh other parent : String}
    {node : Node} (hfresh : s.level? fresh = none) (hlevel : s.level? other = some node)
    (hparent : node.parentName = some parent) : parent ≠ fresh := by
  rintro rfl
  by_cases hroot : other = root
  · obtain ⟨top, htop, hnone⟩ := hgrown.top
    rw [hroot, level?_of_get? htop] at hlevel
    cases hlevel
    rw [hnone] at hparent
    cases hparent
  · obtain ⟨up, attr, hup, -, hhas⟩ := hgrown.inner hlevel hroot
    obtain rfl : up = parent := Option.some.inj (hup.symm.trans hparent)
    obtain ⟨around, haround⟩ := Fields.has_iff.mp hhas
    exact ne_of_fresh hfresh (level?_of_get? haround) rfl

/-- No attribute leads to a name that is free. -/
theorem child_ne_of_fresh (hgrown : Grown root opened pending s) {fresh other : String}
    {node : Node} (hfresh : s.level? fresh = none) (hget : get? s.nodes other = some node) :
    ∀ child ∈ node.children, child ≠ fresh := by
  intro child hchild
  obtain ⟨decl, hdecl, heq⟩ := List.mem_filterMap.mp hchild
  obtain ⟨below, hbelow, -⟩ := hgrown.child hget hdecl heq
  exact ne_of_fresh hfresh hbelow

theorem Formed.not_mem_opened (h : Formed root opened s) (hfresh : s.level? name = none) :
    name ∉ opened := by
  intro hmem
  obtain ⟨known, hknown⟩ := Option.isSome_iff_exists.mp (h.waiting.2 name hmem)
  exact ne_of_fresh hfresh hknown rfl

/-- A level that is entered stands behind all others. -/
theorem Formed.idxOf_lt_enter (h : Formed root opened s) {node around known : Node}
    {other parent parent' : String} (hfresh : s.level? node.uniqueName = none)
    (hparent : node.parentName = some parent) (haround : get? s.nodes parent = some around)
    (hknown : get? (s.enter node).nodes other = some known)
    (hparent' : known.parentName = some parent') :
    (keys (s.enter node).nodes).idxOf parent' < (keys (s.enter node).nodes).idxOf other := by
  have hmem : ∀ {other known}, get? s.nodes other = some known → other ∈ keys s.nodes :=
    fun hget => Fields.mem_keys_iff_has.mpr (Fields.has_iff.mpr ⟨_, hget⟩)
  rw [keys_nodes_enter hfresh]
  rcases get?_nodes_enter_cases hknown with ⟨-, rfl, rfl⟩ | hknown
  · obtain rfl : parent = parent' := Option.some.inj (hparent.symm.trans hparent')
    have hnot := not_mem_keys_of_fresh hfresh
    rw [List.mem_append, not_or] at hnot
    rw [List.idxOf_append_of_mem (hmem haround), List.idxOf_append_of_notMem hnot.1]
    exact Nat.lt_of_lt_of_le (List.idxOf_lt_length_of_mem (hmem haround)) (Nat.le_add_right _ _)
  · have hlt := h.before hknown hparent'
    have hmem' : parent' ∈ keys s.nodes :=
      List.idxOf_lt_length_iff.mp (Nat.lt_trans hlt (List.idxOf_lt_length_of_mem (hmem hknown)))
    rw [List.idxOf_append_of_mem (hmem hknown), List.idxOf_append_of_mem hmem']
    exact hlt

theorem Formed.distinct_enter (h : Formed root opened s) {node : Node}
    (hfresh : s.level? node.uniqueName = none) :
    (keys (s.enter node).nodes ++ keys (s.enter node).virtualNodes).Nodup :=
  (keys_enter_perm hfresh).nodup_iff.mpr
    (List.nodup_cons.mpr ⟨not_mem_keys_of_fresh hfresh, h.distinct⟩)

/-- Entering a level under a free name, next to the lists around it. -/
theorem Formed.enter (h : Formed root opened s) (hgrown : Grown root opened pending s)
    {node around : Node} {parent : String} (hfresh : s.level? node.uniqueName = none)
    (hempty : node.attributes = [] ∧ node.childArrays = [])
    (hparent : node.parentName = some parent) (haround : get? s.nodes parent = some around)
    (hnesting : node.nestingLevel = around.nestingLevel + (if node.kind = .array then 1 else 0) ∧
      node.arrayAncestors = around.arrayAncestors ++ (if around.isArray then [parent] else [])) :
    Formed root (node.uniqueName :: opened) (s.enter node) := by
  have hopened := List.nodup_cons.mpr ⟨h.not_mem_opened hfresh, h.waiting.1⟩
  constructor
  case first =>
    rw [keys_nodes_enter hfresh, List.head?_append, h.first]
    rfl
  case distinct => exact h.distinct_enter hfresh
  case waiting =>
    refine ⟨hopened, fun other hother => ?_⟩
    rw [level?_enter hfresh]
    split
    · rfl
    · next hne => exact h.waiting.2 other ((List.mem_cons.mp hother).resolve_left hne)
  -- what a level leads to is known already, and the fresh name is not
  case once =>
    intro other known hother
    rcases get?_nodes_enter_cases hother with ⟨-, -, rfl⟩ | hother
    · rw [Node.children, hempty.1]
      exact hopened
    · refine (List.Perm.nodup_iff List.perm_middle).mpr (List.nodup_cons.mpr ⟨?_, h.once hother⟩)
      rw [List.mem_append, not_or]
      exact ⟨fun hmem => child_ne_of_fresh hgrown hfresh hother _ hmem rfl,
        h.not_mem_opened hfresh⟩
  case bare =>
    intro other known hother
    rcases get?_virtualNodes_enter_cases hother with ⟨-, -, rfl⟩ | hother
    · exact hempty
    · exact h.bare hother
  case before =>
    intro other known parent' hother hparent'
    exact h.idxOf_lt_enter hfresh hparent haround hother hparent'
  case top =>
    intro known hroot
    obtain ⟨top, htop, -⟩ := hgrown.top
    cases Option.some.inj (hroot.symm.trans (get?_nodes_enter_of_some hfresh htop))
    exact h.top htop
  -- the new level stands in `around`; the others keep the parents that they had
  case below =>
    intro other known parent' around' hother hparent' haround'
    rcases level?_enter_cases hfresh hother with ⟨-, rfl⟩ | hother
    · obtain rfl : parent = parent' := Option.some.inj (hparent.symm.trans hparent')
      cases Option.some.inj (haround'.symm.trans (get?_nodes_enter_of_some hfresh haround))
      exact hnesting
    · rw [get?_nodes_enter_of_ne (parent_ne_of_fresh hgrown hfresh hother hparent')] at haround'
      exact h.below hother hparent' haround'
  case arrays =>
    intro other known hother
    rcases get?_nodes_enter_cases hother with ⟨-, -, rfl⟩ | hother
    · rw [Node.children, hempty.1, hempty.2]
      rfl
    · rw [h.arrays hother]
      refine List.filter_congr fun child hchild => ?_
      rw [isList, isList, get?_nodes_enter_of_ne (child_ne_of_fresh hgrown hfresh hother _ hchild)]
  case keyed =>
    intro other known hother harray hnot
    rw [List.mem_cons, not_or] at hnot
    rw [get?_nodes_enter_of_ne hnot.1] at hother
    exact h.keyed hother harray hnot.2
  case converting =>
    intro other known decl hother hdecl hscalar hconversion
    rcases get?_nodes_enter_cases hother with ⟨-, -, rfl⟩ | hother
    · rw [hempty.1] at hdecl
      cases hdecl
    · exact h.converting hother hdecl hscalar hconversion

/-- Adding attributes makes no level a list. -/
theorem isList_of_redraws {decls : List AttributeDecl} (h : Redraws name decls s s')
    (child : String) : s'.isList child = s.isList child := by
  have hmap : ∀ {a b : Option Node}, b.map Node.outline = a.map (fun node =>
      if child = name then (node.extend decls).outline else node.outline) →
        b.any Node.isArray = a.any Node.isArray := by
    intro a b hab
    cases a <;> cases b <;> simp only [Option.map_none, Option.map_some] at hab
    · rfl
    · cases hab
    · cases hab
    · rename_i known known'
      have houtline : known'.outline =
          (if child = name then known.extend decls else known).outline :=
        (Option.some.inj hab).trans (by split <;> rfl)
      have horigin := (origin_of_outline houtline).1
      exact congrArg (· == NodeKind.array) (congrArg (·.2.2.1) horigin)
  exact hmap (h.nodes child)

/-- No level is moved when attributes are added. -/
theorem nesting_of_redraws {decls : List AttributeDecl} (h : Redraws name decls s s')
    {other : String} {node' : Node} (hlevel : s'.level? other = some node') :
    ∃ node, s.level? other = some node ∧ node'.origin = node.origin ∧
      node'.nestingLevel = node.nestingLevel ∧ node'.arrayAncestors = node.arrayAncestors := by
  cases hget : get? s'.nodes other with
  | some known =>
    obtain rfl : known = node' := Option.some.inj ((level?_of_get? hget).symm.trans hlevel)
    obtain ⟨node, hnode, heq⟩ := exists_before_redraws h hget
    obtain ⟨hnesting, hancestors⟩ := Node.nesting_of_outline heq
    refine ⟨node, level?_of_get? hnode, (origin_of_outline heq).1, ?_, ?_⟩
    · rw [hnesting]
      split <;> rfl
    · rw [hancestors]
      split <;> rfl
  | none =>
    -- a level that is not declared has no attributes and is not redrawn
    have hnone := h.nodes other
    rw [hget, Option.map_none, eq_comm, Option.map_eq_none_iff] at hnone
    refine ⟨node', ?_, rfl, rfl, rfl⟩
    rw [level?, hget, Option.none_or, h.virtualNodes] at hlevel
    rw [level?, hnone, Option.none_or, hlevel]

/-- A declared level stood where it stands before attributes were added. -/
theorem exists_nesting_before {decls : List AttributeDecl} (h : Redraws name decls s s')
    {other : String} {node' : Node} (hget' : get? s'.nodes other = some node') :
    ∃ node, get? s.nodes other = some node ∧ node'.parentName = node.parentName ∧
      node'.kind = node.kind ∧ node'.nestingLevel = node.nestingLevel ∧
      node'.arrayAncestors = node.arrayAncestors := by
  obtain ⟨node, hget, -⟩ := exists_before_redraws h hget'
  obtain ⟨known, hlevel, horigin, hnesting, hancestors⟩ :=
    nesting_of_redraws h (level?_of_get? hget')
  cases Option.some.inj (hlevel.symm.trans (level?_of_get? hget))
  exact ⟨node, hget, congrArg (·.1) horigin, congrArg (·.2.2.1) horigin, hnesting, hancestors⟩

/-- Adding attributes to a level and noting the lists among what they lead to. What they lead to
is opened no longer. -/
theorem Formed.redraw {decls : List AttributeDecl} {arrays : List String}
    (h : Formed root opened s) (hredraws : Redraws name decls s s')
    (hnotes : Notes name arrays s s') (hopened : decls.filterMap (·.child) ++ opened' = opened)
    (harrays : arrays = (decls.filterMap (·.child)).filter s.isList)
    (hkeyed : ∀ child ∈ decls.filterMap (·.child), ∀ node, get? s.nodes child = some node →
      node.isArray = true → node.primaryKey ≠ [])
    (hconverting : ∀ decl ∈ decls, decl.child = none → decl.conversion? ≠ none →
      ∀ node, get? s'.nodes name = some node → node.conversions ≠ []) :
    Formed root opened' s' := by
  constructor
  case first =>
    rw [hnotes.keys]
    exact h.first
  case distinct =>
    rw [hnotes.keys, hredraws.virtualNodes]
    exact h.distinct
  case waiting =>
    refine ⟨(hopened ▸ h.waiting.1).sublist (List.sublist_append_right _ _), fun other hother => ?_⟩
    obtain ⟨known, hknown⟩ := Option.isSome_iff_exists.mp
      (h.waiting.2 other (hopened ▸ List.mem_append_right _ hother))
    obtain ⟨known', hknown', -⟩ := level?_of_redraws hredraws hknown
    exact Option.isSome_iff_exists.mpr ⟨known', hknown'⟩
  -- what the added attributes lead to is taken off what is opened
  case once =>
    intro other node' hget'
    obtain ⟨node, hget, heq⟩ := exists_before_redraws hredraws hget'
    have hattributes := (Node.same_of_outline heq).2.2.2
    have hsub : (node'.children ++ opened').Sublist (node.children ++ opened) := by
      rw [Node.children, hattributes, ← hopened]
      split
      · show ((node.extend decls).children ++ opened').Sublist _
        rw [Node.children_extend, List.append_assoc]
      · exact List.Sublist.append_left (List.sublist_append_right _ _) _
    exact (h.once hget).sublist hsub
  case bare =>
    intro other node hget
    exact h.bare (hredraws.virtualNodes ▸ hget)
  case before =>
    intro other node' parent hget' hparent
    obtain ⟨node, hget, hsame, -⟩ := exists_nesting_before hredraws hget'
    rw [hnotes.keys]
    exact h.before hget (hsame.symm.trans hparent)
  case top =>
    intro node' hget'
    obtain ⟨node, hget, -, hkind, hnesting, hancestors⟩ := exists_nesting_before hredraws hget'
    rw [hnesting, hancestors, hkind]
    exact h.top hget
  case below =>
    intro other node' parent around' hlevel' hparent haround'
    obtain ⟨node, hlevel, horigin, hnesting, hancestors⟩ := nesting_of_redraws hredraws hlevel'
    obtain ⟨around, haround, -, hkind, hnesting', hancestors'⟩ :=
      exists_nesting_before hredraws haround'
    have harray : around'.isArray = around.isArray := congrArg (· == NodeKind.array) hkind
    rw [hnesting, hancestors, hnesting', hancestors', harray,
      show node'.kind = node.kind from congrArg (·.2.2.1) horigin]
    exact h.below hlevel ((congrArg (·.1) horigin).symm.trans hparent) haround
  case arrays =>
    intro other node' hget'
    obtain ⟨node, hget, heq⟩ := exists_before_redraws hredraws hget'
    have hnoted := hnotes.arrays other
    rw [hget, hget', Option.map_some, Option.map_some, Option.some.injEq] at hnoted
    have hattributes := (Node.same_of_outline heq).2.2.2
    have hchildren : node'.children = (if other = name then node.extend decls else node).children :=
      congrArg (List.filterMap AttributeDecl.child) hattributes
    rw [hnoted, h.arrays hget, hchildren,
      show s'.isList = s.isList from funext (isList_of_redraws hredraws)]
    split
    · rw [Node.children_extend, List.filter_append, harrays]
    · rw [List.append_nil]
  -- a list that is opened no longer has its key by now, the others had theirs before
  case keyed =>
    intro other node' hget' harray hnot
    obtain ⟨node, hget, -, hkind, -⟩ := exists_nesting_before hredraws hget'
    have harray' : node.isArray = true := (congrArg (· == NodeKind.array) hkind).symm.trans harray
    have hkey : node.primaryKey ≠ [] := by
      by_cases hmem : other ∈ opened
      · rw [← hopened] at hmem
        exact hkeyed other ((List.mem_append.mp hmem).resolve_right hnot) node hget harray'
      · exact h.keyed hget harray' hmem
    obtain ⟨known, hknown, hretains⟩ := hnotes.retained hget
    cases Option.some.inj (hknown.symm.trans hget')
    exact hretains.keyed hkey
  case converting =>
    intro other node' decl hget' hdecl hscalar hconversion
    obtain ⟨node, hget, heq⟩ := exists_before_redraws hredraws hget'
    obtain ⟨known, hknown, hretains⟩ := hnotes.retained hget
    cases Option.some.inj (hknown.symm.trans hget')
    rcases (mem_attributes_of_outline heq).mp hdecl with hold | ⟨rfl, hnew⟩
    · exact hretains.converting (h.converting hget hold hscalar hconversion)
    · exact hconverting decl hnew hscalar hconversion _ hget'

/-- A step that adds no attributes. -/
theorem Formed.steady (h : Formed root opened s) (hredraws : Redraws name [] s s')
    (hnotes : Notes name [] s s') : Formed root opened s' :=
  h.redraw hredraws hnotes rfl rfl nofun nofun

end Flattening

/-! ## The walk -/

/-- A walk over a level keeps the tree well formed. -/
def LevelWalk.Forming (walk : LevelWalk) : Prop :=
  walk.Sound ∧ ∀ {root opened pending position s level s'},
    Flattening.Grown root opened pending s → Flattening.Formed root opened s →
      s.Stands position → walk position s = .ok level s' → Flattening.Formed root opened s'

namespace Walk

open Flattening

variable {s s' : Flattening} {root : String} {opened pending : List String}
  {store name : String} {position : Position}

/-- Entering a level below the level of a position. -/
theorem formed_enter (h : Formed root opened s) (hgrown : Grown root opened pending s)
    {parent : Node} {child : String} {kind : NodeKind} {attached : Option String}
    {foreign : Bool} {counter : Nat} (hparent : get? s.nodes position.node = some parent)
    (hfresh : s.level? child = none) :
    Formed root (child :: opened) (Flattening.enter { s with counter := counter }
      (childWith parent child name kind foreign attached)) := by
  have hunique : parent.uniqueName = position.node := hgrown.named (level?_of_get? hparent)
  have hcounter : Revises name [] s { s with counter := counter } :=
    .of_metadata rfl rfl (List.Perm.refl _) id
  have hfree : Flattening.level? { s with counter := counter }
      (childWith parent child name kind foreign attached).uniqueName = none := hfresh
  refine (h.steady hcounter.toRedraws (.of_nodes rfl)).enter (hgrown.steady hcounter) hfree
    ⟨rfl, rfl⟩ (congrArg some hunique) hparent ⟨rfl, ?_⟩
  rw [← hunique]
  rfl

/-- The level of a nested attribute before the attribute is declared: it is a list with a key, and
noted at the level around, or no list. -/
theorem formed_visitBelow {kind : NodeKind} {attached : Option String} {nested : Option LevelWalk}
    (hwalk : ∀ walk, nested = some walk → walk.Forming) (h : Formed root opened s)
    (hgrown : Grown root opened pending s) (hstands : s.Stands position) {below : Below}
    (hrun : visitBelow store position name kind attached nested s = .ok below s') :
    ∃ visited, Formed root (below.child :: opened) visited ∧
      Redraws position.node [] visited s' ∧
      Notes position.node ([below.child].filter visited.isList) visited s' ∧
      ∀ node, get? visited.nodes below.child = some node → node.isArray = true →
        node.primaryKey ≠ [] := by
  cases nested with
  | none =>
    obtain ⟨parent, counter, hparent, hfresh, rfl, -⟩ := visitVirtualLevel_eq_ok hrun
    have hnone : get? (Flattening.enter { s with counter := counter }
        (childWith parent below.child name kind true attached)).nodes below.child = none := by
      rw [get?_nodes_enter, if_neg fun hnew => Bool.noConfusion hnew.1]
      exact (Option.or_eq_none_iff.mp hfresh).1
    refine ⟨_, formed_enter h hgrown hparent hfresh, .of_nodes rfl rfl, ?_, fun node hget => ?_⟩
    · rw [List.filter_cons_of_neg, List.filter_nil]
      · exact .refl _
      · rw [isList, hnone]
        exact Bool.false_ne_true
    · rw [hnone] at hget
      cases hget
  | some walk =>
    obtain ⟨parent, counter, level, visited, hparent, hfresh, hlevel, hrevises, hnotes, hkey, -⟩ :=
      visitDeclaredLevel_eq_ok hrun
    have hentered : Nested root opened pending position name kind attached below.child s
        (Flattening.enter { s with counter := counter }
          (childWith parent below.child name kind false attached)) :=
      nested_enter hgrown hparent hfresh
    have hdeclared : has (Flattening.enter { s with counter := counter }
        (childWith parent below.child name kind false attached)).nodes below.child = true := by
      exact Fields.has_iff.mpr ⟨_, get?_nodes_enter_self rfl⟩
    have hstands' := stands_below hentered hstands hdeclared
    obtain ⟨hsound, hforming⟩ := hwalk walk rfl
    have hformed := hforming hentered.grown (formed_enter h hgrown hparent hfresh) hstands' hlevel
    obtain ⟨-, hgrows⟩ := hsound hentered.grown hstands' hlevel
    -- the level keeps the kind under which it was entered
    obtain ⟨node, hget⟩ := Fields.has_iff.mp (hgrows.nodes hdeclared)
    obtain ⟨entered, hlevel', -, -, hkind, -⟩ := hentered.level
    obtain ⟨known, hknown, horigin⟩ := hgrows.levels hlevel'
    obtain rfl : known = node := Option.some.inj (hknown.symm.trans (level?_of_get? hget))
    have hkind' : known.kind = kind := (congrArg (·.2.2.1) horigin).trans hkind
    refine ⟨visited, hformed, hrevises.toRedraws, ?_, fun node' hget' harray => ?_⟩
    · have hlist : visited.isList below.child = (kind == .array) := by
        rw [isList, hget, Option.any_some, Node.isArray, hkind']
      cases kind with
      | object => simpa [hlist] using hnotes
      | array => simpa [hlist] using hnotes
    · obtain rfl : known = node' := Option.some.inj (hget.symm.trans hget')
      rw [Node.isArray, hkind', beq_iff_eq] at harray
      obtain ⟨node'', hget'', hne⟩ := hkey harray
      obtain rfl : known = node'' := Option.some.inj (hget.symm.trans hget'')
      exact hne

/-- A nested attribute is declared when its level is in order. -/
theorem formed_visitNested {tuple : Tuple LevelWalk}
    (hwalk : ∀ walk, tuple.nested = some walk → walk.Forming) (h : Formed root opened s)
    (hgrown : Grown root opened pending s) (hstands : s.Stands position) {visited : Visited}
    (hrun : visitNested store position name tuple s = .ok visited s') :
    Formed root opened s' := by
  obtain ⟨kind, attached, below, s₁, s₂, s₃, s₄, hbefore, hbelow, hjoin, hafter, hdeclare,
    hnotes, -⟩ := visitNested_eq_ok hrun
  obtain ⟨hrevises, hnone⟩ := hbefore position.node
  obtain ⟨hrevises', hnone'⟩ := hafter position.node
  have hjoined := nodes_of_join hjoin
  obtain ⟨visited', hformed, hredraws, hlists, hkeyed⟩ := formed_visitBelow hwalk
    (h.steady hrevises.toRedraws hnone) (hgrown.steady hrevises)
    (hstands.mono (grows_of_redraws hrevises.toRedraws)) hbelow
  have hredraws' := ((hredraws.trans (.of_nodes hjoined.1 hjoined.2)).trans
    hrevises'.toRedraws).trans hdeclare.toRedraws
  have hlists' := ((hlists.trans (.of_nodes hjoined.1)).trans hnone').trans hnotes
  simp only [List.append_nil] at hlists'
  -- the list that is noted is the level that has just been closed
  refine hformed.redraw hredraws' hlists' rfl rfl (fun child hchild => ?_)
    fun decl hdecl hchild => ?_
  · obtain rfl := List.mem_singleton.mp hchild
    exact hkeyed
  · obtain rfl := List.mem_singleton.mp hdecl
    cases hchild

theorem formed_visitAttribute {attr : Attribute LevelWalk}
    (hwalk : ∀ directives, attr = .tuple directives → ∀ walk : LevelWalk,
      .nested walk ∈ directives → walk.Forming)
    (h : Formed root opened s) (hgrown : Grown root opened pending s) (hstands : s.Stands position)
    {visited : Visited} (hrun : visitAttribute store position name attr s = .ok visited s') :
    Formed root opened s' := by
  obtain ⟨directives, tuple, rfl, read, hrun | ⟨-, hrun⟩⟩ := visitAttribute_eq_ok hrun
  · refine formed_visitNested (fun walk hmem => ?_) h hgrown hstands hrun
    exact hwalk directives rfl walk (Tuple.mem_of_nested read hmem)
  · obtain ⟨hrevises, hnotes⟩ := adds_visitScalar store position name tuple s visited s' hrun
    refine h.redraw hrevises.toRedraws hnotes rfl rfl nofun
      fun decl hdecl _ hconversion node hget => ?_
    obtain rfl := List.mem_singleton.mp hdecl
    obtain ⟨node', hget', hne⟩ := converting_visitScalar hconversion hrun
    rwa [← Option.some.inj (hget.symm.trans hget')] at hne

theorem formed_visitAttributes {attributes : List (String × Attribute LevelWalk)}
    (hwalk : ∀ entry ∈ attributes, ∀ directives, entry.2 = .tuple directives →
      ∀ walk : LevelWalk, .nested walk ∈ directives → walk.Forming) {level level' : Level}
    (h : Formed root opened s) (hgrown : Grown root opened pending s) (hstands : s.Stands position)
    (hrun : visitAttributes store position level attributes s = .ok level' s') :
    Formed root opened s' := by
  refine (visitAttributes_induction (motive := fun t => Formed root opened t ∧
    Grown root opened pending t ∧ t.Stands position) ?_ ⟨h, hgrown, hstands⟩ hrun).1
  intro entry hentry t visited t' ⟨hformed, hgrown, hstands⟩ hvisit
  obtain ⟨hgrown', hgrows⟩ := grown_visitAttribute (fun directives htuple walk hmem =>
    (hwalk entry hentry directives htuple walk hmem).1) hgrown hstands hvisit
  exact ⟨formed_visitAttribute (hwalk entry hentry) hformed hgrown hstands hvisit, hgrown',
    hstands.mono hgrows⟩

end Walk

/-- The walk over a descriptor keeps the invariant. -/
theorem Descriptor.forming_fold (store : String) (descriptor : Descriptor) :
    LevelWalk.Forming (descriptor.fold (Walk.visitLevel store)) := by
  refine fold_induction (p := LevelWalk.Forming) (fun attributes hwalk => ⟨?_, ?_⟩) descriptor
  · intro root opened pending position s level s' hgrown hstands hrun
    exact Walk.grown_visitAttributes (fun entry hentry directives htuple walk hmem =>
      (hwalk entry hentry directives htuple walk hmem).1) hgrown hstands hrun
  · intro root opened pending position s level s' hgrown h hstands hrun
    exact Walk.formed_visitAttributes hwalk h hgrown hstands hrun

/-! ## The start of the walk -/

namespace Flattening

/-- A graph that holds nothing but the root. -/
theorem formed_rooted (store root : String) (counter : Nat) :
    Formed root [] (rooted store root counter) where
  first := rfl
  distinct := List.nodup_singleton root
  waiting := ⟨List.nodup_nil, by simp⟩
  once hget := by
    obtain ⟨-, rfl⟩ := level?_rooted (level?_of_get? hget)
    exact List.nodup_nil
  bare hget := by cases hget
  before hget hparent := by
    obtain ⟨-, rfl⟩ := level?_rooted (level?_of_get? hget)
    cases hparent
  top hget := by
    obtain ⟨-, rfl⟩ := level?_rooted (level?_of_get? hget)
    exact ⟨rfl, rfl, rfl⟩
  below hlevel hparent := by
    obtain ⟨-, rfl⟩ := level?_rooted hlevel
    cases hparent
  arrays hget := by
    obtain ⟨-, rfl⟩ := level?_rooted (level?_of_get? hget)
    rfl
  keyed hget harray := by
    obtain ⟨-, rfl⟩ := level?_rooted (level?_of_get? hget)
    cases harray
  converting hget hdecl := by
    obtain ⟨-, rfl⟩ := level?_rooted (level?_of_get? hget)
    cases hdecl

end Flattening

end NestedRecord
