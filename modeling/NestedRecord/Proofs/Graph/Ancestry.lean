import Mathlib.Data.List.Perm.Subperm
import NestedRecord.Proofs.Descriptor.Mapping
import NestedRecord.Proofs.Graph.Walk
import NestedRecord.Proofs.Json.Pointer

/-!
# Levels and where they come from

Every level of a flattened descriptor but the root is entered once, under an attribute of the
level around it, and every attachment stands at one level.

While the walk is below an attribute, the graph is not in order yet: the level of the attribute has
been entered but the attribute itself is declared only on the way back. The invariant `Grown`
therefore holds up to two lists of levels that are still open, and the walk over one level returns
them as it has found them. At the end both lists are empty, which is what the result states.

* `Flattening.Trail` is the way from a level up to the root, by attribute names.
* `Flattening.Grown` is the invariant of the walk. Levels that have been entered and whose
  attribute is not declared yet are `opened`, those whose attachment is not registered yet
  are `pending`.
* `LevelWalk.Sound` says that a walk keeps it, `sound_fold` that the walk over a descriptor
  does.
* `exists_grown_of_flatten` is the result for a flattened descriptor.
-/

namespace NestedRecord

open Fields (get? has)

/-- Where a level comes from. -/
def Node.origin (node : Node) : Option String × Option String × NodeKind × Option String :=
  (node.parentName, node.nameInParent, node.kind, node.joinedStore)

/-- The outline of a level shows where it comes from and what it declares. -/
theorem Node.same_of_outline {a b : Node} (h : a.outline = b.outline) :
    a.origin = b.origin ∧ a.uniqueName = b.uniqueName ∧ a.isVirtual = b.isVirtual ∧
      a.attributes = b.attributes := by
  have horigin : a.outline.origin = b.outline.origin := by rw [h]
  have hname : a.outline.uniqueName = b.outline.uniqueName := by rw [h]
  have hvirtual : a.outline.isVirtual = b.outline.isVirtual := by rw [h]
  have hattributes : a.outline.attributes = b.outline.attributes := by rw [h]
  exact ⟨horigin, hname, hvirtual, hattributes⟩

/-- The dotted path of names, innermost first. -/
def trailPath : List String → String
  | [] => ""
  | name :: rest => joinPath (trailPath rest) name

namespace Flattening

variable {s s' s'' : Flattening} {name root : String} {opened pending : List String}

/-- The level of a name, declared here or by an attached store. -/
def level? (s : Flattening) (name : String) : Option Node :=
  (get? s.nodes name).or (get? s.virtualNodes name)

theorem level?_of_get? {node : Node} (h : get? s.nodes name = some node) :
    s.level? name = some node := by
  rw [level?, h, Option.some_or]

/-- The names on the way from the root to a level, innermost first. -/
inductive Trail (s : Flattening) : String → List String → Prop
  | top {name : String} {node : Node} (level : s.level? name = some node)
      (root : node.parentName = none) : Trail s name []
  | inside {name parent attr : String} {node : Node} {names : List String}
      (level : s.level? name = some node) (up : node.parentName = some parent)
      (under : node.nameInParent = some attr) (rest : Trail s parent names) :
      Trail s name (attr :: names)

/-- No level is lost, and each stays where it was entered. -/
structure Grows (s s' : Flattening) : Prop where
  levels : ∀ {name node}, s.level? name = some node →
    ∃ node', s'.level? name = some node' ∧ node'.origin = node.origin
  nodes : ∀ {name}, has s.nodes name = true → has s'.nodes name = true

theorem Grows.refl (s : Flattening) : Grows s s := ⟨fun h => ⟨_, h, rfl⟩, id⟩

theorem Grows.trans (h : Grows s s') (h' : Grows s' s'') : Grows s s'' where
  levels hlevel := by
    obtain ⟨node', hlevel', horigin⟩ := h.levels hlevel
    obtain ⟨node'', hlevel'', horigin'⟩ := h'.levels hlevel'
    exact ⟨node'', hlevel'', horigin'.trans horigin⟩
  nodes hname := h'.nodes (h.nodes hname)

/-- A way to the root stays one. -/
theorem Trail.mono (hgrows : Grows s s') {names : List String} (h : Trail s name names) :
    Trail s' name names := by
  induction h with
  | top level hroot =>
    obtain ⟨node', hlevel, horigin⟩ := hgrows.levels level
    exact .top hlevel ((congrArg (·.1) horigin).trans hroot)
  | inside level up under _ ih =>
    obtain ⟨node', hlevel, horigin⟩ := hgrows.levels level
    exact .inside hlevel ((congrArg (·.1) horigin).trans up)
      ((congrArg (·.2.1) horigin).trans under) ih

/-- The invariant of the walk. -/
structure Grown (root : String) (opened pending : List String) (s : Flattening) : Prop where
  tidy : s.metadata.Tidy
  declared : ∀ {name node}, get? s.nodes name = some node → node.isVirtual = false
  foreign : ∀ {name node}, get? s.virtualNodes name = some node → node.isVirtual = true
  named : ∀ {name node}, s.level? name = some node → node.uniqueName = name
  top : ∃ node, get? s.nodes root = some node ∧ node.parentName = none
  /-- every other level stands under an attribute of a declared one -/
  inner : ∀ {name node}, s.level? name = some node → name ≠ root →
    ∃ parent attr, node.parentName = some parent ∧ node.nameInParent = some attr ∧
      has s.nodes parent = true
  /-- an attribute leads to a level that stands under it -/
  child : ∀ {name node decl child}, get? s.nodes name = some node → decl ∈ node.attributes →
    decl.child = some child → ∃ below, s.level? child = some below ∧
      below.parentName = some name ∧ below.nameInParent = some decl.name
  /-- a level that is no longer opened has its attribute -/
  entered : ∀ {name node}, s.level? name = some node → name ≠ root → name ∉ opened →
    ∃ parent around decl, node.parentName = some parent ∧ get? s.nodes parent = some around ∧
      decl ∈ around.attributes ∧ decl.child = some name
  waiting : ∀ name ∈ pending, (s.level? name).isSome
  /-- every attachment stands at a level of its own -/
  attached : ∃ placed : List (String × Join), s.metadata.attachments.Perm (placed.map (·.2)) ∧
    (placed.map (·.1)).Nodup ∧ ∀ entry ∈ placed, entry.1 ∉ pending ∧
      ∃ node names, s.level? entry.1 = some node ∧ node.joinedStore = some entry.2.store ∧
        entry.2.cardinality = (if node.kind = .array then .many else .one) ∧
        Trail s entry.1 names ∧ entry.2.path = trailPath names

/-! ## Steps that add attributes

A step that redraws the graph adds attributes to one level and nothing else, so every level after it
has been there before it and the other way round. -/

/-- A level after a step that adds attributes. -/
theorem exists_of_redraws {decls : List AttributeDecl} (h : Redraws name decls s s')
    {other : String} {node : Node} (hget : get? s.nodes other = some node) :
    ∃ node', get? s'.nodes other = some node' ∧
      node'.outline = (if other = name then node.extend decls else node).outline := by
  have hother := h.nodes other
  rw [hget] at hother
  obtain ⟨node', hnode', heq⟩ := Option.map_eq_some_iff.mp hother
  refine ⟨node', hnode', heq.trans ?_⟩
  split <;> rfl

/-- A level before a step that adds attributes. -/
theorem exists_before_redraws {decls : List AttributeDecl} (h : Redraws name decls s s')
    {other : String} {node' : Node} (hget : get? s'.nodes other = some node') :
    ∃ node, get? s.nodes other = some node ∧
      node'.outline = (if other = name then node.extend decls else node).outline := by
  have hother := h.nodes other
  rw [hget] at hother
  obtain ⟨node, hnode, heq⟩ := Option.map_eq_some_iff.mp hother.symm
  refine ⟨node, hnode, heq.symm.trans ?_⟩
  split <;> rfl

/-- A level keeps its origin and its name, whatever attributes are added. -/
theorem origin_of_outline {node node' : Node} {decls : List AttributeDecl} {p : Prop}
    [Decidable p] (h : node'.outline = (if p then node.extend decls else node).outline) :
    node'.origin = node.origin ∧ node'.uniqueName = node.uniqueName ∧
      node'.isVirtual = node.isVirtual := by
  obtain ⟨horigin, hname, hvirtual, -⟩ := Node.same_of_outline h
  rw [horigin, hname, hvirtual]
  split <;> exact ⟨rfl, rfl, rfl⟩

/-- The attributes of a level after others have been added somewhere. -/
theorem mem_attributes_of_outline {node node' : Node} {decls : List AttributeDecl} {p : Prop}
    [Decidable p] (h : node'.outline = (if p then node.extend decls else node).outline)
    {decl : AttributeDecl} :
    decl ∈ node'.attributes ↔ decl ∈ node.attributes ∨ p ∧ decl ∈ decls := by
  rw [(Node.same_of_outline h).2.2.2]
  split
  · next hp => exact List.mem_append.trans (or_congr_right (and_iff_right hp).symm)
  · next hp => exact (or_iff_left fun hnew => hp hnew.1).symm

/-- No level is lost when attributes are added. -/
theorem level?_of_redraws {decls : List AttributeDecl} (h : Redraws name decls s s')
    {other : String} {node : Node} (hlevel : s.level? other = some node) :
    ∃ node', s'.level? other = some node' ∧ node'.origin = node.origin ∧
      node'.uniqueName = node.uniqueName := by
  cases hget : get? s.nodes other with
  | some known =>
    obtain rfl : known = node := Option.some.inj ((level?_of_get? hget).symm.trans hlevel)
    obtain ⟨node', hnode', heq⟩ := exists_of_redraws h hget
    obtain ⟨horigin, hname, -⟩ := origin_of_outline heq
    exact ⟨node', level?_of_get? hnode', horigin, hname⟩
  | none =>
    have hnone : get? s'.nodes other = none := by
      have hother := h.nodes other
      rw [hget] at hother
      exact Option.map_eq_none_iff.mp hother
    refine ⟨node, ?_, rfl, rfl⟩
    rw [level?, hget, Option.none_or] at hlevel
    rw [level?, hnone, Option.none_or, h.virtualNodes, hlevel]

/-- No level comes up when attributes are added. -/
theorem level?_before_redraws {decls : List AttributeDecl} (h : Redraws name decls s s')
    {other : String} {node' : Node} (hlevel : s'.level? other = some node') :
    ∃ node, s.level? other = some node ∧ node'.origin = node.origin ∧
      node'.uniqueName = node.uniqueName := by
  cases hget : s.level? other with
  | some node =>
    obtain ⟨node'', hlevel', horigin, hname⟩ := level?_of_redraws h hget
    obtain rfl : node' = node'' := Option.some.inj (hlevel.symm.trans hlevel')
    exact ⟨node, rfl, horigin, hname⟩
  | none =>
    rw [level?, Option.or_eq_none_iff] at hget
    have hother := h.nodes other
    rw [hget.1] at hother
    rw [level?, Option.map_eq_none_iff.mp hother, Option.none_or, h.virtualNodes, hget.2] at hlevel
    cases hlevel

theorem grows_of_redraws {decls : List AttributeDecl} (h : Redraws name decls s s') :
    Grows s s' where
  levels hlevel := by
    obtain ⟨node', hlevel', horigin, -⟩ := level?_of_redraws h hlevel
    exact ⟨node', hlevel', horigin⟩
  nodes hname := by
    obtain ⟨node, hget⟩ := Fields.has_iff.mp hname
    obtain ⟨node', hget', -⟩ := exists_of_redraws h hget
    exact Fields.has_iff.mpr ⟨node', hget'⟩

/-- Adding attributes keeps the invariant; a level is opened no longer once its attribute is
there. -/
theorem Grown.revise {decls : List AttributeDecl} {opened' : List String}
    (h : Grown root opened pending s) (hrevises : Revises name decls s s')
    (hchildren : ∀ decl ∈ decls, ∀ child, decl.child = some child →
      ∃ below, s.level? child = some below ∧ below.parentName = some name ∧
        below.nameInParent = some decl.name)
    (hopened : ∀ child ∈ opened, child ∈ opened' ∨
      has s.nodes name = true ∧ ∃ decl ∈ decls, decl.child = some child) :
    Grown root opened' pending s' where
  tidy := hrevises.tidy h.tidy
  declared hget := by
    obtain ⟨node, hnode, heq⟩ := exists_before_redraws hrevises.toRedraws hget
    exact (origin_of_outline heq).2.2.trans (h.declared hnode)
  foreign hget := h.foreign (hrevises.virtualNodes ▸ hget)
  named hlevel := by
    obtain ⟨node, hnode, -, hname⟩ := level?_before_redraws hrevises.toRedraws hlevel
    exact hname.trans (h.named hnode)
  top := by
    obtain ⟨node, hnode, htop⟩ := h.top
    obtain ⟨node', hnode', heq⟩ := exists_of_redraws hrevises.toRedraws hnode
    exact ⟨node', hnode', (congrArg (·.1) (origin_of_outline heq).1).trans htop⟩
  inner hlevel hne := by
    obtain ⟨node, hnode, horigin, -⟩ := level?_before_redraws hrevises.toRedraws hlevel
    obtain ⟨parent, attr, hparent, hattr, hhas⟩ := h.inner hnode hne
    exact ⟨parent, attr, (congrArg (·.1) horigin).trans hparent,
      (congrArg (·.2.1) horigin).trans hattr, (grows_of_redraws hrevises.toRedraws).nodes hhas⟩
  child {name₁ node' decl child} hget hdecl hchild := by
    obtain ⟨node, hnode, heq⟩ := exists_before_redraws hrevises.toRedraws hget
    have hbelow : ∃ below, s.level? child = some below ∧ below.parentName = some name₁ ∧
        below.nameInParent = some decl.name := by
      -- an attribute that was there, or one of those added to this very level
      rcases (mem_attributes_of_outline heq).mp hdecl with hold | ⟨rfl, hnew⟩
      · exact h.child hnode hold hchild
      · exact hchildren decl hnew child hchild
    obtain ⟨below, hlevel, hparent, hattr⟩ := hbelow
    obtain ⟨below', hlevel', horigin, -⟩ := level?_of_redraws hrevises.toRedraws hlevel
    exact ⟨below', hlevel', (congrArg (·.1) horigin).trans hparent,
      (congrArg (·.2.1) horigin).trans hattr⟩
  entered {name₁ node'} hlevel hne hnot := by
    obtain ⟨node, hnode, horigin, -⟩ := level?_before_redraws hrevises.toRedraws hlevel
    by_cases hmem : name₁ ∈ opened
    · rcases hopened name₁ hmem with hstill | ⟨hhas, decl, hdecl, hchild⟩
      · exact absurd hstill hnot
      · -- opened no longer: an added attribute leads to it
        obtain ⟨below, hbelow, hparent, -⟩ := hchildren decl hdecl name₁ hchild
        obtain rfl : node = below := Option.some.inj (hnode.symm.trans hbelow)
        obtain ⟨around, haround⟩ := Fields.has_iff.mp hhas
        obtain ⟨around', haround', heq⟩ := exists_of_redraws hrevises.toRedraws haround
        exact ⟨name, around', decl, (congrArg (·.1) horigin).trans hparent, haround',
          (mem_attributes_of_outline heq).mpr (.inr ⟨rfl, hdecl⟩), hchild⟩
    · obtain ⟨parent, around, decl, hparent, haround, hdecl, hchild⟩ := h.entered hnode hne hmem
      obtain ⟨around', haround', heq⟩ := exists_of_redraws hrevises.toRedraws haround
      exact ⟨parent, around', decl, (congrArg (·.1) horigin).trans hparent, haround',
        (mem_attributes_of_outline heq).mpr (.inl hdecl), hchild⟩
  waiting other hother := by
    obtain ⟨node, hnode⟩ := Option.isSome_iff_exists.mp (h.waiting other hother)
    obtain ⟨node', hnode', -⟩ := level?_of_redraws hrevises.toRedraws hnode
    exact Option.isSome_iff_exists.mpr ⟨node', hnode'⟩
  attached := by
    obtain ⟨placed, hperm, hnodup, hplaced⟩ := h.attached
    refine ⟨placed, hrevises.attachments.trans hperm, hnodup, fun entry hentry => ?_⟩
    obtain ⟨hnot, node, names, hlevel, hstore, hkind, htrail, hpath⟩ := hplaced entry hentry
    obtain ⟨node', hlevel', horigin, -⟩ := level?_of_redraws hrevises.toRedraws hlevel
    refine ⟨hnot, node', names, hlevel', ?_, ?_, htrail.mono (grows_of_redraws hrevises.toRedraws),
      hpath⟩
    · exact (congrArg (·.2.2.2) horigin).trans hstore
    · rw [show node'.kind = node.kind from congrArg (·.2.2.1) horigin]
      exact hkind

theorem Grown.steady (h : Grown root opened pending s) (hrevises : Revises name [] s s') :
    Grown root opened pending s' :=
  h.revise hrevises (by simp) fun _ hmem => .inl hmem

/-! ## Steps that enter a level

A level is entered under a name that no level has, in one of two tables. Looking up a name
afterwards finds the new level or what was found before. -/

/-- The state with one more level. -/
def enter (s : Flattening) (node : Node) : Flattening :=
  if node.isVirtual then
    { s with virtualNodes := Fields.set s.virtualNodes node.uniqueName node }
  else { s with nodes := Fields.set s.nodes node.uniqueName node }

/-- Declared levels after one has been entered. -/
theorem get?_nodes_enter (s : Flattening) (node : Node) (other : String) :
    get? (s.enter node).nodes other =
      if node.isVirtual = false ∧ other = node.uniqueName then some node
      else get? s.nodes other := by
  unfold enter
  cases hvirtual : node.isVirtual with
  | true => simp
  | false =>
    by_cases heq : other = node.uniqueName
    · simp [heq]
    · simp [heq, Fields.get?_set_of_ne]

/-- Virtual levels after one has been entered. -/
theorem get?_virtualNodes_enter (s : Flattening) (node : Node) (other : String) :
    get? (s.enter node).virtualNodes other =
      if node.isVirtual = true ∧ other = node.uniqueName then some node
      else get? s.virtualNodes other := by
  unfold enter
  cases hvirtual : node.isVirtual with
  | false => simp
  | true =>
    by_cases heq : other = node.uniqueName
    · simp [heq]
    · simp [heq, Fields.get?_set_of_ne]

theorem metadata_enter (s : Flattening) (node : Node) :
    (s.enter node).metadata = s.metadata := by
  unfold enter
  split <;> rfl

/-- Entering a level under a name that is free. -/
theorem level?_enter {node : Node} (hfresh : s.level? node.uniqueName = none) (other : String) :
    (s.enter node).level? other =
      if other = node.uniqueName then some node else s.level? other := by
  rw [level?, get?_nodes_enter, get?_virtualNodes_enter]
  rw [level?, Option.or_eq_none_iff] at hfresh
  by_cases heq : other = node.uniqueName
  · subst heq
    cases hvirtual : node.isVirtual <;> simp [hfresh]
  · simp [heq, level?]

/-- A name that is taken is not a free one. -/
theorem ne_of_fresh {fresh : String} {known : Node} (hfresh : s.level? fresh = none)
    (hlevel : s.level? name = some known) : name ≠ fresh := by
  rintro rfl
  rw [hfresh] at hlevel
  cases hlevel

section Enter

variable {node known : Node} {other : String}

theorem get?_nodes_enter_self (hdeclared : node.isVirtual = false) :
    get? (s.enter node).nodes node.uniqueName = some node := by
  rw [get?_nodes_enter, if_pos ⟨hdeclared, rfl⟩]

theorem get?_nodes_enter_of_ne (hne : other ≠ node.uniqueName) :
    get? (s.enter node).nodes other = get? s.nodes other := by
  rw [get?_nodes_enter, if_neg fun hnode => hne hnode.2]

/-- What is declared stays as it is when another level is entered. -/
theorem get?_nodes_enter_of_some (hfresh : s.level? node.uniqueName = none)
    (hget : get? s.nodes other = some known) : get? (s.enter node).nodes other = some known :=
  (get?_nodes_enter_of_ne (ne_of_fresh hfresh (level?_of_get? hget))).trans hget

theorem level?_enter_of_some (hfresh : s.level? node.uniqueName = none)
    (hlevel : s.level? other = some known) : (s.enter node).level? other = some known := by
  rw [level?_enter hfresh, if_neg (ne_of_fresh hfresh hlevel), hlevel]

/-- A level after another one has been entered is that one or was there before. -/
theorem get?_nodes_enter_cases (hget : get? (s.enter node).nodes other = some known) :
    (node.isVirtual = false ∧ other = node.uniqueName ∧ node = known) ∨
      get? s.nodes other = some known := by
  rw [get?_nodes_enter] at hget
  split at hget
  · next hnode => exact .inl ⟨hnode.1, hnode.2, Option.some.inj hget⟩
  · exact .inr hget

theorem get?_virtualNodes_enter_cases (hget : get? (s.enter node).virtualNodes other = some known) :
    (node.isVirtual = true ∧ other = node.uniqueName ∧ node = known) ∨
      get? s.virtualNodes other = some known := by
  rw [get?_virtualNodes_enter] at hget
  split at hget
  · next hnode => exact .inl ⟨hnode.1, hnode.2, Option.some.inj hget⟩
  · exact .inr hget

/-- Every level is the one that has been entered or was there before. -/
theorem level?_enter_cases (hfresh : s.level? node.uniqueName = none)
    (hlevel : (s.enter node).level? other = some known) :
    (other = node.uniqueName ∧ node = known) ∨ s.level? other = some known := by
  rw [level?_enter hfresh] at hlevel
  split at hlevel
  · next heq => exact .inl ⟨heq, Option.some.inj hlevel⟩
  · exact .inr hlevel

end Enter

theorem grows_enter {node : Node} (hfresh : s.level? node.uniqueName = none) :
    Grows s (s.enter node) where
  levels hlevel := ⟨_, level?_enter_of_some hfresh hlevel, rfl⟩
  nodes hhas := by
    obtain ⟨known, hget⟩ := Fields.has_iff.mp hhas
    exact Fields.has_iff.mpr ⟨known, get?_nodes_enter_of_some hfresh hget⟩

/-- Entering a level keeps the invariant; the level is opened and pending. -/
theorem Grown.enter (h : Grown root opened pending s) {node : Node} {parent attr : String}
    (hfresh : s.level? node.uniqueName = none) (hattributes : node.attributes = [])
    (hparent : node.parentName = some parent) (hattr : node.nameInParent = some attr)
    (hhas : has s.nodes parent = true) :
    Grown root (node.uniqueName :: opened) (node.uniqueName :: pending) (s.enter node) where
  tidy := metadata_enter s node ▸ h.tidy
  declared hget := by
    rcases get?_nodes_enter_cases hget with ⟨hdeclared, -, rfl⟩ | hget
    · exact hdeclared
    · exact h.declared hget
  foreign hget := by
    rcases get?_virtualNodes_enter_cases hget with ⟨hforeign, -, rfl⟩ | hget
    · exact hforeign
    · exact h.foreign hget
  named hlevel := by
    rcases level?_enter_cases hfresh hlevel with ⟨rfl, rfl⟩ | hlevel
    · rfl
    · exact h.named hlevel
  top := by
    obtain ⟨known, hget, htop⟩ := h.top
    exact ⟨known, get?_nodes_enter_of_some hfresh hget, htop⟩
  inner hlevel hne := by
    rcases level?_enter_cases hfresh hlevel with ⟨-, rfl⟩ | hlevel
    · exact ⟨parent, attr, hparent, hattr, (grows_enter hfresh).nodes hhas⟩
    · obtain ⟨parent', attr', hparent', hattr', hhas'⟩ := h.inner hlevel hne
      exact ⟨parent', attr', hparent', hattr', (grows_enter hfresh).nodes hhas'⟩
  child hget hdecl hchild := by
    rcases get?_nodes_enter_cases hget with ⟨-, -, rfl⟩ | hget
    · rw [hattributes] at hdecl
      cases hdecl
    · obtain ⟨below, hlevel, hbelow⟩ := h.child hget hdecl hchild
      exact ⟨below, level?_enter_of_some hfresh hlevel, hbelow⟩
  -- levels that are not open have been entered before, so their attribute is there
  entered hlevel hne hnot := by
    rw [List.mem_cons, not_or] at hnot
    have hbefore := (level?_enter_cases hfresh hlevel).resolve_left fun hnew => hnot.1 hnew.1
    obtain ⟨parent', around, decl, hparent', haround, hdecl⟩ := h.entered hbefore hne hnot.2
    exact ⟨parent', around, decl, hparent', get?_nodes_enter_of_some hfresh haround, hdecl⟩
  waiting other hother := by
    rw [level?_enter hfresh]
    split
    · rfl
    · next hne => exact h.waiting other ((List.mem_cons.mp hother).resolve_left hne)
  attached := by
    obtain ⟨placed, hperm, hnodup, hplaced⟩ := h.attached
    refine ⟨placed, metadata_enter s node ▸ hperm, hnodup, fun entry hentry => ?_⟩
    obtain ⟨hnot, known, names, hlevel, hstore, hkind, htrail, hpath⟩ := hplaced entry hentry
    refine ⟨?_, known, names, level?_enter_of_some hfresh hlevel, hstore, hkind,
      htrail.mono (grows_enter hfresh), hpath⟩
    rw [List.mem_cons, not_or]
    exact ⟨ne_of_fresh hfresh hlevel, hnot⟩

/-! ## Attachments -/

/-- A level without an attachment waits no longer. -/
theorem Grown.settle (h : Grown root opened (name :: pending) s) :
    Grown root opened pending s where
  tidy := h.tidy
  declared := h.declared
  foreign := h.foreign
  named := h.named
  top := h.top
  inner := h.inner
  child := h.child
  entered := h.entered
  waiting other hother := h.waiting other (List.mem_cons_of_mem _ hother)
  attached := by
    obtain ⟨placed, hperm, hnodup, hplaced⟩ := h.attached
    refine ⟨placed, hperm, hnodup, fun entry hentry => ?_⟩
    obtain ⟨hnot, hrest⟩ := hplaced entry hentry
    exact ⟨fun hmem => hnot (List.mem_cons_of_mem _ hmem), hrest⟩

theorem attaches_of_kind {join : Join} {kind : NodeKind}
    (h : join.cardinality = if kind = .array then .many else .one) : join.Attaches := by
  rw [Join.Attaches, h]
  split <;> exact fun heq => nomatch heq

/-- Registering the attachment of a level. -/
theorem Grown.attach (h : Grown root opened (name :: pending) s) (hnot : name ∉ pending)
    {node : Node} {names : List String} {join : Join} (hlevel : s.level? name = some node)
    (hstore : node.joinedStore = some join.store)
    (hkind : join.cardinality = if node.kind = .array then .many else .one)
    (htrail : Trail s name names) (hpath : join.path = trailPath names) :
    Grown root opened pending { s with metadata := s.metadata.addJoin join } where
  tidy := h.tidy.addJoin (attaches_of_kind hkind)
  declared := h.declared
  foreign := h.foreign
  named := h.named
  top := h.top
  inner := h.inner
  child := h.child
  entered := h.entered
  waiting other hother := h.waiting other (List.mem_cons_of_mem _ hother)
  -- the new attachment stands at the level of `name`, which does not wait any more
  attached := by
    obtain ⟨placed, hperm, hnodup, hplaced⟩ := h.attached
    have hattaches := attaches_of_kind hkind
    have hsame : Grows s { s with metadata := s.metadata.addJoin join } :=
      ⟨fun hlevel => ⟨_, hlevel, rfl⟩, id⟩
    refine ⟨placed ++ [(name, join)], ?_, ?_, fun entry hentry => ?_⟩
    · refine (Metadata.attachments_addJoin s.metadata join).trans ?_
      rw [if_pos hattaches, List.map_append]
      exact hperm.append_right _
    · rw [List.map_append, List.nodup_append]
      refine ⟨hnodup, List.nodup_singleton _, ?_⟩
      rintro a ha b hb rfl
      obtain ⟨entry, hentry, rfl⟩ := List.mem_map.mp ha
      obtain heq : entry.1 = name := by simpa using hb
      exact (hplaced entry hentry).1 (heq ▸ List.mem_cons_self)
    · rcases List.mem_append.mp hentry with hold | hnew
      · obtain ⟨hwaits, node', names', hlevel', hstore', hkind', htrail', hpath'⟩ :=
          hplaced entry hold
        exact ⟨fun hmem => hwaits (List.mem_cons_of_mem _ hmem), node', names', hlevel', hstore',
          hkind', htrail'.mono hsame, hpath'⟩
      · obtain rfl := List.mem_singleton.mp hnew
        exact ⟨hnot, node, names, hlevel, hstore, hkind, htrail.mono hsame, hpath⟩

/-! ## Names -/

/-- If no number is found, all that have been tried are taken. -/
theorem isTaken_of_freeCounter?_eq_none {base : String} :
    ∀ (fuel counter : Nat), s.freeCounter? base fuel counter = none →
      ∀ i < fuel, s.isTaken (base ++ Numeral.natText (counter + i)) = true
  | 0, _, _, i, hi => absurd hi (Nat.not_lt_zero i)
  | fuel + 1, counter, h, i, hi => by
    unfold freeCounter? at h
    split at h
    · next htaken =>
      cases i with
      | zero => exact htaken
      | succ i =>
        have hrest := isTaken_of_freeCounter?_eq_none fuel (counter + 1) h i (by omega)
        rwa [Nat.add_right_comm, Nat.add_assoc] at hrest
    · cases h

/-- The number that is found is free. -/
theorem not_isTaken_of_freeCounter?_eq_some {base : String} {counter' : Nat} :
    ∀ (fuel counter : Nat), s.freeCounter? base fuel counter = some counter' →
      s.isTaken (base ++ Numeral.natText counter') = false
  | 0, _, h => by cases h
  | fuel + 1, counter, h => by
    unfold freeCounter? at h
    split at h
    · exact not_isTaken_of_freeCounter?_eq_some fuel (counter + 1) h
    · next hfree =>
      cases h
      simpa using hfree

/-- One of more names than there are levels is free. -/
theorem freeCounter?_nextCounter (s : Flattening) (base : String) :
    s.freeCounter? base (s.nodes.length + s.virtualNodes.length + 1) s.counter =
      some (s.nextCounter base) := by
  unfold nextCounter
  simp only
  cases hfree : s.freeCounter? base (s.nodes.length + s.virtualNodes.length + 1) s.counter with
  | some counter => rfl
  | none =>
    exfalso
    have htaken := isTaken_of_freeCounter?_eq_none _ _ hfree
    -- by counting: there are more numbers than names, and different numbers give different names
    let tried := (List.range (s.nodes.length + s.virtualNodes.length + 1)).map fun i =>
      base ++ Numeral.natText (s.counter + i)
    have hnodup : tried.Nodup := by
      refine List.nodup_range.map fun i j heq => ?_
      have hnumbers := Numeral.natText_injective ((String.append_right_inj base).mp heq)
      omega
    have hsubset : tried ⊆ Fields.keys s.nodes ++ Fields.keys s.virtualNodes := by
      intro name hname
      obtain ⟨i, hi, rfl⟩ := List.mem_map.mp hname
      have hname := htaken i (List.mem_range.mp hi)
      rw [isTaken, Bool.or_eq_true, ← Fields.mem_keys_iff_has, ← Fields.mem_keys_iff_has] at hname
      exact List.mem_append.mpr hname
    have hlength := (List.subperm_of_subset hnodup hsubset).length_le
    simp only [tried, Fields.keys, List.length_map, List.length_range, List.length_append]
      at hlength
    omega

theorem not_isTaken_nextCounter (s : Flattening) (base : String) :
    s.isTaken (base ++ Numeral.natText (s.nextCounter base)) = false :=
  not_isTaken_of_freeCounter?_eq_some _ _ (freeCounter?_nextCounter s base)

theorem level?_eq_none_of_not_isTaken (h : s.isTaken name = false) : s.level? name = none := by
  rw [isTaken, Bool.or_eq_false_iff, has, has, Option.isSome_eq_false_iff,
    Option.isSome_eq_false_iff, Option.isNone_iff_eq_none, Option.isNone_iff_eq_none] at h
  rw [level?, h.1, h.2, Option.none_or]

/-- The level of a position is there, and its path is the way to it. -/
structure Stands (s : Flattening) (position : Position) : Prop where
  node : has s.nodes position.node = true
  trail : ∃ names, Trail s position.node names ∧ position.path = trailPath names

theorem Stands.mono {position : Position} (hgrows : Grows s s') (h : s.Stands position) :
    s'.Stands position where
  node := hgrows.nodes h.node
  trail := by
    obtain ⟨names, htrail, hpath⟩ := h.trail
    exact ⟨names, htrail.mono hgrows, hpath⟩

/-- What the visit of a nested attribute leaves behind before the attribute is declared. -/
structure Nested (root : String) (opened pending : List String) (position : Position)
    (name : String) (kind : NodeKind) (attached : Option String) (child : String)
    (s s' : Flattening) : Prop where
  fresh : child ∉ pending
  level : ∃ node, s'.level? child = some node ∧ node.parentName = some position.node ∧
    node.nameInParent = some name ∧ node.kind = kind ∧ node.joinedStore = attached
  grown : Grown root (child :: opened) (child :: pending) s'
  grows : Grows s s'

/-- A level that has been visited stays visited while the state grows. -/
theorem Nested.after {kind : NodeKind} {attached : Option String} {child : String}
    {position : Position} (h : Nested root opened pending position name kind attached child s s')
    (hgrown : Grown root (child :: opened) (child :: pending) s'') (hgrows : Grows s' s'') :
    Nested root opened pending position name kind attached child s s'' := by
  obtain ⟨node, hlevel, hparent, hattr, hkind, hstore⟩ := h.level
  obtain ⟨node', hlevel', horigin⟩ := hgrows.levels hlevel
  exact ⟨h.fresh, ⟨node', hlevel', (congrArg (·.1) horigin).trans hparent,
    (congrArg (·.2.1) horigin).trans hattr, (congrArg (·.2.2.1) horigin).trans hkind,
    (congrArg (·.2.2.2) horigin).trans hstore⟩, hgrown, h.grows.trans hgrows⟩

end Flattening

/-- A walk over a level keeps the invariant. -/
def LevelWalk.Sound (walk : LevelWalk) : Prop :=
  ∀ {root opened pending position s level s'}, Flattening.Grown root opened pending s →
    s.Stands position → walk position s = .ok level s' →
      Flattening.Grown root opened pending s' ∧ Flattening.Grows s s'

namespace Walk

open Flattening

variable {s s' : Flattening} {root : String} {opened pending : List String}
  {store name : String} {position : Position}

/-- A name is free when it is given, and only the counter changes. -/
theorem allocateName_eq_ok {base child : String} (h : allocateName base s = .ok child s') :
    s.level? child = none ∧ s' = { s with counter := s.nextCounter base + 1 } := by
  obtain ⟨state, s₁, hget, h⟩ := bind_eq_ok.mp h
  cases hget
  obtain ⟨_, s₂, hset, h⟩ := bind_eq_ok.mp h
  cases hset
  obtain ⟨rfl, rfl⟩ := pure_eq_ok.mp h
  exact ⟨level?_eq_none_of_not_isTaken (not_isTaken_nextCounter s base), rfl⟩

theorem require_eq_ok {holds : Bool} {path rule : String}
    (h : require holds store path rule s = .ok () s') : holds = true ∧ s' = s := by
  cases holds with
  | false => cases h
  | true => exact ⟨rfl, (pure_eq_ok.mp h).2.symm⟩

/-- The default value of a declared level. -/
def levelValue (kind : NodeKind) (members : Fields Json) : Json :=
  match kind with
  | .object => .object members
  | .array => .array [.object members]

/-- The default value of a level of an attached store. -/
def attachmentValue : NodeKind → Json
  | .object => .null
  | .array => .array []

/-- A level below another one, with the store that is attached there. -/
def childWith (parent : Node) (child name : String) (kind : NodeKind) (foreign : Bool)
    (attached : Option String) : Node :=
  { Node.childOf parent child name kind with isVirtual := foreign, joinedStore := attached }

/-- Entering a level below the level of a position. -/
theorem nested_enter (h : Grown root opened pending s) {parent : Node} {child : String}
    {kind : NodeKind} {attached : Option String} {foreign : Bool} {counter : Nat}
    (hparent : get? s.nodes position.node = some parent) (hfresh : s.level? child = none) :
    Nested root opened pending position name kind attached child s
      (Flattening.enter { s with counter := counter }
        (childWith parent child name kind foreign attached)) := by
  have hcounter : Revises name [] s { s with counter := counter } :=
    .of_metadata rfl rfl (List.Perm.refl _) id
  have hunique : parent.uniqueName = position.node := h.named (level?_of_get? hparent)
  have hfree : Flattening.level? { s with counter := counter }
      (childWith parent child name kind foreign attached).uniqueName = none := hfresh
  refine ⟨fun hmem => ?_, ⟨childWith parent child name kind foreign attached, ?_,
    congrArg some hunique, rfl, rfl, rfl⟩, ?_, ?_⟩
  · have hwaiting := h.waiting child hmem
    rw [hfresh] at hwaiting
    cases hwaiting
  · exact (level?_enter hfree child).trans (if_pos rfl)
  · exact (h.steady hcounter).enter hfree rfl (congrArg some hunique) rfl
      (Fields.has_iff.mpr ⟨parent, hparent⟩)
  · exact (grows_of_redraws hcounter.toRedraws).trans (grows_enter hfree)

/-- The position of a level that has been entered. -/
theorem stands_below {kind : NodeKind} {attached : Option String} {child : String}
    (h : Nested root opened pending position name kind attached child s s')
    (hstands : s.Stands position) (hdeclared : has s'.nodes child = true) :
    s'.Stands (position.below child name kind) := by
  obtain ⟨node, hlevel, hparent, hattr, -⟩ := h.level
  obtain ⟨names, htrail, hpath⟩ := hstands.trail
  have htrail' : Trail s' child (name :: names) :=
    .inside hlevel hparent hattr (htrail.mono h.grows)
  have hpath' : joinPath position.path name = trailPath (name :: names) := by
    rw [hpath, trailPath]
  cases kind with
  | array => exact ⟨hdeclared, name :: names, htrail', hpath'⟩
  | object => exact ⟨hdeclared, name :: names, htrail', hpath'⟩

/-- The state in which a level has been visited, with the level noted at the one around if it is a
list. -/
def noted (around child : String) (kind : NodeKind) (visited : Flattening) : Flattening :=
  match kind with
  | .object => visited
  | .array =>
    { visited with nodes := Fields.update (·.withArray child) visited.nodes around }

/-- The visit of a declared level: the level is entered, walked over and noted. -/
theorem exists_noted_of_visitDeclaredLevel {kind : NodeKind} {attached : Option String}
    {walk : LevelWalk} {below : Below}
    (hrun : visitDeclaredLevel store position name kind attached walk s = .ok below s') :
    ∃ parent counter level visited, get? s.nodes position.node = some parent ∧
      s.level? below.child = none ∧
      walk (position.below below.child name kind) (Flattening.enter { s with counter := counter }
        (childWith parent below.child name kind false attached)) = .ok level visited ∧
      s' = noted position.node below.child kind visited ∧
      (kind = .array → ∃ node, get? visited.nodes below.child = some node ∧
        node.primaryKey ≠ []) ∧
      below.shape = .level kind level.attributes ∧ below.value = levelValue kind level.members := by
  obtain ⟨parent, s₁, hnode, h₁⟩ := bind_eq_ok.mp hrun
  obtain ⟨rfl, hparent⟩ := node_eq_ok hnode
  obtain ⟨child, s₂, hallocate, h₂⟩ := bind_eq_ok.mp h₁
  obtain ⟨hfresh, rfl⟩ := allocateName_eq_ok hallocate
  obtain ⟨_, s₃, hadd, h₃⟩ := bind_eq_ok.mp h₂
  obtain ⟨level, s₄, hlevel, h₄⟩ := bind_eq_ok.mp h₃
  have hs₃ : s₃ = Flattening.enter { s₁ with counter := s₁.nextCounter name + 1 }
      (childWith parent child name kind false attached) := (modify_eq_ok.mp hadd).symm
  subst hs₃
  -- of a list a key is asked, and its parent notes it
  cases kind with
  | object =>
    obtain ⟨rfl, rfl⟩ := pure_eq_ok.mp h₄
    exact ⟨parent, _, level, s₄, hparent, hfresh, hlevel, rfl, nofun, rfl, rfl⟩
  | array =>
    obtain ⟨visited, s₅, hnode', h₅⟩ := bind_eq_ok.mp h₄
    obtain ⟨rfl, hvisited⟩ := node_eq_ok hnode'
    obtain ⟨_, s₆, hrequire, h₆⟩ := bind_eq_ok.mp h₅
    obtain ⟨_, s₇, hupdate, h₇⟩ := bind_eq_ok.mp h₆
    obtain ⟨rfl, rfl⟩ := pure_eq_ok.mp h₇
    obtain ⟨hrequired, rfl⟩ := require_eq_ok hrequire
    obtain ⟨-, rfl⟩ := updateNode_eq_ok hupdate
    refine ⟨parent, _, level, _, hparent, hfresh, hlevel, rfl,
      fun _ => ⟨visited, hvisited, fun hnil => ?_⟩, rfl, rfl⟩
    rw [hnil] at hrequired
    cases hrequired

/-- What the visit of a declared level does: it enters the level, walks over it, and notes a list
that has a key at the level around. -/
theorem visitDeclaredLevel_eq_ok {kind : NodeKind} {attached : Option String} {walk : LevelWalk}
    {below : Below}
    (hrun : visitDeclaredLevel store position name kind attached walk s = .ok below s') :
    ∃ parent counter level visited, get? s.nodes position.node = some parent ∧
      s.level? below.child = none ∧
      walk (position.below below.child name kind) (Flattening.enter { s with counter := counter }
        (childWith parent below.child name kind false attached)) = .ok level visited ∧
      Revises position.node [] visited s' ∧
      Notes position.node (if kind = .array then [below.child] else []) visited s' ∧
      (kind = .array → ∃ node, get? visited.nodes below.child = some node ∧
        node.primaryKey ≠ []) ∧ s'.metadata = visited.metadata ∧
      below.shape = .level kind level.attributes ∧ below.value = levelValue kind level.members := by
  obtain ⟨parent, counter, level, visited, hparent, hfresh, hlevel, rfl, hkey, hshape, hvalue⟩ :=
    exists_noted_of_visitDeclaredLevel hrun
  cases kind with
  | object =>
    exact ⟨parent, counter, level, visited, hparent, hfresh, hlevel, .refl _, .refl _, hkey, rfl,
      hshape, hvalue⟩
  | array =>
    exact ⟨parent, counter, level, visited, hparent, hfresh, hlevel,
      .update (·.withArray below.child) (fun node => rfl) position.node _,
      .update (·.withArray below.child) [below.child] (fun node => rfl) (fun node => ⟨id, id⟩) _, hkey,
      rfl, hshape, hvalue⟩

/-- What the visit of a level of an attached store does: it enters the level. -/
theorem visitVirtualLevel_eq_ok {kind : NodeKind} {attached : Option String} {below : Below}
    (hrun : visitVirtualLevel store position name kind attached s = .ok below s') :
    ∃ parent counter, get? s.nodes position.node = some parent ∧ s.level? below.child = none ∧
      s' = Flattening.enter { s with counter := counter }
        (childWith parent below.child name kind true attached) ∧ below.shape = .foreign ∧
      below.value = attachmentValue kind := by
  obtain ⟨_, s₁, hrequire, h₁⟩ := bind_eq_ok.mp hrun
  obtain ⟨-, rfl⟩ := require_eq_ok hrequire
  obtain ⟨parent, s₂, hnode, h₂⟩ := bind_eq_ok.mp h₁
  obtain ⟨rfl, hparent⟩ := node_eq_ok hnode
  obtain ⟨child, s₃, hallocate, h₃⟩ := bind_eq_ok.mp h₂
  obtain ⟨hfresh, rfl⟩ := allocateName_eq_ok hallocate
  obtain ⟨_, s₄, hadd, h₄⟩ := bind_eq_ok.mp h₃
  obtain rfl := modify_eq_ok.mp hadd
  cases kind with
  | object =>
    obtain ⟨rfl, rfl⟩ := pure_eq_ok.mp h₄
    exact ⟨parent, _, hparent, hfresh, rfl, rfl, rfl⟩
  | array =>
    obtain ⟨rfl, rfl⟩ := pure_eq_ok.mp h₄
    exact ⟨parent, _, hparent, hfresh, rfl, rfl, rfl⟩

/-- The steps that a visit of a nested attribute goes through if it succeeds. -/
inductive NestedVisit (store : String) (position : Position) (name : String)
    (tuple : Tuple LevelWalk) (visited : Visited) (s s' : Flattening) : Prop
  | steps {kind : NodeKind} {attached : Option String} {below : Below}
      {s₁ s₂ s₃ s₄ s₅ : Flattening} (nesting : tuple.nesting = some kind)
      (column : tuple.column = none) (computed : tuple.computed = none)
      (attach : attachedStore store (position.attributePath name) none tuple.links s =
        .ok attached s₁)
      (hook : registerHooks (position.attributePath name) tuple.hooks s₁ = .ok () s₂)
      (visit : visitBelow store position name kind attached tuple.nested s₂ = .ok below s₃)
      (join : forSome attached (fun source => updateMetadata (·.addJoin
        ⟨source, position.attributePath name, if kind = .array then .many else .one⟩)) s₃ =
          .ok () s₄)
      (refer : forSome tuple.reference (fun referenced =>
        registerReference store (position.attributePath name) referenced) s₄ = .ok () s₅)
      (declare : (do
        declare store position.node (nestedDecl name tuple below.child)
        return (⟨nestedDecl name tuple below.child, below.shape, below.value⟩ : Visited)) s₅ =
          .ok visited s')

/-- The visit of a nested attribute, step by step. -/
theorem nestedVisit_of_eq_ok {tuple : Tuple LevelWalk} {visited : Visited}
    (hrun : visitNested store position name tuple s = .ok visited s') :
    NestedVisit store position name tuple visited s s' := by
  cases hkind : tuple.nesting with
  | none =>
    rw [visitNested, hkind] at hrun
    cases hrun
  | some kind =>
    rw [visitNested_eq store position name hkind] at hrun
    obtain ⟨_, s₁, hfirst, h₁⟩ := bind_eq_ok.mp hrun
    obtain ⟨hcolumn, rfl⟩ := require_eq_ok hfirst
    obtain ⟨attached, s₂, hattached, h₂⟩ := bind_eq_ok.mp h₁
    obtain ⟨_, s₃, hthird, h₃⟩ := bind_eq_ok.mp h₂
    obtain ⟨hcomputed, rfl⟩ := require_eq_ok hthird
    obtain ⟨_, s₄, hhooks, h₄⟩ := bind_eq_ok.mp h₃
    obtain ⟨below, s₅, hbelow, h₅⟩ := bind_eq_ok.mp h₄
    obtain ⟨_, s₆, hjoin, h₆⟩ := bind_eq_ok.mp h₅
    obtain ⟨_, s₇, hreference, h₇⟩ := bind_eq_ok.mp h₆
    exact .steps hkind (Option.isNone_iff_eq_none.mp hcolumn)
      (Option.isNone_iff_eq_none.mp hcomputed) hattached hhooks hbelow hjoin hreference h₇

/-- What is attached is registered in the metadata only. -/
theorem nodes_of_join {attached : Option String} {join : String → Join}
    (hrun : forSome attached (fun source => updateMetadata (·.addJoin (join source))) s =
      .ok () s') : s'.nodes = s.nodes ∧ s'.virtualNodes = s.virtualNodes := by
  cases attached with
  | none =>
    obtain ⟨-, rfl⟩ := pure_eq_ok.mp hrun
    exact ⟨rfl, rfl⟩
  | some source =>
    obtain rfl := modify_eq_ok.mp hrun
    exact ⟨rfl, rfl⟩

/-- What the visit of a nested attribute does: around the visit of the level below it stand steady
steps, the registration of what is attached and the declaration. -/
theorem visitNested_eq_ok {tuple : Tuple LevelWalk} {visited : Visited}
    (hrun : visitNested store position name tuple s = .ok visited s') :
    ∃ kind attached below s₁ s₂ s₃ s₄, (∀ other, Revises other [] s s₁ ∧ Notes other [] s s₁) ∧
      visitBelow store position name kind attached tuple.nested s₁ = .ok below s₂ ∧
      forSome attached (fun source => updateMetadata (·.addJoin
        ⟨source, position.attributePath name, if kind = .array then .many else .one⟩)) s₂ =
          .ok () s₃ ∧
      (∀ other, Revises other [] s₃ s₄ ∧ Notes other [] s₃ s₄) ∧
      Revises position.node [nestedDecl name tuple below.child] s₄ s' ∧
      Notes position.node [] s₄ s' ∧
      visited = ⟨nestedDecl name tuple below.child, below.shape, below.value⟩ ∧
      tuple.nesting = some kind := by
  obtain ⟨hnesting, -, -, hattached, hhooks, hbelow, hjoin, hreference, hdeclare⟩ :=
    nestedVisit_of_eq_ok hrun
  obtain ⟨hrevises, hnotes⟩ := adds_declare _ _ _ _ _ _ _ hdeclare
  obtain ⟨_, _, -, hreturn⟩ := bind_eq_ok.mp hdeclare
  obtain ⟨hvisited, -⟩ := pure_eq_ok.mp hreturn
  refine ⟨_, _, _, _, _, _, _, fun other => ?_, hbelow, hjoin,
    fun other => Steady.forSome (fun _ => steady_registerReference _ _ _) other _ _ _ hreference,
    hrevises, hnotes, hvisited.symm, hnesting⟩
  obtain ⟨hrevises, hnotes⟩ := steady_attachedStore _ _ _ _ other _ _ _ hattached
  obtain ⟨hrevises', hnotes'⟩ := steady_registerHooks _ _ other _ _ _ hhooks
  exact ⟨hrevises.trans hrevises', hnotes.trans hnotes'⟩

/-- Visiting a declared level leaves it open, and its attachment pending. -/
theorem nested_visitDeclaredLevel {kind : NodeKind} {attached : Option String}
    {walk : LevelWalk} (hwalk : walk.Sound) (h : Grown root opened pending s)
    (hstands : s.Stands position) {below : Below}
    (hrun : visitDeclaredLevel store position name kind attached walk s = .ok below s') :
    Nested root opened pending position name kind attached below.child s s' := by
  obtain ⟨parent, counter, level, visited, hparent, hfresh, hlevel, hrevises, -⟩ :=
    visitDeclaredLevel_eq_ok hrun
  have hentered : Nested root opened pending position name kind attached below.child s
      (Flattening.enter { s with counter := counter }
        (childWith parent below.child name kind false attached)) :=
    nested_enter h hparent hfresh
  have hdeclared : has (Flattening.enter { s with counter := counter }
      (childWith parent below.child name kind false attached)).nodes below.child = true := by
    exact Fields.has_iff.mpr ⟨_, get?_nodes_enter_self rfl⟩
  obtain ⟨hgrown, hgrows⟩ := hwalk hentered.grown (stands_below hentered hstands hdeclared) hlevel
  have hvisited := hentered.after hgrown hgrows
  exact hvisited.after (hvisited.grown.steady hrevises) (grows_of_redraws hrevises.toRedraws)

theorem nested_visitVirtualLevel {kind : NodeKind} {attached : Option String}
    (h : Grown root opened pending s) {below : Below}
    (hrun : visitVirtualLevel store position name kind attached s = .ok below s') :
    Nested root opened pending position name kind attached below.child s s' := by
  obtain ⟨parent, counter, hparent, hfresh, rfl, -⟩ := visitVirtualLevel_eq_ok hrun
  exact nested_enter h hparent hfresh

/-- Declaring the attribute of a level that has been visited closes the level. -/
theorem grown_declare {kind : NodeKind} {attached : Option String} {child : String}
    {decl : AttributeDecl} {s₁ s₂ : Flattening}
    (hnested : Nested root opened pending position name kind attached child s s₁)
    (hstands : s.Stands position) (hgrown : Grown root (child :: opened) pending s₂)
    (hgrows : Grows s₁ s₂) (hname : decl.name = name) (hchild : decl.child = some child)
    (hrevises : Revises position.node [decl] s₂ s') :
    Grown root opened pending s' ∧ Grows s s' := by
  refine ⟨hgrown.revise hrevises ?_ ?_, (hnested.grows.trans hgrows).trans
    (grows_of_redraws hrevises.toRedraws)⟩
  · intro other hother child' hchild'
    obtain rfl := List.mem_singleton.mp hother
    obtain rfl : child = child' := Option.some.inj (hchild.symm.trans hchild')
    obtain ⟨node, hlevel, hparent, hattr, -⟩ := hnested.level
    obtain ⟨node', hlevel', horigin⟩ := hgrows.levels hlevel
    exact ⟨node', hlevel', (congrArg (·.1) horigin).trans hparent,
      ((congrArg (·.2.1) horigin).trans hattr).trans (congrArg some hname.symm)⟩
  · intro other hother
    rcases List.mem_cons.mp hother with rfl | hother
    · exact .inr ⟨(hnested.grows.trans hgrows).nodes hstands.node, decl, List.mem_singleton_self _,
        hchild⟩
    · exact .inl hother

/-- Registering what is attached to a level that has been visited. -/
theorem grown_addJoin {kind : NodeKind} {child source path : String} {s₁ s₂ : Flattening}
    (hnested : Nested root opened pending position name kind (some source) child s s₁)
    (hstands : s.Stands position) (hpath : path = position.attributePath name)
    (hrun : updateMetadata
      (·.addJoin ⟨source, path, if kind = .array then .many else .one⟩) s₁ = .ok () s₂) :
    Grown root (child :: opened) pending s₂ ∧ Grows s₁ s₂ := by
  obtain rfl := modify_eq_ok.mp hrun
  obtain ⟨node, hlevel, hparent, hattr, hkind, hstore⟩ := hnested.level
  obtain ⟨names, htrail, hposition⟩ := hstands.trail
  refine ⟨hnested.grown.attach hnested.fresh hlevel hstore ?_
    (.inside hlevel hparent hattr (htrail.mono hnested.grows)) ?_, fun hlevel => ⟨_, hlevel, rfl⟩,
    id⟩
  · rw [hkind]
  · show path = _
    rw [hpath, trailPath, ← hposition]
    rfl

/-- A nested attribute is visited with nothing left open. -/
theorem grown_visitNested {tuple : Tuple LevelWalk}
    (hwalk : ∀ walk, tuple.nested = some walk → walk.Sound) (h : Grown root opened pending s)
    (hstands : s.Stands position) {visited : Visited}
    (hrun : visitNested store position name tuple s = .ok visited s') :
    Grown root opened pending s' ∧ Grows s s' := by
  obtain ⟨kind, attached, below, s₁, s₂, s₃, s₄, hbefore, hbelow, hjoin, hafter, hdeclare, -⟩ :=
    visitNested_eq_ok hrun
  have hbefore := (hbefore name).1
  have hafter := (hafter name).1
  have hstands' := hstands.mono (grows_of_redraws hbefore.toRedraws)
  have hnested : Nested root opened pending position name kind attached below.child s₁ s₂ := by
    cases hinner : tuple.nested with
    | none =>
      rw [hinner] at hbelow
      exact nested_visitVirtualLevel (h.steady hbefore) hbelow
    | some walk =>
      rw [hinner] at hbelow
      exact nested_visitDeclaredLevel (hwalk walk hinner) (h.steady hbefore) hstands' hbelow
  -- only a level with a store attached to it waits for its registration
  have hjoined : Grown root (below.child :: opened) pending s₃ ∧ Grows s₂ s₃ := by
    cases attached with
    | none =>
      obtain ⟨-, rfl⟩ := pure_eq_ok.mp hjoin
      exact ⟨hnested.grown.settle, .refl _⟩
    | some source => exact grown_addJoin hnested hstands' rfl hjoin
  obtain ⟨hgrown, hgrows⟩ := grown_declare hnested hstands' (hjoined.1.steady hafter)
    (hjoined.2.trans (grows_of_redraws hafter.toRedraws)) rfl rfl hdeclare
  exact ⟨hgrown, (grows_of_redraws hbefore.toRedraws).trans hgrows⟩

/-! ## The whole walk -/

/-- An attribute is read before it is visited, as a nested or as a scalar one. -/
theorem visitAttribute_eq_ok {attr : Attribute LevelWalk} {visited : Visited}
    (hrun : visitAttribute store position name attr s = .ok visited s') :
    ∃ directives tuple, attr = .tuple directives ∧ Tuple.ofDirectives directives = .ok tuple ∧
      (visitNested store position name tuple s = .ok visited s' ∨
        tuple.isNested = false ∧ visitScalar store position name tuple s = .ok visited s') := by
  cases attr with
  | bare text => cases hrun
  | malformed kind => cases hrun
  | tuple directives =>
    unfold visitAttribute at hrun
    simp only at hrun
    cases read : Tuple.ofDirectives directives with
    | error rule =>
      rw [read] at hrun
      cases hrun
    | ok tuple =>
      rw [read] at hrun
      simp only at hrun
      refine ⟨directives, tuple, rfl, read, ?_⟩
      split at hrun
      · exact .inl hrun
      · next hplain => exact .inr ⟨Bool.eq_false_iff.mpr hplain, hrun⟩

/-- An attribute of a descriptor is read with what is nested in it, not with the walk over that. -/
theorem exists_read_of_visitAttribute {walk : Descriptor → LevelWalk} {attr : Attribute Descriptor}
    {visited : Visited}
    (hrun : visitAttribute store position name (attr.map walk) s = .ok visited s') :
    ∃ directives tuple, attr = .tuple directives ∧ Tuple.ofDirectives directives = .ok tuple ∧
      (visitNested store position name (tuple.map walk) s = .ok visited s' ∨
        tuple.isNested = false ∧
          visitScalar store position name (tuple.map walk) s = .ok visited s') := by
  obtain ⟨mapped, tuple', heq, read, hvisit⟩ := visitAttribute_eq_ok hrun
  cases attr with
  | bare text => cases heq
  | malformed kind => cases heq
  | tuple directives =>
    obtain rfl := Attribute.tuple.inj heq
    rw [Tuple.ofDirectives_map] at read
    cases hread : Tuple.ofDirectives directives with
    | error rule =>
      rw [hread] at read
      cases read
    | ok tuple =>
      rw [hread] at read
      obtain rfl : tuple.map walk = tuple' := Except.ok.inj read
      rw [Tuple.isNested_map] at hvisit
      exact ⟨directives, tuple, rfl, hread, hvisit⟩

/-- What the visit of each attribute keeps is kept by the visits of all of them. -/
theorem visitAttributes_induction {motive : Flattening → Prop}
    {attributes : List (String × Attribute LevelWalk)}
    (hstep : ∀ entry ∈ attributes, ∀ s visited s', motive s →
      visitAttribute store position entry.1 entry.2 s = .ok visited s' → motive s') :
    ∀ {s : Flattening} {level level' : Level}, motive s →
      visitAttributes store position level attributes s = .ok level' s' → motive s' := by
  induction attributes with
  | nil =>
    intro s level level' h hrun
    obtain ⟨-, rfl⟩ := pure_eq_ok.mp hrun
    exact h
  | cons first rest ih =>
    obtain ⟨name, attr⟩ := first
    intro s level level' h hrun
    obtain ⟨visited, s₁, hfirst, hrest⟩ := bind_eq_ok.mp hrun
    have h₁ := hstep _ List.mem_cons_self s visited s₁ h hfirst
    exact ih (fun entry hentry => hstep entry (List.mem_cons_of_mem _ hentry)) h₁ hrest

theorem grown_visitAttribute {attr : Attribute LevelWalk}
    (hwalk : ∀ directives, attr = .tuple directives → ∀ walk : LevelWalk,
      .nested walk ∈ directives → walk.Sound)
    (h : Grown root opened pending s) (hstands : s.Stands position) {visited : Visited}
    (hrun : visitAttribute store position name attr s = .ok visited s') :
    Grown root opened pending s' ∧ Grows s s' := by
  obtain ⟨directives, tuple, rfl, read, hrun | ⟨-, hrun⟩⟩ := visitAttribute_eq_ok hrun
  · refine grown_visitNested (fun walk hmem => ?_) h hstands hrun
    exact hwalk directives rfl walk (Tuple.mem_of_nested read hmem)
  · have hrevises := (adds_visitScalar store position name tuple s visited s' hrun).1
    refine ⟨h.revise hrevises ?_ fun _ hmem => .inl hmem, grows_of_redraws hrevises.toRedraws⟩
    intro decl hdecl child hchild
    obtain rfl := List.mem_singleton.mp hdecl
    cases hchild

theorem grown_visitAttributes {attributes : List (String × Attribute LevelWalk)}
    (hwalk : ∀ entry ∈ attributes, ∀ directives, entry.2 = .tuple directives →
      ∀ walk : LevelWalk, .nested walk ∈ directives → walk.Sound) {level level' : Level}
    (h : Grown root opened pending s) (hstands : s.Stands position)
    (hrun : visitAttributes store position level attributes s = .ok level' s') :
    Grown root opened pending s' ∧ Grows s s' := by
  refine visitAttributes_induction (motive := fun t => Grown root opened pending t ∧ Grows s t) ?_
    ⟨h, .refl s⟩ hrun
  intro entry hentry t visited t' ⟨hgrown, hgrows⟩ hvisit
  obtain ⟨hgrown', hgrows'⟩ :=
    grown_visitAttribute (hwalk entry hentry) hgrown (hstands.mono hgrows) hvisit
  exact ⟨hgrown', hgrows.trans hgrows'⟩

end Walk

/-- The walk over a descriptor keeps the invariant. -/
theorem Descriptor.sound_fold (store : String) (descriptor : Descriptor) :
    LevelWalk.Sound (descriptor.fold (Walk.visitLevel store)) := by
  refine fold_induction (p := LevelWalk.Sound) (fun attributes hwalk => ?_) descriptor
  intro root opened pending position s level s' h hstands hrun
  exact Walk.grown_visitAttributes hwalk h hstands hrun

end NestedRecord
