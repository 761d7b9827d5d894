import NestedRecord.Proofs.Graph.Forming

/-!
# The tree of a flattened descriptor

The levels of a flattened descriptor are a well-formed tree.

* `Flattened.Way` is the way from the root down to a level.
* `Flattened.EndsIn` ties a flattened descriptor to the state in which its walk has ended; what is
  known of the tree is read off the invariants there.
* `Flattened.IsTree` says what a well-formed tree is, `isTree_of_flatten` that flattening gives one.

A tree is meant in the full sense: from the root, every level is reached in one way, no name stands
for two levels, parents know their children and the other way round, and each level knows its depth
and the lists above it. The two tables of levels, declared and foreign ones, are one tree together.
-/

namespace NestedRecord

open Fields (get? has)

namespace Flattened

variable {flattened : Flattened} {name : String} {node : Node}

/-- All levels, those of the descriptor itself and those of attached stores. -/
def levels (flattened : Flattened) : Nodes := flattened.nodes ++ flattened.virtualNodes

/-- The levels from the root down to the level of a name, this one included. -/
inductive Way (flattened : Flattened) : String → List Node → Prop
  | top {node : Node} (hroot : (flattened.root, node) ∈ flattened.levels) :
      Way flattened flattened.root [node]
  | inside {name child : String} {around node : Node} {decl : AttributeDecl} {above : List Node}
      (rest : Way flattened name above) (haround : (name, around) ∈ flattened.levels)
      (hdecl : decl ∈ around.attributes) (hchild : decl.child = some child)
      (hlevel : (child, node) ∈ flattened.levels) : Way flattened child (above ++ [node])

/-- The levels are a tree with the root in front, and know their places in it. -/
structure IsTree (flattened : Flattened) : Prop where
  first : (Fields.keys flattened.nodes).head? = some flattened.root
  top : ∃ node, (flattened.root, node) ∈ flattened.nodes ∧ node.parentName = none
  named : ∀ {name node}, (name, node) ∈ flattened.levels → node.uniqueName = name
  /-- no two levels share a name, whichever table they are in -/
  distinct : (Fields.keys flattened.levels).Nodup
  child : ∀ {name node decl child}, (name, node) ∈ flattened.levels → decl ∈ node.attributes →
    decl.child = some child → ∃ below, (child, below) ∈ flattened.levels ∧
      below.parentName = some name ∧ below.nameInParent = some decl.name
  /-- among the attributes of all levels, one leads to each level but the root -/
  once : ∀ {name node}, (name, node) ∈ flattened.levels → name ≠ flattened.root →
    (flattened.levels.flatMap fun entry => entry.2.children).count name = 1
  before : ∀ {name node parent}, (name, node) ∈ flattened.nodes → node.parentName = some parent →
    (Fields.keys flattened.nodes).idxOf parent < (Fields.keys flattened.nodes).idxOf name
  reached : ∀ {name node}, (name, node) ∈ flattened.levels →
    ∃ above, flattened.Way name (above ++ [node])
  nesting : ∀ {name above node}, flattened.Way name (above ++ [node]) →
    node.nestingLevel = (above ++ [node]).countP Node.isArray ∧
      node.arrayAncestors = (above.filter Node.isArray).map (·.uniqueName)
  arrays : ∀ {name node}, (name, node) ∈ flattened.levels → node.childArrays =
    node.children.filter fun child => (get? flattened.nodes child).any Node.isArray
  keyed : ∀ {name node}, (name, node) ∈ flattened.nodes → node.isArray = true →
    node.primaryKey ≠ []

open Flattening

/-- The walk over the descriptor has ended in a state. -/
structure EndsIn (flattened : Flattened) (s : Flattening) : Prop where
  grown : Grown flattened.root [] [] s
  formed : Formed flattened.root [] s
  nodes : flattened.nodes = s.nodes
  virtualNodes : flattened.virtualNodes = s.virtualNodes

/-- Where the walk over a descriptor ends, nothing is opened any more. -/
theorem endsIn_of_walk {store : String} {descriptor : Descriptor} {s : Flattening} {level : Level}
    {counter : Nat}
    (hwalk : descriptor.fold (Walk.visitLevel store)
      { node := flattened.root, path := "", column := "", keyOwner := flattened.root,
        keyFront := "", depth := 0 } (rooted store flattened.root counter) = .ok level s)
    (heq : flattened = s.finish flattened.root level) : flattened.EndsIn s := by
  obtain ⟨hsound, hforming⟩ := Descriptor.forming_fold store descriptor
  have hstands := stands_rooted store flattened.root counter
  have hgrown := grown_rooted store flattened.root counter
  exact ⟨(hsound hgrown hstands hwalk).1,
    hforming hgrown (formed_rooted store _ counter) hstands hwalk,
    congrArg Flattened.nodes heq, congrArg Flattened.virtualNodes heq⟩

theorem exists_endsIn_of_flatten {store rootName : String} {descriptor : Descriptor}
    (h : (flatten store rootName descriptor).1 = .ok flattened) : ∃ s, flattened.EndsIn s := by
  obtain ⟨s, level, counter, hwalk, heq⟩ := exists_walk_of_flatten h
  exact ⟨s, endsIn_of_walk hwalk heq⟩

namespace EndsIn

variable {s : Flattening} {child : String} {decl : AttributeDecl}

theorem distinct (h : flattened.EndsIn s) : (Fields.keys flattened.levels).Nodup := by
  rw [levels, Fields.keys, List.map_append, h.nodes, h.virtualNodes]
  exact h.formed.distinct

theorem mem_nodes_iff (h : flattened.EndsIn s) :
    (name, node) ∈ flattened.nodes ↔ get? s.nodes name = some node := by
  rw [h.nodes]
  exact ⟨Fields.get?_of_mem (List.nodup_append.mp h.formed.distinct).1, Fields.mem_of_get?⟩

/-- A level of a joined store is none of the descriptor's own. -/
theorem get?_nodes_of_foreign (h : flattened.EndsIn s)
    (hget : get? s.virtualNodes name = some node) : get? s.nodes name = none := by
  have hdisjoint := (List.nodup_append'.mp h.formed.distinct).2.2
  have hnot : name ∉ Fields.keys s.nodes := fun hmem =>
    hdisjoint hmem (Fields.mem_keys_iff_has.mpr (Fields.has_iff.mpr ⟨node, hget⟩))
  simpa [Fields.mem_keys_iff_has, Fields.has] using hnot

/-- The levels are those of the last state. -/
theorem mem_levels_iff (h : flattened.EndsIn s) :
    (name, node) ∈ flattened.levels ↔ s.level? name = some node := by
  rw [levels, List.mem_append, h.mem_nodes_iff, h.virtualNodes, level?]
  constructor
  · rintro (hget | hmem)
    · rw [hget, Option.some_or]
    · have hget := Fields.get?_of_mem (List.nodup_append.mp h.formed.distinct).2.1 hmem
      rw [h.get?_nodes_of_foreign hget, Option.none_or, hget]
  · intro hlevel
    cases hget : get? s.nodes name with
    | some known =>
      rw [hget, Option.some_or] at hlevel
      exact .inl hlevel
    | none =>
      rw [hget, Option.none_or] at hlevel
      exact .inr (Fields.mem_of_get? hlevel)

/-- Only the levels of the descriptor itself have attributes. -/
theorem get?_of_mem_attributes (h : flattened.EndsIn s)
    (hmem : (name, node) ∈ flattened.levels) (hdecl : decl ∈ node.attributes) :
    get? s.nodes name = some node := by
  rw [levels, List.mem_append, h.mem_nodes_iff, h.virtualNodes] at hmem
  refine hmem.resolve_right fun hvirtual => ?_
  have hget := Fields.get?_of_mem (List.nodup_append.mp h.formed.distinct).2.1 hvirtual
  rw [(h.formed.bare hget).1] at hdecl
  cases hdecl

/-- An attribute leads to a level that stands under it. -/
theorem exists_child (h : flattened.EndsIn s) (hmem : (name, node) ∈ flattened.levels)
    (hdecl : decl ∈ node.attributes) (hchild : decl.child = some child) :
    ∃ below, (child, below) ∈ flattened.levels ∧ below.parentName = some name ∧
      below.nameInParent = some decl.name := by
  obtain ⟨below, hlevel, horigin⟩ :=
    h.grown.child (h.get?_of_mem_attributes hmem hdecl) hdecl hchild
  exact ⟨below, h.mem_levels_iff.mpr hlevel, horigin⟩

/-- What the attributes of different levels lead to is different. -/
theorem nodup_children (h : flattened.EndsIn s) :
    (flattened.levels.flatMap fun entry => entry.2.children).Nodup := by
  rw [List.nodup_flatMap]
  constructor
  · rintro ⟨name, node⟩ hmem
    by_cases hnil : node.attributes = []
    · rw [Node.children, hnil]
      exact List.nodup_nil
    · obtain ⟨decl, hdecl⟩ := List.exists_mem_of_ne_nil _ hnil
      simpa using h.formed.once (h.get?_of_mem_attributes hmem hdecl)
  · refine (List.pairwise_map.mp h.distinct).imp_of_mem fun {a b} ha hb hne => ?_
    intro child hchild hchild'
    obtain ⟨decl, hdecl, hleads⟩ := List.mem_filterMap.mp hchild
    obtain ⟨decl', hdecl', hleads'⟩ := List.mem_filterMap.mp hchild'
    obtain ⟨below, hbelow, hparent, -⟩ := h.exists_child ha hdecl hleads
    obtain ⟨below', hbelow', hparent', -⟩ := h.exists_child hb hdecl' hleads'
    cases Option.some.inj ((h.mem_levels_iff.mp hbelow).symm.trans (h.mem_levels_iff.mp hbelow'))
    exact hne (Option.some.inj (hparent.symm.trans hparent'))

/-- Each level but the root is reached by one attribute. -/
theorem count_children (h : flattened.EndsIn s) (hmem : (name, node) ∈ flattened.levels)
    (hne : name ≠ flattened.root) :
    (flattened.levels.flatMap fun entry => entry.2.children).count name = 1 := by
  obtain ⟨parent, around, decl, -, haround, hdecl, hchild⟩ :=
    h.grown.entered (h.mem_levels_iff.mp hmem) hne List.not_mem_nil
  refine List.count_eq_one_of_mem h.nodup_children (List.mem_flatMap.mpr ⟨(parent, around), ?_, ?_⟩)
  · exact h.mem_levels_iff.mpr (level?_of_get? haround)
  · exact List.mem_filterMap.mpr ⟨decl, hdecl, hchild⟩

/-- A level is reached from the root if the level around it is. -/
theorem exists_way_of_parent (h : flattened.EndsIn s) (hmem : (name, node) ∈ flattened.levels)
    (hparent : ∀ {parent around}, node.parentName = some parent →
      get? s.nodes parent = some around → ∃ above, flattened.Way parent (above ++ [around])) :
    ∃ above, flattened.Way name (above ++ [node]) := by
  by_cases hroot : name = flattened.root
  · subst hroot
    exact ⟨[], .top hmem⟩
  · obtain ⟨parent, around, decl, hup, haround, hdecl, hchild⟩ :=
      h.grown.entered (h.mem_levels_iff.mp hmem) hroot List.not_mem_nil
    obtain ⟨above, hway⟩ := hparent hup haround
    exact ⟨_, .inside hway (h.mem_levels_iff.mpr (level?_of_get? haround)) hdecl hchild hmem⟩

/-- The declared levels are reached from the root, since parents stand before their children. -/
theorem exists_way_of_get? (h : flattened.EndsIn s) (hget : get? s.nodes name = some node) :
    ∃ above, flattened.Way name (above ++ [node]) := by
  induction hn : (Fields.keys s.nodes).idxOf name using Nat.strongRecOn
    generalizing name node with
  | ind n ih =>
    refine h.exists_way_of_parent (h.mem_levels_iff.mpr (level?_of_get? hget)) ?_
    exact fun hup haround => ih _ (hn ▸ h.formed.before hget hup) haround rfl

/-- Every level is reached from the root. -/
theorem exists_way (h : flattened.EndsIn s) (hmem : (name, node) ∈ flattened.levels) :
    ∃ above, flattened.Way name (above ++ [node]) :=
  h.exists_way_of_parent hmem fun _ => h.exists_way_of_get?

/-- A level counts the lists on its way and knows those around it. -/
theorem nesting_of_way (h : flattened.EndsIn s) {path : List Node}
    (hway : flattened.Way name path) :
    ∃ above node, path = above ++ [node] ∧ (name, node) ∈ flattened.levels ∧
      node.nestingLevel = path.countP Node.isArray ∧
      node.arrayAncestors = (above.filter Node.isArray).map (·.uniqueName) := by
  induction hway with
  | @top node hroot =>
    obtain ⟨top, htop, -⟩ := h.grown.top
    obtain rfl : top = node :=
      Option.some.inj ((level?_of_get? htop).symm.trans (h.mem_levels_iff.mp hroot))
    obtain ⟨hkind, hlevel, hancestors⟩ := h.formed.top htop
    refine ⟨[], top, rfl, hroot, ?_, hancestors⟩
    rw [hlevel, List.countP_singleton, Node.isArray, hkind]
    rfl
  | @inside name child around node decl above rest haround hdecl hchild hlevel ih =>
    obtain ⟨above', around', rfl, haround', hcount, hancestors⟩ := ih
    cases Option.some.inj
      ((h.mem_levels_iff.mp haround).symm.trans (h.mem_levels_iff.mp haround'))
    obtain ⟨below, hbelow, hparent, -⟩ := h.exists_child haround hdecl hchild
    cases Option.some.inj ((h.mem_levels_iff.mp hlevel).symm.trans (h.mem_levels_iff.mp hbelow))
    obtain ⟨hnesting, hlists⟩ := h.formed.below (h.mem_levels_iff.mp hlevel) hparent
      (h.get?_of_mem_attributes haround hdecl)
    -- lists above are known by name, so a level has to be found under its own
    have hnamed : around.uniqueName = name := h.grown.named (h.mem_levels_iff.mp haround)
    refine ⟨above' ++ [around], node, rfl, hlevel, ?_, ?_⟩
    · have hadd : ((above' ++ [around]) ++ [node]).countP Node.isArray =
          (above' ++ [around]).countP Node.isArray + [node].countP Node.isArray :=
        List.countP_append
      rw [hnesting, hcount, hadd, List.countP_singleton]
      simp [Node.isArray]
    · rw [hlists, hancestors, List.filter_append, List.map_append, List.filter_singleton, ← hnamed]
      cases around.isArray <;> rfl

end EndsIn

/-- The levels of a flattened descriptor are a well-formed tree. -/
theorem isTree_of_flatten {store rootName : String} {descriptor : Descriptor}
    (h : (flatten store rootName descriptor).1 = .ok flattened) : flattened.IsTree := by
  obtain ⟨s, hends⟩ := exists_endsIn_of_flatten h
  constructor
  case first =>
    rw [hends.nodes]
    exact hends.formed.first
  case top =>
    obtain ⟨node, hget, hparent⟩ := hends.grown.top
    exact ⟨node, hends.mem_nodes_iff.mpr hget, hparent⟩
  case named => exact fun hmem => hends.grown.named (hends.mem_levels_iff.mp hmem)
  case distinct => exact hends.distinct
  case child => exact hends.exists_child
  case once => exact hends.count_children
  case before =>
    intro name node parent hmem hparent
    rw [hends.nodes]
    exact hends.formed.before (hends.mem_nodes_iff.mp hmem) hparent
  case reached => exact hends.exists_way
  case nesting =>
    intro name above node hway
    obtain ⟨above', node', heq, -, hnesting, hancestors⟩ := hends.nesting_of_way hway
    obtain ⟨rfl, hlast⟩ := List.append_inj' heq rfl
    cases List.singleton_inj.mp hlast
    exact ⟨hnesting, hancestors⟩
  -- a level of another store has no attributes, and so no lists below it
  case arrays =>
    intro name node hmem
    rw [levels, List.mem_append, hends.mem_nodes_iff, hends.virtualNodes] at hmem
    rw [hends.nodes]
    rcases hmem with hget | hvirtual
    · exact hends.formed.arrays hget
    · obtain ⟨hattributes, hnone⟩ := hends.formed.bare
        (Fields.get?_of_mem (List.nodup_append.mp hends.formed.distinct).2.1 hvirtual)
      rw [hnone, Node.children, hattributes]
      rfl
  case keyed =>
    intro name node hmem harray
    exact hends.formed.keyed (hends.mem_nodes_iff.mp hmem) harray List.not_mem_nil

/-- Parcels with an address each, whose notes are a list below an object, and orders of another
store. -/
def parcels : Descriptor :=
  .mk [("parcels", .tuple [.word "array", .nested (.mk
    [("number", .tuple [.word "int", .word "<<number>>"]),
     ("address", .tuple [.word "object", .nested (.mk
       [("street", .tuple [.word "text"]),
        ("notes", .tuple [.word "array", .nested (.mk
          [("line", .tuple [.word "int", .word "<<line>>"])])])])]),
     ("orders", .tuple [.word "array", .word "@orders"])])])]

/-- A descriptor with lists, an object and an attached store. -/
theorem isTree_of_flatten_parcels : ∃ flattened, (flatten "shop" "main" parcels).1 = .ok flattened ∧
    Fields.keys flattened.nodes = ["main0", "parcels1", "address2", "notes3"] ∧
    Fields.keys flattened.virtualNodes = ["orders4"] ∧ flattened.IsTree := by
  have hkeys : (flatten "shop" "main" parcels).1.toOption.map (fun flattened =>
      (Fields.keys flattened.nodes, Fields.keys flattened.virtualNodes)) =
        some (["main0", "parcels1", "address2", "notes3"], ["orders4"]) := by
    decide +kernel
  obtain ⟨flattened, hflatten, hboth⟩ := Option.map_eq_some_iff.mp hkeys
  obtain ⟨hnodes, hvirtual⟩ := Prod.mk.inj hboth
  have hok := Except.eq_ok_of_toOption hflatten
  exact ⟨flattened, hok, hnodes, hvirtual, isTree_of_flatten hok⟩

end Flattened

end NestedRecord
