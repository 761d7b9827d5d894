import NestedRecord.Proofs.Descriptor.Mapping
import NestedRecord.Proofs.Graph.Tree

/-!
# The graph draws the descriptor

The walk over a descriptor leaves three things behind: the levels of the graph, their shapes and the
default record. All three are the descriptor once more, attribute by attribute.

* `Drawn` says that the level of a name draws a descriptor, and what its shape and its default
  members are; `AttributeDrawn` says so of one attribute.
* `Frame` is what happens to the other levels while one level is visited: nothing. It is what keeps
  a drawing, by `Drawn.mono`.
* `Walk.DrawsBelow` and `Walk.DrawsAttribute` are what one nested level and one attribute add to a
  drawing. `Descriptor.draws_fold` says that the walk over a descriptor draws it, and
  `Flattened.exists_drawn` is the result for a flattened descriptor.

A drawing speaks of levels by name, and every level is drawn while other levels are still open. So
the drawing of one level has to survive what happens afterwards: the walk adds attributes to the
levels around it and enters new levels, but it never returns to a level that has been left. `Unled`
is the part of this which has to be carried along, that no attribute of the graph leads to the level
which is being visited.
-/

namespace NestedRecord

open Fields (get? has)
open Walk (scalarDecl nestedDecl levelValue attachmentValue)

/-- A level with one more attribute. -/
def Level.add (level : Level) (visited : Visited) : Level where
  attributes := level.attributes ++ [(visited.decl, visited.shape)]
  members := Fields.set level.members visited.decl.name visited.value

/-- The level that the attributes visited make up. -/
def Level.ofVisited (visited : List Visited) : Level := visited.foldl Level.add {}

@[simp] theorem Level.ofVisited_nil : Level.ofVisited [] = {} := rfl

theorem Level.ofVisited_append (front : List Visited) (visited : Visited) :
    Level.ofVisited (front ++ [visited]) = (Level.ofVisited front).add visited := by
  rw [ofVisited, List.foldl_append]
  rfl

/-- The shapes of a level are those of its attributes, in order. -/
theorem Level.attributes_ofVisited (visited : List Visited) :
    (Level.ofVisited visited).attributes = visited.map fun attr => (attr.decl, attr.shape) := by
  have hfold : ∀ level : Level, (visited.foldl Level.add level).attributes =
      level.attributes ++ visited.map fun attr => (attr.decl, attr.shape) := by
    induction visited with
    | nil => exact fun level => (List.append_nil _).symm
    | cons first rest ih =>
      intro level
      rw [List.foldl_cons, ih, add, List.append_assoc]
      rfl
  exact hfold {}

/-- What has been visited draws an attribute; `below` says what a nested descriptor is drawn as. -/
inductive AttributeDrawn (s : Flattening) (below : Descriptor → String → Level → Prop) :
    String × Attribute Descriptor → Visited → Prop
  | scalar {name : String} {directives : List (Directive Descriptor)} {tuple : Tuple Descriptor}
      (read : Tuple.ofDirectives directives = .ok tuple) (plain : tuple.isNested = false) :
      AttributeDrawn s below (name, .tuple directives)
        ⟨scalarDecl name tuple, .scalar, tuple.fallback.getD .null⟩
  | level {name child : String} {directives : List (Directive Descriptor)}
      {tuple : Tuple Descriptor} {kind : NodeKind} {inner : Descriptor} {node : Node}
      {level : Level} (read : Tuple.ofDirectives directives = .ok tuple)
      (nesting : tuple.nesting = some kind) (nested : tuple.nested = some inner)
      (entered : get? s.nodes child = some node) (kept : node.kind = kind)
      (drawn : below inner child level) :
      AttributeDrawn s below (name, .tuple directives)
        ⟨nestedDecl name tuple child, .level kind level.attributes, levelValue kind level.members⟩
  | attachment {name child : String} {directives : List (Directive Descriptor)}
      {tuple : Tuple Descriptor} {kind : NodeKind} {node : Node}
      (read : Tuple.ofDirectives directives = .ok tuple)
      (nesting : tuple.nesting = some kind) (nested : tuple.nested = none)
      (entered : get? s.virtualNodes child = some node) (kept : node.kind = kind) :
      AttributeDrawn s below (name, .tuple directives)
        ⟨nestedDecl name tuple child, .foreign, attachmentValue kind⟩

/-- The level of a name draws a descriptor. -/
inductive Drawn (s : Flattening) : Descriptor → String → Level → Prop
  | mk {attributes : List (String × Attribute Descriptor)} {name : String} {node : Node}
      {visited : List Visited} (entered : get? s.nodes name = some node)
      (declared : node.attributes = visited.map (·.decl))
      (drawn : List.Forall₂ (AttributeDrawn s (Drawn s)) attributes visited) :
      Drawn s (.mk attributes) name (.ofVisited visited)

/-- What is visited of an attribute bears its name. -/
theorem AttributeDrawn.name_eq {s : Flattening} {below : Descriptor → String → Level → Prop}
    {entry : String × Attribute Descriptor} {visited : Visited}
    (h : AttributeDrawn s below entry visited) : visited.decl.name = entry.1 := by
  cases h <;> rfl

/-- What is visited of a level bears the names of its attributes, in order. -/
theorem AttributeDrawn.names_eq {s : Flattening} {below : Descriptor → String → Level → Prop}
    {attributes : List (String × Attribute Descriptor)} {visited : List Visited}
    (h : List.Forall₂ (AttributeDrawn s below) attributes visited) :
    visited.map (·.decl.name) = attributes.map (·.1) := by
  induction h with
  | nil => rfl
  | cons hhead _ ih => exact congrArg₂ List.cons hhead.name_eq ih

section Inversion

variable {s : Flattening} {below : Descriptor → String → Level → Prop} {name : String}
  {directives : List (Directive Descriptor)} {tuple : Tuple Descriptor} {visited : Visited}

/-- What is visited of a scalar attribute. -/
theorem AttributeDrawn.eq_of_plain (h : AttributeDrawn s below (name, .tuple directives) visited)
    (hread : Tuple.ofDirectives directives = .ok tuple) (hplain : tuple.isNested = false) :
    visited = ⟨scalarDecl name tuple, .scalar, tuple.fallback.getD .null⟩ := by
  cases h with
  | scalar read =>
    cases Except.ok.inj (hread.symm.trans read)
    rfl
  | level read nesting =>
    cases Except.ok.inj (hread.symm.trans read)
    simp [Tuple.isNested, nesting] at hplain
  | attachment read nesting =>
    cases Except.ok.inj (hread.symm.trans read)
    simp [Tuple.isNested, nesting] at hplain

/-- What is visited of an attribute with a nested descriptor. -/
theorem AttributeDrawn.exists_level (h : AttributeDrawn s below (name, .tuple directives) visited)
    (hread : Tuple.ofDirectives directives = .ok tuple) {inner : Descriptor}
    (hnested : tuple.nested = some inner) :
    ∃ child node level, get? s.nodes child = some node ∧ tuple.nesting = some node.kind ∧
      below inner child level ∧ visited = ⟨nestedDecl name tuple child,
        .level node.kind level.attributes, levelValue node.kind level.members⟩ := by
  cases h with
  | scalar read plain =>
    cases Except.ok.inj (hread.symm.trans read)
    simp [Tuple.isNested, hnested] at plain
  | level read nesting nested entered kept drawn =>
    cases Except.ok.inj (hread.symm.trans read)
    cases Option.some.inj (hnested.symm.trans nested)
    exact ⟨_, _, _, entered, kept ▸ nesting, drawn, kept ▸ rfl⟩
  | attachment read nesting nested =>
    cases Except.ok.inj (hread.symm.trans read)
    rw [hnested] at nested
    cases nested

/-- What is visited of a nested attribute whose shape is that of another store. -/
theorem AttributeDrawn.exists_attachment
    (h : AttributeDrawn s below (name, .tuple directives) visited)
    (hread : Tuple.ofDirectives directives = .ok tuple) {kind : NodeKind}
    (hnesting : tuple.nesting = some kind) (hnested : tuple.nested = none) :
    ∃ child node, get? s.virtualNodes child = some node ∧ node.kind = kind ∧
      visited = ⟨nestedDecl name tuple child, .foreign, attachmentValue kind⟩ := by
  cases h with
  | scalar read plain =>
    cases Except.ok.inj (hread.symm.trans read)
    simp [Tuple.isNested, hnesting] at plain
  | level read nesting nested =>
    cases Except.ok.inj (hread.symm.trans read)
    rw [hnested] at nested
    cases nested
  | attachment read nesting nested entered kept =>
    cases Except.ok.inj (hread.symm.trans read)
    cases Option.some.inj (hnesting.symm.trans nesting)
    exact ⟨_, _, entered, kept, rfl⟩

end Inversion

namespace Flattening

variable {s s' s'' : Flattening} {root name : String} {opened pending : List String}

/-- While one level is visited, no other one is lost, moved or given attributes. -/
structure Frame (name : String) (s s' : Flattening) : Prop where
  nodes : ∀ {other node}, get? s.nodes other = some node →
    ∃ node', get? s'.nodes other = some node' ∧ node'.kind = node.kind ∧
      (other ≠ name → node'.attributes = node.attributes)
  virtualNodes : ∀ {other node}, get? s.virtualNodes other = some node →
    get? s'.virtualNodes other = some node

namespace Frame

theorem refl (name : String) (s : Flattening) : Frame name s s :=
  ⟨fun hget => ⟨_, hget, rfl, fun _ => rfl⟩, id⟩

theorem trans (h : Frame name s s') (h' : Frame name s' s'') : Frame name s s'' where
  nodes hget := by
    obtain ⟨node', hget', hkind, hsame⟩ := h.nodes hget
    obtain ⟨node'', hget'', hkind', hsame'⟩ := h'.nodes hget'
    exact ⟨node'', hget'', hkind'.trans hkind, fun hne => (hsame' hne).trans (hsame hne)⟩
  virtualNodes hget := h'.virtualNodes (h.virtualNodes hget)

/-- A level that is entered in between is none of those that are framed. -/
theorem trans_fresh {fresh : String} (h : Frame name s s') (h' : Frame fresh s' s'')
    (hfresh : s.level? fresh = none) : Frame name s s'' where
  nodes {other node} hget := by
    have hne : other ≠ fresh := by
      rintro rfl
      rw [level?_of_get? hget] at hfresh
      cases hfresh
    obtain ⟨node', hget', hkind, hsame⟩ := h.nodes hget
    obtain ⟨node'', hget'', hkind', hsame'⟩ := h'.nodes hget'
    exact ⟨node'', hget'', hkind'.trans hkind, fun hne' => (hsame' hne).trans (hsame hne')⟩
  virtualNodes hget := h'.virtualNodes (h.virtualNodes hget)

theorem of_redraws {decls : List AttributeDecl} (h : Redraws name decls s s') :
    Frame name s s' where
  nodes hget := by
    obtain ⟨node', hget', heq⟩ := exists_of_redraws h hget
    refine ⟨node', hget', congrArg (·.2.2.1) (origin_of_outline heq).1, fun hne => ?_⟩
    rw [(Node.same_of_outline heq).2.2.2, if_neg hne]
  virtualNodes hget := h.virtualNodes ▸ hget

theorem enter {node : Node} (hfresh : s.level? node.uniqueName = none) :
    Frame name s (s.enter node) where
  nodes hget := ⟨_, get?_nodes_enter_of_some hfresh hget, rfl, fun _ => rfl⟩
  virtualNodes {other known} hget := by
    have hne : other ≠ node.uniqueName := by
      rintro rfl
      rw [level?, Option.or_eq_none_iff] at hfresh
      rw [hfresh.2] at hget
      cases hget
    rw [get?_virtualNodes_enter, if_neg fun hnew => hne hnew.2, hget]

end Frame

/-- No attribute leads to the level that is visited. -/
def Unled (s : Flattening) (name : String) : Prop :=
  ∀ other node, get? s.nodes other = some node → name ∉ node.children

/-- No attribute leads to an opened level, and none to the root. -/
theorem unled_of_opened (hgrown : Grown root opened pending s) (hformed : Formed root opened s)
    (h : name ∈ opened ∨ name = root) : s.Unled name := by
  intro other node hget hmem
  rcases h with hopened | rfl
  · exact List.disjoint_of_nodup_append (hformed.once hget) hmem hopened
  · obtain ⟨decl, hdecl, hchild⟩ := List.mem_filterMap.mp hmem
    obtain ⟨below, hbelow, hparent, -⟩ := hgrown.child hget hdecl hchild
    obtain ⟨top, htop, hnone⟩ := hgrown.top
    obtain rfl : top = below := Option.some.inj ((level?_of_get? htop).symm.trans hbelow)
    rw [hnone] at hparent
    cases hparent

end Flattening

open Flattening (Frame Unled)

variable {s s' : Flattening} {name parent : String}

/-- A drawing of an attribute is kept by what keeps the drawings below. -/
theorem AttributeDrawn.mono {below below' : Descriptor → String → Level → Prop}
    {entry : String × Attribute Descriptor} {visited : Visited}
    (h : AttributeDrawn s below entry visited) (hframe : Frame name s s')
    (hbelow : ∀ directives inner child level, entry.2 = .tuple directives →
      .nested inner ∈ directives → visited.decl.child = some child → below inner child level →
        below' inner child level) : AttributeDrawn s' below' entry visited := by
  cases h with
  | scalar read plain => exact .scalar read plain
  | level read nesting nested entered kept drawn =>
    obtain ⟨node', entered', hkind, -⟩ := hframe.nodes entered
    exact .level read nesting nested entered' (hkind.trans kept)
      (hbelow _ _ _ _ rfl (Tuple.mem_of_nested read nested) rfl drawn)
  | attachment read nesting nested entered kept =>
    exact .attachment read nesting nested (hframe.virtualNodes entered) kept

/-- Drawings of the attributes of a level are kept while a level is visited that no attribute leads
to: none of the drawings below them is one of that level. -/
theorem AttributeDrawn.forall_mono {below below' : Descriptor → String → Level → Prop}
    {attributes : List (String × Attribute Descriptor)} {visited : List Visited} {other : String}
    {node : Node} (drawn : List.Forall₂ (AttributeDrawn s below) attributes visited)
    (hframe : Frame name s s') (hunled : s.Unled name) (entered : get? s.nodes other = some node)
    (declared : node.attributes = visited.map (·.decl))
    (hbelow : ∀ entry ∈ attributes, ∀ directives, entry.2 = .tuple directives →
      ∀ inner, .nested inner ∈ directives → ∀ child level, child ≠ name →
        below inner child level → below' inner child level) :
    List.Forall₂ (AttributeDrawn s' below') attributes visited := by
  refine List.forall₂_iff_get.mpr ⟨drawn.length_eq, fun index hentry hvisited => ?_⟩
  have hdrawn := (List.forall₂_iff_get.mp drawn).2 index hentry hvisited
  refine hdrawn.mono hframe fun directives inner child level htuple hinner hchild => ?_
  refine hbelow _ (List.get_mem attributes ⟨index, hentry⟩) directives htuple inner hinner _ _ ?_
  rintro rfl
  refine hunled _ _ entered (List.mem_filterMap.mpr ⟨_, ?_, hchild⟩)
  rw [declared]
  exact List.mem_map_of_mem (List.get_mem visited ⟨index, hvisited⟩)

/-- A drawing is kept while a level is visited that no attribute leads to. -/
theorem Drawn.mono (hframe : Frame name s s') (hunled : s.Unled name) :
    ∀ (descriptor : Descriptor) {other : String} {level : Level}, other ≠ name →
      Drawn s descriptor other level → Drawn s' descriptor other level := by
  refine Descriptor.levels_induction fun attributes ih other level hne h => ?_
  cases h with
  | mk entered declared drawn =>
    obtain ⟨node', entered', -, hsame⟩ := hframe.nodes entered
    exact .mk entered' ((hsame hne).trans declared) (AttributeDrawn.forall_mono drawn hframe hunled
      entered declared fun entry hentry directives htuple inner hinner _ _ =>
        ih entry hentry directives htuple inner hinner)

/-! ## The walk -/

/-- The walk over a descriptor, from a level without attributes, draws the descriptor there and
leaves all other levels as they are. -/
def Descriptor.Draws (store : String) (descriptor : Descriptor) : Prop :=
  ∀ {root opened pending position s level s' node}, Flattening.Grown root opened pending s →
    Flattening.Formed root opened s → s.Stands position →
    (position.node ∈ opened ∨ position.node = root) →
    get? s.nodes position.node = some node → node.attributes = [] →
    descriptor.fold (Walk.visitLevel store) position s = .ok level s' →
      Frame position.node s s' ∧ Drawn s' descriptor position.node level

namespace Walk

open Flattening

variable {store root : String} {position : Position} {opened pending : List String}

/-- A step that returns the given result if it succeeds. -/
def Returns {α : Type} (w : Walk α) (a : α) : Prop := ∀ s b s', w s = .ok b s' → b = a

theorem Returns.after {α β : Type} {w : Walk α} {f : α → Walk β} {b : β}
    (hf : ∀ a, Returns (f a) b) : Returns (w >>= f) b := by
  intro s b' s' h
  obtain ⟨a, s₁, -, hrest⟩ := bind_eq_ok.mp h
  exact hf a s₁ b' s' hrest

/-- A scalar attribute always comes to the same declaration. -/
theorem returns_visitScalar (tuple : Tuple LevelWalk) :
    Returns (visitScalar store position name tuple)
      ⟨scalarDecl name tuple, .scalar, tuple.fallback.getD .null⟩ := by
  rw [visitScalar_eq]
  iterate 7 refine .after fun _ => ?_
  intro s visited s' h
  exact (pure_eq_ok.mp h).1.symm

theorem nestedDecl_map {μ ν : Type} {f : μ → ν} (name : String) (tuple : Tuple μ) (child : String) :
    nestedDecl name (tuple.map f) child = nestedDecl name tuple child := by
  simp [nestedDecl, Tuple.map]

/-- A level has been entered below another one and drawn, before the attribute that leads to it is
declared; all that happens afterwards to the levels around it is that a list is noted. -/
structure DrawsBelow (around child : String) (entry : String × Attribute Descriptor)
    (visited : Visited) (s v s' : Flattening) : Prop where
  fresh : s.level? child = none
  frame : Frame child s v
  unled : v.Unled around
  redraws : Redraws around [] v s'
  drawn : AttributeDrawn v (Drawn v) entry visited

section Below

variable {directives : List (Directive Descriptor)} {tuple : Tuple Descriptor} {kind : NodeKind}
  {attached : Option String} {below : Below}

/-- A level of a joined store is drawn as soon as it has been entered. -/
theorem drawsBelow_visitVirtualLevel (hread : Tuple.ofDirectives directives = .ok tuple)
    (hnesting : tuple.nesting = some kind) (hnested : tuple.nested = none)
    (hformed : Formed root opened s) (hgrown : Grown root opened pending s)
    (hopened : position.node ∈ opened ∨ position.node = root)
    (hrun : visitVirtualLevel store position name kind attached s = .ok below s') :
    DrawsBelow position.node below.child (name, .tuple directives)
      ⟨nestedDecl name tuple below.child, below.shape, below.value⟩ s s' s' := by
  obtain ⟨parent, counter, hparent, hfresh, rfl, hshape, hvalue⟩ := visitVirtualLevel_eq_ok hrun
  have hcounter : Redraws below.child [] s { s with counter := counter } := .of_nodes rfl rfl
  have hfree : Flattening.level? { s with counter := counter }
      (childWith parent below.child name kind true attached).uniqueName = none := hfresh
  refine ⟨hfresh, (Frame.of_redraws hcounter).trans (.enter hfree), ?_, .of_nodes rfl rfl, ?_⟩
  · exact unled_of_opened (nested_enter hgrown hparent hfresh).grown
      (formed_enter hformed hgrown hparent hfresh) (hopened.imp_left (List.mem_cons_of_mem _))
  · rw [hshape, hvalue]
    have hnew := (get?_virtualNodes_enter { s with counter := counter }
      (childWith parent below.child name kind true attached) below.child).trans (if_pos ⟨rfl, rfl⟩)
    exact .attachment hread hnesting hnested hnew rfl

/-- A nested level is drawn by the walk over its own descriptor. -/
theorem drawsBelow_visitDeclaredLevel {inner : Descriptor} (hwalk : inner.Draws store)
    (hread : Tuple.ofDirectives directives = .ok tuple) (hnesting : tuple.nesting = some kind)
    (hnested : tuple.nested = some inner) (hformed : Formed root opened s)
    (hgrown : Grown root opened pending s) (hstands : s.Stands position)
    (hopened : position.node ∈ opened ∨ position.node = root)
    (hrun : visitDeclaredLevel store position name kind attached
      (inner.fold (visitLevel store)) s = .ok below s') :
    ∃ v, DrawsBelow position.node below.child (name, .tuple directives)
      ⟨nestedDecl name tuple below.child, below.shape, below.value⟩ s v s' := by
  obtain ⟨parent, counter, level, v, hparent, hfresh, hlevel, hrevises, -, -, -, hshape,
    hvalue⟩ := visitDeclaredLevel_eq_ok hrun
  have hcounter : Redraws below.child [] s { s with counter := counter } := .of_nodes rfl rfl
  have hfree : Flattening.level? { s with counter := counter }
      (childWith parent below.child name kind false attached).uniqueName = none := hfresh
  have hnew : get? (Flattening.enter { s with counter := counter }
      (childWith parent below.child name kind false attached)).nodes below.child =
        some (childWith parent below.child name kind false attached) :=
    get?_nodes_enter_self rfl
  -- the level has been entered next to the lists around it, under a free name
  have hentered : Nested root opened pending position name kind attached below.child s
      (Flattening.enter { s with counter := counter }
        (childWith parent below.child name kind false attached)) :=
    nested_enter hgrown hparent hfresh
  have hformed' : Formed root (below.child :: opened)
      (Flattening.enter { s with counter := counter }
        (childWith parent below.child name kind false attached)) :=
    formed_enter hformed hgrown hparent hfresh
  have hstands' := stands_below hentered hstands (Fields.has_iff.mpr ⟨_, hnew⟩)
  have hposition : (position.below below.child name kind).node = below.child := by
    cases kind <;> rfl
  obtain ⟨hsound, hforming⟩ := Descriptor.forming_fold store inner
  obtain ⟨hframe, hdrawn⟩ := hwalk hentered.grown hformed' hstands'
    (.inl (by rw [hposition]; exact List.mem_cons_self)) ((congrArg _ hposition).trans hnew) rfl
    hlevel
  rw [hposition] at hframe hdrawn
  refine ⟨v, hfresh, ((Frame.of_redraws hcounter).trans (.enter hfree)).trans hframe, ?_,
    hrevises.toRedraws, ?_⟩
  · exact unled_of_opened (hsound hentered.grown hstands' hlevel).1
      (hforming hentered.grown hformed' hstands' hlevel)
      (hopened.imp_left (List.mem_cons_of_mem _))
  · obtain ⟨node, hnode, hkind, -⟩ := hframe.nodes hnew
    rw [hshape, hvalue]
    exact .level hread hnesting hnested hnode hkind hdrawn

/-- The level below a nested attribute is drawn, whether or not its shape is declared. -/
theorem drawsBelow_visitBelow (hwalk : ∀ inner, tuple.nested = some inner → inner.Draws store)
    (hread : Tuple.ofDirectives directives = .ok tuple) (hnesting : tuple.nesting = some kind)
    (hformed : Formed root opened s) (hgrown : Grown root opened pending s)
    (hstands : s.Stands position) (hopened : position.node ∈ opened ∨ position.node = root)
    (hrun : visitBelow store position name kind attached
      (tuple.nested.map (Descriptor.fold (visitLevel store))) s = .ok below s') :
    ∃ v, DrawsBelow position.node below.child (name, .tuple directives)
      ⟨nestedDecl name tuple below.child, below.shape, below.value⟩ s v s' := by
  cases hnested : tuple.nested with
  | none =>
    rw [hnested] at hrun
    exact ⟨s', drawsBelow_visitVirtualLevel hread hnesting hnested hformed hgrown hopened hrun⟩
  | some inner =>
    rw [hnested] at hrun
    exact drawsBelow_visitDeclaredLevel (hwalk inner hnested) hread hnesting hnested hformed hgrown
      hstands hopened hrun

end Below

/-- A step declares an attribute of the level that is visited and draws it. -/
structure DrawsAttribute (name : String) (entry : String × Attribute Descriptor)
    (visited : Visited) (s s' : Flattening) : Prop where
  frame : Frame name s s'
  declared : ∀ {node}, get? s.nodes name = some node → ∃ node', get? s'.nodes name = some node' ∧
    node'.attributes = node.attributes ++ [visited.decl]
  drawn : AttributeDrawn s' (Drawn s') entry visited

/-- Adding an attribute to a level that is drawn already. -/
theorem exists_declared_of_redraws {decl : AttributeDecl} (h : Redraws name [decl] s s')
    {node : Node} (hget : get? s.nodes name = some node) :
    ∃ node', get? s'.nodes name = some node' ∧ node'.attributes = node.attributes ++ [decl] := by
  obtain ⟨node', hget', heq⟩ := exists_of_redraws h hget
  refine ⟨node', hget', ?_⟩
  rw [(Node.same_of_outline heq).2.2.2, if_pos rfl]
  rfl

/-- A nested attribute adds itself to the drawing, with the level below it. -/
theorem draws_visitNested {directives : List (Directive Descriptor)} {tuple : Tuple Descriptor}
    (hwalk : ∀ inner, tuple.nested = some inner → inner.Draws store)
    (hread : Tuple.ofDirectives directives = .ok tuple)
    (hformed : Formed root opened s) (hgrown : Grown root opened pending s)
    (hstands : s.Stands position) (hopened : position.node ∈ opened ∨ position.node = root)
    {visited : Visited} (hrun : visitNested store position name
      (tuple.map (Descriptor.fold (visitLevel store))) s = .ok visited s') :
    DrawsAttribute position.node (name, .tuple directives) visited s s' := by
  obtain ⟨kind, attached, below, s₁, s₂, s₃, s₄, hbefore, hbelow, hjoin, hafter, hdeclare, -,
    hvisited, hnesting⟩ := visitNested_eq_ok hrun
  obtain ⟨hrevises, hnone⟩ := hbefore position.node
  have hjoined := nodes_of_join hjoin
  have hgrown₁ := hgrown.steady hrevises
  have hstands₁ := hstands.mono (grows_of_redraws hrevises.toRedraws)
  obtain ⟨v, hfresh, hframe, hunled, hredraws, hdrawn⟩ := drawsBelow_visitBelow hwalk hread hnesting
    (hformed.steady hrevises.toRedraws hnone) hgrown₁ hstands₁ hopened hbelow
  have hredraws' : Redraws position.node [nestedDecl name tuple below.child] v s' :=
    ((hredraws.trans (.of_nodes hjoined.1 hjoined.2)).trans
      (hafter position.node).1.toRedraws).trans (nestedDecl_map name tuple _ ▸ hdeclare.toRedraws)
  -- the level below has a fresh name, and the one around it is there
  have hne : below.child ≠ position.node := by
    rintro heq
    obtain ⟨node, hget⟩ := Fields.has_iff.mp hstands₁.node
    exact ne_of_fresh hfresh (level?_of_get? hget) heq.symm
  rw [hvisited, nestedDecl_map]
  refine ⟨(Frame.of_redraws hrevises.toRedraws).trans
    (((Frame.refl _ _).trans_fresh hframe hfresh).trans (.of_redraws hredraws')), ?_, ?_⟩
  · intro node hget
    obtain ⟨node₁, hget₁, heq⟩ := exists_of_redraws hrevises.toRedraws hget
    obtain ⟨node₂, hget₂, -, hsame⟩ := hframe.nodes hget₁
    obtain ⟨node', hget', hdeclared⟩ := exists_declared_of_redraws hredraws' hget₂
    refine ⟨node', hget', ?_⟩
    rw [hdeclared, hsame hne.symm, (Node.same_of_outline heq).2.2.2, if_pos rfl, Node.extend_nil]
  · refine hdrawn.mono (.of_redraws hredraws') fun _ inner child level _ _ hchild hinner => ?_
    obtain rfl : below.child = child := Option.some.inj hchild
    exact Drawn.mono (.of_redraws hredraws') hunled inner hne hinner

/-- A scalar attribute adds itself to the drawing. -/
theorem draws_visitScalar {directives : List (Directive Descriptor)} {tuple : Tuple Descriptor}
    (hread : Tuple.ofDirectives directives = .ok tuple) (hplain : tuple.isNested = false)
    {visited : Visited} (hrun : visitScalar store position name
      (tuple.map (Descriptor.fold (visitLevel store))) s = .ok visited s') :
    DrawsAttribute position.node (name, .tuple directives) visited s s' := by
  have hredraws := (adds_visitScalar store position name _ s visited s' hrun).1.toRedraws
  rw [returns_visitScalar _ s visited s' hrun]
  exact ⟨.of_redraws hredraws, exists_declared_of_redraws hredraws, .scalar hread hplain⟩

/-- Each attribute adds itself to the drawing of its level. -/
theorem draws_visitAttribute {attr : Attribute Descriptor}
    (hwalk : ∀ directives, attr = .tuple directives → ∀ inner, .nested inner ∈ directives →
      inner.Draws store)
    (hformed : Formed root opened s) (hgrown : Grown root opened pending s)
    (hstands : s.Stands position) (hopened : position.node ∈ opened ∨ position.node = root)
    {visited : Visited} (hrun : visitAttribute store position name
      (attr.map (Descriptor.fold (visitLevel store))) s = .ok visited s') :
    DrawsAttribute position.node (name, attr) visited s s' := by
  obtain ⟨directives, tuple, rfl, hread, hrun | ⟨hplain, hrun⟩⟩ :=
    exists_read_of_visitAttribute hrun
  · exact draws_visitNested (fun inner heq => hwalk directives rfl inner
      (Tuple.mem_of_nested hread heq)) hread hformed hgrown hstands hopened hrun
  · exact draws_visitScalar hread hplain hrun

/-- Attribute by attribute the level is drawn further. -/
theorem draws_visitAttributes {attributes : List (String × Attribute Descriptor)}
    (hwalk : ∀ entry ∈ attributes, ∀ directives, entry.2 = .tuple directives →
      ∀ inner, .nested inner ∈ directives → inner.Draws store) :
    ∀ (visited : List Visited) {s s' : Flattening} {level' : Level} {node : Node}
      {done : List (String × Attribute Descriptor)},
      Formed root opened s → Grown root opened pending s →
      s.Stands position → (position.node ∈ opened ∨ position.node = root) →
      get? s.nodes position.node = some node → node.attributes = visited.map (·.decl) →
      List.Forall₂ (AttributeDrawn s (Drawn s)) done visited →
      visitAttributes store position (.ofVisited visited) (attributes.map fun entry =>
        (entry.1, entry.2.map (Descriptor.fold (visitLevel store)))) s = .ok level' s' →
      Frame position.node s s' ∧ Drawn s' (.mk (done ++ attributes)) position.node level' := by
  induction attributes with
  | nil =>
    intro visited s s' level' node done _ _ _ _ hget hdeclared hdone hrun
    obtain ⟨rfl, rfl⟩ := pure_eq_ok.mp hrun
    rw [List.append_nil]
    exact ⟨.refl _ _, .mk hget hdeclared hdone⟩
  | cons entry rest ih =>
    obtain ⟨name, attr⟩ := entry
    intro visited s s' level' node done hformed hgrown hstands hopened hget hdeclared hdone hrun
    obtain ⟨first, s₁, hfirst, hrest⟩ := bind_eq_ok.mp hrun
    have hdraws := draws_visitAttribute (hwalk (name, attr) List.mem_cons_self) hformed hgrown
      hstands hopened hfirst
    have hforming : ∀ directives,
        attr.map (Descriptor.fold (visitLevel store)) = .tuple directives →
          ∀ walk : LevelWalk, .nested walk ∈ directives → walk.Forming := by
      intro directives htuple walk hmem
      obtain ⟨inner, rfl⟩ := Attribute.exists_of_nested_map htuple hmem
      exact Descriptor.forming_fold store inner
    obtain ⟨hgrown₁, hgrows⟩ := grown_visitAttribute
      (fun directives htuple walk hmem => (hforming directives htuple walk hmem).1) hgrown hstands
      hfirst
    have hformed₁ := formed_visitAttribute hforming hformed hgrown hstands hfirst
    obtain ⟨node₁, hget₁, hdeclared₁⟩ := hdraws.declared hget
    have hunled := unled_of_opened hgrown hformed hopened
    -- what has been drawn so far lies below the level, and is not changed
    have hkept : List.Forall₂ (AttributeDrawn s₁ (Drawn s₁)) done visited :=
      AttributeDrawn.forall_mono hdone hdraws.frame hunled hget hdeclared
        fun _ _ _ _ inner _ _ _ hne => Drawn.mono hdraws.frame hunled inner hne
    rw [← hdraws.drawn.name_eq] at hrest
    have hrest' := ih (fun entry hentry => hwalk entry (List.mem_cons_of_mem _ hentry))
      (visited ++ [first]) hformed₁ hgrown₁ (hstands.mono hgrows) hopened hget₁
      (by rw [hdeclared₁, hdeclared, List.map_append]; rfl)
      (List.rel_append hkept (.cons hdraws.drawn .nil))
      (by rw [Level.ofVisited_append]; exact hrest)
    rw [List.append_assoc] at hrest'
    exact ⟨hdraws.frame.trans hrest'.1, hrest'.2⟩

end Walk

/-- The walk over a descriptor draws it. -/
theorem Descriptor.draws_fold (store : String) (descriptor : Descriptor) :
    descriptor.Draws store := by
  refine levels_induction (p := Draws store) (fun attributes hwalk => ?_) descriptor
  intro root opened pending position s level s' node hgrown hformed hstands hopened hget hempty hrun
  rw [fold_mk] at hrun
  exact Walk.draws_visitAttributes hwalk [] hformed hgrown hstands hopened hget hempty .nil hrun

/-- The levels, the shapes and the default record of a flattened descriptor are drawings of it. -/
theorem Flattened.exists_drawn {store rootName : String} {descriptor : Descriptor}
    {flattened : Flattened} (h : (flatten store rootName descriptor).1 = .ok flattened) :
    ∃ s level, flattened.EndsIn s ∧ Drawn s descriptor flattened.root level ∧
      flattened.attributes = level.attributes ∧ flattened.defaultValue = .object level.members := by
  obtain ⟨s, level, counter, hwalk, heq⟩ := Flattening.exists_walk_of_flatten h
  have hget := Flattening.get?_rooted store flattened.root counter
  obtain ⟨-, hdrawn⟩ := descriptor.draws_fold store (Flattening.grown_rooted store _ counter)
    (Flattening.formed_rooted store _ counter) (Flattening.stands_rooted store _ counter) (.inr rfl)
    hget rfl hwalk
  exact ⟨s, level, Flattened.endsIn_of_walk hwalk heq, hdrawn, congrArg Flattened.attributes heq,
    congrArg Flattened.defaultValue heq⟩

end NestedRecord
