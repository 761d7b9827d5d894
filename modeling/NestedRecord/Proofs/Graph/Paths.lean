import NestedRecord.Proofs.Graph.Registrations
import NestedRecord.Proofs.Graph.Tables
import NestedRecord.Proofs.Path.Declared

/-!
# Paths of declared attributes

Every table of a flattened descriptor is kept by dotted paths, and a path is a text: names that hold
points, or attributes of one name at one level, give two attributes the same path. Where names are
apart from each other no two attributes share one, and whatever is noted under a path is what the
one attribute there declares.

* `Flattened.SeparateNames` is what keeps paths apart: `dottedPath_injective`.
* `Flattened.AttributeAt` is an attribute of the graph; `Drawn.exists_attributeAt_iff` finds it
  among the declarations of the descriptor.
* `getLast?_filter_flatMap`: what is left in a table under a key belongs to one declaration.
* `Flattened.pathsApart_of_flatten` is the result for a flattened descriptor.

The result has two halves. One compares the graph with the declarations of the descriptor; it needs
that names differ at each level and nothing about their characters. The other one goes through the
tables: an entry is kept by its path, so once paths differ, whose entry it is can be told from the
key, and what is left of several entries under one key is the last one that its own declaration
makes.
-/

namespace NestedRecord

open Fields (get? has)

/-! ## Dotted paths -/

/-- The dotted path of names. -/
def dottedPath (names : List String) : String := names.foldl joinPath ""

/-- Names whose dotted path can be taken apart again: none holds a point, and only a single one may
be empty in front. -/
structure Separate (names : List String) : Prop where
  ne_nil : names ≠ []
  dotless : ∀ name ∈ names, '.' ∉ name.toList
  named : names.head? = some "" → names = [""]

theorem joinPath_ne_empty {place name : String} (h : place ≠ "") : joinPath place name ≠ "" := by
  intro hempty
  rw [joinPath, if_neg (by simpa using h)] at hempty
  have hlength := congrArg String.length hempty
  simp at hlength

/-- Names below a place are behind those of the place. -/
theorem segments_foldl_joinPath {names : List String} (h : ∀ name ∈ names, '.' ∉ name.toList) :
    ∀ {place : String}, place ≠ "" →
      segments (names.foldl joinPath place) = segments place ++ names := by
  induction names with
  | nil => exact fun _ => (List.append_nil _).symm
  | cons name rest ih =>
    intro place hplace
    obtain ⟨hdotless, hrest⟩ := List.forall_mem_cons.mp h
    rw [List.foldl_cons, ih hrest (joinPath_ne_empty hplace), segments_joinPath hplace hdotless,
      List.append_assoc]
    rfl

/-- A path is cut into the names that it is made of. -/
theorem segments_dottedPath {names : List String} (h : Separate names) :
    segments (dottedPath names) = names := by
  obtain ⟨name, rest, rfl⟩ := List.exists_cons_of_ne_nil h.ne_nil
  obtain ⟨hdotless, hrest⟩ := List.forall_mem_cons.mp h.dotless
  have hpath : dottedPath (name :: rest) = rest.foldl joinPath name := rfl
  rw [hpath]
  by_cases hname : name = ""
  · -- a path that starts without a name has lost the point behind it, unless it ends there
    obtain rfl : rest = [] := (List.cons.inj (h.named (congrArg some hname))).2
    exact segments_of_dotless hdotless
  · rw [segments_foldl_joinPath hrest hname, segments_of_dotless hdotless]
    rfl

theorem dottedPath_injective {names names' : List String} (h : Separate names)
    (h' : Separate names') (heq : dottedPath names = dottedPath names') : names = names' := by
  rw [← segments_dottedPath h, ← segments_dottedPath h', heq]

/-! ## Attributes of the graph -/

variable {flattened : Flattened} {s : Flattening} {descriptor : Descriptor} {level : Level}

namespace Flattened

/-- The names of attributes that keep dotted paths apart: at every level they differ, none holds a
point, and no nested attribute of the root is without a name. -/
structure SeparateNames (flattened : Flattened) : Prop where
  distinct : flattened.DistinctNames
  dotless : ∀ entry ∈ flattened.nodes, ∀ decl ∈ entry.2.attributes, '.' ∉ decl.name.toList
  named : ∀ entry ∈ flattened.nodes, entry.1 = flattened.root →
    ∀ decl ∈ entry.2.attributes, decl.child.isSome = true → decl.name ≠ ""

instance (flattened : Flattened) : Decidable flattened.DistinctNames :=
  inferInstanceAs (Decidable (∀ entry ∈ flattened.nodes, (entry.2.attributes.map (·.name)).Nodup))

instance (flattened : Flattened) : Decidable flattened.SeparateNames :=
  decidable_of_iff (flattened.DistinctNames ∧
      (∀ entry ∈ flattened.nodes, ∀ decl ∈ entry.2.attributes, '.' ∉ decl.name.toList) ∧
        ∀ entry ∈ flattened.nodes, entry.1 = flattened.root →
          ∀ decl ∈ entry.2.attributes, decl.child.isSome = true → decl.name ≠ "")
    ⟨fun h => ⟨h.1, h.2.1, h.2.2⟩, fun h => ⟨h.distinct, h.dotless, h.named⟩⟩

/-- An attribute of a level, with the names that lead to it. -/
def AttributeAt (flattened : Flattened) (names : List String) (key : String)
    (decl : AttributeDecl) : Prop :=
  ∃ front node, flattened.StandsAt key front ∧ (key, node) ∈ flattened.nodes ∧
    decl ∈ node.attributes ∧ names = front ++ [decl.name]

/-- Names lead to one attribute. -/
theorem AttributeAt.unique (h : flattened.EndsIn s) (hdistinct : flattened.DistinctNames)
    {names : List String} {key key' : String} {decl decl' : AttributeDecl}
    (hattr : flattened.AttributeAt names key decl)
    (hattr' : flattened.AttributeAt names key' decl') : key = key' ∧ decl = decl' := by
  obtain ⟨front, node, hstands, hmem, hdecl, rfl⟩ := hattr
  obtain ⟨front', node', hstands', hmem', hdecl', hnames⟩ := hattr'
  obtain ⟨rfl, hname⟩ := List.append_inj' hnames rfl
  obtain rfl := hstands.unique h hdistinct hstands'
  rw [h.mem_nodes_iff] at hmem hmem'
  obtain rfl := Option.some.inj (hmem.symm.trans hmem')
  exact ⟨rfl, List.inj_on_of_nodup_map (h.nodup_names hdistinct hmem) hdecl hdecl'
    (List.singleton_inj.mp hname)⟩

end Flattened

open Flattened (StandsAt AttributeAt)

/-- A level draws a descriptor whose declarations are declared under the names that it stands at. -/
theorem Drawn.exists_of_standsAt (h : flattened.EndsIn s)
    (hdrawn : Drawn s descriptor flattened.root level) {key : String} {front : List String}
    (hstands : flattened.StandsAt key front) :
    ∀ {node : Node}, (key, node) ∈ flattened.nodes →
      ∃ inner below, Drawn s inner key below ∧ ∀ declaration ∈ inner.declarations,
        ∃ declared ∈ descriptor.declarations, declared.names = front ++ declaration.names := by
  induction hstands with
  | top => exact fun _ => ⟨descriptor, level, hdrawn, fun declaration hmem => ⟨_, hmem, rfl⟩⟩
  | @inside name child names around decl rest haround hdecl hchild ih =>
    intro node hmem
    obtain ⟨⟨attributes⟩, below, houter, hnames⟩ := ih haround
    obtain ⟨⟨attrName, attr⟩, hentry, visited, hvisited, rfl⟩ :=
      houter.exists_entry (h.mem_nodes_iff.mp haround) hdecl
    cases hvisited with
    | scalar read plain => cases hchild
    | @level _ child _ tuple kind inner node' level' read nesting nested entered kept drawn =>
      cases hchild
      refine ⟨inner, level', drawn, fun declaration hdeclared => ?_⟩
      obtain ⟨declared, hdeclared', heq⟩ :=
        hnames _ (Descriptor.mem_declarations_inside hentry read nested hdeclared)
      exact ⟨declared, hdeclared', heq.trans (List.append_assoc names [attrName] _).symm⟩
    | attachment read nesting nested entered kept =>
      -- what is attached is a level of another store
      cases hchild
      have hnone := h.get?_nodes_of_foreign entered
      rw [h.mem_nodes_iff.mp hmem] at hnone
      cases hnone

/-- Every declared attribute is an attribute of the level that it stands at. -/
theorem Drawn.exists_attributeAt (h : flattened.EndsIn s) (hdistinct : flattened.DistinctNames) :
    ∀ (descriptor : Descriptor) {key : String} {level : Level} {node : Node} {front : List String},
      Drawn s descriptor key level → get? s.nodes key = some node → flattened.StandsAt key front →
      ∀ declaration ∈ descriptor.declarations,
        ∃ key' decl, flattened.AttributeAt (front ++ declaration.names) key' decl := by
  refine Descriptor.levels_induction fun attributes ih => ?_
  intro key level node front hdrawn hget hstands declaration hmem
  have howner := h.mem_nodes_iff.mpr hget
  rw [Descriptor.declarations_mk] at hmem
  obtain ⟨⟨name, attr⟩, hentry, hmem⟩ := List.mem_flatMap.mp hmem
  obtain ⟨visited, hvisited, hdecl, -⟩ := hdrawn.exists_visited h hdistinct hget hentry
  have hname : visited.decl.name = name := hvisited.name_eq
  obtain ⟨directives, tuple, rfl, read, rfl | ⟨inner, nested, below, hbelow, rfl⟩⟩ :=
    Descriptor.mem_attributeDeclarations hmem
  · exact ⟨key, visited.decl, front, node, hstands, howner, hdecl, by rw [hname]⟩
  · obtain ⟨child, node', level', entered, -, drawn, rfl⟩ := hvisited.exists_level read nested
    obtain ⟨key', decl, hattr⟩ := ih _ hentry directives rfl inner (Tuple.mem_of_nested read nested)
      drawn entered (.inside hstands howner hdecl rfl) below hbelow
    rw [List.append_assoc] at hattr
    exact ⟨key', decl, hattr⟩

/-- An attribute that is drawn can be read. -/
theorem AttributeDrawn.exists_read {below : Descriptor → String → Level → Prop}
    {entry : String × Attribute Descriptor} {visited : Visited}
    (h : AttributeDrawn s below entry visited) :
    ∃ directives tuple, entry.2 = .tuple directives ∧
      Tuple.ofDirectives directives = .ok tuple := by
  cases h with
  | scalar read => exact ⟨_, _, rfl, read⟩
  | level read => exact ⟨_, _, rfl, read⟩
  | attachment read => exact ⟨_, _, rfl, read⟩

/-- The attributes of the graph are the declared ones. -/
theorem Drawn.exists_attributeAt_iff (h : flattened.EndsIn s) (hdistinct : flattened.DistinctNames)
    (hdrawn : Drawn s descriptor flattened.root level) {names : List String} :
    (∃ key decl, flattened.AttributeAt names key decl) ↔
      ∃ declaration ∈ descriptor.declarations, declaration.names = names := by
  constructor
  · rintro ⟨key, decl, front, node, hstands, hmem, hdecl, rfl⟩
    obtain ⟨⟨attributes⟩, below, hinner, hnames⟩ := hdrawn.exists_of_standsAt h hstands hmem
    obtain ⟨⟨name, attr⟩, hentry, visited, hvisited, rfl⟩ :=
      hinner.exists_entry (h.mem_nodes_iff.mp hmem) hdecl
    obtain ⟨directives, tuple, rfl, read⟩ := hvisited.exists_read
    rw [hvisited.name_eq]
    exact hnames _ (Descriptor.mem_declarations hentry read)
  · rintro ⟨declaration, hmem, rfl⟩
    obtain ⟨top, htop, -⟩ := h.grown.top
    exact hdrawn.exists_attributeAt h hdistinct descriptor htop .top declaration hmem

/-! ## Whose an entry is -/

/-- If every item writes under a key of its own, the last entry of a key is the last one of its
item. -/
theorem getLast?_filter_flatMap {ι β : Type} {items : List ι} {place : ι → String}
    {entries : ι → List β} {keyOf : β → String} (hnodup : (items.map place).Nodup)
    (hkeys : ∀ item, ∀ entry ∈ entries item, keyOf entry = place item) {key : String} {entry : β} :
    ((items.flatMap entries).filter (keyOf · = key)).getLast? = some entry ↔
      ∃ item ∈ items, place item = key ∧ (entries item).getLast? = some entry := by
  induction items generalizing entry with
  | nil => simp
  | cons item rest ih =>
    obtain ⟨hnot, hrest⟩ := List.nodup_cons.mp hnodup
    rw [List.flatMap_cons, List.filter_append, List.getLast?_append]
    by_cases hplace : place item = key
    · -- no other item writes under the key
      have hothers : ((rest.flatMap entries).filter (keyOf · = key)).getLast? = none := by
        refine Option.eq_none_iff_forall_ne_some.mpr fun other hother => ?_
        obtain ⟨item', hitem', heq, -⟩ := (ih hrest).mp hother
        exact hnot (hplace ▸ heq ▸ List.mem_map_of_mem hitem')
      have hown : (entries item).filter (keyOf · = key) = entries item :=
        List.filter_eq_self.mpr fun own hmem => decide_eq_true ((hkeys item own hmem).trans hplace)
      rw [hothers, Option.none_or, hown]
      refine ⟨fun h => ⟨item, List.mem_cons_self, hplace, h⟩, ?_⟩
      rintro ⟨item', hitem', heq, h⟩
      rcases List.mem_cons.mp hitem' with rfl | hitem'
      · exact h
      · exact absurd (hplace ▸ heq ▸ List.mem_map_of_mem hitem') hnot
    · have hown : (entries item).filter (keyOf · = key) = [] :=
        List.filter_eq_nil_iff.mpr fun own hmem heq =>
          hplace ((hkeys item own hmem).symm.trans (of_decide_eq_true heq))
      rw [hown, List.getLast?_nil, Option.or_none, ih hrest]
      constructor
      · rintro ⟨item', hitem', h⟩
        exact ⟨item', List.mem_cons_of_mem _ hitem', h⟩
      · rintro ⟨item', hitem', heq, h⟩
        rcases List.mem_cons.mp hitem' with rfl | hitem'
        · exact absurd heq hplace
        · exact ⟨item', hitem', heq, h⟩

/-- Of entries with different keys each is the last one of its key. -/
theorem Fields.lastValue?_eq_some_iff {α : Type} {pairs : List (String × α)}
    (hnodup : (pairs.map (·.1)).Nodup) {key : String} {value : α} :
    lastValue? key pairs = some value ↔ (key, value) ∈ pairs := by
  have hlast (entry : String × α) :
      ((pairs.flatMap fun pair => [pair]).filter (·.1 = key)).getLast? = some entry ↔
        ∃ pair ∈ pairs, pair.1 = key ∧ [pair].getLast? = some entry :=
    getLast?_filter_flatMap hnodup fun pair entry hmem =>
      congrArg Prod.fst (List.mem_singleton.mp hmem)
  simp only [List.flatMap_singleton', List.getLast?_singleton, Option.some.injEq] at hlast
  simp only [lastValue?, Option.map_eq_some_iff, hlast]
  constructor
  · rintro ⟨pair, ⟨pair', hmem, rfl, rfl⟩, rfl⟩
    exact hmem
  · exact fun hmem => ⟨_, ⟨_, hmem, rfl, rfl⟩, rfl⟩

namespace Declaration

/-- The hook of a kind that counts for an attribute: the last one. -/
def lastHook? (kind : HookKind) (declaration : Declaration) : Option Hook :=
  ((declaration.tuple.hooks.filter (·.1 = kind)).getLast?).map (·.2)

/-- The registrations of an attribute below a place. -/
def registrationsFrom (place : String) (declaration : Declaration) : List Registration :=
  if declaration.tuple.isNested then []
  else Link.registrations (declaration.pathFrom place) none declaration.tuple.links

/-- The aggregate that counts for an attribute: the last one that it registers. -/
def lastRegistration? (declaration : Declaration) : Option Registration :=
  (declaration.registrationsFrom "").getLast?

/-- What is noted under a path is what a declaration with that path states. -/
def Belongs {α : Type} (declarations : List Declaration) (stated : Declaration → Option α)
    (noted : String → α → Prop) : Prop :=
  ∀ path value, noted path value ↔
    ∃ declaration ∈ declarations, declaration.path = path ∧ stated declaration = some value

end Declaration

/-- A link registers for its own target. -/
theorem Link.target_of_registration? {target : String} {latest next : Walk.Promotable}
    {registration : Registration} {link : Link}
    (h : link.registration? target latest = some (registration, next)) :
    registration.target = target := by
  cases link with
  | aggregate op path transformer =>
    cases hmarker : after? ['@'] path.toList with
    | none =>
      simp only [registration?, hmarker] at h
      cases h
      rfl
    | some marker =>
      cases hsplit : splitMarker marker with
      | error rule =>
        simp only [registration?, hmarker, hsplit] at h
        cases h
      | ok parts =>
        simp only [registration?, hmarker, hsplit] at h
        cases h
        rfl
  | join source inner =>
    cases inner with
    | some inner => cases h
    | none =>
      rw [registration?, Option.map_eq_some_iff] at h
      obtain ⟨fed, -, heq⟩ := h
      exact congrArg Registration.target (Prod.mk.inj heq).1.symm

/-- All links of a target do. -/
theorem Link.target_of_mem_registrations {target : String} {registration : Registration}
    {links : List Link} : ∀ {latest : Walk.Promotable},
      registration ∈ Link.registrations target latest links → registration.target = target := by
  induction links with
  | nil => exact nofun
  | cons link rest ih =>
    intro latest hmem
    rw [registrations] at hmem
    cases hfirst : link.registration? target latest with
    | none =>
      rw [hfirst] at hmem
      cases hmem
    | some pair =>
      rw [hfirst] at hmem
      rcases List.mem_cons.mp hmem with rfl | hmem
      · exact target_of_registration? hfirst
      · exact ih hmem

namespace Declaration

/-- A declaration registers for its own path. -/
theorem target_of_mem_registrationsFrom {place : String} {declaration : Declaration}
    {registration : Registration} (h : registration ∈ declaration.registrationsFrom place) :
    registration.target = declaration.pathFrom place := by
  unfold registrationsFrom at h
  split at h
  · cases h
  · exact Link.target_of_mem_registrations h

/-- The registrations of a nested level are made below the attribute. -/
theorem flatMap_registrationsFrom_inside (place name : String) (nesting : Option NodeKind)
    (declarations : List Declaration) :
    (declarations.map (.inside name nesting)).flatMap (registrationsFrom place) =
      declarations.flatMap (registrationsFrom (joinPath place name)) := List.flatMap_map ..

end Declaration

/-- The registrations of an attribute are its own and those of what is nested in it. -/
theorem Descriptor.attribute_registrations {name place : String} {attr : Attribute Descriptor}
    (hnested : ∀ directives, attr = .tuple directives → ∀ inner, .nested inner ∈ directives →
      ∀ place, inner.fold levelRegistrations place =
        inner.declarations.flatMap (Declaration.registrationsFrom place)) :
    (attr.map (Descriptor.fold levelRegistrations)).registrations (joinPath place name) =
      (attributeDeclarations (name, attr)).flatMap (Declaration.registrationsFrom place) := by
  cases attr with
  | bare text => rfl
  | malformed kind => rfl
  | tuple directives =>
    simp only [Attribute.map, Attribute.registrations, Tuple.ofDirectives_map]
    cases read : Tuple.ofDirectives directives with
    | error rule =>
      rw [attributeDeclarations_unread read]
      rfl
    | ok tuple =>
      rw [attributeDeclarations_read read, List.flatMap_cons,
        Declaration.flatMap_registrationsFrom_inside]
      -- an attribute with something nested in it has links to attach, not to aggregate
      have hown : Declaration.registrationsFrom place ⟨[name], 0, tuple.outline⟩ =
          if tuple.isNested then []
          else Link.registrations (joinPath place name) none tuple.links := by
        rw [Declaration.registrationsFrom, Tuple.outline, Tuple.isNested_map]
        rfl
      simp only [Except.map, Tuple.registrations, Tuple.isNested_map]
      rw [hown]
      split
      · cases nested : tuple.nested with
        | none => simp [Tuple.map, nested]
        | some inner =>
          have hinner := hnested directives rfl inner (Tuple.mem_of_nested read nested)
            (joinPath place name)
          simpa [Tuple.map, nested] using hinner
      · next hplain =>
        rw [Tuple.nested_eq_none (Bool.eq_false_iff.mpr hplain)]
        exact (List.append_nil _).symm

/-- The registrations of a descriptor are those of its declarations in their order. -/
theorem Descriptor.fold_levelRegistrations : ∀ (descriptor : Descriptor) (place : String),
    descriptor.fold levelRegistrations place =
      descriptor.declarations.flatMap (Declaration.registrationsFrom place) := by
  refine levels_induction fun attributes ih place => ?_
  rw [fold_mk, declarations_mk, levelRegistrations, List.flatMap_map, List.flatMap_assoc]
  exact List.flatMap_congr fun entry hentry => attribute_registrations (ih entry hentry)

/-! ## Tables by path -/

namespace Flattened

open Declaration (Belongs)

variable {declarations : List Declaration}

/-- Where no two declarations share a path, a hook belongs to the one whose path it is noted under:
the last one that it declares. -/
theorem belongs_hooks (hnodup : (declarations.map (·.path)).Nodup) (kind : HookKind) :
    Belongs declarations (Declaration.lastHook? kind) fun path hook =>
      get? (Fields.setAll (Declaration.hooks kind declarations) []) path = some hook := by
  intro path hook
  beta_reduce
  have hget : get? (Fields.setAll (Declaration.hooks kind declarations) []) path =
      Fields.lastValue? path (Declaration.hooks kind declarations) :=
    (Fields.get?_setAll _ _).trans Option.or_none
  -- all hooks of a declaration are noted under its path
  have hown : ∀ declaration : Declaration, ∀ entry ∈
      (declaration.tuple.hooks.filter (·.1 = kind)).map (declaration.path, ·.2),
        entry.1 = declaration.path := by
    intro declaration entry hentry
    obtain ⟨pair, -, rfl⟩ := List.mem_map.mp hentry
    rfl
  rw [hget, Fields.lastValue?, Option.map_eq_some_iff]
  simp only [Declaration.hooks, getLast?_filter_flatMap hnodup hown, List.getLast?_map]
  constructor
  · rintro ⟨pair, ⟨declaration, hmem, hpath, hlast⟩, rfl⟩
    obtain ⟨entry, hentry, rfl⟩ := Option.map_eq_some_iff.mp hlast
    exact ⟨declaration, hmem, hpath, congrArg (Option.map _) hentry⟩
  · rintro ⟨declaration, hmem, hpath, hlast⟩
    obtain ⟨entry, hentry, rfl⟩ := Option.map_eq_some_iff.mp hlast
    exact ⟨(declaration.path, entry.2), ⟨declaration, hmem, hpath, congrArg (Option.map _) hentry⟩,
      rfl⟩

/-- A reference belongs to the declaration whose path it is noted under. -/
theorem Notes.belongs_references (h : flattened.Notes declarations)
    (hnodup : (declarations.map (·.path)).Nodup) :
    Belongs declarations (·.tuple.reference) fun path store =>
      get? flattened.metadata.references path = some store := by
  obtain ⟨order, hperm, horder⟩ := h.references
  -- in whichever order references are written, none of them meets another
  have hkeys : ((Declaration.references "" declarations).map (·.1)).Nodup := by
    refine List.pairwise_map.mpr (List.pairwise_filterMap.mpr ?_)
    refine (List.pairwise_map.mp hnodup).imp fun {a b} hne entry hentry other hother => ?_
    obtain ⟨-, -, rfl⟩ := Option.map_eq_some_iff.mp hentry
    obtain ⟨-, -, rfl⟩ := Option.map_eq_some_iff.mp hother
    exact hne
  intro path store
  beta_reduce
  rw [horder, Fields.get?_setAll, show get? [] path = (none : Option String) from rfl,
    Option.or_none, Fields.lastValue?_eq_some_iff ((hperm.map _).nodup_iff.mpr hkeys),
    hperm.mem_iff, Declaration.references, List.mem_filterMap]
  refine exists_congr fun declaration => and_congr_right fun _ => ?_
  simp only [Option.map_eq_some_iff, Prod.mk.injEq]
  constructor
  · rintro ⟨other, hother, hpath, rfl⟩
    exact ⟨hpath, hother⟩
  · rintro ⟨hpath, hstore⟩
    exact ⟨store, hstore, hpath, rfl⟩

/-- An aggregate belongs to the declaration whose path is its target. -/
theorem belongs_registrations {store rootName : String}
    (h : (flatten store rootName descriptor).1 = .ok flattened)
    (hnodup : (descriptor.declarations.map (·.path)).Nodup) :
    Belongs descriptor.declarations Declaration.lastRegistration? fun path registration =>
      registration.target = path ∧ flattened.metadata.Holds registration := by
  intro path registration
  beta_reduce
  rw [(promotes_of_flatten h).holds_iff, Descriptor.registrations,
    Descriptor.fold_levelRegistrations, lastOf, getLast?_filter_flatMap hnodup
      fun declaration _ => Declaration.target_of_mem_registrationsFrom]
  constructor
  · rintro ⟨rfl, hlast⟩
    exact hlast
  · rintro ⟨declaration, hmem, rfl, hlast⟩
    have htarget : registration.target = declaration.path :=
      Declaration.target_of_mem_registrationsFrom (List.mem_of_getLast? hlast)
    exact ⟨htarget, declaration, hmem, htarget.symm, hlast⟩

/-- No two attributes share a dotted path, and what is noted under a path belongs to the attribute
there. -/
structure PathsApart (flattened : Flattened) (descriptor : Descriptor) : Prop where
  /-- attributes of the graph with one path are one -/
  attributes : ∀ {names names' key key' decl decl'}, flattened.AttributeAt names key decl →
    flattened.AttributeAt names' key' decl' → dottedPath names = dottedPath names' →
      key = key' ∧ decl = decl'
  /-- and they are the declared ones -/
  declared : ∀ names, (∃ key decl, flattened.AttributeAt names key decl) ↔
    ∃ declaration ∈ descriptor.declarations, declaration.names = names
  distinct : (descriptor.declarations.map (·.path)).Nodup
  validates : Belongs descriptor.declarations (Declaration.lastHook? .validate) fun path hook =>
    get? flattened.onValidate path = some hook
  transforms : Belongs descriptor.declarations (Declaration.lastHook? .transform) fun path hook =>
    get? flattened.onTransform path = some hook
  aggregates : Belongs descriptor.declarations Declaration.lastRegistration?
    fun path registration =>
      registration.target = path ∧ flattened.metadata.Holds registration
  references : Belongs descriptor.declarations (·.tuple.reference) fun path store =>
    get? flattened.metadata.references path = some store
  /-- a computed field for each attribute that declares one -/
  computeds : flattened.metadata.computeds = Declaration.computeds descriptor.declarations

/-- The names that lead to an attribute can be read off its path. -/
theorem separate_of_declaration (h : flattened.EndsIn s)
    (hseparate : flattened.SeparateNames) (hdrawn : Drawn s descriptor flattened.root level)
    {declaration : Declaration} (hmem : declaration ∈ descriptor.declarations) :
    Separate declaration.names where
  ne_nil := Descriptor.names_ne_nil hmem
  dotless := by
    have hlevels : descriptor.Levels fun names => ∀ name ∈ names, '.' ∉ name.toList := by
      refine hdrawn.levels fun hget name hname => ?_
      obtain ⟨decl, hdecl, rfl⟩ := List.mem_map.mp hname
      exact hseparate.dotless _ (h.mem_nodes_iff.mpr hget) decl hdecl
    exact hlevels.forall_names declaration hmem
  -- only a scalar attribute of the root may have the empty name, and it leads to nothing
  named := by
    intro hhead
    obtain ⟨top, htop, -⟩ := h.grown.top
    cases descriptor with
    | mk attributes =>
      rw [Descriptor.declarations_mk] at hmem
      obtain ⟨⟨name, attr⟩, hentry, hmem⟩ := List.mem_flatMap.mp hmem
      obtain rfl : name = "" :=
        Option.some.inj ((Descriptor.head?_names hmem).symm.trans hhead)
      obtain ⟨directives, tuple, rfl, read, rfl | ⟨inner, nested, -, -, -⟩⟩ :=
        Descriptor.mem_attributeDeclarations hmem
      · rfl
      · obtain ⟨visited, hvisited, hdecl, -⟩ :=
          hdrawn.exists_visited h hseparate.distinct htop hentry
        obtain ⟨child, node, below, -, -, -, rfl⟩ := hvisited.exists_level read nested
        exact absurd rfl (hseparate.named _ (h.mem_nodes_iff.mpr htop) rfl _ hdecl rfl)

/-- Names differ at each level, so the names that lead to attributes do, and so do their paths. -/
theorem nodup_paths (h : flattened.EndsIn s) (hseparate : flattened.SeparateNames)
    (hdrawn : Drawn s descriptor flattened.root level) :
    (descriptor.declarations.map (·.path)).Nodup := by
  have hlevels : descriptor.Levels List.Nodup :=
    hdrawn.levels fun hget => h.nodup_names hseparate.distinct hget
  refine (List.pairwise_map.mpr ((List.pairwise_map.mp hlevels.nodup_names).imp_of_mem ?_))
  intro a b ha hb hne hpath
  exact hne (dottedPath_injective (separate_of_declaration h hseparate hdrawn ha)
    (separate_of_declaration h hseparate hdrawn hb) hpath)

/-- Where names are apart from each other, declared attributes never share a dotted path. -/
theorem pathsApart_of_flatten {store rootName : String}
    (h : (flatten store rootName descriptor).1 = .ok flattened)
    (hseparate : flattened.SeparateNames) : flattened.PathsApart descriptor := by
  obtain ⟨s, level, hends, hdrawn, -⟩ := exists_drawn h
  have hapart {declaration : Declaration} (hmem : declaration ∈ descriptor.declarations) :
      Separate declaration.names := separate_of_declaration hends hseparate hdrawn hmem
  have hdeclared (names : List String) : (∃ key decl, flattened.AttributeAt names key decl) ↔
      ∃ declaration ∈ descriptor.declarations, declaration.names = names :=
    hdrawn.exists_attributeAt_iff hends hseparate.distinct
  have hnodup : (descriptor.declarations.map (·.path)).Nodup :=
    nodup_paths hends hseparate hdrawn
  have hnotes := notes_of_flatten h
  constructor
  case attributes =>
    intro names names' key key' decl decl' hattr hattr' hpath
    obtain ⟨declaration, hmem, rfl⟩ := (hdeclared names).mp ⟨key, decl, hattr⟩
    obtain ⟨declaration', hmem', rfl⟩ := (hdeclared names').mp ⟨key', decl', hattr'⟩
    rw [← dottedPath_injective (hapart hmem) (hapart hmem') hpath] at hattr'
    exact hattr.unique hends hseparate.distinct hattr'
  case declared => exact hdeclared
  case distinct => exact hnodup
  case validates =>
    rw [hnotes.onValidate]
    exact belongs_hooks hnodup .validate
  case transforms =>
    rw [hnotes.onTransform]
    exact belongs_hooks hnodup .transform
  case aggregates => exact belongs_registrations h hnodup
  case references => exact hnotes.belongs_references hnodup
  case computeds => exact hnotes.computeds

/-- Letters with a stamp that is written by a hook, a sender that is referenced, lines with a total
below an object, and an attribute without a name. -/
def letters : Descriptor :=
  .mk [("id", .tuple [.word "int", .word "<<letter>>"]),
    ("stamp", .tuple [.word "string", .word "onTransform", .word "first", .word "onTransform",
      .word "second"]),
    ("from", .tuple [.word "object", .word "ref", .word "@senders", .nested (.mk
      [("name", .tuple [.word "string"]), ("stamp", .tuple [.word "string"])])]),
    ("body", .tuple [.word "object", .nested (.mk
      [("lines", .tuple [.word "array", .nested (.mk
        [("line", .tuple [.word "int", .word "<<line>>"]),
         ("words", .tuple [.word "number"])])]),
       ("total", .tuple [.word "number", .word "sum", .word "lines.words"])])]),
    ("", .tuple [.word "string"])]

/-- A name may be repeated at another level, and may even be empty below the root. -/
theorem pathsApart_of_flatten_letters : ∃ flattened,
    (flatten "letters" "main" letters).1 = .ok flattened ∧ flattened.SeparateNames ∧
    letters.declarations.map (·.path) = ["id", "stamp", "from", "from.name", "from.stamp", "body",
      "body.lines", "body.lines.line", "body.lines.words", "body.total", ""] ∧
    Fields.keys flattened.onTransform = ["stamp"] ∧
    flattened.metadata.references = [("from", "senders")] ∧
    flattened.metadata.aggregatesSort = ["body.total"] ∧ flattened.PathsApart letters := by
  have htables : (flatten "letters" "main" letters).1.toOption.map (fun flattened =>
      (decide flattened.SeparateNames, Fields.keys flattened.onTransform,
        flattened.metadata.references, flattened.metadata.aggregatesSort)) =
      some (true, ["stamp"], [("from", "senders")], ["body.total"]) := by
    decide +kernel
  obtain ⟨flattened, hflatten, hall⟩ := Option.map_eq_some_iff.mp htables
  simp only [Prod.mk.injEq, decide_eq_true_eq] at hall
  have hok := Except.eq_ok_of_toOption hflatten
  exact ⟨flattened, hok, hall.1, by decide +kernel, hall.2.1, hall.2.2.1, hall.2.2.2,
    pathsApart_of_flatten hok hall.1⟩

/-- Cards that keep the name of the recipient twice, once under a name with a point. -/
def cards : Descriptor :=
  .mk [("to.name", .tuple [.word "string", .word "onTransform", .word "somebody"]),
    ("to", .tuple [.word "object", .nested (.mk [("name", .tuple [.word "string"])])])]

/-- Two attributes of the cards share a dotted path, and one of them alone declares the hook. -/
theorem not_pathsApart_cards : ∃ flattened key key' decl decl',
    (flatten "cards" "main" cards).1 = .ok flattened ∧
    flattened.AttributeAt ["to.name"] key decl ∧ flattened.AttributeAt ["to", "name"] key' decl' ∧
    decl ≠ decl' ∧ dottedPath ["to.name"] = dottedPath ["to", "name"] ∧
    ¬ flattened.PathsApart cards ∧ Fields.keys flattened.onTransform = ["to.name"] ∧
    cards.declarations.map (fun declaration =>
      (declaration.path, (declaration.lastHook? .transform).isSome)) =
        [("to.name", true), ("to", false), ("to.name", false)] := by
  have hnames : (flatten "cards" "main" cards).1.toOption.map (fun flattened =>
      (decide flattened.DistinctNames, Fields.keys flattened.onTransform)) =
        some (true, ["to.name"]) := by
    decide +kernel
  obtain ⟨flattened, hflatten, hboth⟩ := Option.map_eq_some_iff.mp hnames
  simp only [Prod.mk.injEq, decide_eq_true_eq] at hboth
  have hok := Except.eq_ok_of_toOption hflatten
  obtain ⟨s, level, hends, hdrawn, -⟩ := exists_drawn hok
  have hdeclared : ∀ names, names ∈ cards.declarations.map (·.names) →
      ∃ key decl, flattened.AttributeAt names key decl := fun names hmem =>
    (hdrawn.exists_attributeAt_iff hends hboth.1).mpr (List.mem_map.mp hmem)
  obtain ⟨key, decl, hattr⟩ := hdeclared ["to.name"] (by decide +kernel)
  obtain ⟨key', decl', hattr'⟩ := hdeclared ["to", "name"] (by decide +kernel)
  refine ⟨flattened, key, key', decl, decl', hok, hattr, hattr', ?_, by decide,
    fun hapart => absurd hapart.distinct (by decide +kernel), hboth.2, by decide +kernel⟩
  rintro rfl
  obtain ⟨front, -, -, -, -, hname⟩ := hattr
  obtain ⟨front', -, -, -, -, hname'⟩ := hattr'
  have hlast := congrArg List.getLast? hname
  have hlast' := congrArg List.getLast? hname'
  rw [List.getLast?_append] at hlast hlast'
  simp only [List.getLast?_singleton, Option.some_or] at hlast hlast'
  exact absurd (hlast.trans hlast'.symm) (by decide)

end Flattened

end NestedRecord
