import NestedRecord.Proofs.Dotted
import NestedRecord.Proofs.Graph.Ancestry
import NestedRecord.Proofs.Path.Layout

/-!
# Facts about flattened descriptors

What the walk over a descriptor guarantees to everything that is compiled from its result.

The state in which a walk ends is the flattened descriptor, up to the attributes of the root, which
are kept beside it. So what has been proved of the walk is proved of every flattened descriptor
here. Names are not checked by the walk. Where a name has a point in it, or one level has a name
twice, two attributes may have one path; what is said of paths is therefore said of plain names.

* `levelsDeclared_of_flatten`: the declared levels are no levels of joined stores.
* `tidy_of_flatten`: every target has one aggregate.
* `nodup_attachments` and `foreign_of_attachment`: when the attributes of every level have names
  of their own and no attachment declares a shape, attachments have different paths, and each
  leads to a level of another store, a list iff it is a to-many one.
-/

namespace NestedRecord

open Fields (get? has)

/-- The attribute names of every level differ, and none is empty or holds a point. -/
def Flattened.PlainNames (flattened : Flattened) : Prop :=
  ∀ entry ∈ flattened.nodes, (entry.2.attributes.map (·.name)).Nodup ∧
    ∀ decl ∈ entry.2.attributes, decl.name ≠ "" ∧ '.' ∉ decl.name.toList

instance (flattened : Flattened) : Decidable flattened.PlainNames :=
  inferInstanceAs (Decidable (∀ entry ∈ flattened.nodes,
    (entry.2.attributes.map (·.name)).Nodup ∧
      ∀ decl ∈ entry.2.attributes, decl.name ≠ "" ∧ '.' ∉ decl.name.toList))

/-- No attachment declares the shape of its records. -/
def Flattened.BareAttachments (flattened : Flattened) : Prop :=
  ∀ entry ∈ flattened.nodes, entry.2.joinedStore = none

instance (flattened : Flattened) : Decidable flattened.BareAttachments :=
  inferInstanceAs (Decidable (∀ entry ∈ flattened.nodes, entry.2.joinedStore = none))

namespace Flattening

variable {s : Flattening} {root name : String}

/-- The state in which the attributes of the root are visited first. -/
def rooted (store root : String) (counter : Nat) : Flattening :=
  { metadata := { storeName := store }, counter := counter, nodes := [(root, Node.root root)] }

theorem get?_rooted (store root : String) (counter : Nat) :
    get? (rooted store root counter).nodes root = some (Node.root root) := by
  simp [rooted, get?]

/-- Before the walk, the root is the only level. -/
theorem level?_rooted {store : String} {counter : Nat} {node : Node}
    (h : (rooted store root counter).level? name = some node) :
    name = root ∧ node = Node.root root := by
  by_cases hroot : root = name
  · subst hroot
    simp only [level?, rooted, get?, if_true, Option.some_or, Option.some.injEq] at h
    exact ⟨rfl, h.symm⟩
  · simp [level?, rooted, get?, hroot] at h

/-- A graph that holds nothing but the root. -/
theorem grown_rooted (store root : String) (counter : Nat) :
    Grown root [] [] (rooted store root counter) where
  tidy := Metadata.Tidy.start store
  declared hget := by
    obtain ⟨-, rfl⟩ := level?_rooted (level?_of_get? hget)
    rfl
  foreign hget := by cases hget
  named hlevel := by
    obtain ⟨rfl, rfl⟩ := level?_rooted hlevel
    rfl
  top := ⟨Node.root root, get?_rooted store root counter, rfl⟩
  inner hlevel hne := absurd (level?_rooted hlevel).1 hne
  child hget hdecl := by
    obtain ⟨-, rfl⟩ := level?_rooted (level?_of_get? hget)
    cases hdecl
  entered hlevel hne := absurd (level?_rooted hlevel).1 hne
  waiting := by simp
  attached := ⟨[], List.Perm.refl _, List.nodup_nil, by simp⟩

/-- The walk over the attributes of the root starts at a level that stands. -/
theorem stands_rooted (store root : String) (counter : Nat) :
    (rooted store root counter).Stands
      { node := root, path := "", column := "", keyOwner := root, keyFront := "", depth := 0 } := by
  have hget := get?_rooted store root counter
  exact ⟨Fields.has_iff.mpr ⟨_, hget⟩, [], .top (level?_of_get? hget) rfl, rfl⟩

/-- A flattened descriptor is the result of a walk that starts at its root. -/
theorem exists_walk_of_flatten {store rootName : String} {descriptor : Descriptor}
    {flattened : Flattened} (h : (flatten store rootName descriptor).1 = .ok flattened) :
    ∃ s level counter, descriptor.fold (Walk.visitLevel store)
        { node := flattened.root, path := "", column := "", keyOwner := flattened.root,
          keyFront := "", depth := 0 } (rooted store flattened.root counter) = .ok level s ∧
      flattened = s.finish flattened.root level := by
  unfold flatten at h
  cases hrun : (Walk.visit store rootName descriptor).run (.start store) with
  | error fault s =>
    rw [hrun] at h
    cases h
  | ok result s =>
    obtain ⟨root, level⟩ := result
    rw [hrun] at h
    obtain rfl : s.finish root level = flattened := Except.ok.inj h
    obtain ⟨allocated, s₁, hallocate, h₁⟩ := Walk.bind_eq_ok.mp hrun
    obtain ⟨-, hs₁⟩ := Walk.allocateName_eq_ok hallocate
    obtain ⟨_, s₂, hadd, h₂⟩ := Walk.bind_eq_ok.mp h₁
    obtain ⟨visited, s₃, hwalk, h₃⟩ := Walk.bind_eq_ok.mp h₂
    obtain ⟨heq, rfl⟩ := Walk.pure_eq_ok.mp h₃
    obtain ⟨rfl, rfl⟩ := Prod.mk.inj heq
    have hs₂ : s₂ = rooted store allocated ((Flattening.start store).nextCounter rootName + 1) := by
      rw [← Walk.modify_eq_ok.mp hadd, hs₁]
      rfl
    rw [hs₂] at hwalk
    exact ⟨_, _, _, hwalk, rfl⟩

/-- The result of the walk over a descriptor. -/
theorem exists_grown_of_flatten {store rootName : String} {descriptor : Descriptor}
    {flattened : Flattened} (h : (flatten store rootName descriptor).1 = .ok flattened) :
    ∃ s, Grown flattened.root [] [] s ∧ flattened.nodes = s.nodes ∧
      flattened.virtualNodes = s.virtualNodes ∧ ∃ columns,
        flattened.metadata = { s.metadata with sortMandatory := columns } := by
  obtain ⟨s, level, counter, hwalk, heq⟩ := exists_walk_of_flatten h
  have hgrown := (Descriptor.sound_fold store descriptor (grown_rooted store _ counter)
    (stands_rooted store _ counter) hwalk).1
  exact ⟨s, hgrown, congrArg Flattened.nodes heq, congrArg Flattened.virtualNodes heq, _,
    congrArg Flattened.metadata heq⟩

/-! ## Trails -/

/-- The level behind an attribute stands under that attribute. -/
theorem exists_level_of_next? (h : Grown root [] [] s) {attr : String} {node child : Node}
    {decl : AttributeDecl} (hlevel : s.level? name = some node) (hdeclared : node.isVirtual = false)
    (hnext : Resolver.next? { nodes := s.nodes, virtualNodes := s.virtualNodes } node attr =
      some (decl, some child)) :
    ∃ key, s.level? key = some child ∧ child.uniqueName = key ∧ child.parentName = some name ∧
      child.nameInParent = some attr := by
  -- a level that is not virtual stands in the first table
  have hget : get? s.nodes name = some node := by
    cases hget : get? s.nodes name with
    | some known => exact (level?_of_get? hget).symm.trans hlevel
    | none =>
      rw [level?, hget, Option.none_or] at hlevel
      rw [h.foreign hlevel] at hdeclared
      cases hdeclared
  obtain ⟨found, hfound, hstep⟩ := Option.bind_eq_some_iff.mp hnext
  cases hkey : found.child with
  | none =>
    rw [hkey] at hstep
    cases hstep
  | some key =>
    rw [hkey] at hstep
    obtain ⟨known, hknown, heq⟩ := Option.map_eq_some_iff.mp hstep
    obtain ⟨rfl, hsome⟩ := Prod.mk.inj heq
    obtain rfl := Option.some.inj hsome
    have hnamed : found.name = attr := by simpa using List.find?_some hfound
    obtain ⟨below, hbelow, hparent, hunder⟩ :=
      h.child hget (List.mem_of_find?_eq_some hfound) hkey
    obtain rfl : known = below := Option.some.inj (hknown.symm.trans hbelow)
    exact ⟨key, hbelow, h.named hbelow, hparent, hunder.trans (congrArg some hnamed)⟩

/-- Following names from a level goes down its trail. -/
theorem exists_trail_of_walk? (h : Grown root [] [] s) {path key name : String} {kind : NodeKind}
    {names trail : List String} {node : Node} {resolved : ResolvedPath}
    (hlevel : s.level? name = some node) (htrail : Trail s name trail)
    (hwalk : Resolver.walk? { nodes := s.nodes, virtualNodes := s.virtualNodes } path node names =
      some resolved) (htarget : resolved.target = .level key kind) :
    ∃ below, s.level? key = some below ∧ Trail s key (names.reverse ++ trail) ∧
      below.kind = kind ∧ below.isVirtual = resolved.isVirtual := by
  rw [Resolver.walk?_eq_some_iff] at hwalk
  induction hwalk generalizing name trail with
  | foreign | value => cases htarget
  | @level _ child _ _ declared next =>
    obtain ⟨childName, hchild, hunique, hup, hunder⟩ :=
      exists_level_of_next? h hlevel declared next
    obtain ⟨hkey, hkind⟩ := Target.level.inj htarget
    rw [← hkey, hunique]
    exact ⟨child, hchild, .inside hchild hup hunder htrail, hkind, rfl⟩
  | list declared next array inner ih =>
    obtain ⟨childName, hchild, -, hup, hunder⟩ := exists_level_of_next? h hlevel declared next
    obtain ⟨below, hbelow, hdeep, hkind, hvirtual⟩ :=
      ih hchild (.inside hchild hup hunder htrail) htarget
    refine ⟨below, hbelow, ?_, hkind, hvirtual⟩
    rw [List.reverse_cons, List.append_assoc]
    exact hdeep
  | object declared next object inner ih =>
    obtain ⟨childName, hchild, -, hup, hunder⟩ := exists_level_of_next? h hlevel declared next
    rw [ResolvedPath.target_behind] at htarget
    obtain ⟨below, hbelow, hdeep, hkind, hvirtual⟩ :=
      ih hchild (.inside hchild hup hunder htrail) htarget
    rw [ResolvedPath.isVirtual_behind]
    refine ⟨below, hbelow, ?_, hkind, hvirtual⟩
    rw [List.reverse_cons, List.append_assoc]
    exact hdeep

/-- A level below another one stands under an attribute of that one. -/
theorem Grown.exists_attribute (h : Grown root [] [] s) {node : Node} {parent : String}
    (hlevel : s.level? name = some node) (hup : node.parentName = some parent) :
    ∃ around decl, get? s.nodes parent = some around ∧ decl ∈ around.attributes ∧
      decl.child = some name ∧ node.nameInParent = some decl.name := by
  have hne : name ≠ root := by
    rintro rfl
    obtain ⟨top, hget, hnone⟩ := h.top
    obtain rfl : top = node := Option.some.inj ((level?_of_get? hget).symm.trans hlevel)
    rw [hnone] at hup
    cases hup
  obtain ⟨parent', around, decl, hup', haround, hdecl, hchild⟩ := h.entered hlevel hne (by simp)
  obtain rfl : parent = parent' := Option.some.inj (hup.symm.trans hup')
  obtain ⟨below, hbelow, -, hattr⟩ := h.child haround hdecl hchild
  obtain rfl : node = below := Option.some.inj (hlevel.symm.trans hbelow)
  exact ⟨around, decl, haround, hdecl, hchild, hattr⟩

/-- Only the root stands under no level. -/
theorem Grown.eq_root (h : Grown root [] [] s) {node : Node} (hlevel : s.level? name = some node)
    (htop : node.parentName = none) : name = root := by
  by_cases hne : name = root
  · exact hne
  · obtain ⟨parent, -, hsome, -⟩ := h.inner hlevel hne
    rw [htop] at hsome
    cases hsome

/-- Names of a trail are declared names. -/
theorem Trail.declared (h : Grown root [] [] s) {trail : List String}
    (htrail : Trail s name trail) :
    ∀ attr ∈ trail, ∃ parent around decl, get? s.nodes parent = some around ∧
      decl ∈ around.attributes ∧ decl.name = attr := by
  induction htrail with
  | top => simp
  | inside level up under rest ih =>
    intro other hother
    rcases List.mem_cons.mp hother with rfl | hother
    · obtain ⟨around, decl, haround, hdecl, -, hattr⟩ := h.exists_attribute level up
      exact ⟨_, around, decl, haround, hdecl, Option.some.inj (hattr.symm.trans under)⟩
    · exact ih other hother

/-- Where the attributes of a level have different names, a trail leads to one level. -/
theorem Trail.eq_of_names (h : Grown root [] [] s)
    (hnodup : ∀ {name node}, get? s.nodes name = some node →
      (node.attributes.map (·.name)).Nodup) {trail : List String} :
    ∀ {a b : String}, Trail s a trail → Trail s b trail → a = b := by
  induction trail with
  | nil =>
    intro a b ha hb
    cases ha with
    | top hlevel hparent =>
      cases hb with
      | top hlevel' hparent' =>
        exact (h.eq_root hlevel hparent).trans (h.eq_root hlevel' hparent').symm
  | cons attr rest ih =>
    intro a b ha hb
    cases ha with
    | inside hlevel hup hunder hrest =>
      cases hb with
      | inside hlevel' hup' hunder' hrest' =>
        have hparents := ih hrest hrest'
        subst hparents
        obtain ⟨around, decl, haround, hdecl, hchild, hattr⟩ := h.exists_attribute hlevel hup
        obtain ⟨around', decl', haround', hdecl', hchild', hattr'⟩ :=
          h.exists_attribute hlevel' hup'
        obtain rfl : around = around' := Option.some.inj (haround.symm.trans haround')
        -- both levels stand under attributes of one name at one level, which is one attribute
        have hsame : decl.name = decl'.name := by
          rw [← Option.some.inj (hunder.symm.trans hattr),
            ← Option.some.inj (hunder'.symm.trans hattr')]
        obtain rfl := List.inj_on_of_nodup_map (hnodup haround) hdecl hdecl' hsame
        exact Option.some.inj (hchild.symm.trans hchild')

end Flattening

/-! ## Paths of attachments -/

/-- The names of a dotted path, where none is empty or holds a point. -/
theorem segments_trailPath :
    ∀ {trail : List String}, trail ≠ [] → (∀ name ∈ trail, name ≠ "" ∧ '.' ∉ name.toList) →
      trailPath trail ≠ "" ∧ segments (trailPath trail) = trail.reverse
  | [], h, _ => absurd rfl h
  | [name], _, hnames => by
    obtain ⟨hne, hdot⟩ := hnames name List.mem_cons_self
    have hpath : trailPath [name] = name := by simp [trailPath, joinPath]
    rw [hpath]
    exact ⟨hne, segments_of_dotless hdot⟩
  | name :: next :: rest, _, hnames => by
    obtain ⟨hne, hsegments⟩ := segments_trailPath (List.cons_ne_nil next rest) fun other hother =>
      hnames other (List.mem_cons_of_mem _ hother)
    have hsplit := segments_joinPath hne (hnames name List.mem_cons_self).2
    rw [hsegments, ← List.reverse_cons] at hsplit
    -- a path of two names has a point in it, so it is not empty
    refine ⟨fun hempty => ?_, hsplit⟩
    rw [trailPath, joinPath] at hempty
    split at hempty
    · exact (hnames name List.mem_cons_self).1 hempty
    · have hlength := congrArg String.length hempty
      simp at hlength

namespace Blueprint

variable {blueprint : Blueprint} {store rootName : String} {descriptor : Descriptor}

/-- What is declared is entered among the declared levels, and what is attached is not. -/
theorem levelsDeclared_of_flatten
    (h : (flatten store rootName descriptor).1 = .ok blueprint.flattened) :
    blueprint.LevelsDeclared := by
  obtain ⟨s, hgrown, hnodes, -⟩ := Flattening.exists_grown_of_flatten h
  intro name node hget
  rw [hnodes] at hget
  exact hgrown.declared hget

/-- Every target of a flattened descriptor has one aggregate, local or external. -/
theorem tidy_of_flatten (h : (flatten store rootName descriptor).1 = .ok blueprint.flattened) :
    blueprint.metadata.Tidy := by
  obtain ⟨s, hgrown, -, -, columns, hmetadata⟩ := Flattening.exists_grown_of_flatten h
  have htidy := hgrown.tidy
  rw [metadata, hmetadata]
  exact htidy.of_tables rfl

/-- Attachments with their levels: every level has one attachment, and where no attachment
declares a shape it is a level of another store. -/
theorem exists_levels (h : (flatten store rootName descriptor).1 = .ok blueprint.flattened)
    (hplain : blueprint.flattened.PlainNames) (hbare : blueprint.flattened.BareAttachments) :
    ∃ s : Flattening, s.Grown blueprint.flattened.root [] [] ∧
      blueprint.flattened.nodes = s.nodes ∧ blueprint.flattened.virtualNodes = s.virtualNodes ∧
      ∃ placed : List (String × Join),
        blueprint.metadata.attachments.Perm (placed.map (·.2)) ∧ (placed.map (·.1)).Nodup ∧
        ∀ entry ∈ placed, ∃ node trail, s.level? entry.1 = some node ∧ node.isVirtual = true ∧
          entry.2.cardinality = (if node.kind = .array then .many else .one) ∧
          s.Trail entry.1 trail ∧ segments entry.2.path = trail.reverse := by
  obtain ⟨s, hgrown, hnodes, hvirtuals, columns, hmetadata⟩ :=
    Flattening.exists_grown_of_flatten h
  obtain ⟨placed, hperm, hnodup, hplaced⟩ := hgrown.attached
  refine ⟨s, hgrown, hnodes, hvirtuals, placed, ?_, hnodup, fun entry hentry => ?_⟩
  · rw [metadata, hmetadata]
    exact hperm
  · obtain ⟨-, node, trail, hlevel, hstore, hkind, htrail, hpath⟩ := hplaced entry hentry
    -- a declared level with a store would declare the shape of an attachment
    have hundeclared : get? s.nodes entry.1 = none := by
      cases hget : get? s.nodes entry.1 with
      | none => rfl
      | some known =>
        obtain rfl : known = node :=
          Option.some.inj ((Flattening.level?_of_get? hget).symm.trans hlevel)
        have hnone := hbare (entry.1, known) (hnodes ▸ Fields.mem_of_get? hget)
        rw [hstore] at hnone
        cases hnone
    have hvirtual : node.isVirtual = true := by
      rw [Flattening.level?, hundeclared, Option.none_or] at hlevel
      exact hgrown.foreign hlevel
    -- only the root has no names on its way, and it is declared
    have hne : trail ≠ [] := by
      rintro rfl
      cases htrail with
      | top hlevel' hnone =>
        obtain rfl := Option.some.inj (hlevel.symm.trans hlevel')
        have hroot : entry.1 ≠ blueprint.flattened.root := by
          intro heq
          obtain ⟨top, hget, -⟩ := hgrown.top
          rw [heq, hget] at hundeclared
          cases hundeclared
        obtain ⟨parent, -, hparent, -⟩ := hgrown.inner hlevel hroot
        rw [hnone] at hparent
        cases hparent
    refine ⟨node, trail, hlevel, hvirtual, hkind, htrail, ?_⟩
    rw [hpath]
    refine (segments_trailPath hne fun name hname => ?_).2
    obtain ⟨parent, around, decl, haround, hdecl, rfl⟩ := htrail.declared hgrown name hname
    exact (hplain (parent, around) (hnodes ▸ Fields.mem_of_get? haround)).2 decl hdecl

/-- Attachments have different paths. -/
theorem nodup_attachments (h : (flatten store rootName descriptor).1 = .ok blueprint.flattened)
    (hplain : blueprint.flattened.PlainNames) (hbare : blueprint.flattened.BareAttachments) :
    (blueprint.metadata.attachments.map (·.path)).Nodup := by
  obtain ⟨s, hgrown, hnodes, -, placed, hperm, hnodup, hplaced⟩ := exists_levels h hplain hbare
  rw [(hperm.map (·.path)).nodup_iff, List.map_map]
  refine List.Nodup.map_on (fun entry hentry other hother hpath => ?_) (List.Nodup.of_map _ hnodup)
  obtain ⟨-, trail, -, -, -, htrail, hsegments⟩ := hplaced entry hentry
  obtain ⟨-, trail', -, -, -, htrail', hsegments'⟩ := hplaced other hother
  replace hpath : entry.2.path = other.2.path := hpath
  rw [hpath, hsegments'] at hsegments
  obtain rfl := List.reverse_injective hsegments
  have hlevel := Flattening.Trail.eq_of_names hgrown
    (fun hget => (hplain _ (hnodes ▸ Fields.mem_of_get? hget)).1) htrail htrail'
  exact List.inj_on_of_nodup_map hnodup hentry hother hlevel

/-- An attachment leads to a level of another store, to a list iff it keeps many records. -/
theorem foreign_of_attachment
    (h : (flatten store rootName descriptor).1 = .ok blueprint.flattened)
    (hplain : blueprint.flattened.PlainNames) (hbare : blueprint.flattened.BareAttachments)
    {join : Join} (hjoin : join ∈ blueprint.metadata.attachments) {resolved : ResolvedPath}
    (hleads : blueprint.resolveLenient join.path = .ok resolved)
    (hlevel : resolved.isScalar = false) :
    resolved.isVirtual = true ∧ ∃ key kind, resolved.target = .level key kind ∧
      (kind = .array ↔ join.cardinality = .many) := by
  obtain ⟨s, hgrown, hnodes, hvirtuals, placed, hperm, -, hplaced⟩ := exists_levels h hplain hbare
  obtain ⟨entry, hentry, rfl⟩ := List.mem_map.mp (hperm.mem_iff.mp hjoin)
  obtain ⟨node, trail, hnode, hvirtual, hkind, htrail, hsegments⟩ := hplaced entry hentry
  obtain ⟨⟨top, htop, hwalk⟩, hpath, hnames⟩ :=
    leads_of_lenient (levelsDeclared_of_flatten h) hleads
  cases htarget : resolved.target with
  | scalar level attr type =>
    rw [ResolvedPath.isScalar, htarget] at hlevel
    cases hlevel
  | level key kind =>
    obtain ⟨known, hroot, hparent⟩ := hgrown.top
    have hlevels : ∀ name, blueprint.resolver.node? name = s.level? name := by
      intro name
      rw [resolver, Resolver.node?, Flattening.level?, hnodes, hvirtuals]
    have hresolver : blueprint.resolver =
        { nodes := s.nodes, virtualNodes := s.virtualNodes } := by
      rw [resolver, hnodes, hvirtuals]
    rw [hlevels] at htop
    obtain rfl : known = top :=
      Option.some.inj ((Flattening.level?_of_get? hroot).symm.trans htop)
    rw [hresolver] at hwalk
    -- the walk ends in the level that the attachment was placed at: names lead to one level only
    obtain ⟨below, hbelow, hbelowTrail, hbelowKind, hbelowVirtual⟩ :=
      Flattening.exists_trail_of_walk? hgrown htop (.top htop hparent) hwalk htarget
    rw [List.append_nil, hnames, hsegments, List.reverse_reverse] at hbelowTrail
    obtain rfl := Flattening.Trail.eq_of_names hgrown
      (fun hget => (hplain _ (hnodes ▸ Fields.mem_of_get? hget)).1) hbelowTrail htrail
    obtain rfl : node = below := Option.some.inj (hnode.symm.trans hbelow)
    refine ⟨hbelowVirtual.symm.trans hvirtual, _, kind, rfl, ?_⟩
    rw [hkind, hbelowKind]
    split
    · next harray => simp [harray]
    · next hobject => simp [hobject]

end Blueprint

end NestedRecord
