import NestedRecord.Proofs.Descriptor.Mapping
import NestedRecord.Proofs.Graph.Promotion

/-!
# The last registration of a target is left

A walk registers the links of scalar attributes, attribute by attribute and level by level. Which
aggregates that leaves can be read off the descriptor: for each target the one that its last link
registers.

A registration replaces what was registered for its target before, in whichever table that was. So
the tables are not the list of registrations, and neither is any table the list of those of its
kind: what is left in all of them together is the last registration of each target. The list itself
is read off the descriptor in the order of the walk, without running it, and the walk is shown to go
through the same list.

* `Descriptor.registrations` are the registrations of a descriptor in the order of the walk.
* `Walk.Promotes` says what a step registers: the tables fit afterwards, and in force is the last of
  its registrations for each target, or what was before.
* `consistent_of_flatten` is the result for a flattened descriptor.
-/

namespace NestedRecord

open Fields (get? has keys entries)
open Walk (Promotable)

/-! ## Registrations of a descriptor -/

/-- What a link of a target registers, and what a plain join marker behind it promotes. A link that
is refused registers nothing. -/
def Link.registration? (target : String) (latest : Promotable) :
    Link → Option (Registration × Promotable)
  | .aggregate op path transformer =>
    match after? ['@'] path.toList with
    | some marker =>
      match splitMarker marker with
      | .error _ => none
      | .ok (source, attr) =>
        some (.foreign ⟨target, op, source, attr, transformer⟩, some (op, attr, transformer))
    | none =>
      some (.own ⟨target, op, joinPath (parentPath target) path, transformer⟩,
        some (op, some (lastSegment path), transformer))
  | .join source none =>
    latest.map fun (op, attr, transformer) =>
      (.foreign ⟨target, op, source, attr, transformer⟩, latest)
  | .join _ (some _) => none

/-- The registrations of the links of a target in order. -/
def Link.registrations (target : String) : Promotable → List Link → List Registration
  | _, [] => []
  | latest, link :: rest =>
    match link.registration? target latest with
    | some (registration, next) => registration :: registrations target next rest
    | none => []

/-- The registrations below a path. -/
abbrev RegistrationsAt := String → List Registration

/-- Only the links of a scalar attribute register aggregates. -/
def Tuple.registrations (tuple : Tuple RegistrationsAt) : RegistrationsAt := fun path =>
  if tuple.isNested then (tuple.nested.map (· path)).getD []
  else Link.registrations path none tuple.links

def Attribute.registrations : Attribute RegistrationsAt → RegistrationsAt
  | .tuple directives =>
    match Tuple.ofDirectives directives with
    | .ok declared => declared.registrations
    | .error _ => fun _ => []
  | .bare _ => fun _ => []
  | .malformed _ => fun _ => []

/-- The registrations of a level, attribute by attribute. -/
def levelRegistrations (attributes : List (String × Attribute RegistrationsAt)) :
    RegistrationsAt := fun path =>
  attributes.flatMap fun entry => entry.2.registrations (joinPath path entry.1)

/-- All registrations of a descriptor in the order of the walk. -/
def Descriptor.registrations (descriptor : Descriptor) : List Registration :=
  descriptor.fold levelRegistrations ""

/-- The last registration of a target. -/
def lastOf (target : String) (registrations : List Registration) : Option Registration :=
  (registrations.filter (·.target = target)).getLast?

@[simp] theorem lastOf_nil (target : String) : lastOf target [] = none := rfl

theorem lastOf_append (target : String) (before after : List Registration) :
    lastOf target (before ++ after) = (lastOf target after).or (lastOf target before) := by
  rw [lastOf, List.filter_append, List.getLast?_append]
  rfl

theorem lastOf_singleton (target : String) (registration : Registration) :
    lastOf target [registration] =
      if registration.target = target then some registration else none := by
  by_cases h : registration.target = target <;> simp [lastOf, h]

/-! ## Steps

A walk that makes one list of registrations and then another one makes both together; all steps but
those of links make none. -/

namespace Metadata

variable {store : String} {metadata metadata' metadata'' : Metadata}
  {list list' : List Registration}

/-- A step makes these registrations: the tables fit afterwards, and in force are the last ones of
each target, else those that were in force before. -/
def Promotes (store : String) (list : List Registration) (metadata metadata' : Metadata) : Prop :=
  metadata.Consistent store → metadata'.Consistent store ∧ ∀ registration,
    metadata'.Holds registration ↔ lastOf registration.target list = some registration ∨
      lastOf registration.target list = none ∧ metadata.Holds registration

namespace Promotes

/-- A step that leaves the aggregates alone. -/
theorem of_aggregates (haggregates : metadata'.aggregates = metadata.aggregates)
    (hexternals : metadata'.externals = metadata.externals)
    (h : metadata.Consistent store → metadata'.Consistent store) :
    Promotes store [] metadata metadata' := by
  refine fun hconsistent => ⟨h hconsistent, fun registration => ?_⟩
  have hsame : metadata'.Holds registration ↔ metadata.Holds registration := by
    cases registration <;> simp [Holds, haggregates, hexternals]
  simpa using hsame

theorem refl (metadata : Metadata) : Promotes store [] metadata metadata :=
  of_aggregates rfl rfl id

/-- A registration is in force until the next one of its target. -/
theorem register (metadata : Metadata) (registration : Registration) :
    Promotes store [registration] metadata (metadata.register registration) := by
  refine fun h => ⟨h.register registration, fun other => ?_⟩
  rw [holds_register h.toTidy, lastOf_singleton]
  by_cases heq : registration.target = other.target
  · simp [heq, eq_comm]
  · have hne : other ≠ registration := fun hsame => heq (congrArg _ hsame.symm)
    simp [heq, hne, Ne.symm heq]

theorem trans (h : Promotes store list metadata metadata')
    (h' : Promotes store list' metadata' metadata'') :
    Promotes store (list ++ list') metadata metadata'' := by
  intro hconsistent
  obtain ⟨hconsistent', hholds⟩ := h hconsistent
  obtain ⟨hconsistent'', hholds'⟩ := h' hconsistent'
  refine ⟨hconsistent'', fun registration => ?_⟩
  rw [hholds', hholds, lastOf_append]
  cases lastOf registration.target list' <;> simp

end Promotes

end Metadata

namespace Walk

variable {α β : Type} {store : String} {list : List Registration}

/-- A step of the walk makes these registrations. -/
def Promotes (store : String) (list : List Registration) (w : Walk α) : Prop :=
  ∀ s a s', w s = .ok a s' → s.metadata.Promotes store list s'.metadata

namespace Promotes

theorem pure (a : α) : Promotes store [] (pure a) := by
  intro s b s' h
  obtain ⟨-, rfl⟩ := pure_eq_ok.mp h
  exact .refl _

theorem bind {list' : List Registration} {w : Walk α} {f : α → Walk β}
    (hw : Promotes store list w) (hf : ∀ a, Promotes store list' (f a)) :
    Promotes store (list ++ list') (w >>= f) := by
  intro s b s'' h
  obtain ⟨a, s', hfirst, hrest⟩ := bind_eq_ok.mp h
  exact (hw s a s' hfirst).trans (hf a s' b s'' hrest)

/-- A step that registers nothing, in front of others. -/
theorem before {w : Walk α} {f : α → Walk β} (hw : Promotes store [] w)
    (hf : ∀ a, Promotes store list (f a)) : Promotes store list (w >>= f) := hw.bind hf

/-- Steps that register nothing, behind another one. -/
theorem after {w : Walk α} {f : α → Walk β} (hw : Promotes store list w)
    (hf : ∀ a, Promotes store [] (f a)) : Promotes store list (w >>= f) :=
  List.append_nil list ▸ hw.bind hf

theorem get : Promotes store [] (MonadState.get : Walk Flattening) := by
  intro s a s' h
  cases h
  exact .refl _

theorem refuse (other path rule : String) :
    Promotes store list (refuse other path rule : Walk α) := by
  intro s a s' h
  cases h

theorem lasting : Lasting (Promotes store []) := ⟨pure, bind, get, refuse⟩

theorem require (holds : Bool) (other path rule : String) :
    Promotes store [] (require holds other path rule) := lasting.require holds other path rule

theorem forSome {value : Option α} {f : α → Walk Unit} (hf : ∀ a, Promotes store [] (f a)) :
    Promotes store [] (forSome value f) := lasting.forSome fun a _ => hf a

theorem modify {f : Flattening → Flattening}
    (hf : ∀ s : Flattening, s.metadata.Promotes store list (f s).metadata) :
    Promotes store list (modify f) := by
  intro s a s' h
  obtain rfl := modify_eq_ok.mp h
  exact hf s

theorem updateNode (name : String) (f : Node → Node) :
    Promotes store [] (updateNode store name f) := by
  intro s a s' h
  obtain ⟨-, rfl⟩ := updateNode_eq_ok h
  exact .refl _

end Promotes

theorem promotes_registerHooks (path : String) (hooks : List (HookKind × Hook)) :
    Promotes store [] (registerHooks path hooks) := by
  refine Promotes.lasting.registerHooks (fun kind hook => .modify fun s => ?_) hooks
  cases kind <;> exact .refl _

/-- A reference goes to another store that is not referenced yet. -/
theorem promotes_registerReference (path referenced : String) :
    Promotes store [] (registerReference store path referenced) := by
  intro s a s' h
  obtain ⟨_, s₁, hrequire, h₁⟩ := bind_eq_ok.mp h
  obtain ⟨hother, rfl⟩ := require_eq_ok hrequire
  obtain ⟨state, s₂, hget, h₂⟩ := bind_eq_ok.mp h₁
  cases hget
  cases hfind : s₁.metadata.references.find? (·.2 = referenced) with
  | some existing =>
    simp only [hfind] at h₂
    cases h₂
  | none =>
    simp only [hfind] at h₂
    obtain rfl := modify_eq_ok.mp h₂
    refine .of_aggregates rfl rfl fun hconsistent =>
      hconsistent.refer (of_decide_eq_true hother) fun hmem => ?_
    obtain ⟨entry, hentry, heq⟩ := List.mem_map.mp hmem
    simpa [heq] using List.find?_eq_none.mp hfind entry hentry

/-- An aggregate of another store is registered, and nothing beside it. -/
theorem promotes_promote (aggregate : ExternalAggregate) :
    Promotes store [.foreign aggregate] (promote store aggregate) := by
  have hpromote : Promotes store [.foreign aggregate] (updateMetadata (·.promote aggregate)) :=
    .modify fun s => .register s.metadata (.foreign aggregate)
  unfold promote
  refine .before .get fun s => ?_
  split
  · exact .before (.modify fun s => .refl _) fun _ => hpromote
  · exact hpromote

/-- A link that is not refused makes its registration, and hands on what can be promoted. -/
theorem promotes_registerLink {target : String} {latest next : Promotable} {link : Link}
    {s s' : Flattening} (h : registerLink store target latest link s = .ok next s') :
    ∃ registration, link.registration? target latest = some (registration, next) ∧
      s.metadata.Promotes store [registration] s'.metadata := by
  cases link with
  | aggregate op path transformer =>
    -- a source with a marker belongs to another store
    cases hmarker : after? ['@'] path.toList with
    | some marker =>
      cases hsplit : splitMarker marker with
      | error rule =>
        simp only [registerLink, hmarker, hsplit] at h
        cases h
      | ok parts =>
        simp only [registerLink, hmarker, hsplit] at h
        obtain ⟨_, s₁, hpromote, hreturn⟩ := bind_eq_ok.mp h
        obtain ⟨rfl, rfl⟩ := pure_eq_ok.mp hreturn
        exact ⟨_, by simp only [Link.registration?, hmarker, hsplit],
          promotes_promote _ s _ _ hpromote⟩
    | none =>
      simp only [registerLink, hmarker] at h
      obtain ⟨_, s₁, hdeclare, hreturn⟩ := bind_eq_ok.mp h
      obtain ⟨rfl, rfl⟩ := pure_eq_ok.mp hreturn
      obtain rfl := modify_eq_ok.mp hdeclare
      exact ⟨_, by simp only [Link.registration?, hmarker], .register s.metadata (.own _)⟩
  | join source inner =>
    cases inner with
    | some inner => cases h
    | none =>
      cases latest with
      | none => cases h
      | some fed =>
        obtain ⟨_, s₁, hpromote, hreturn⟩ := bind_eq_ok.mp h
        obtain ⟨rfl, rfl⟩ := pure_eq_ok.mp hreturn
        exact ⟨_, rfl, promotes_promote _ s _ _ hpromote⟩

/-- Links are registered in their order; each one hands on what an attachment behind it would
aggregate. -/
theorem promotes_foldlM_registerLink (target : String) (links : List Link)
    (latest : Promotable) : Promotes store (Link.registrations target latest links)
      (links.foldlM (registerLink store target) latest) := by
  induction links generalizing latest with
  | nil => exact .pure latest
  | cons link rest ih =>
    intro s last s'' h
    rw [List.foldlM_cons] at h
    obtain ⟨next, s', hfirst, hrest⟩ := bind_eq_ok.mp h
    obtain ⟨registration, hlink, hpromotes⟩ := promotes_registerLink hfirst
    rw [Link.registrations, hlink]
    exact hpromotes.trans (ih next s' last s'' hrest)

theorem promotes_registerLinks (target : String) (links : List Link) :
    Promotes store (Link.registrations target none links) (registerLinks store target links) :=
  .after (promotes_foldlM_registerLink target links none) fun _ => .pure _

theorem promotes_registerColumn (position : Position) (name column : String) (primary : Bool) :
    Promotes store [] (registerColumn store position name column primary) := by
  unfold registerColumn
  refine .before (.modify fun s => .of_aggregates rfl rfl fun h => h.of_tables rfl rfl) fun _ => ?_
  split
  · refine .before (.modify fun s => ?_) fun _ => .updateNode _ _
    show s.metadata.Promotes store [] (if _ then _ else _)
    split
    · exact .of_aggregates rfl rfl fun h => h.of_tables rfl rfl
    · exact .refl _
  · exact .pure _

theorem promotes_attachedStore (path : String) (links : List Link) :
    ∀ attached, Promotes store [] (attachedStore store path attached links) :=
  Promotes.lasting.attachedStore links

theorem promotes_declare (name : String) (decl : AttributeDecl) (result : α) :
    Promotes store [] (do declare store name decl; return result) :=
  .before (.updateNode _ _) fun _ => .pure result

/-- A scalar attribute registers its links. -/
theorem promotes_visitScalar (position : Position) (name : String) (tuple : Tuple LevelWalk) :
    Promotes store (Link.registrations (position.attributePath name) none tuple.links)
      (visitScalar store position name tuple) := by
  rw [visitScalar_eq]
  refine .before (.forSome fun conversion => .updateNode _ _) fun _ => ?_
  refine .before (.forSome fun column => promotes_registerColumn _ _ _ _) fun _ => ?_
  refine .before (.forSome fun handler => .modify fun s =>
    .of_aggregates rfl rfl fun h => h.of_tables rfl rfl) fun _ => ?_
  refine .after (promotes_registerLinks _ _) fun _ => ?_
  refine .before (.forSome fun referenced => promotes_registerReference _ _) fun _ => ?_
  exact .before (promotes_registerHooks _ _) fun _ => promotes_declare _ _ _

end Walk

/-! ## The whole walk -/

/-- The walk over a level makes the registrations below its path. -/
def LevelWalk.Promotes (store : String) (registrations : RegistrationsAt) (walk : LevelWalk) :
    Prop :=
  ∀ position, Walk.Promotes store (registrations position.path) (walk position)

namespace Walk

variable {store : String} {position : Position} {name : String}

/-- Below a nested attribute the registrations are those of what is nested. -/
theorem promotes_visitBelow {kind : NodeKind} {attached : Option String}
    {nested : Option Descriptor} (hnested : ∀ inner, nested = some inner →
      LevelWalk.Promotes store (inner.fold levelRegistrations) (inner.fold (visitLevel store))) :
    Promotes store
      (((nested.map (Descriptor.fold levelRegistrations)).map
        (· (position.attributePath name))).getD [])
      (visitBelow store position name kind attached
        (nested.map (Descriptor.fold (visitLevel store)))) := by
  intro s below s' h
  cases nested with
  | none =>
    obtain ⟨parent, counter, -, -, rfl, -⟩ := visitVirtualLevel_eq_ok h
    rw [Flattening.metadata_enter]
    exact .refl _
  | some inner =>
    obtain ⟨parent, counter, level, visited, -, -, hlevel, -, -, -, hmetadata, -⟩ :=
      visitDeclaredLevel_eq_ok h
    have hpath : (position.below below.child name kind).path = position.attributePath name := by
      cases kind <;> rfl
    have hwalk := hnested inner rfl _ _ _ _ hlevel
    rw [Flattening.metadata_enter, hpath] at hwalk
    rw [hmetadata]
    exact hwalk

/-- A nested attribute makes no registration of its own. -/
theorem promotes_visitNested {tuple : Tuple Descriptor} (hnested : ∀ inner,
      tuple.nested = some inner →
        LevelWalk.Promotes store (inner.fold levelRegistrations) (inner.fold (visitLevel store))) :
    Promotes store
      (((tuple.nested.map (Descriptor.fold levelRegistrations)).map
        (· (position.attributePath name))).getD [])
      (visitNested store position name (tuple.map (Descriptor.fold (visitLevel store)))) := by
  cases hkind : tuple.nesting with
  | none =>
    intro s visited s' h
    rw [visitNested,
      show (tuple.map (Descriptor.fold (visitLevel store))).nesting = none from hkind] at h
    cases h
  | some kind =>
    rw [visitNested_eq store position name
      (show (tuple.map (Descriptor.fold (visitLevel store))).nesting = some kind from hkind)]
    refine .before (.require _ _ _ _) fun _ => ?_
    refine .before (promotes_attachedStore _ _ _) fun attached => ?_
    refine .before (.require _ _ _ _) fun _ => ?_
    refine .before (promotes_registerHooks _ _) fun _ => ?_
    -- all steps around this one register nothing
    refine .after (promotes_visitBelow hnested) fun below => ?_
    refine .before (.forSome fun source => .modify fun s => .of_aggregates rfl rfl fun h =>
      h.addJoin (Flattening.attaches_of_kind rfl)) fun _ => ?_
    refine .before (.forSome fun referenced => promotes_registerReference _ _) fun _ => ?_
    exact promotes_declare _ _ _

/-- An attribute registers its links, or what is nested in it does. -/
theorem promotes_visitAttribute {attr : Attribute Descriptor} (hnested : ∀ directives,
      attr = .tuple directives → ∀ inner, .nested inner ∈ directives →
        LevelWalk.Promotes store (inner.fold levelRegistrations) (inner.fold (visitLevel store))) :
    Promotes store
      ((attr.map (Descriptor.fold levelRegistrations)).registrations (position.attributePath name))
      (visitAttribute store position name (attr.map (Descriptor.fold (visitLevel store)))) := by
  cases attr with
  | bare text => exact .refuse _ _ _
  | malformed kind => exact .refuse _ _ _
  | tuple directives =>
    simp only [Attribute.map, Attribute.registrations, visitAttribute, Tuple.ofDirectives_map]
    cases htuple : Tuple.ofDirectives directives with
    | error rule => exact .refuse _ _ _
    | ok tuple =>
      have hinner : ∀ inner, tuple.nested = some inner →
          LevelWalk.Promotes store (inner.fold levelRegistrations)
            (inner.fold (visitLevel store)) := fun inner heq =>
        hnested directives rfl inner (Tuple.mem_of_nested htuple heq)
      simp only [Except.map, Tuple.registrations, Tuple.isNested_map]
      split
      · exact promotes_visitNested hinner
      · exact promotes_visitScalar _ _ _

theorem promotes_visitAttributes {attributes : List (String × Attribute Descriptor)}
    (hnested : ∀ entry ∈ attributes, ∀ directives, entry.2 = .tuple directives →
      ∀ inner, .nested inner ∈ directives →
        LevelWalk.Promotes store (inner.fold levelRegistrations) (inner.fold (visitLevel store))) :
    ∀ level : Level, Promotes store
      (levelRegistrations (attributes.map fun entry =>
        (entry.1, entry.2.map (Descriptor.fold levelRegistrations))) position.path)
      (visitAttributes store position level (attributes.map fun entry =>
        (entry.1, entry.2.map (Descriptor.fold (visitLevel store))))) := by
  induction attributes with
  | nil => exact fun level => .pure level
  | cons entry rest ih =>
    obtain ⟨name, attr⟩ := entry
    intro level
    refine .bind (promotes_visitAttribute (hnested (name, attr) List.mem_cons_self))
      fun visited => ?_
    exact ih (fun entry hentry => hnested entry (List.mem_cons_of_mem _ hentry)) _

end Walk

/-- The walk over a descriptor makes its registrations. -/
theorem Descriptor.promotes_fold (store : String) (descriptor : Descriptor) :
    LevelWalk.Promotes store (descriptor.fold levelRegistrations)
      (descriptor.fold (Walk.visitLevel store)) := by
  refine levels_induction (p := fun descriptor => LevelWalk.Promotes store
    (descriptor.fold levelRegistrations) (descriptor.fold (Walk.visitLevel store)))
    (fun attributes hnested => ?_) descriptor
  intro position
  rw [fold_mk, fold_mk]
  exact Walk.promotes_visitAttributes hnested {}

/-- The walk over a descriptor makes its registrations from an empty metadata on. -/
theorem Flattened.promotes_of_flatten {store rootName : String} {descriptor : Descriptor}
    {flattened : Flattened} (h : (flatten store rootName descriptor).1 = .ok flattened) :
    Metadata.Promotes store descriptor.registrations { storeName := store } flattened.metadata := by
  obtain ⟨s, level, counter, hwalk, heq⟩ := Flattening.exists_walk_of_flatten h
  have hfinished : s.metadata.Promotes store [] flattened.metadata := by
    rw [heq]
    exact .of_aggregates rfl rfl fun hconsistent => hconsistent.of_tables rfl rfl
  exact List.append_nil descriptor.registrations ▸
    (descriptor.promotes_fold store _ _ _ _ hwalk).trans hfinished

/-- From an empty metadata on, the last registration of each target is left. -/
theorem Metadata.Promotes.holds_iff {store : String} {list : List Registration}
    {metadata : Metadata} (h : Promotes store list { storeName := store } metadata)
    (registration : Registration) :
    metadata.Holds registration ↔ lastOf registration.target list = some registration := by
  have hnone : ¬ Metadata.Holds { storeName := store } registration := by
    cases registration <;> simp [Metadata.Holds, entries]
  simpa only [hnone, and_false, or_false] using (h (.start store)).2 registration

/-- The metadata of every flattened descriptor is consistent, and a registration is left for a
target exactly if it is the last one made for it. -/
theorem Flattened.consistent_of_flatten {store rootName : String} {descriptor : Descriptor}
    {flattened : Flattened} (h : (flatten store rootName descriptor).1 = .ok flattened) :
    flattened.metadata.Consistent store ∧ ∀ registration,
      flattened.metadata.Holds registration ↔
        lastOf registration.target descriptor.registrations = some registration := by
  have hpromotes := promotes_of_flatten h
  exact ⟨(hpromotes (.start store)).1, hpromotes.holds_iff⟩

/-- Statements whose total moves from the orders to the invoices, and whose paid amount is fed by
payments before it is folded from the lines after all. -/
def statements : Descriptor :=
  .mk [("id", .tuple [.word "int", .word "<<id>>"]),
    ("total", .tuple [.word "number", .word "sum", .word "@orders.amount", .word "@invoices"]),
    ("paid", .tuple [.word "number", .word "sum", .word "lines.amount", .word "@payments",
      .word "max", .word "lines.amount"]),
    ("lines", .tuple [.word "array", .nested (.mk
      [("line", .tuple [.word "int", .word "<<line>>"]), ("amount", .tuple [.word "number"])])]),
    ("vendor", .tuple [.word "int", .word "ref", .word "@vendors"]),
    ("orders", .tuple [.word "array", .word "@orders"])]

/-- Of the five registrations for two totals those of the last links are left, in one table each. -/
theorem consistent_of_flatten_statements : ∃ flattened,
    (flatten "statements" "main" statements).1 = .ok flattened ∧
    statements.registrations.map Registration.target = ["total", "total", "paid", "paid", "paid"] ∧
    flattened.metadata.aggregatesSort = ["paid"] ∧
    keys flattened.metadata.externals = ["invoices"] ∧
    keys flattened.metadata.joins = ["invoices", "orders"] ∧
    flattened.metadata.Consistent "statements" ∧ ∀ registration,
      flattened.metadata.Holds registration ↔
        lastOf registration.target statements.registrations = some registration := by
  have hkeys : (flatten "statements" "main" statements).1.toOption.map (fun flattened =>
      (flattened.metadata.aggregatesSort, keys flattened.metadata.externals,
        keys flattened.metadata.joins)) =
          some (["paid"], ["invoices"], ["invoices", "orders"]) := by
    decide +kernel
  obtain ⟨flattened, hflatten, hall⟩ := Option.map_eq_some_iff.mp hkeys
  obtain ⟨hsort, hboth⟩ := Prod.mk.inj hall
  obtain ⟨hexternals, hjoins⟩ := Prod.mk.inj hboth
  have hok := Except.eq_ok_of_toOption hflatten
  exact ⟨flattened, hok, by decide +kernel, hsort, hexternals, hjoins,
    Flattened.consistent_of_flatten hok⟩

end NestedRecord
