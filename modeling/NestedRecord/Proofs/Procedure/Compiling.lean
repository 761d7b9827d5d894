import NestedRecord.Proofs.Join.Placement
import NestedRecord.Proofs.Path.Completeness
import NestedRecord.Store.Basic

/-!
# What the compilers run into

A compiler looks up the paths that the metadata names, checks what they lead to and puts the loops
on the way together. The loops always fit, so whatever fails is blamed on one of the paths.

Compilers are chains of steps in `Except`, and each step may fail for its own reason.
`Except.Within` carries two things through such a chain: what is known of a result, for the steps
behind it, and which faults there can be. With no fault allowed it says that a compiler succeeds;
with the faults of some paths allowed it says whom it blames. So every compiler is gone through
once, for both statements.

* `Except.Within q p`: a failure satisfies `q` and a result `p`.
* `Blueprint.Excuses q path`: `q` allows to blame the attribute of that path.
* `Blueprint.Resolves q`: every registered path that a compiler cannot do without leads to what the
  compiler wants, or may be blamed.
* `PrimaryKey.within_compile` and its neighbours, one for each compiler: it stays within `q`.
-/

namespace NestedRecord

/-! ## Outcomes -/

/-- A failure satisfies `q`, a result `p`. -/
def Except.Within {ε α : Type} (q : ε → Prop) (p : α → Prop) : Except ε α → Prop
  | .error e => q e
  | .ok a => p a

namespace Except.Within

variable {ε α β : Type} {q : ε → Prop} {p : α → Prop} {r : β → Prop} {outcome : Except ε α}

theorem bind (h : Except.Within q p outcome) {f : α → Except ε β}
    (hf : ∀ a, p a → Except.Within q r (f a)) : Except.Within q r (outcome >>= f) := by
  cases outcome with
  | error e => exact h
  | ok a => exact hf a h

theorem map (h : Except.Within q p outcome) {f : α → β} (hf : ∀ a, p a → r (f a)) :
    Except.Within q r (outcome.map f) := by
  cases outcome with
  | error e => exact h
  | ok a => exact hf a h

theorem error (h : Except.Within q p outcome) {e : ε} (he : outcome = .error e) : q e := by
  rw [he] at h
  exact h

theorem exists_ok (h : Except.Within (fun _ => False) p outcome) : ∃ a, outcome = .ok a := by
  cases outcome with
  | error e => exact h.elim
  | ok a => exact ⟨a, rfl⟩

/-- Steps that are taken for each of several things. -/
theorem mapM {f : α → Except ε β} {as : List α}
    (h : ∀ a ∈ as, Except.Within q (fun _ => True) (f a)) :
    Except.Within q (fun _ => True) (as.mapM f) := by
  induction as with
  | nil => exact trivial
  | cons a rest ih =>
    obtain ⟨hfirst, hrest⟩ := List.forall_mem_cons.mp h
    rw [List.mapM_cons]
    exact hfirst.bind fun _ _ => (ih hrest).bind fun _ _ => trivial

/-- What every step keeps is kept by all of them. -/
theorem foldlM {f : β → α → Except ε β} {as : List α}
    (h : ∀ a ∈ as, ∀ b, r b → Except.Within q r (f b a)) {b : β} (hb : r b) :
    Except.Within q r (as.foldlM f b) := by
  induction as generalizing b with
  | nil => exact hb
  | cons a rest ih =>
    obtain ⟨hfirst, hrest⟩ := List.forall_mem_cons.mp h
    rw [List.foldlM_cons]
    exact (hfirst b hb).bind fun _ hnext => ih hrest hnext

end Except.Within

/-! ## Paths -/

namespace Blueprint

variable {blueprint : Blueprint} {q : Fault → Prop} {path rule : String}
  {outcome : Except Unresolved ResolvedPath}

/-- An attribute of the path may be blamed, for whatever rule. -/
def Excuses (blueprint : Blueprint) (q : Fault → Prop) (path : String) : Prop :=
  ∀ rule, q (blueprint.fault path rule)

/-- The path leads to something good or may be blamed. -/
def Settles (blueprint : Blueprint) (q : Fault → Prop) (path : String)
    (outcome : Except Unresolved ResolvedPath) (good : ResolvedPath → Prop) : Prop :=
  blueprint.Excuses q path ∨ ∃ resolved, outcome = .ok resolved ∧ good resolved

/-- What the metadata registers leads to where it should or may be blamed. Local aggregates and
references are not among it: their paths are written by hand. -/
structure Resolves (blueprint : Blueprint) (q : Fault → Prop) : Prop where
  keys : ∀ path ∈ blueprint.metadata.primaryKey,
    blueprint.Settles q path (blueprint.resolveStrict path)
      fun resolved => resolved.isScalar = true ∧ resolved.depth = 0
  computeds : ∀ computed ∈ blueprint.metadata.computeds,
    blueprint.Settles q computed.path (blueprint.resolveStrict computed.path) (·.isScalar = true)
  attachments : ∀ join ∈ blueprint.metadata.attachments,
    blueprint.Settles q join.path (blueprint.resolveLenient join.path) (·.isScalar = false)
  externals : ∀ aggregate ∈ Fields.entries blueprint.metadata.externals,
    blueprint.Settles q aggregate.target (blueprint.resolveStrict aggregate.target)
      (·.isScalar = true)

/-- Where every path may be blamed it does not matter what they lead to. -/
theorem resolves_of_excuses (h : ∀ path, blueprint.Excuses q path) : blueprint.Resolves q where
  keys _ _ := .inl (h _)
  computeds _ _ := .inl (h _)
  attachments _ _ := .inl (h _)
  externals _ _ := .inl (h _)

/-- Where the names are plain, everything registered leads to where it should. -/
theorem Finished.resolves {s : Flattening} (h : blueprint.Finished s) : blueprint.Resolves q where
  keys _ hpath := .inr (h.exists_key hpath)
  computeds _ hcomputed := .inr (h.exists_computed hcomputed)
  attachments _ hjoin := .inr (h.exists_attachment hjoin)
  externals _ haggregate := .inr (h.exists_external haggregate)

/-- A path that is looked up resolves; what it leads to is good or may be blamed. -/
theorem within_demand {good : ResolvedPath → Prop} (h : blueprint.Settles q path outcome good) :
    Except.Within q
      (fun resolved => outcome = .ok resolved ∧ (blueprint.Excuses q path ∨ good resolved))
      (blueprint.demand path outcome) := by
  rcases h with hexcused | ⟨resolved, rfl, hgood⟩
  · cases outcome with
    | error unresolved => exact hexcused _
    | ok resolved => exact ⟨rfl, .inl hexcused⟩
  · exact ⟨rfl, .inr hgood⟩

theorem within_demand_of_excuses (h : blueprint.Excuses q path) :
    Except.Within q (fun resolved => outcome = .ok resolved) (blueprint.demand path outcome) := by
  cases outcome with
  | error unresolved => exact h _
  | ok resolved => exact rfl

/-- Loops that fit together make a program. -/
theorem within_finish {F : Type} {store rootName : String} {descriptor : Descriptor}
    (hflatten : (flatten store rootName descriptor).1 = .ok blueprint.flattened)
    (procedure : String) {scaffold : Scaffold F} (h : scaffold.Supplied blueprint.Reached) :
    Except.Within q (fun _ => True) (blueprint.finish procedure scaffold) := by
  obtain ⟨program, hprogram⟩ := exists_finish hflatten procedure h
  rw [hprogram]
  exact trivial

theorem within_program {F : Type} {store rootName : String} {descriptor : Descriptor}
    (hflatten : (flatten store rootName descriptor).1 = .ok blueprint.flattened)
    (procedure : String) {built : Except Fault (Scaffold F)}
    (h : Except.Within q (Scaffold.Supplied blueprint.Reached) built) :
    Except.Within q (fun _ => True) (built >>= blueprint.finish procedure) :=
  h.bind fun _ hscaffold => within_finish hflatten procedure hscaffold

/-- A procedure of one fragment, at loops of the store. -/
theorem within_fragment {F : Type} {store rootName : String} {descriptor : Descriptor}
    (hflatten : (flatten store rootName descriptor).1 = .ok blueprint.flattened)
    (procedure name : String) {loops : List Loop}
    (hloops : ∀ loop ∈ loops, blueprint.Reached loop) (bucket : Bucket) (label : String)
    (action : F) :
    Except.Within q (fun _ => True)
      (blueprint.finish procedure ({ name : Scaffold F }.add loops bucket label action)) := by
  refine within_finish hflatten procedure ?_
  exact (Scaffold.supplied_start name).add (supply_reached hflatten) hloops bucket label action

end Blueprint

/-! ## Keys -/

namespace PrimaryKey

variable {blueprint : Blueprint} {q : Fault → Prop} {path : String}

/-- A key attribute is a single value outside of all lists. -/
theorem within_resolve
    (h : blueprint.Settles q path (blueprint.resolveStrict path)
      fun resolved => resolved.isScalar = true ∧ resolved.depth = 0) :
    Except.Within q (fun _ => True) (resolve blueprint path) := by
  unfold resolve
  refine (Blueprint.within_demand h).bind fun resolved ⟨_, hgood⟩ => ?_
  simp only
  split
  · next hbad =>
    rcases hgood with hexcused | ⟨hscalar, hdepth⟩
    · exact hexcused _
    · simp [hscalar, hdepth] at hbad
  · exact trivial

/-- The key compiler fails only on the paths of key attributes. -/
theorem within_compile (h : blueprint.Resolves q) :
    Except.Within q (fun _ => True) (compile blueprint) :=
  (Except.Within.mapM fun path hpath => within_resolve (h.keys path hpath)).bind fun _ _ => trivial

end PrimaryKey

/-! ## Procedures -/

section Procedures

variable {blueprint : Blueprint} {q : Fault → Prop} {store rootName : String}
  {descriptor : Descriptor}
  (hflatten : (flatten store rootName descriptor).1 = .ok blueprint.flattened)

include hflatten

namespace Recompute

/-- The source of an aggregate is a path of the store. -/
theorem within_resolve {aggregate : LocalAggregate}
    (h : blueprint.Excuses q aggregate.target) :
    Except.Within q (fun sites => blueprint.Leads sites.2) (resolve blueprint aggregate) := by
  have hlevels := Blueprint.levelsDeclared_of_flatten hflatten
  unfold resolve
  -- whatever is wrong with the target or the source, the target is blamed
  refine (Blueprint.within_demand_of_excuses h).bind fun resolved _ => ?_
  simp only
  split
  · exact h _
  · refine (Blueprint.within_demand_of_excuses h).bind fun source hsource => ?_
    split
    · exact h _
    · split
      · exact h _
      · exact (Blueprint.leads_of_lenient hlevels hsource).1

/-- Both fragments of an aggregate lie on the way of its source. -/
theorem supplied_addFragments {scaffold : Scaffold Action} (aggregate : LocalAggregate)
    (target : ResolvedPath) {source : ResolvedPath} (hsource : blueprint.Leads source)
    (h : scaffold.Supplied blueprint.Reached) :
    (addFragments aggregate target source scaffold).Supplied blueprint.Reached := by
  have hsupply := Blueprint.supply_reached hflatten
  have hloops := Blueprint.reached_of_leads hsource
  unfold addFragments
  refine Scaffold.Supplied.add ?_ hsupply hloops _ _ _
  split
  · exact h.add hsupply (fun loop hloop => hloops loop (List.mem_of_mem_take hloop)) _ _ _
  · exact h.add hsupply hloops _ _ _

/-- The compiler of aggregates fails only on their targets. -/
theorem within_compile
    (h : ∀ aggregate ∈ blueprint.metadata.localAggregates,
      blueprint.Excuses q aggregate.target) :
    Except.Within q (fun _ => True) (compile blueprint) := by
  unfold compile
  refine Blueprint.within_program hflatten _ ?_
  refine Except.Within.foldlM (fun aggregate haggregate scaffold hscaffold => ?_)
    (Scaffold.supplied_start _)
  refine (within_resolve hflatten (h aggregate haggregate)).bind fun sites hsource => ?_
  exact supplied_addFragments hflatten aggregate sites.1 hsource hscaffold

end Recompute

namespace ComputedFields

/-- A computed field is filled in where its path leads. -/
theorem within_addFragment {scaffold : Scaffold Field} {computed : Computed}
    (h : blueprint.Settles q computed.path (blueprint.resolveStrict computed.path)
      (·.isScalar = true))
    (hscaffold : scaffold.Supplied blueprint.Reached) :
    Except.Within q (Scaffold.Supplied blueprint.Reached)
      (addFragment blueprint scaffold computed) := by
  unfold addFragment
  refine (Blueprint.within_demand h).bind fun resolved ⟨hresolved, _⟩ => ?_
  obtain ⟨hleads, -⟩ :=
    Blueprint.leads_of_strict (Blueprint.levelsDeclared_of_flatten hflatten) hresolved
  split
  · next hnone => exact absurd (List.getLast?_eq_none_iff.mp hnone) hleads.leaf_ne_nil
  · exact hscaffold.add (Blueprint.supply_reached hflatten) (Blueprint.reached_of_leads hleads)
      _ _ _

/-- The compiler of computed fields fails only on their paths. -/
theorem within_compile (h : blueprint.Resolves q) :
    Except.Within q (fun _ => True) (compile blueprint) := by
  unfold compile
  refine Blueprint.within_program hflatten _ ?_
  exact Except.Within.foldlM (fun computed hcomputed scaffold hscaffold =>
    within_addFragment hflatten (h.computeds computed hcomputed) hscaffold)
    (Scaffold.supplied_start _)

end ComputedFields

namespace Reference

/-- The compiler of a reference fails only on its path. -/
theorem within_compile {path target : String} (h : blueprint.Excuses q path) :
    Except.Within q (fun _ => True) (compile blueprint path target) := by
  unfold compile
  refine (Blueprint.within_demand_of_excuses h).bind fun resolved hresolved => ?_
  obtain ⟨hleads, -⟩ :=
    Blueprint.leads_of_strict (Blueprint.levelsDeclared_of_flatten hflatten) hresolved
  -- a reference to many records is followed into the elements of its list
  have hloops : ∀ loop ∈ resolved.elementLoops.1, blueprint.Reached loop := by
    intro loop hloop
    exact ⟨resolved, hleads, hloop⟩
  simp only
  split
  · exact h _
  · refine (Blueprint.within_fragment hflatten _ _ hloops _ _ _).bind fun collect _ => ?_
    exact (Blueprint.within_fragment hflatten _ _ hloops _ _ _).bind fun replace _ => trivial

end Reference

namespace Filter

/-- The compiler of a filter fails only on the attribute that it looks at. -/
theorem within_compile {declaration : FilterDeclaration}
    (h : blueprint.Excuses q declaration.localAttribute) :
    Except.Within q (fun _ => True) (compile blueprint declaration) := by
  unfold compile
  refine (Blueprint.within_demand_of_excuses h).bind fun resolved hresolved => ?_
  obtain ⟨hleads, -⟩ :=
    Blueprint.leads_of_strict (Blueprint.levelsDeclared_of_flatten hflatten) hresolved
  simp only
  split
  · exact h _
  · split
    · exact h _
    · have hloops := Blueprint.reached_of_leads hleads
      exact (Blueprint.within_fragment hflatten _ _ hloops _ _ _).bind fun program _ => trivial

end Filter

namespace Joining

variable {foreign : String} {mode : Mode} {join : Join}

/-- The loops of a fragment, if there is one, are on the way of a path of the store. -/
def Fitting (blueprint : Blueprint) (placed : Option Placed) : Prop :=
  ∀ fragment, placed = some fragment → ∀ loop ∈ fragment.loops, blueprint.Reached loop

/-- An attachment is placed at a list or an object. -/
theorem within_placeAttachment
    (h : blueprint.Settles q join.path (blueprint.resolveLenient join.path)
      (·.isScalar = false)) :
    Except.Within q (fun placed => Fitting blueprint (some placed))
      (placeAttachment blueprint mode join) := by
  unfold placeAttachment
  refine (Blueprint.within_demand h).bind fun resolved ⟨hresolved, hgood⟩ => ?_
  obtain ⟨hleads, -⟩ :=
    Blueprint.leads_of_lenient (Blueprint.levelsDeclared_of_flatten hflatten) hresolved
  split
  · next hbad =>
    rcases hgood with hexcused | hlevel
    · exact hexcused _
    · simp [hlevel] at hbad
  · intro fragment hfragment
    cases hfragment
    exact Blueprint.reached_of_leads hleads

/-- An external aggregate is placed at its target, which is a single value. -/
theorem within_placeFeed (h : blueprint.Resolves q) :
    Except.Within q (Fitting blueprint) (placeFeed blueprint foreign join) := by
  unfold placeFeed
  simp only
  -- a join that belongs to no aggregate is left out
  split
  · exact nofun
  · next aggregate hfind =>
    have hmem := (Fields.sublist_entries _ _).subset (List.mem_of_find?_eq_some hfind)
    refine (Blueprint.within_demand (h.externals aggregate hmem)).bind
      fun resolved ⟨hresolved, hgood⟩ => ?_
    obtain ⟨hleads, -⟩ :=
      Blueprint.leads_of_strict (Blueprint.levelsDeclared_of_flatten hflatten) hresolved
    split
    · next hbad =>
      rcases hgood with hexcused | hscalar
      · exact hexcused _
      · simp [hscalar] at hbad
    · intro fragment hfragment
      cases hfragment
      exact Blueprint.reached_of_leads hleads

/-- Every join is placed where its path leads. -/
theorem within_place (h : blueprint.Resolves q)
    (hjoin : join ∈ blueprint.metadata.joinsOf foreign) :
    Except.Within q (Fitting blueprint) (place blueprint foreign mode join) := by
  by_cases hattaches : join.Attaches
  · have hmem : join ∈ blueprint.metadata.attachments := List.mem_filter.mpr
      ⟨(Metadata.joinsOf_sublist _ foreign).subset hjoin, decide_eq_true hattaches⟩
    rw [place_of_attaches hattaches]
    exact (within_placeAttachment hflatten (h.attachments join hmem)).map fun placed hfits => hfits
  · have hfeeds : join.cardinality = .aggregate := Decidable.not_not.mp hattaches
    rw [place, hfeeds]
    exact within_placeFeed hflatten h

/-- The compiler of a joined store fails only on the paths of its joins. -/
theorem within_compile (h : blueprint.Resolves q) :
    Except.Within q (fun _ => True) (compile blueprint foreign mode) := by
  unfold compile
  refine Blueprint.within_program hflatten _ ?_
  refine Except.Within.foldlM (fun join hjoin scaffold hscaffold => ?_) (Scaffold.supplied_start _)
  refine (within_place hflatten h hjoin).bind fun placed hfits => ?_
  split
  · exact hscaffold
  · exact hscaffold.add (Blueprint.supply_reached hflatten) (hfits _ rfl) _ _ _

end Joining

namespace JoinProcedures

theorem within_compileAll (h : blueprint.Resolves q) :
    Except.Within q (fun _ => True) (compileAll blueprint) := by
  refine Except.Within.mapM fun foreign _ => ?_
  refine (Joining.within_compile hflatten h).bind fun _ _ => ?_
  refine (Joining.within_compile hflatten h).bind fun _ _ => ?_
  exact (Joining.within_compile hflatten h).bind fun _ _ => trivial

end JoinProcedures

end Procedures

/-! ## Clones -/

namespace Cloner

variable {blueprint : Blueprint} {q : Fault → Prop} {s : Flattening}

/-- An attribute of a declared level leads to a level of another store, or to a declared level
further behind. -/
theorem within_shapeOf (hends : blueprint.flattened.EndsIn s) {name : String} {node : Node}
    (hget : Fields.get? s.nodes name = some node) {decl : AttributeDecl}
    (hdecl : decl ∈ node.attributes)
    {below : String → Except Fault (List (AttributeDecl × Shape))}
    (hbelow : ∀ child, Fields.has s.nodes child = true →
      (Fields.keys s.nodes).idxOf name < (Fields.keys s.nodes).idxOf child →
        Except.Within q (fun _ => True) (below child)) :
    Except.Within q (fun _ => True) (shapeOf blueprint below decl) := by
  unfold shapeOf
  cases hchild : decl.child with
  | none => exact trivial
  | some child =>
    simp only
    split
    · exact trivial
    · next hdeclared =>
      -- what is not of another store is declared here, behind the level around it
      obtain ⟨inner, hlevel, hparent, -⟩ := hends.grown.child hget hdecl hchild
      have hinner : Fields.get? s.nodes child = some inner := by
        rw [hends.virtualNodes, Fields.has, Bool.not_eq_true, Option.isSome_eq_false_iff,
          Option.isNone_iff_eq_none] at hdeclared
        rw [Flattening.level?, hdeclared, Option.or_none] at hlevel
        exact hlevel
      rw [hends.nodes, hinner]
      exact (hbelow child (Fields.has_iff.mpr ⟨inner, hinner⟩)
        (hends.formed.before hinner hparent)).bind fun _ _ => trivial

/-- A way down goes to levels further and further behind, so it ends after as many as there are
behind its start. -/
theorem within_attributesOf (hends : blueprint.flattened.EndsIn s) :
    ∀ (height : Nat) {name : String}, Fields.has s.nodes name = true →
      s.nodes.length ≤ (Fields.keys s.nodes).idxOf name + height →
        Except.Within q (fun _ => True) (attributesOf blueprint height name) := by
  intro height
  induction height with
  | zero =>
    intro name hname hheight
    have hlt := List.idxOf_lt_length_of_mem (Fields.mem_keys_iff_has.mpr hname)
    rw [Fields.keys, List.length_map] at hlt
    exact absurd hheight (Nat.not_le_of_lt hlt)
  | succ height ih =>
    intro name hname hheight
    obtain ⟨node, hget⟩ := Fields.has_iff.mp hname
    rw [attributesOf, hends.nodes, hget]
    refine Except.Within.mapM fun decl hdecl => ?_
    refine (within_shapeOf hends hget hdecl fun child hchild hlt => ?_).bind fun _ _ => trivial
    exact ih hchild (by omega)

/-- Clones are compiled from declared levels, which are there. -/
theorem within_compile {store rootName : String} {descriptor : Descriptor}
    (hflatten : (flatten store rootName descriptor).1 = .ok blueprint.flattened) :
    Except.Within q (fun _ => True) (compile blueprint) := by
  obtain ⟨s, hends⟩ := Flattened.exists_endsIn_of_flatten hflatten
  obtain ⟨top, htop, -⟩ := hends.grown.top
  refine (within_attributesOf hends _ (Fields.has_iff.mpr ⟨top, htop⟩) ?_).bind fun _ _ => trivial
  rw [hends.nodes]
  exact Nat.le_add_left _ _

end Cloner

end NestedRecord
