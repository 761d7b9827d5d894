import NestedRecord.Proofs.Dotted
import NestedRecord.Proofs.Json.Pointer
import NestedRecord.Proofs.Path.Resolution

/-!
# Where the paths of a store lie in its records

All paths of a store are resolved in one graph, so the places that they have in records lie
to one another as their names do.

Compilers place their work by names and the graph alone, without a record. What they need to know is
how the instances of two paths lie in any record: that a written value is not above something that
is read, or that two values are not the same place. All of this is decided by comparing names.

- `Blueprint.Leads blueprint resolved`: `resolved` is what some path of the store resolves
  to. `leads_of_strict` and `leads_of_lenient` give it for the two ways of resolving.
- `Leads.eq_of_names`: names determine the loops, the leaf and the target.
- `Leads.names_eq_of_value`: no path goes on below a declared value.
- `Leads.inside_list`: a path below a list enters the list.
- `Leads.apart_of_foreign` and `Leads.names_eq_of_foreign`: levels of other stores lie apart from
  declared values and from one another.
- `Leads.place_eq_of_pointer`: declared values that are kept under the same pointer are at
  the same place.
-/

namespace NestedRecord

/-! ## Outcomes -/

/-- A sequence of two steps succeeds iff both do. -/
theorem Except.bind_eq_ok {ε α β : Type} {outcome : Except ε α} {f : α → Except ε β} {b : β} :
    (outcome >>= f) = .ok b ↔ ∃ a, outcome = .ok a ∧ f a = .ok b := by
  cases outcome with
  | error e =>
    constructor
    · intro h
      cases h
    · rintro ⟨a, h, -⟩
      cases h
  | ok a =>
    constructor
    · intro h
      exact ⟨a, rfl, h⟩
    · rintro ⟨a', h, hf⟩
      cases h
      exact hf

theorem Except.eq_ok_of_toOption {ε α : Type} {outcome : Except ε α} {a : α}
    (h : outcome.toOption = some a) : outcome = .ok a := by
  cases outcome with
  | error e => cases h
  | ok b => rw [Option.some.inj h]

theorem Except.exists_error_of_toOption {ε α : Type} {outcome : Except ε α}
    (h : outcome.toOption.isNone) : ∃ e, outcome = .error e := by
  cases outcome with
  | error e => exact ⟨e, rfl⟩
  | ok a => cases h

namespace ResolvedPath

/-- Whether the path leads to a declared value. -/
def IsValue (resolved : ResolvedPath) : Prop :=
  resolved.isScalar = true ∧ resolved.isVirtual = false

theorem exists_level (resolved : ResolvedPath) (h : resolved.isScalar = false) :
    ∃ key kind, resolved.target = .level key kind := by
  cases htarget : resolved.target with
  | scalar => simp [isScalar, htarget] at h
  | level key kind => exact ⟨key, kind, rfl⟩

/-- The names of a list on the way are the first names of the path. -/
theorem names_above_list {resolved : ResolvedPath} {front back : List Loop} {loop : Loop}
    (h : resolved.loops = front ++ loop :: back) {cursor : Cursor} (hfits : cursor.Fits front) :
    (cursor.below loop.access).names <+: resolved.names := by
  rw [hfits.names_below, names, h]
  refine ⟨back.flatMap (·.access) ++ resolved.leaf, ?_⟩
  simp [List.append_assoc]

/-- They are not all of them. -/
theorem length_names_above_list {resolved : ResolvedPath} {front back : List Loop} {loop : Loop}
    (h : resolved.loops = front ++ loop :: back) {cursor : Cursor} (hfits : cursor.Fits front)
    (hleaf : resolved.leaf ≠ []) :
    (cursor.below loop.access).names.length < resolved.names.length := by
  have hpositive := List.length_pos_iff.mpr hleaf
  rw [hfits.names_below, names, h]
  simp only [List.flatMap_append, List.flatMap_cons, List.length_append]
  omega

/-- The names of the innermost lists on the way to an element. -/
theorem names_below {resolved : ResolvedPath} {cursor : Cursor}
    (hfits : cursor.Fits resolved.loops) : (cursor.below resolved.leaf).names = resolved.names :=
  hfits.names_below resolved.leaf

end ResolvedPath

namespace Blueprint

variable {blueprint : Blueprint} {path : String} {resolved other : ResolvedPath}

/-- The resolver that goes into the levels of joined stores too. -/
def resolver (blueprint : Blueprint) : Resolver :=
  { nodes := blueprint.flattened.nodes, virtualNodes := blueprint.flattened.virtualNodes }

/-- Whether a resolved path leads from the root of the store to where it says. -/
def Leads (blueprint : Blueprint) (resolved : ResolvedPath) : Prop :=
  ∃ node, blueprint.resolver.node? blueprint.flattened.root = some node ∧
    blueprint.resolver.walk? resolved.path node resolved.names = some resolved

/-- Whether the levels that the descriptor declares are told from those of joined stores. -/
def LevelsDeclared (blueprint : Blueprint) : Prop :=
  ∀ name node, Fields.get? blueprint.flattened.nodes name = some node → node.isVirtual = false

theorem path_eq_of_walk? {resolver : Resolver} {node : Node} {names : List String}
    (h : resolver.walk? path node names = some resolved) : resolved.path = path := by
  have hsame := Option.some.inj (h.symm.trans (Resolver.walk?_path path h))
  exact congrArg ResolvedPath.path hsame

/-- A path that resolves leads somewhere by its segments. -/
theorem leads_of_resolve
    (h : blueprint.resolver.resolve blueprint.flattened.root path = .ok resolved) :
    blueprint.Leads resolved ∧ resolved.path = path ∧ resolved.names = segments path := by
  obtain ⟨node, hnode, hwalk⟩ := Resolver.walk?_of_resolve h
  have hnames := Resolver.walk?_names hwalk
  have hpath := path_eq_of_walk? hwalk
  exact ⟨⟨node, hnode, by rw [hpath, hnames]; exact hwalk⟩, hpath, hnames⟩

/-- A path through declared levels leads to a declared value or level. -/
theorem leads_of_strict (hlevels : blueprint.LevelsDeclared)
    (h : blueprint.resolveStrict path = .ok resolved) :
    blueprint.Leads resolved ∧ resolved.path = path ∧ resolved.names = segments path ∧
      resolved.isVirtual = false := by
  obtain ⟨node, hnode, hwalk⟩ := Resolver.walk?_of_resolve h
  have hnames := Resolver.walk?_names hwalk
  have hpath := path_eq_of_walk? hwalk
  -- declared levels are a part of all levels, where walks stay as they are
  have hsmaller : ∀ name node,
      Resolver.node? { nodes := blueprint.flattened.nodes } name = some node →
        Fields.get? blueprint.flattened.nodes name = some node := by
    intro name node h
    unfold Resolver.node? at h
    cases hget : Fields.get? blueprint.flattened.nodes name with
    | none => simp [hget] at h
    | some _ => simpa [hget] using h
  have hbigger : ∀ name node,
      Resolver.node? { nodes := blueprint.flattened.nodes } name = some node →
        blueprint.resolver.node? name = some node := by
    intro name node h
    unfold Resolver.node? resolver
    rw [hsmaller name node h]
    rfl
  refine ⟨⟨node, hbigger _ _ hnode, ?_⟩, hpath, hnames, ?_⟩
  · rw [hpath, hnames]
    exact Resolver.walk?_mono hbigger hwalk
  · exact Resolver.isVirtual_of_walk? (fun name node h => hlevels name node (hsmaller name node h))
      (hlevels _ _ (hsmaller _ _ hnode)) hwalk

/-- A path through levels of any kind leads somewhere. -/
theorem leads_of_lenient (hlevels : blueprint.LevelsDeclared)
    (h : blueprint.resolveLenient path = .ok resolved) :
    blueprint.Leads resolved ∧ resolved.path = path ∧ resolved.names = segments path := by
  unfold resolveLenient at h
  split at h
  · next hstrict =>
    cases h
    obtain ⟨hleads, hpath, hnames, -⟩ := leads_of_strict hlevels hstrict
    exact ⟨hleads, hpath, hnames⟩
  · exact leads_of_resolve h

/-- A path that resolves through declared levels resolves in the same way with those of
joined stores. -/
theorem resolveLenient_of_strict (h : blueprint.resolveStrict path = .ok resolved) :
    blueprint.resolveLenient path = .ok resolved := by
  unfold resolveLenient
  rw [h]

/-- A path that is demanded resolves. -/
theorem resolve_of_demand {outcome : Except Unresolved ResolvedPath}
    (h : blueprint.demand path outcome = .ok resolved) : outcome = .ok resolved := by
  cases outcome with
  | ok other =>
    cases h
    rfl
  | error unresolved => cases h

/-- A finished program is what its scaffold is synthesized to. -/
theorem synthesize_of_finish {F : Type} {procedure : String} {scaffold : Scaffold F}
    {program : Program F} (h : blueprint.finish procedure scaffold = .ok program) :
    scaffold.synthesize = .ok program := by
  unfold finish at h
  cases hprogram : scaffold.synthesize with
  | ok other =>
    rw [hprogram] at h
    cases h
    rfl
  | error failure =>
    rw [hprogram] at h
    cases h

namespace Leads

theorem leaf_ne_nil (h : blueprint.Leads resolved) : resolved.leaf ≠ [] := by
  obtain ⟨node, -, hwalk⟩ := h
  exact (Resolver.walk?_ne_nil hwalk).1

theorem access_ne_nil (h : blueprint.Leads resolved) :
    ∀ loop ∈ resolved.loops, loop.access ≠ [] := by
  obtain ⟨node, -, hwalk⟩ := h
  exact (Resolver.walk?_ne_nil hwalk).2

/-- What the names of a path lead to does not depend on how the path is written. -/
theorem eq_of_names (h : blueprint.Leads resolved) (h' : blueprint.Leads other)
    (hnames : resolved.names = other.names) :
    resolved.loops = other.loops ∧ resolved.leaf = other.leaf ∧
      resolved.target = other.target ∧ resolved.isVirtual = other.isVirtual := by
  obtain ⟨node, hnode, hwalk⟩ := h
  obtain ⟨node', hnode', hwalk'⟩ := h'
  cases Option.some.inj (hnode.symm.trans hnode')
  rw [← hnames] at hwalk'
  have hsame := Option.some.inj ((Resolver.walk?_path other.path hwalk).symm.trans hwalk')
  rw [← hsame]
  exact ⟨rfl, rfl, rfl, rfl⟩

/-- A path that begins with the names of a declared value is the path of that value. -/
theorem names_eq_of_value (h : blueprint.Leads resolved) (hvalue : resolved.IsValue)
    (h' : blueprint.Leads other) (hstart : resolved.names <+: other.names) :
    resolved.names = other.names := by
  obtain ⟨node, hnode, hwalk⟩ := h
  obtain ⟨node', hnode', hwalk'⟩ := h'
  cases Option.some.inj (hnode.symm.trans hnode')
  obtain ⟨rest, hrest⟩ := hstart
  rw [← hrest] at hwalk'
  by_cases hempty : rest = []
  · rw [← hrest, hempty, List.append_nil]
  · have hnone := Resolver.walk?_scalar_append (Resolver.walk?_path other.path hwalk)
      hvalue.2 hvalue.1 hempty
    rw [hnone] at hwalk'
    cases hwalk'

/-- A path to a single value, declared or not, has the names of a declared value as soon as one of
the two goes on from the other. -/
theorem names_eq_of_comparable (h : blueprint.Leads resolved) (hvalue : resolved.IsValue)
    (h' : blueprint.Leads other) (hscalar : other.isScalar = true)
    (hstart : resolved.names <+: other.names ∨ other.names <+: resolved.names) :
    resolved.names = other.names := by
  rcases hstart with hstart | hstart
  · exact h.names_eq_of_value hvalue h' hstart
  cases hvirtual : other.isVirtual with
  | false => exact (h'.names_eq_of_value ⟨hscalar, hvirtual⟩ h hstart).symm
  | true =>
    obtain ⟨node, hnode, hwalk⟩ := h
    obtain ⟨node', hnode', hwalk'⟩ := h'
    obtain rfl : node = node' := Option.some.inj (hnode.symm.trans hnode')
    obtain ⟨rest, hrest⟩ := hstart
    rw [← hrest] at hwalk
    have hforeign := Resolver.walk?_virtual_append hwalk' hvirtual hscalar hwalk
    rw [hvalue.2] at hforeign
    cases hforeign

/-- A path that goes on below a level. -/
theorem below_level (h : blueprint.Leads resolved) {key : String} {kind : NodeKind}
    (htarget : resolved.target = .level key kind) (h' : blueprint.Leads other)
    {rest : List String} (hrest : rest ≠ []) (hnames : other.names = resolved.names ++ rest) :
    ∃ child below, blueprint.resolver.walk? other.path child rest = some below ∧
      child.isVirtual = resolved.isVirtual ∧ child.kind = kind ∧
      other = if kind = .array then below.inside (resolved.loops ++ [⟨key, resolved.leaf⟩])
        else (below.behind resolved.leaf).inside resolved.loops := by
  obtain ⟨node, hnode, hwalk⟩ := h
  obtain ⟨node', hnode', hwalk'⟩ := h'
  cases Option.some.inj (hnode.symm.trans hnode')
  rw [hnames] at hwalk'
  obtain ⟨child, below, hbelow, hvirtual, hkind, -, heq⟩ := Resolver.walk?_level_append
    (Resolver.walk?_path other.path hwalk) htarget hrest hwalk'
  exact ⟨child, below, hbelow, hvirtual, hkind, heq⟩

/-- A path below a list goes through the list. -/
theorem inside_list (h : blueprint.Leads resolved) {key : String}
    (htarget : resolved.target = .level key .array) (h' : blueprint.Leads other)
    {rest : List String} (hrest : rest ≠ []) (hnames : other.names = resolved.names ++ rest) :
    ∃ inner, other.loops = resolved.loops ++ ⟨key, resolved.leaf⟩ :: inner ∧
      inner.flatMap (·.access) ++ other.leaf = rest := by
  obtain ⟨child, below, hbelow, -, -, heq⟩ := h.below_level htarget h' hrest hnames
  have hbelowNames := Resolver.walk?_names hbelow
  rw [if_pos rfl] at heq
  refine ⟨below.loops, ?_, ?_⟩
  · rw [heq]
    simp [ResolvedPath.inside]
  · rw [heq]
    exact hbelowNames

/-- Below records of another store, names are taken as they stand. -/
theorem inside_foreign_list (h : blueprint.Leads resolved) {key : String}
    (htarget : resolved.target = .level key .array) (hvirtual : resolved.isVirtual = true)
    (h' : blueprint.Leads other) {rest : List String} (hrest : rest ≠ [])
    (hnames : other.names = resolved.names ++ rest) :
    other.loops = resolved.loops ++ [⟨key, resolved.leaf⟩] ∧ other.leaf = rest ∧
      other.isVirtual = true ∧ other.isScalar = true := by
  obtain ⟨child, below, hbelow, hchild, -, heq⟩ := h.below_level htarget h' hrest hnames
  rw [if_pos rfl] at heq
  obtain ⟨name, others, rfl⟩ := List.exists_cons_of_ne_nil hrest
  rw [Resolver.walk?, if_pos (hchild.trans hvirtual)] at hbelow
  cases hbelow
  rw [heq]
  exact ⟨by simp [ResolvedPath.inside], rfl, rfl, rfl⟩

/-- A path below records of another store leads to no declared value or level. -/
theorem isVirtual_of_below (h : blueprint.Leads resolved) {key : String} {kind : NodeKind}
    (htarget : resolved.target = .level key kind) (hvirtual : resolved.isVirtual = true)
    (h' : blueprint.Leads other) {rest : List String} (hrest : rest ≠ [])
    (hnames : other.names = resolved.names ++ rest) :
    other.isVirtual = true ∧ other.isScalar = true := by
  obtain ⟨child, below, hbelow, hchild, -, heq⟩ := h.below_level htarget h' hrest hnames
  obtain ⟨name, others, rfl⟩ := List.exists_cons_of_ne_nil hrest
  rw [Resolver.walk?, if_pos (hchild.trans hvirtual)] at hbelow
  cases hbelow
  rw [heq]
  split <;> exact ⟨by simp, by simp [ResolvedPath.isScalar]⟩

/-- A level of another store lies neither around a declared value nor inside it. -/
theorem apart_of_foreign (h : blueprint.Leads resolved) (hlevel : resolved.isScalar = false)
    (hforeign : resolved.isVirtual = true) (h' : blueprint.Leads other) (hvalue : other.IsValue) :
    ¬ resolved.names <+: other.names ∧ ¬ other.names <+: resolved.names := by
  have hne : resolved.names ≠ other.names := by
    intro hnames
    have hsame := (h.eq_of_names h' hnames).2.2.2
    rw [hforeign, hvalue.2] at hsame
    cases hsame
  constructor
  · rintro ⟨rest, hrest⟩
    obtain ⟨key, kind, htarget⟩ := resolved.exists_level hlevel
    by_cases hempty : rest = []
    · rw [hempty, List.append_nil] at hrest
      exact hne hrest
    · have hinside := (h.isVirtual_of_below htarget hforeign h' hempty hrest.symm).1
      rw [hvalue.2] at hinside
      cases hinside
  · exact fun hstart => hne (h'.names_eq_of_value hvalue h hstart).symm

/-- A level of another store has no other level inside it. -/
theorem names_eq_of_foreign (h : blueprint.Leads resolved) (hlevel : resolved.isScalar = false)
    (hforeign : resolved.isVirtual = true) (h' : blueprint.Leads other)
    (hlevel' : other.isScalar = false) (hstart : resolved.names <+: other.names) :
    resolved.names = other.names := by
  obtain ⟨rest, hrest⟩ := hstart
  obtain ⟨key, kind, htarget⟩ := resolved.exists_level hlevel
  by_cases hempty : rest = []
  · rw [← hrest, hempty, List.append_nil]
  · have hinside := (h.isVirtual_of_below htarget hforeign h' hempty hrest.symm).2
    rw [hlevel'] at hinside
    cases hinside

/-- Places of declared values that are written as the same pointer are the same. -/
theorem place_eq_of_pointer (h : blueprint.Leads resolved) (hvalue : resolved.IsValue)
    (h' : blueprint.Leads other) (hvalue' : other.IsValue) {cursor cursor' : Cursor}
    (hfits : cursor.Fits resolved.loops) (hfits' : cursor'.Fits other.loops)
    (hpointer : (cursor.below resolved.leaf).pointer = (cursor'.below other.leaf).pointer) :
    cursor.below resolved.leaf = cursor'.below other.leaf := by
  obtain ⟨node, hnode, hwalk⟩ := h
  obtain ⟨node', hnode', hwalk'⟩ := h'
  cases Option.some.inj (hnode.symm.trans hnode')
  have hplace := (Resolver.instance_iff_of_walk? hwalk hvalue.2).mpr ⟨cursor, hfits, rfl⟩
  have hplace' := (Resolver.instance_iff_of_walk? hwalk' hvalue'.2).mpr ⟨cursor', hfits', rfl⟩
  exact hplace.eq_of_tokens hplace'
    (fun _ _ => Location.escapeKey_injective) (fun _ _ => Numeral.natText_injective)
    (Location.tokens_of_pointer hpointer)

end Leads

/-! ## Single values -/

/-- The instances of an attribute that holds a single value. -/
def ValueAt (blueprint : Blueprint) (path : String) (place : Location) : Prop :=
  ∃ resolved, blueprint.resolveStrict path = .ok resolved ∧ resolved.isScalar = true ∧
    ∃ cursor : Cursor, cursor.Fits resolved.loops ∧ place = cursor.below resolved.leaf

variable {place location : Location}

theorem ValueAt.names (hlevels : blueprint.LevelsDeclared)
    (h : blueprint.ValueAt path place) : place.names = segments path := by
  obtain ⟨resolved, hleads, -, cursor, hfits, rfl⟩ := h
  rw [ResolvedPath.names_below hfits, (leads_of_strict hlevels hleads).2.2.1]

/-- Where a path leads to a value, it leads to instances of one resolved path. -/
theorem ValueAt.exists_cursor {other : ResolvedPath}
    (hleads : blueprint.resolveStrict path = .ok other) (h : blueprint.ValueAt path place) :
    ∃ cursor : Cursor, cursor.Fits other.loops ∧ place = cursor.below other.leaf := by
  obtain ⟨value, hvalue, -, cursor, hfits, rfl⟩ := h
  obtain rfl := Except.ok.inj (hvalue.symm.trans hleads)
  exact ⟨cursor, hfits, rfl⟩

/-- A value that stands at or above another one is that value. -/
theorem ValueAt.eq_of_above (hlevels : blueprint.LevelsDeclared) {path' : String}
    (h : blueprint.ValueAt path location) (h' : blueprint.ValueAt path' place)
    (hstart : location <+: place) : path = path' ∧ location = place := by
  have hnames := Location.names_above hstart
  rw [h.names hlevels, h'.names hlevels] at hnames
  obtain ⟨value, hvalue, hscalar, -⟩ := id h
  obtain ⟨value', hvalue', -, cursor', hfits', rfl⟩ := id h'
  obtain ⟨hleads, -, hsegments, hvirtual⟩ := leads_of_strict hlevels hvalue
  obtain ⟨hleads', -, hsegments', -⟩ := leads_of_strict hlevels hvalue'
  rw [← hsegments, ← hsegments'] at hnames
  have heq := hleads.names_eq_of_value ⟨hscalar, hvirtual⟩ hleads' hnames
  rw [hsegments, hsegments'] at heq
  obtain rfl := segments_injective heq
  obtain ⟨cursor, hfits, rfl⟩ := h.exists_cursor hvalue'
  exact ⟨rfl, by rw [Cursor.eq_of_above hfits hfits' hstart]⟩

/-- Different instances of values do not contain one another. -/
theorem ValueAt.apart (hlevels : blueprint.LevelsDeclared) {path' : String}
    (h : blueprint.ValueAt path location) (h' : blueprint.ValueAt path' place)
    (hne : path ≠ path' ∨ location ≠ place) :
    Location.Apart location place := by
  refine ⟨fun hstart => ?_, fun hstart => ?_⟩
  · obtain ⟨hpath, hplace⟩ := h.eq_of_above hlevels h' hstart
    exact hne.elim (· hpath) (· hplace)
  · obtain ⟨hpath, hplace⟩ := h'.eq_of_above hlevels h hstart
    exact hne.elim (· hpath.symm) (· hplace.symm)

/-- What a path to a single value reads lies at or around an instance of a value, or inside it, only
if it is that instance. -/
theorem ValueAt.eq_of_comparable (hlevels : blueprint.LevelsDeclared) {source : String}
    (hsource : blueprint.resolveLenient source = .ok other) (hscalar : other.isScalar = true)
    {cursor : Cursor} (hfits : cursor.Fits other.loops) (h : blueprint.ValueAt path location)
    (hstart : location <+: cursor.below other.leaf ∨ cursor.below other.leaf <+: location) :
    source = path ∧ blueprint.resolveStrict path = .ok other ∧
      location = cursor.below other.leaf := by
  obtain ⟨value, hvalue, hvalueScalar, cursor', hfits', rfl⟩ := id h
  obtain ⟨hleads, -, hsegments, hvirtual⟩ := leads_of_strict hlevels hvalue
  obtain ⟨hleads', -, hsegments'⟩ := leads_of_lenient hlevels hsource
  have hnames := hleads.names_eq_of_comparable ⟨hvalueScalar, hvirtual⟩ hleads' hscalar (by
    rw [← ResolvedPath.names_below hfits, ← ResolvedPath.names_below hfits']
    exact hstart.imp Location.names_above Location.names_above)
  rw [hsegments, hsegments'] at hnames
  obtain rfl := segments_injective hnames
  obtain rfl : value = other :=
    Except.ok.inj ((resolveLenient_of_strict hvalue).symm.trans hsource)
  refine ⟨rfl, hvalue, ?_⟩
  rcases hstart with hstart | hstart
  · rw [Cursor.eq_of_above hfits' hfits hstart]
  · rw [Cursor.eq_of_above hfits hfits' hstart]

/-- Different instances of values have different pointers. -/
theorem ValueAt.eq_of_pointer (hlevels : blueprint.LevelsDeclared) {path' : String}
    (h : blueprint.ValueAt path location) (h' : blueprint.ValueAt path' place)
    (hpointer : location.pointer = place.pointer) : location = place := by
  obtain ⟨value, hvalue, hscalar, cursor, hfits, rfl⟩ := h
  obtain ⟨value', hvalue', hscalar', cursor', hfits', rfl⟩ := h'
  obtain ⟨hleads, -, -, hvirtual⟩ := leads_of_strict hlevels hvalue
  obtain ⟨hleads', -, -, hvirtual'⟩ := leads_of_strict hlevels hvalue'
  exact hleads.place_eq_of_pointer ⟨hscalar, hvirtual⟩ hleads' ⟨hscalar', hvirtual'⟩ hfits hfits'
    hpointer

/-- No value stands at or above a list that a path crosses. -/
theorem ValueAt.not_above_list (hlevels : blueprint.LevelsDeclared)
    (h : blueprint.ValueAt path location) (hleads : blueprint.Leads resolved)
    {front back : List Loop} {loop : Loop} (hloops : resolved.loops = front ++ loop :: back)
    {cursor : Cursor} (hfits : cursor.Fits front) : ¬ location <+: cursor.below loop.access := by
  intro hstart
  have hlist := ResolvedPath.names_above_list hloops hfits
  have hnames := (Location.names_above hstart).trans hlist
  rw [h.names hlevels] at hnames
  obtain ⟨value, hvalue, hscalar, -⟩ := id h
  obtain ⟨hleads', -, hsegments, hvirtual⟩ := leads_of_strict hlevels hvalue
  rw [← hsegments] at hnames
  have heq := hleads'.names_eq_of_value ⟨hscalar, hvirtual⟩ hleads hnames
  have hlength := (Location.names_above hstart).length_le
  rw [h.names hlevels, ← hsegments, heq] at hlength
  have hless := ResolvedPath.length_names_above_list hloops hfits hleads.leaf_ne_nil
  omega

end Blueprint

end NestedRecord
