import NestedRecord.Proofs.Graph.Flattened
import NestedRecord.Proofs.Procedure.Buildable

/-!
# How lists are reached

Every level stands under one attribute of one other level, so the key of a list says by which names
it is reached from the elements of the list around it. All paths of a store agree about that, and
procedures can be put together from any of them.

* `Flattening.Inside` gives the names from an element of the innermost list around a level, or from
  the record, down to the level's own attributes.
* `Flattening.Approach` says that a loop has the names that lead to its list; `supply_approach`:
  such loops fit together in one procedure.
* `Blueprint.Reached` are the loops of the paths of a store, whichever way they are resolved, with
  those that reach the elements of a list; `supply_reached` and `exists_finish` are what the
  compilers rely on.

A path is cut at its lists into loops, each with the names from one list to the next. The same list
may be on the way of many paths, and each of them cuts it out on its own. That they all come to the
same names is not a property of the paths, but of the tree: from a level there is one way up.
-/

namespace NestedRecord

open Fields (get? has)

namespace ResolvedPath

theorem elementLoops_inside (loops : List Loop) (resolved : ResolvedPath) :
    (resolved.inside loops).elementLoops.1 = loops ++ resolved.elementLoops.1 := by
  obtain ⟨path, inner, leaf, target, isVirtual⟩ := resolved
  rcases target with _ | ⟨node, _ | _⟩ <;> simp [inside, elementLoops]

theorem mem_elementLoops {resolved : ResolvedPath} {loop : Loop} (h : loop ∈ resolved.loops) :
    loop ∈ resolved.elementLoops.1 := by
  unfold elementLoops
  split
  · exact List.mem_append_left _ h
  · exact h

end ResolvedPath

namespace Flattening

variable {s : Flattening} {name root : String} {names names' : List String}

/-- The names from the innermost list around the attributes of a level. -/
inductive Inside (s : Flattening) : String → List String → Prop
  | top {name : String} {node : Node} (level : s.level? name = some node)
      (root : node.parentName = none) : Inside s name []
  | list {name : String} {node : Node} (level : s.level? name = some node)
      (array : node.isArray = true) : Inside s name []
  | object {name parent attr : String} {node : Node} {names : List String}
      (level : s.level? name = some node) (object : node.isArray = false)
      (up : node.parentName = some parent) (under : node.nameInParent = some attr)
      (around : Inside s parent names) : Inside s name (names ++ [attr])

/-- The names are those of one way. -/
theorem Inside.unique (h : Inside s name names) (h' : Inside s name names') : names = names' := by
  induction h generalizing names' with
  | top level root =>
    cases h' with
    | top | list => rfl
    | object level' object' up' under' around' =>
      cases Option.some.inj (level.symm.trans level')
      rw [root] at up'
      cases up'
  | list level array =>
    cases h' with
    | top | list => rfl
    | object level' object' up' under' around' =>
      cases Option.some.inj (level.symm.trans level')
      rw [array] at object'
      cases object'
  | object level object up under around ih =>
    -- a level has one kind and one parent, which tells the three cases apart
    cases h' with
    | top level' root' =>
      cases Option.some.inj (level.symm.trans level')
      rw [root'] at up
      cases up
    | list level' array' =>
      cases Option.some.inj (level.symm.trans level')
      rw [array'] at object
      cases object
    | object level' object' up' under' around' =>
      cases Option.some.inj (level.symm.trans level')
      cases Option.some.inj (up.symm.trans up')
      cases Option.some.inj (under.symm.trans under')
      rw [ih around']

/-- The loop reaches its list by the names that lead there. -/
def Approach (s : Flattening) (loop : Loop) : Prop :=
  ∃ node parent attr names, s.level? loop.key = some node ∧ node.parentName = some parent ∧
    node.nameInParent = some attr ∧ Inside s parent names ∧ loop.access = names ++ [attr]

/-- Such loops fit together. -/
theorem supply_approach (s : Flattening) : Loop.Supply s.Approach where
  eq_of_key := by
    rintro ⟨key, access⟩ ⟨key', access'⟩
      ⟨node, parent, attr, names, hlevel, hup, hunder, hinside, ha⟩
      ⟨node', parent', attr', names', hlevel', hup', hunder', hinside', ha'⟩ hkey
    obtain rfl : key = key' := hkey
    cases Option.some.inj (hlevel.symm.trans hlevel')
    cases Option.some.inj (hup.symm.trans hup')
    cases Option.some.inj (hunder.symm.trans hunder')
    obtain rfl := hinside.unique hinside'
    rw [Loop.mk.injEq]
    exact ⟨rfl, ha.trans ha'.symm⟩
  access_ne_nil := by
    rintro loop ⟨node, parent, attr, names, -, -, -, -, haccess⟩ hnil
    rw [haccess] at hnil
    simp at hnil

/-- The lists that a walk goes through, from a level inside of `pending` names, and the list at its
end. -/
theorem approach_of_walk? (h : Grown root [] [] s) {path name : String} {names pending : List String}
    {node : Node} {resolved : ResolvedPath} (hlevel : s.level? name = some node)
    (hinside : Inside s name pending)
    (hwalk : Resolver.walk? { nodes := s.nodes, virtualNodes := s.virtualNodes } path node names =
      some resolved) : ∀ loop ∈ (resolved.behind pending).elementLoops.1, s.Approach loop := by
  rw [Resolver.walk?_eq_some_iff] at hwalk
  induction hwalk generalizing name pending with
  | foreign | value => exact List.forall_mem_nil _
  | @level _ child attr _ declared next =>
    obtain ⟨key, hchild, hunique, hup, hunder⟩ := exists_level_of_next? h hlevel declared next
    intro loop hloop
    cases hkind : child.kind with
    | object => simp [ResolvedPath.behind, ResolvedPath.elementLoops, hkind] at hloop
    | array =>
      have heq : loop = ⟨child.uniqueName, pending ++ [attr]⟩ := by
        simpa [ResolvedPath.behind, ResolvedPath.elementLoops, hkind] using hloop
      rw [heq]
      exact ⟨child, name, attr, pending, hunique ▸ hchild, hup, hunder, hinside, rfl⟩
  | @list _ child attr _ _ below declared next array inner ih =>
    obtain ⟨key, hchild, hunique, hup, hunder⟩ := exists_level_of_next? h hlevel declared next
    -- the names start anew inside the elements of the list
    have hbelow := ih hchild (.list hchild array)
    rw [ResolvedPath.behind_nil] at hbelow
    show ∀ loop ∈ (below.inside [⟨child.uniqueName, pending ++ [attr]⟩]).elementLoops.1, _
    rw [ResolvedPath.elementLoops_inside]
    refine List.forall_mem_cons.mpr ⟨?_, hbelow⟩
    exact ⟨child, name, attr, pending, hunique ▸ hchild, hup, hunder, hinside, rfl⟩
  | object declared next object inner ih =>
    obtain ⟨key, hchild, -, hup, hunder⟩ := exists_level_of_next? h hlevel declared next
    rw [ResolvedPath.behind_behind]
    exact ih hchild (.object hchild object hup hunder hinside)

end Flattening

namespace Blueprint

variable {blueprint : Blueprint} {store rootName path : String} {descriptor : Descriptor}
  {resolved : ResolvedPath} {F : Type}

/-- A loop on the way of some path of the store, or the one into the list at its end. -/
def Reached (blueprint : Blueprint) (loop : Loop) : Prop :=
  ∃ resolved, blueprint.Leads resolved ∧ loop ∈ resolved.elementLoops.1

/-- The loops of all paths of a store fit together. -/
theorem supply_reached (h : (flatten store rootName descriptor).1 = .ok blueprint.flattened) :
    Loop.Supply blueprint.Reached := by
  obtain ⟨s, hgrown, hnodes, hvirtuals, -⟩ := Flattening.exists_grown_of_flatten h
  have happroach : ∀ {loop}, blueprint.Reached loop → s.Approach loop := by
    rintro loop ⟨resolved, ⟨node, hroot, hwalk⟩, hloop⟩
    obtain ⟨top, htop, hparent⟩ := hgrown.top
    have hresolver : blueprint.resolver =
        { nodes := s.nodes, virtualNodes := s.virtualNodes } := by
      rw [resolver, hnodes, hvirtuals]
    rw [hresolver] at hroot hwalk
    have hlevel := Flattening.level?_of_get? htop
    obtain rfl : top = node := Option.some.inj (hlevel.symm.trans hroot)
    have hloops := Flattening.approach_of_walk? hgrown hlevel (.top hlevel hparent) hwalk
    rw [ResolvedPath.behind_nil] at hloops
    exact hloops loop hloop
  exact ⟨fun ha hb => (Flattening.supply_approach s).eq_of_key (happroach ha) (happroach hb),
    fun hloop => (Flattening.supply_approach s).access_ne_nil (happroach hloop)⟩

theorem reached_of_leads (h : blueprint.Leads resolved) :
    ∀ loop ∈ resolved.loops, blueprint.Reached loop :=
  fun _ hloop => ⟨resolved, h, ResolvedPath.mem_elementLoops hloop⟩

/-- A scaffold over paths of the store becomes a program. -/
theorem exists_finish (h : (flatten store rootName descriptor).1 = .ok blueprint.flattened)
    (procedure : String) {scaffold : Scaffold F} (hscaffold : scaffold.Supplied blueprint.Reached) :
    ∃ program, blueprint.finish procedure scaffold = .ok program := by
  obtain ⟨program, hprogram⟩ := hscaffold.exists_program (supply_reached h)
  exact ⟨program, by rw [finish, hprogram]⟩

end Blueprint

end NestedRecord
