import NestedRecord.Proofs.Graph.Flattened
import NestedRecord.Proofs.Join.Placement
import NestedRecord.Store.Basic

/-!
# Compiled stores

What is known of a store that has been compiled: it is a flattened descriptor with the
procedures that are compiled from it.

A store is the result of a chain of compilers, each of which may fail. That it exists says that none
of them did, so each part can be traced back to the compiler that has made it; this is done here
once, for all parts that anything is proved of.

* `Store.IsCompiled` says that a store comes from a descriptor.
* `IsCompiled.aggregates`, `IsCompiled.joins` and `IsCompiled.key` give its procedures.
* `IsCompiled.levelsDeclared` and its neighbours are the facts about the descriptor.
-/

namespace NestedRecord

/-- What stands on the right of two related lists has its partner on the left. -/
theorem exists_of_forall₂_right {α β : Type} {r : α → β → Prop} {as : List α} {bs : List β}
    (h : List.Forall₂ r as bs) {b : β} (hb : b ∈ bs) : ∃ a ∈ as, r a b := by
  induction h with
  | nil => cases hb
  | cons hfirst _ ih =>
    rcases List.mem_cons.mp hb with rfl | hb
    · exact ⟨_, List.mem_cons_self, hfirst⟩
    · obtain ⟨a, ha, hrel⟩ := ih hb
      exact ⟨a, List.mem_cons_of_mem _ ha, hrel⟩

/-- A list that is related to two behind each other can be cut in two. -/
theorem exists_append_of_forall₂ {α β : Type} {r : α → β → Prop} {as as' : List α} {bs : List β}
    (h : List.Forall₂ r (as ++ as') bs) :
    ∃ front back, bs = front ++ back ∧ List.Forall₂ r as front ∧ List.Forall₂ r as' back := by
  induction as generalizing bs with
  | nil => exact ⟨[], bs, rfl, .nil, h⟩
  | cons a rest ih =>
    cases h with
    | cons hfirst hrest =>
      obtain ⟨front, back, rfl, hfront, hback⟩ := ih hrest
      exact ⟨_ :: front, back, rfl, .cons hfirst hfront, hback⟩

/-- What a list is mapped to when no element fails. -/
theorem Except.forall₂_of_mapM {ε α β : Type} {f : α → Except ε β} {as : List α} {bs : List β}
    (h : as.mapM f = .ok bs) : List.Forall₂ (fun a b => f a = .ok b) as bs := by
  induction as generalizing bs with
  | nil =>
    cases h
    exact .nil
  | cons a rest ih =>
    rw [List.mapM_cons] at h
    obtain ⟨first, hfirst, h⟩ := Except.bind_eq_ok.mp h
    obtain ⟨others, hothers, h⟩ := Except.bind_eq_ok.mp h
    cases h
    exact .cons hfirst (ih hothers)

/-- Procedures of all joined stores: each is compiled from the joins of its store. -/
theorem JoinProcedures.forall_compile {blueprint : Blueprint} {procedures : List JoinProcedures}
    (h : compileAll blueprint = .ok procedures) :
    List.Forall₂ (fun store procedure => compile blueprint store = .ok procedure)
      blueprint.metadata.joinedStores procedures :=
  Except.forall₂_of_mapM h

namespace Store

/-- The store is the result of compiling a descriptor. -/
def IsCompiled (store : Store) : Prop :=
  ∃ config name descriptor, (compile config name descriptor).1 = .ok store

/-- The store of a descriptor that is accepted. -/
def compiled (name : String) (descriptor : Descriptor)
    (h : (compile {} name descriptor).1.toOption.isSome) : Store :=
  (compile {} name descriptor).1.toOption.get h

/-- A descriptor compiles to the store that is made of it. -/
theorem compile_compiled (name : String) (descriptor : Descriptor)
    (h : (compile {} name descriptor).1.toOption.isSome) :
    (compile {} name descriptor).1 = .ok (compiled name descriptor h) :=
  Except.eq_ok_of_toOption (Option.some_get h).symm

theorem isCompiled_compiled (name : String) (descriptor : Descriptor)
    (h : (compile {} name descriptor).1.toOption.isSome) :
    (compiled name descriptor h).IsCompiled :=
  ⟨{}, name, descriptor, compile_compiled name descriptor h⟩

variable {store : Store} {blueprint : Blueprint}

/-- The parts of a store that come from its blueprint. -/
theorem parts_of_ofBlueprint (h : ofBlueprint blueprint = .ok store) :
    store.blueprint = blueprint ∧ Recompute.compile blueprint = .ok store.aggregates ∧
      JoinProcedures.compileAll blueprint = .ok store.joins ∧
        PrimaryKey.compile blueprint = .ok store.key ∧
          Cloner.compile blueprint = .ok store.cloner := by
  unfold ofBlueprint at h
  obtain ⟨key, hkey, h⟩ := Except.bind_eq_ok.mp h
  obtain ⟨aggregates, haggregates, h⟩ := Except.bind_eq_ok.mp h
  obtain ⟨computeds, -, h⟩ := Except.bind_eq_ok.mp h
  obtain ⟨references, -, h⟩ := Except.bind_eq_ok.mp h
  obtain ⟨joins, hjoins, h⟩ := Except.bind_eq_ok.mp h
  obtain ⟨cloner, hcloner, h⟩ := Except.bind_eq_ok.mp h
  cases h
  exact ⟨rfl, haggregates, hjoins, hkey, hcloner⟩

/-- A compiled store is a flattened descriptor under its configuration. -/
theorem flatten_of_compile {config : Config} {name : String} {descriptor : Descriptor}
    (h : (compile config name descriptor).1 = .ok store) :
    (flatten name config.rootName descriptor).1 = .ok store.blueprint.flattened ∧
      store.blueprint.config = config ∧ ofBlueprint store.blueprint = .ok store := by
  unfold compile at h
  rcases hflatten : flatten name config.rootName descriptor with ⟨outcome, journal⟩
  rw [hflatten] at h
  cases outcome with
  | error fault => cases h
  | ok flattened =>
    cases hstore : ofBlueprint { flattened, config } with
    | error fault =>
      simp only [hstore] at h
      cases h
    | ok compiled =>
      simp only [hstore] at h
      obtain rfl : compiled = store := Except.ok.inj h
      have hblueprint := (parts_of_ofBlueprint hstore).1
      rw [hblueprint]
      exact ⟨rfl, rfl, hstore⟩

namespace IsCompiled

/-- A compiled store comes from a flattened descriptor. -/
theorem exists_flatten (h : store.IsCompiled) :
    (∃ name rootName descriptor,
      (flatten name rootName descriptor).1 = .ok store.blueprint.flattened) ∧
        ofBlueprint store.blueprint = .ok store := by
  obtain ⟨config, name, descriptor, h⟩ := h
  obtain ⟨hflatten, -, hstore⟩ := flatten_of_compile h
  exact ⟨⟨name, config.rootName, descriptor, hflatten⟩, hstore⟩

/-- The procedure of the local aggregates. -/
theorem aggregates (h : store.IsCompiled) :
    Recompute.compile store.blueprint = .ok store.aggregates :=
  (parts_of_ofBlueprint h.exists_flatten.2).2.1

/-- The procedures of the joined stores. -/
theorem joins (h : store.IsCompiled) :
    JoinProcedures.compileAll store.blueprint = .ok store.joins :=
  (parts_of_ofBlueprint h.exists_flatten.2).2.2.1

/-- The key of the records. -/
theorem key (h : store.IsCompiled) : PrimaryKey.compile store.blueprint = .ok store.key :=
  (parts_of_ofBlueprint h.exists_flatten.2).2.2.2.1

/-- Its declared levels are no levels of other stores. -/
theorem levelsDeclared (h : store.IsCompiled) : store.blueprint.LevelsDeclared := by
  obtain ⟨name, rootName, descriptor, hflatten⟩ := h.exists_flatten.1
  exact Blueprint.levelsDeclared_of_flatten hflatten

theorem tidy (h : store.IsCompiled) : store.metadata.Tidy := by
  obtain ⟨name, rootName, descriptor, hflatten⟩ := h.exists_flatten.1
  exact Blueprint.tidy_of_flatten hflatten

/-- The procedures of a joined store are compiled from its joins. -/
theorem of_joined? (h : store.IsCompiled) {foreign : String} {procedures : JoinProcedures}
    (hjoined : store.joined? foreign = some procedures) :
    JoinProcedures.compile store.blueprint foreign = .ok procedures := by
  have hmem : procedures ∈ store.joins := List.mem_of_find?_eq_some hjoined
  have hstore : procedures.store = foreign := by simpa using List.find?_some hjoined
  obtain ⟨name, -, hcompile⟩ :=
    exists_of_forall₂_right (JoinProcedures.forall_compile h.joins) hmem
  have hname := (JoinProcedures.exists_compile hcompile (.set [])).1
  rw [← hstore, hname]
  exact hcompile

/-- A store with a join has procedures. -/
theorem exists_joined? (h : store.IsCompiled) {foreign : String} {join : Join}
    (hjoin : join ∈ store.metadata.joinsOf foreign) :
    ∃ procedures, store.joined? foreign = some procedures := by
  have hmem : foreign ∈ store.blueprint.metadata.joinedStores := by
    rw [Metadata.joinedStores, Fields.mem_keys_iff_has, Fields.has_iff]
    cases hlist : Fields.get? store.blueprint.metadata.joins foreign with
    | some list => exact ⟨list, rfl⟩
    | none =>
      replace hjoin : join ∈ (Fields.get? store.blueprint.metadata.joins foreign).getD [] := hjoin
      rw [hlist] at hjoin
      cases hjoin
  obtain ⟨front, back, hsplit⟩ := List.append_of_mem hmem
  have hcompile := JoinProcedures.forall_compile h.joins
  rw [hsplit] at hcompile
  obtain ⟨before, rest, hjoins, -, hrest⟩ := exists_append_of_forall₂ hcompile
  cases hrest with
  | @cons _ procedures _ after hown hafter =>
    rw [← Option.isSome_iff_exists, joined?, List.find?_isSome]
    refine ⟨procedures, hjoins ▸ List.mem_append_right _ List.mem_cons_self, ?_⟩
    exact decide_eq_true (JoinProcedures.exists_compile hown (.set [])).1

end IsCompiled

end Store

end NestedRecord
