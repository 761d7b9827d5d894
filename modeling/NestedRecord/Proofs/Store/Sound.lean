import NestedRecord.Proofs.Graph.Finding
import NestedRecord.Proofs.Procedure.Compiling
import NestedRecord.Proofs.Store.Compiled

/-!
# What can go wrong when a store is compiled

A descriptor may be refused, and a path that is written by hand may lead nowhere. Nothing else goes
wrong: the parts of a store fit together.

* `Fault.isBuild` tells the faults of parts that do not fit together. `isBuild_of_compile` and
  `isBuild_of_filter`: there are none.
* `Metadata.Blames` are the faults that a descriptor with plain names may lead to once it has been
  flattened, `Blueprint.Compilable` is what it is compiled into in any case.
* `Store.compile_faults` is the result.

Every compiler has been shown to keep to faults of its own paths, so what is left is to put the
compilers one after the other. Done with all faults allowed except those of the build, it gives the
first part; done with the paths of aggregates and references only, the second.
-/

namespace NestedRecord

/-- The fault blames the target of a local aggregate or the path of a reference. -/
def Metadata.Blames (metadata : Metadata) (fault : Fault) : Prop :=
  ∃ path rule, fault = .configuration metadata.storeName path rule ∧
    (path ∈ metadata.localAggregates.map (·.target) ∨ path ∈ Fields.keys metadata.references)

/-- What a store is compiled into, whatever becomes of its local aggregates and references. -/
structure Blueprint.Compilable (blueprint : Blueprint) : Prop where
  key : ∃ key, PrimaryKey.compile blueprint = .ok key
  computeds : ∃ program, ComputedFields.compile blueprint = .ok program
  joins : ∃ procedures, JoinProcedures.compileAll blueprint = .ok procedures
  cloner : ∃ cloner, Cloner.compile blueprint = .ok cloner

namespace Blueprint

variable {blueprint : Blueprint} {q : Fault → Prop} {name rootName : String}
  {descriptor : Descriptor}

/-- A path that cannot be looked up is no fault of the build. -/
theorem excuses_isBuild (blueprint : Blueprint) (path : String) :
    blueprint.Excuses (·.isBuild = false) path := fun _ => rfl

/-- What is flattened with plain names can be compiled up to aggregates and references. -/
theorem compilable_of_flatten
    (hflatten : (flatten name rootName descriptor).1 = .ok blueprint.flattened)
    (hplain : blueprint.flattened.PlainNames) : blueprint.Compilable := by
  obtain ⟨s, hfinished⟩ := exists_finished hflatten hplain
  have hresolves : blueprint.Resolves fun _ => False := hfinished.resolves
  exact ⟨(PrimaryKey.within_compile hresolves).exists_ok,
    (ComputedFields.within_compile hflatten hresolves).exists_ok,
    (JoinProcedures.within_compileAll hflatten hresolves).exists_ok,
    (Cloner.within_compile hflatten).exists_ok⟩

end Blueprint

namespace Store

variable {blueprint : Blueprint} {q : Fault → Prop} {name rootName : String}
  {descriptor : Descriptor} {store : Store} {fault : Fault}

/-- The compilers of a store one after the other. -/
theorem within_ofBlueprint
    (hflatten : (flatten name rootName descriptor).1 = .ok blueprint.flattened)
    (h : blueprint.Resolves q)
    (haggregates : ∀ aggregate ∈ blueprint.metadata.localAggregates,
      blueprint.Excuses q aggregate.target)
    (hreferences : ∀ path ∈ Fields.keys blueprint.metadata.references, blueprint.Excuses q path) :
    Except.Within q (fun _ => True) (ofBlueprint blueprint) := by
  unfold ofBlueprint
  refine (PrimaryKey.within_compile h).bind fun _ _ => ?_
  refine (Recompute.within_compile hflatten haggregates).bind fun _ _ => ?_
  refine (ComputedFields.within_compile hflatten h).bind fun _ _ => ?_
  refine Except.Within.bind (Except.Within.mapM fun entry hentry => ?_) fun _ _ => ?_
  · exact (Reference.within_compile hflatten
      (hreferences entry.1 (List.mem_map_of_mem hentry))).bind fun _ _ => trivial
  refine (JoinProcedures.within_compileAll hflatten h).bind fun _ _ => ?_
  exact (Cloner.within_compile hflatten).bind fun _ _ => trivial

/-- A fault of a compilation is that of the walk over the descriptor or of a compiler. -/
theorem fault_of_compile {config : Config} (h : (compile config name descriptor).1 = .error fault) :
    (flatten name config.rootName descriptor).1 = .error fault ∨
      ∃ flattened, (flatten name config.rootName descriptor).1 = .ok flattened ∧
        ofBlueprint { flattened, config } = .error fault := by
  unfold compile at h
  rcases hflatten : flatten name config.rootName descriptor with ⟨outcome, journal⟩
  rw [hflatten] at h
  cases outcome with
  | error other =>
    cases h
    exact .inl rfl
  | ok flattened =>
    refine .inr ⟨flattened, rfl, ?_⟩
    cases hstore : ofBlueprint { flattened, config } with
    | error other =>
      simp only [hstore] at h
      exact h
    | ok store =>
      simp only [hstore] at h
      cases h

/-- No fault of a compilation is one of the build. -/
theorem isBuild_of_compile {config : Config}
    (h : (compile config name descriptor).1 = .error fault) : fault.isBuild = false := by
  rcases fault_of_compile h with hrefused | ⟨flattened, hflatten, hstore⟩
  · exact isBuild_of_flatten hrefused
  · have hexcuses := Blueprint.excuses_isBuild { flattened, config }
    exact (within_ofBlueprint hflatten (Blueprint.resolves_of_excuses hexcuses)
      (fun _ _ => hexcuses _) fun _ _ => hexcuses _).error hstore

theorem isBuild_of_filter (hstore : store.IsCompiled) {declaration : FilterDeclaration}
    (h : store.filter declaration = .error fault) : fault.isBuild = false := by
  obtain ⟨name, rootName, descriptor, hflatten⟩ := hstore.exists_flatten.1
  exact (Filter.within_compile hflatten (Blueprint.excuses_isBuild store.blueprint _)).error h

/-- Once a descriptor with plain names has been flattened, only its local aggregates and references
are blamed. -/
theorem blames_of_compile {config : Config} {flattened : Flattened}
    (hflatten : (flatten name config.rootName descriptor).1 = .ok flattened)
    (hplain : flattened.PlainNames) (h : (compile config name descriptor).1 = .error fault) :
    flattened.metadata.Blames fault := by
  rcases fault_of_compile h with hrefused | ⟨other, hother, hstore⟩
  · cases hflatten.symm.trans hrefused
  · obtain rfl := Except.ok.inj (hflatten.symm.trans hother)
    obtain ⟨s, hfinished⟩ : ∃ s, Blueprint.Finished { flattened, config } s :=
      Blueprint.exists_finished hflatten hplain
    exact (within_ofBlueprint hflatten hfinished.resolves
      (fun aggregate haggregate rule =>
        ⟨aggregate.target, rule, rfl, .inl (List.mem_map_of_mem haggregate)⟩)
      fun path hpath rule => ⟨path, rule, rfl, .inr hpath⟩).error hstore

/-- The parts of a store always fit together, and so do those of a filter. A descriptor with plain
names that has been flattened fails to compile only because of a local aggregate or a reference. -/
theorem compile_faults (config : Config) (name : String) (descriptor : Descriptor) :
    (∀ fault, (flatten name config.rootName descriptor).1 = .error fault →
      fault.isBuild = false) ∧
    (∀ fault, (compile config name descriptor).1 = .error fault → fault.isBuild = false) ∧
    (∀ store, (compile config name descriptor).1 = .ok store →
      ∀ declaration fault, store.filter declaration = .error fault → fault.isBuild = false) ∧
    ∀ flattened, (flatten name config.rootName descriptor).1 = .ok flattened →
      flattened.PlainNames → Blueprint.Compilable { flattened, config } ∧
        ∀ fault, (compile config name descriptor).1 = .error fault →
          flattened.metadata.Blames fault := by
  refine ⟨fun fault h => isBuild_of_flatten h, fun fault h => isBuild_of_compile h,
    fun store hstore declaration fault h => ?_, fun flattened hflatten hplain => ⟨?_, ?_⟩⟩
  · exact isBuild_of_filter ⟨config, name, descriptor, hstore⟩ h
  · exact Blueprint.compilable_of_flatten hflatten hplain
  · exact fun fault h => blames_of_compile hflatten hplain h

/-- Carts with a total over one of the attributes of their items. -/
def cartsSumming (source : String) : Descriptor :=
  .mk [("total", .tuple [.word "number", .word "sum", .word source]),
    ("items", .tuple [.word "array", .nested (.mk
      [("number", .tuple [.word "int", .word "<<number>>"]),
       ("price", .tuple [.word "number"])])])]

/-- A filter on the items as a whole. -/
def itemsFilter : FilterDeclaration :=
  { source := "orders", sourceAttribute := "price", localAttribute := "items", operator := .eq }

/-- Carts whose total is no tuple are refused, those with a misspelt source fail because of the
total, and the others have no filter on their items. -/
theorem compile_faults_carts :
    (∃ fault, (flatten "carts" "main" (.mk [("total", .bare "number")])).1 = .error fault ∧
      fault.isBuild = false) ∧
    (∃ flattened fault rule, (flatten "carts" "main" (cartsSumming "items.prize")).1 =
        .ok flattened ∧ Blueprint.Compilable { flattened, config := {} } ∧
      (compile {} "carts" (cartsSumming "items.prize")).1 = .error fault ∧
        fault.isBuild = false ∧ fault = .configuration "carts" "total" rule) ∧
    ∃ store fault, (compile {} "carts" (cartsSumming "items.price")).1 = .ok store ∧
      store.filter itemsFilter = .error fault ∧ fault.isBuild = false := by
  refine ⟨?_, ?_, ?_⟩
  · have hnone : (flatten "carts" "main" (.mk [("total", .bare "number")])).1.toOption.isNone := by
      decide +kernel
    obtain ⟨fault, hfault⟩ := Except.exists_error_of_toOption hnone
    exact ⟨fault, hfault, (compile_faults {} "carts" _).1 fault hfault⟩
  · have hparts : (flatten "carts" "main" (cartsSumming "items.prize")).1.toOption.map
        (fun flattened => (decide flattened.PlainNames, flattened.metadata.storeName,
          flattened.metadata.localAggregates.map (·.target),
          Fields.keys flattened.metadata.references)) = some (true, "carts", ["total"], []) := by
      decide +kernel
    have hnone : (compile {} "carts" (cartsSumming "items.prize")).1.toOption.isNone := by
      decide +kernel
    obtain ⟨flattened, hflattened, hparts⟩ := Option.map_eq_some_iff.mp hparts
    simp only [Prod.mk.injEq, decide_eq_true_eq] at hparts
    obtain ⟨hplain, hname, htargets, hreferences⟩ := hparts
    have hflatten := Except.eq_ok_of_toOption hflattened
    obtain ⟨fault, hfault⟩ := Except.exists_error_of_toOption hnone
    obtain ⟨-, hbuild, -, hfaults⟩ := compile_faults {} "carts" (cartsSumming "items.prize")
    obtain ⟨hcompilable, hblames⟩ := hfaults flattened hflatten hplain
    obtain ⟨path, rule, heq, hpath⟩ := hblames fault hfault
    rw [htargets, hreferences, List.mem_singleton] at hpath
    obtain rfl := hpath.resolve_right List.not_mem_nil
    exact ⟨flattened, fault, rule, hflatten, hcompilable, hfault, hbuild fault hfault,
      by rw [heq, hname]⟩
  · have hnone : ((compiled "carts" (cartsSumming "items.price") (by decide +kernel)).filter
        itemsFilter).toOption.isNone := by
      decide +kernel
    obtain ⟨fault, hfault⟩ := Except.exists_error_of_toOption hnone
    have hstore := compile_compiled "carts" (cartsSumming "items.price") (by decide +kernel)
    exact ⟨_, fault, hstore, hfault,
      (compile_faults {} "carts" _).2.2.1 _ hstore itemsFilter fault hfault⟩

end Store

end NestedRecord
