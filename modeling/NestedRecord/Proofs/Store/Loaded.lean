import Mathlib.Data.List.Basic
import NestedRecord.Proofs.Dotted
import NestedRecord.Proofs.Graph.Metadata
import NestedRecord.Proofs.Sorting
import NestedRecord.Store.Loading

/-!
# What a load makes of a directory

The names in a directory are distinct, so no file registers a store under a name that another
file asks for. Each file can therefore be judged on its own, by what the registry held before
the load.

- `DescriptorFile.outcome` is that judgement: the store of a file, or the fault that keeps it out.
- `mem_descriptorFiles` and `ascending_descriptorFiles` say which files are loaded, and in which
  order.
- `Loading.run_skip` and `Loading.run_abort` give both kinds of load in terms of the judgements.
- `Registry.loads_agree` compares them, `Registry.load_abort_failed` says what a load leaves
  behind that is broken off.

A load is a loop over the files that changes a registry, and its invariant is that what is left of
the files is judged by the registry as it was at the start. With that, passing faulty files over is
a filter of the files, and breaking the load off is the longest beginning without a faulty one; the
two are compared as lists, without going through the loop again.
-/

namespace NestedRecord

/-! ## The files -/

namespace DescriptorFile

/-- An extension stands behind the last point, and something in front of it. -/
theorem splitExtension?_eq_some {name stem extension : List Char} :
    splitExtension? name = some (stem, extension) ↔
      name = stem ++ '.' :: extension ∧ stem ≠ [] ∧ '.' ∉ extension := by
  unfold splitExtension?
  constructor
  · intro h
    split at h
    · next back c front hsplit =>
      obtain ⟨hname, hback⟩ := splitFirst?_eq_some.mp hsplit
      obtain ⟨rfl, rfl⟩ : (c :: front).reverse = stem ∧ back.reverse = extension := by
        simpa using h
      refine ⟨?_, by simp, by simpa using hback⟩
      simpa using congrArg List.reverse hname
    · cases h
  · rintro ⟨rfl, hstem, hextension⟩
    obtain ⟨c, front, hfront⟩ : ∃ c front, stem.reverse = c :: front :=
      List.exists_cons_of_ne_nil (by simpa using hstem)
    -- the name is cut from its end on, so at the first point of the reversed one
    have hsplit : splitFirst? '.' (stem ++ '.' :: extension).reverse =
        some (extension.reverse, c :: front) := by
      rw [splitFirst?_eq_some]
      exact ⟨by simp [hfront], by simpa using hextension⟩
    have hback : (c :: front).reverse = stem := by rw [← hfront, List.reverse_reverse]
    rw [hsplit]
    simp only [hback, List.reverse_reverse]

/-- The descriptor files are the files with `.json` behind a name. -/
theorem ofEntry?_eq_some {directory : String} {entry : String × FileNode}
    {source : DescriptorFile} :
    ofEntry? directory entry = some source ↔
      entry.2.isFile = true ∧ source.store ≠ "" ∧ entry.1 = source.store ++ ".json" ∧
        source.path = pathBelow directory entry.1 ∧ source.file = entry.2 := by
  obtain ⟨name, file⟩ := entry
  obtain ⟨store, path, node⟩ := source
  have hsplit : splitExtension? name.toList = some (store.toList, "json".toList) ↔
      name = store ++ ".json" ∧ store ≠ "" := by
    rw [splitExtension?_eq_some]
    have hname : name.toList = store.toList ++ '.' :: "json".toList ↔ name = store ++ ".json" := by
      rw [← String.toList_inj, String.toList_append]
      rfl
    have hpoint : '.' ∉ "json".toList := by decide
    rw [hname, Ne, String.toList_eq_nil_iff]
    exact ⟨fun ⟨hname, hstore, _⟩ => ⟨hname, hstore⟩,
      fun ⟨hname, hstore⟩ => ⟨hname, hstore, hpoint⟩⟩
  unfold ofEntry?
  constructor
  · intro h
    split at h
    · next stem extension hname =>
      split at h
      · next hfile =>
        obtain ⟨rfl, hfile⟩ : extension = "json".toList ∧ file.isFile = true := by
          simpa using hfile
        obtain ⟨rfl, rfl, rfl⟩ := DescriptorFile.mk.inj (Option.some.inj h)
        rw [String.toList_ofList] at hsplit
        obtain ⟨hname, hstore⟩ := hsplit.mp hname
        exact ⟨hfile, hstore, hname, rfl, rfl⟩
      · cases h
    · cases h
  · rintro ⟨hfile, hstore, hname, hpath, hnode⟩
    have hsome := hsplit.mpr ⟨hname, hstore⟩
    simp only at hfile hpath hnode
    simp [hsome, hfile, hpath, hnode]

end DescriptorFile

variable {directory : String} {entries : List (String × FileNode)}

/-- The descriptor files of a directory are its files with `.json` behind a name. -/
theorem mem_descriptorFiles {source : DescriptorFile} :
    source ∈ descriptorFiles directory entries ↔
      ∃ entry ∈ entries, entry.2.isFile = true ∧ source.store ≠ "" ∧
        entry.1 = source.store ++ ".json" ∧ source.path = pathBelow directory entry.1 ∧
          source.file = entry.2 := by
  simp only [descriptorFiles, List.mem_filterMap, (stableSort_perm _ entries).mem_iff,
    DescriptorFile.ofEntry?_eq_some]

/-- The files are loaded in order of their names. -/
theorem ascending_descriptorFiles (hnodup : (entries.map (·.1)).Nodup) :
    (descriptorFiles directory entries).Pairwise fun source source' =>
      source.store ++ ".json" < source'.store ++ ".json" := by
  have htrans (a b c : String × FileNode) (hab : textLe a.1 b.1 = true)
      (hbc : textLe b.1 c.1 = true) : textLe a.1 c.1 = true :=
    decide_eq_true (String.le_trans (of_decide_eq_true hab) (of_decide_eq_true hbc))
  have htotal (a b : String × FileNode) (h : textLe a.1 b.1 = false) : textLe b.1 a.1 = true :=
    decide_eq_true ((String.le_total a.1 b.1).resolve_left (of_decide_eq_false h))
  have hsorted := pairwise_stableSort htrans htotal entries
  have hdistinct : (stableSort (fun a b => textLe a.1 b.1) entries).Pairwise
      fun a b => a.1 ≠ b.1 :=
    List.pairwise_map.mp ((((stableSort_perm _ entries).map _).nodup_iff).mpr hnodup)
  unfold descriptorFiles
  refine List.Pairwise.filterMap _ ?_ (hsorted.and hdistinct)
  rintro entry entry' ⟨hle, hne⟩ source hsource source' hsource'
  obtain ⟨-, -, hname, -, -⟩ := DescriptorFile.ofEntry?_eq_some.mp hsource
  obtain ⟨-, -, hname', -, -⟩ := DescriptorFile.ofEntry?_eq_some.mp hsource'
  rw [← hname, ← hname']
  have hle : entry.1 ≤ entry'.1 := of_decide_eq_true hle
  exact String.not_le.mp fun hback => hne (String.le_antisymm hle hback)

theorem nodup_stores_descriptorFiles (directory : String) (hnodup : (entries.map (·.1)).Nodup) :
    ((descriptorFiles directory entries).map (·.store)).Nodup := by
  refine List.pairwise_map.mpr ((ascending_descriptorFiles hnodup).imp ?_)
  intro source source' hlt heq
  rw [heq] at hlt
  exact String.lt_irrefl _ hlt

/-! ## One file -/

namespace DescriptorFile

/-- What a file gives a registry that loads nothing else: its store, or why there is none. -/
def outcome (registry : Registry) (source : DescriptorFile) : Except Fault Store :=
  match source.read with
  | .error fault => .error fault
  | .ok descriptor =>
    if registry.isRegistered source.store then .error (.alreadyRegistered source.store)
    else (Store.compile registry.config source.store descriptor).1

/-- Whether a file can be loaded. -/
def isLoadable (registry : Registry) (source : DescriptorFile) : Bool :=
  (source.outcome registry).isOk

/-- The store of a file under its name, if the file can be loaded. -/
def stored? (registry : Registry) (source : DescriptorFile) : Option (String × Store) :=
  match source.outcome registry with
  | .ok store => some (source.store, store)
  | .error _ => none

/-- The fault of a file, if it cannot be loaded. -/
def fault? (registry : Registry) (source : DescriptorFile) : Option Fault :=
  match source.outcome registry with
  | .ok _ => none
  | .error fault => some fault

variable {registry registry' : Registry} {source : DescriptorFile}

/-- A judgement depends on the configuration and on whether the name is taken. -/
theorem outcome_congr (hconfig : registry.config = registry'.config)
    (hname : registry.isRegistered source.store = registry'.isRegistered source.store) :
    source.outcome registry = source.outcome registry' := by
  unfold outcome
  rw [hconfig, hname]

/-- A file that is loaded holds a descriptor, and its store is what this compiles to. -/
theorem outcome_eq_ok {store : Store} (h : source.outcome registry = .ok store) :
    registry.isRegistered source.store = false ∧
      ∃ descriptor, source.read = .ok descriptor ∧
        (Store.compile registry.config source.store descriptor).1 = .ok store := by
  unfold outcome at h
  split at h
  · cases h
  · next descriptor hread =>
    split at h
    · cases h
    · next hnew => exact ⟨Bool.eq_false_iff.mpr hnew, descriptor, hread, h⟩

theorem isLoadable_iff :
    source.isLoadable registry = true ↔ ∃ store, source.outcome registry = .ok store := by
  unfold isLoadable
  cases source.outcome registry <;> simp [Except.isOk, Except.toBool]

/-- A file whose name is taken is not loaded, whatever it holds. -/
theorem isLoadable_of_isRegistered (h : registry.isRegistered source.store = true) :
    source.isLoadable registry = false := by
  rw [Bool.eq_false_iff]
  intro hloads
  obtain ⟨store, houtcome⟩ := isLoadable_iff.mp hloads
  exact absurd h (Bool.eq_false_iff.mp (outcome_eq_ok houtcome).1)

/-- It has no fault exactly then. -/
theorem fault?_eq_none : source.fault? registry = none ↔ source.isLoadable registry = true := by
  unfold fault? isLoadable
  cases source.outcome registry <;> simp [Except.isOk, Except.toBool]

/-- A file that can be loaded brings its store, under its name. -/
theorem stored?_eq_some {entry : String × Store} :
    source.stored? registry = some entry ↔
      source.outcome registry = .ok entry.2 ∧ source.store = entry.1 := by
  obtain ⟨name, store⟩ := entry
  unfold stored?
  cases source.outcome registry <;> simp [and_comm]

/-- The names of the entries of files are those of the files that can be loaded. -/
theorem keys_entries (registry : Registry) (files : List DescriptorFile) :
    Fields.keys (files.filterMap (stored? registry)) =
      (files.filter (isLoadable registry)).map (·.store) := by
  induction files with
  | nil => rfl
  | cons source rest ih =>
    unfold Fields.keys at ih ⊢
    cases houtcome : source.outcome registry with
    | ok store =>
      have hloads : source.isLoadable registry = true := by rw [isLoadable, houtcome]; rfl
      have hentry : source.stored? registry = some (source.store, store) := by
        rw [stored?, houtcome]
      rw [List.filterMap_cons_some hentry, List.filter_cons_of_pos hloads, List.map_cons,
        List.map_cons, ih]
    | error fault =>
      have hloads : ¬ source.isLoadable registry = true := by
        rw [isLoadable, houtcome]
        exact Bool.false_ne_true
      have hentry : source.stored? registry = none := by rw [stored?, houtcome]
      rw [List.filterMap_cons_none hentry, List.filter_cons_of_neg hloads, ih]

end DescriptorFile

/-! ## A run over the files -/

namespace Loading

variable {registry : Registry} {files rest : List DescriptorFile} {source : DescriptorFile}
  {loading : Loading}

/-- What registering a file gives is its judgement by the registry so far. -/
theorem register_fst (loading : Loading) (source : DescriptorFile) :
    (loading.register source).1 = (source.outcome loading.registry).map fun store =>
      { loading.registry with stores := loading.registry.stores ++ [(source.store, store)] } := by
  unfold register DescriptorFile.outcome
  cases source.read with
  | error fault => rfl
  | ok descriptor =>
    unfold Registry.register
    by_cases hname : loading.registry.isRegistered source.store = true
    · simp only [if_pos hname]
      rfl
    · simp only [if_neg hname]

/-- The load after a file whose store has been registered. -/
def accept (loading : Loading) (source : DescriptorFile) (store : Store) : Loading :=
  { loading with
    registry :=
      { loading.registry with stores := loading.registry.stores ++ [(source.store, store)] }
    loaded := loading.loaded ++ [source.store]
    journal := loading.journal ++ (loading.register source).2 }

/-- The load after a file that has been passed over. -/
def passOver (loading : Loading) (source : DescriptorFile) (fault : Fault) : Loading :=
  { loading with
    skipped := loading.skipped ++ [fault]
    journal := loading.journal ++ (loading.register source).2 ++ [skipNotice source fault] }

/-- A file without a fault is accepted by both policies. -/
theorem run_cons_ok (policy : LoadPolicy) {store : Store}
    (h : source.outcome loading.registry = .ok store) :
    run policy (source :: rest) loading = run policy rest (loading.accept source store) := by
  have hregister := register_fst loading source
  rw [h] at hregister
  rw [run]
  simp only [hregister]
  rfl

/-- A faulty file is passed over by the one. -/
theorem run_skip_cons_error {fault : Fault} (h : source.outcome loading.registry = .error fault) :
    run .skip (source :: rest) loading = run .skip rest (loading.passOver source fault) := by
  have hregister := register_fst loading source
  rw [h] at hregister
  rw [run]
  simp only [hregister]
  rfl

/-- And breaks the load off for the other, which keeps what has been loaded. -/
theorem run_abort_cons_error {fault : Fault} (h : source.outcome loading.registry = .error fault) :
    run .abort (source :: rest) loading =
      ({ loading with journal := loading.journal ++ (loading.register source).2 }, some fault) := by
  have hregister := register_fst loading source
  rw [h] at hregister
  rw [run]
  simp only [hregister]
  rfl

/-- The files of a load are judged as they were at the start. -/
def Judges (loading : Loading) (registry : Registry) (files : List DescriptorFile) : Prop :=
  ∀ source ∈ files, source.outcome loading.registry = source.outcome registry

theorem Judges.of_cons (h : loading.Judges registry (source :: rest)) :
    loading.Judges registry rest :=
  fun other hother => h other (List.mem_cons_of_mem _ hother)

/-- A store that is registered does not count for files of other names. -/
theorem Judges.accept (h : loading.Judges registry (source :: rest))
    (hnodup : ((source :: rest).map (·.store)).Nodup) (store : Store) :
    (loading.accept source store).Judges registry rest := by
  intro other hother
  have hnew : source.store ∉ rest.map (·.store) := (List.nodup_cons.mp hnodup).1
  have hne : source.store ≠ other.store := fun heq => hnew (heq ▸ List.mem_map_of_mem hother)
  have hnames : (loading.accept source store).registry.isRegistered other.store =
      loading.registry.isRegistered other.store := by
    simp [Loading.accept, Registry.isRegistered, Fields.has, Fields.get?_append, Fields.get?, hne]
  rw [← h.of_cons other hother]
  exact DescriptorFile.outcome_congr rfl hnames

/-- Nothing is registered for a file that is passed over. -/
theorem Judges.passOver (h : loading.Judges registry (source :: rest)) (fault : Fault) :
    (loading.passOver source fault).Judges registry rest :=
  h.of_cons

/-- What a load makes of its files when faulty ones are passed over. -/
structure Skips (registry : Registry) (files : List DescriptorFile) (loading final : Loading) :
    Prop where
  registry_eq : final.registry =
    { loading.registry with
      stores := loading.registry.stores ++ files.filterMap (DescriptorFile.stored? registry) }
  loaded_eq : final.loaded =
    loading.loaded ++ (files.filter (DescriptorFile.isLoadable registry)).map (·.store)
  skipped_eq : final.skipped = loading.skipped ++ files.filterMap (DescriptorFile.fault? registry)

/-- A file that is loaded comes first in what a load makes of the files. -/
theorem Skips.of_accept {store : Store} {final : Loading}
    (houtcome : source.outcome registry = .ok store)
    (h : Skips registry rest (loading.accept source store) final) :
    Skips registry (source :: rest) loading final := by
  have hentry : source.stored? registry = some (source.store, store) := by
    rw [DescriptorFile.stored?, houtcome]
  have hfault : source.fault? registry = none := by rw [DescriptorFile.fault?, houtcome]
  refine ⟨?_, ?_, ?_⟩
  · rw [h.registry_eq, List.filterMap_cons_some hentry]
    simp [accept]
  · rw [h.loaded_eq, List.filter_cons_of_pos (DescriptorFile.fault?_eq_none.mp hfault)]
    simp [accept]
  · rw [h.skipped_eq, List.filterMap_cons_none hfault]
    rfl

/-- A faulty file only adds its fault. -/
theorem Skips.of_passOver {fault : Fault} {final : Loading}
    (houtcome : source.outcome registry = .error fault)
    (h : Skips registry rest (loading.passOver source fault) final) :
    Skips registry (source :: rest) loading final := by
  have hentry : source.stored? registry = none := by rw [DescriptorFile.stored?, houtcome]
  have hfault : source.fault? registry = some fault := by rw [DescriptorFile.fault?, houtcome]
  have hloads : ¬ source.isLoadable registry = true := by
    rw [← DescriptorFile.fault?_eq_none, hfault]
    exact Option.some_ne_none fault
  refine ⟨?_, ?_, ?_⟩
  · rw [h.registry_eq, List.filterMap_cons_none hentry]
    rfl
  · rw [h.loaded_eq, List.filter_cons_of_neg hloads]
    rfl
  · rw [h.skipped_eq, List.filterMap_cons_some hfault]
    simp [passOver]

/-- A run that passes faulty files over gets to the end of the files. -/
theorem run_skip (hnodup : (files.map (·.store)).Nodup) (hjudges : loading.Judges registry files) :
    (run .skip files loading).2 = none ∧
      Skips registry files loading (run .skip files loading).1 := by
  induction files generalizing loading with
  | nil => exact ⟨rfl, by simp [run], by simp [run], by simp [run]⟩
  | cons source rest ih =>
    have hsource := hjudges source List.mem_cons_self
    have hrest := (List.nodup_cons.mp hnodup).2
    cases houtcome : source.outcome registry with
    | ok store =>
      obtain ⟨hend, hskips⟩ := ih hrest (hjudges.accept hnodup store)
      rw [run_cons_ok .skip (hsource.trans houtcome)]
      exact ⟨hend, hskips.of_accept houtcome⟩
    | error fault =>
      obtain ⟨hend, hskips⟩ := ih hrest (hjudges.passOver fault)
      rw [run_skip_cons_error (hsource.trans houtcome)]
      exact ⟨hend, hskips.of_passOver houtcome⟩

/-- Without a faulty file it makes no difference what would be done about one. -/
theorem run_abort_of_loadable (hnodup : (files.map (·.store)).Nodup)
    (hjudges : loading.Judges registry files)
    (hloads : ∀ source ∈ files, source.isLoadable registry = true) :
    run .abort files loading = run .skip files loading := by
  induction files generalizing loading with
  | nil => rfl
  | cons source rest ih =>
    have hsource := hjudges source List.mem_cons_self
    obtain ⟨store, houtcome⟩ :=
      DescriptorFile.isLoadable_iff.mp (hloads source List.mem_cons_self)
    rw [run_cons_ok .abort (hsource.trans houtcome), run_cons_ok .skip (hsource.trans houtcome)]
    exact ih (List.nodup_cons.mp hnodup).2 (hjudges.accept hnodup store)
      fun other hother => hloads other (List.mem_cons_of_mem _ hother)

/-- A run that is broken off at a faulty file has loaded the files before it. -/
theorem run_abort_append {front back : List DescriptorFile} {fault : Fault}
    (hnodup : ((front ++ source :: back).map (·.store)).Nodup)
    (hjudges : loading.Judges registry (front ++ source :: back))
    (hloads : ∀ other ∈ front, other.isLoadable registry = true)
    (hfault : source.outcome registry = .error fault) :
    (run .abort (front ++ source :: back) loading).2 = some fault ∧
      Skips registry front loading (run .abort (front ++ source :: back) loading).1 := by
  induction front generalizing loading with
  | nil =>
    have hsource := hjudges source List.mem_cons_self
    rw [List.nil_append, run_abort_cons_error (hsource.trans hfault)]
    exact ⟨rfl, by simp, by simp, by simp⟩
  | cons first front ih =>
    have hfirst := hjudges first List.mem_cons_self
    obtain ⟨store, houtcome⟩ := DescriptorFile.isLoadable_iff.mp (hloads first List.mem_cons_self)
    obtain ⟨hend, hskips⟩ := ih (List.nodup_cons.mp hnodup).2
      (hjudges.accept hnodup store)
      fun other hother => hloads other (List.mem_cons_of_mem _ hother)
    rw [List.cons_append, run_cons_ok .abort (hfirst.trans houtcome)]
    exact ⟨hend, hskips.of_accept houtcome⟩

end Loading

/-! ## Both kinds of load -/

/-- A load is broken off at a faulty file: the files before it have been loaded. -/
structure BreaksOff (registry : Registry) (front : List DescriptorFile) (source : DescriptorFile)
    (fault : Fault) (final : Loading) : Prop where
  loadable : ∀ other ∈ front, other.isLoadable registry = true
  faulty : source.outcome registry = .error fault
  registry_eq : final.registry =
    { registry with
      stores := registry.stores ++ front.filterMap (DescriptorFile.stored? registry) }
  loaded_eq : final.loaded = front.map (·.store)

section BreaksOff

variable {registry : Registry} {front : List DescriptorFile} {source : DescriptorFile}
  {fault : Fault} {final : Loading}

theorem BreaksOff.fault?_eq_some (h : BreaksOff registry front source fault final) :
    source.fault? registry = some fault := by
  rw [DescriptorFile.fault?, h.faulty]

theorem BreaksOff.names_eq (h : BreaksOff registry front source fault final) :
    final.registry.names = registry.names ++ final.loaded := by
  have hkeys := DescriptorFile.keys_entries registry front
  rw [List.filter_eq_self.mpr h.loadable, ← h.loaded_eq] at hkeys
  rw [Registry.names, h.registry_eq, ← hkeys, Fields.keys, List.map_append]
  rfl

/-- The registry is as before only if the first file is the faulty one. -/
theorem BreaksOff.registry_eq_iff (h : BreaksOff registry front source fault final) :
    final.registry = registry ↔ final.loaded = [] := by
  constructor
  · intro heq
    have hnames := h.names_eq
    rw [heq] at hnames
    exact List.self_eq_append_right.mp hnames
  · intro hnil
    have hfront : front = [] := by
      rw [h.loaded_eq] at hnil
      exact List.map_eq_nil_iff.mp hnil
    rw [h.registry_eq, hfront]
    simp

/-- The fault that breaks a load off is the first of all files. -/
theorem BreaksOff.faults_eq (h : BreaksOff registry front source fault final)
    (back : List DescriptorFile) :
    (front ++ source :: back).filterMap (DescriptorFile.fault? registry) =
      fault :: back.filterMap (DescriptorFile.fault? registry) := by
  have hfront : front.filterMap (DescriptorFile.fault? registry) = [] :=
    List.filterMap_eq_nil_iff.mpr fun other hother =>
      DescriptorFile.fault?_eq_none.mpr (h.loadable other hother)
  rw [List.filterMap_append, hfront, List.nil_append, List.filterMap_cons_some h.fault?_eq_some]

/-- What has been loaded when a load is broken off is the beginning of what is loaded when faulty
files are passed over. -/
theorem BreaksOff.isPrefix_of_skips (h : BreaksOff registry front source fault final)
    {back : List DescriptorFile} {skipping : Loading}
    (hskips : Loading.Skips registry (front ++ source :: back) { registry } skipping) :
    final.loaded <+: skipping.loaded ∧ final.registry.stores <+: skipping.registry.stores := by
  constructor
  · rw [h.loaded_eq, hskips.loaded_eq, List.filter_append, List.filter_eq_self.mpr h.loadable,
      List.map_append]
    exact List.prefix_append _ _
  · rw [h.registry_eq, hskips.registry_eq, List.filterMap_append, ← List.append_assoc]
    exact List.prefix_append _ _

end BreaksOff

/-- The load that passes faulty files over and the one that is broken off at the first. -/
structure LoadsAgree (registry : Registry) (files : List DescriptorFile)
    (skipping aborting : Loading × Option Fault) : Prop where
  completes : skipping.2 = none
  /-- every file adds its name or its fault, in order -/
  loaded_eq : skipping.1.loaded =
    (files.filter (DescriptorFile.isLoadable registry)).map (·.store)
  skipped_eq : skipping.1.skipped = files.filterMap (DescriptorFile.fault? registry)
  nodup_loaded : skipping.1.loaded.Nodup
  fresh : ∀ name ∈ skipping.1.loaded, registry.isRegistered name = false
  /-- a store is what its own file compiles to -/
  compiled : ∀ source ∈ files, source.store ∈ skipping.1.loaded →
    ∃ descriptor store, source.read = .ok descriptor ∧
      (Store.compile registry.config source.store descriptor).1 = .ok store ∧
        skipping.1.registry.get? source.store = some store
  names_eq : skipping.1.registry.names = registry.names ++ skipping.1.loaded
  config_eq : skipping.1.registry.config = registry.config
  kept : ∀ name, registry.isRegistered name = true →
    skipping.1.registry.get? name = registry.get? name ∧
      aborting.1.registry.get? name = registry.get? name
  succeeds_iff : aborting.2 = none ↔ skipping.1.skipped = []
  same : skipping.1.skipped = [] → aborting = skipping
  /-- the first fault breaks the load off, with what has been loaded before it -/
  stops : ∀ fault, aborting.2 = some fault →
    skipping.1.skipped.head? = some fault ∧
      ∃ front source back, files = front ++ source :: back ∧
        BreaksOff registry front source fault aborting.1 ∧
          aborting.1.loaded <+: skipping.1.loaded ∧
            aborting.1.registry.stores <+: skipping.1.registry.stores

namespace Registry

variable {registry : Registry} {files : List DescriptorFile}

/-- Nothing is passed over when every file can be loaded. -/
theorem skipped_eq_nil_iff : files.filterMap (DescriptorFile.fault? registry) = [] ↔
    ∀ source ∈ files, source.isLoadable registry = true := by
  simp only [List.filterMap_eq_nil_iff, DescriptorFile.fault?_eq_none]

/-- Entries behind those of a registry change none of its stores. -/
theorem get?_of_isRegistered {name : String} (h : registry.isRegistered name = true)
    (stores : Fields Store) :
    ({ registry with stores := registry.stores ++ stores } : Registry).get? name =
      registry.get? name := by
  have hsome : (Fields.get? registry.stores name).isSome := h
  rw [get?, Fields.get?_append, Option.or_of_isSome hsome]
  rfl

/-- Files are loaded until one of them is faulty. -/
theorem exists_faulty (h : ¬ ∀ source ∈ files, source.isLoadable registry = true) :
    ∃ front source back fault, files = front ++ source :: back ∧
      (∀ other ∈ front, other.isLoadable registry = true) ∧
        source.outcome registry = .error fault := by
  cases hfind : files.find? fun source => !source.isLoadable registry with
  | none => exact absurd (by simpa using List.find?_eq_none.mp hfind) h
  | some source =>
    obtain ⟨hfaulty, front, back, hfiles, hfront⟩ := List.find?_eq_some_iff_append.mp hfind
    cases houtcome : source.outcome registry with
    | ok store =>
      rw [DescriptorFile.isLoadable_iff.mpr ⟨store, houtcome⟩] at hfaulty
      cases hfaulty
    | error fault =>
      exact ⟨front, source, back, fault, hfiles, by simpa using hfront, houtcome⟩

/-- What is loaded when faulty files are passed over, and what is not. -/
theorem loaded_of_skips {final : Loading} (h : Loading.Skips registry files { registry } final) :
    final.loaded = (files.filter (DescriptorFile.isLoadable registry)).map (·.store) ∧
      final.skipped = files.filterMap (DescriptorFile.fault? registry) :=
  ⟨by simpa using h.loaded_eq, by simpa using h.skipped_eq⟩

/-- A store that is loaded is what the descriptor in its file compiles to. -/
theorem get?_of_skips {final : Loading} (hnodup : (files.map (·.store)).Nodup)
    (h : Loading.Skips registry files { registry } final) {source : DescriptorFile}
    (hsource : source ∈ files) (hloaded : source.store ∈ final.loaded) :
    ∃ descriptor store, source.read = .ok descriptor ∧
      (Store.compile registry.config source.store descriptor).1 = .ok store ∧
        final.registry.get? source.store = some store := by
  rw [(loaded_of_skips h).1] at hloaded
  obtain ⟨other, hother, hstore⟩ := List.mem_map.mp hloaded
  obtain ⟨hother, hloads⟩ := List.mem_filter.mp hother
  obtain rfl : other = source := List.inj_on_of_nodup_map hnodup hother hsource hstore
  obtain ⟨store, houtcome⟩ := DescriptorFile.isLoadable_iff.mp hloads
  obtain ⟨hnew, descriptor, hread, hcompile⟩ := DescriptorFile.outcome_eq_ok houtcome
  refine ⟨descriptor, store, hread, hcompile, ?_⟩
  have hnone : Fields.get? registry.stores other.store = none :=
    Option.not_isSome_iff_eq_none.mp (Bool.eq_false_iff.mp hnew)
  have hkeys : (Fields.keys (files.filterMap (DescriptorFile.stored? registry))).Nodup := by
    rw [DescriptorFile.keys_entries]
    exact (List.filter_sublist.map _).nodup hnodup
  have hentry : (other.store, store) ∈ files.filterMap (DescriptorFile.stored? registry) :=
    List.mem_filterMap.mpr ⟨other, hsource, DescriptorFile.stored?_eq_some.mpr ⟨houtcome, rfl⟩⟩
  rw [get?, h.registry_eq, Fields.get?_append, hnone, Option.none_or]
  exact Fields.get?_of_mem hkeys hentry

/-- No store of a registry is loaded. -/
theorem fresh_of_skips {final : Loading} (h : Loading.Skips registry files { registry } final)
    {name : String} (hname : name ∈ final.loaded) : registry.isRegistered name = false := by
  rw [(loaded_of_skips h).1] at hname
  obtain ⟨source, hsource, rfl⟩ := List.mem_map.mp hname
  obtain ⟨store, houtcome⟩ := DescriptorFile.isLoadable_iff.mp (List.mem_filter.mp hsource).2
  exact (DescriptorFile.outcome_eq_ok houtcome).1

section Directory

variable (registry : Registry) (directory : String) (hnodup : (entries.map (·.1)).Nodup)

include hnodup in
/-- The load of a directory that passes faulty files over. -/
theorem load_skip :
    (registry.load .skip directory (.directory entries)).2 = none ∧
      Loading.Skips registry (descriptorFiles directory entries) { registry }
        (registry.load .skip directory (.directory entries)).1 :=
  Loading.run_skip (nodup_stores_descriptorFiles directory hnodup) fun _ _ => rfl

include hnodup in
/-- The load of a directory that is broken off at the first faulty file, if there is one. -/
theorem load_abort :
    ((∀ source ∈ descriptorFiles directory entries, source.isLoadable registry = true) ∧
        registry.load .abort directory (.directory entries) =
          registry.load .skip directory (.directory entries)) ∨
      ∃ front source back fault, descriptorFiles directory entries = front ++ source :: back ∧
        (registry.load .abort directory (.directory entries)).2 = some fault ∧
          BreaksOff registry front source fault
            (registry.load .abort directory (.directory entries)).1 := by
  have hstores := nodup_stores_descriptorFiles directory hnodup
  by_cases hloads : ∀ source ∈ descriptorFiles directory entries, source.isLoadable registry = true
  · exact .inl ⟨hloads, Loading.run_abort_of_loadable hstores (fun _ _ => rfl) hloads⟩
  · obtain ⟨front, source, back, fault, hfiles, hfront, hfault⟩ := exists_faulty hloads
    rw [hfiles] at hstores
    have hjudges : Loading.Judges { registry } registry (front ++ source :: back) :=
      fun _ _ => rfl
    obtain ⟨hend, hskips⟩ := Loading.run_abort_append hstores hjudges hfront hfault
    have hload : registry.load .abort directory (.directory entries) =
        Loading.run .abort (front ++ source :: back) { registry } :=
      congrArg (Loading.run .abort · { registry }) hfiles
    rw [← hload] at hend hskips
    have hloaded := hskips.loaded_eq
    rw [List.filter_eq_self.mpr hfront] at hloaded
    exact .inr ⟨front, source, back, fault, hfiles, hend, hfront, hfault, hskips.registry_eq,
      by simpa using hloaded⟩

end Directory

/-- A directory in which not every file can be loaded. -/
def faultyMenus : List (String × FileNode) :=
  [("soup.json", .readable "\x7b \"id\": [\"int\", \"<<idSoup>>\"] \x7d"),
    ("notes.txt", .readable "ignored"), ("bread.json", .readable "\x7b \"id\": [\"int\"] \x7d"),
    ("fish.json", .readable "\x7b not json")]

/-- Loads under both policies agree: when nothing is faulty they are the same, otherwise the one
that is broken off has done what the other one does before the first faulty file. Each file is
judged by what the registry held before the load, whatever the other files hold. -/
theorem loads_agree (registry : Registry) (directory : String)
    (entries : List (String × FileNode)) (hnodup : (entries.map (·.1)).Nodup) :
    (∀ source, source ∈ descriptorFiles directory entries ↔
        ∃ entry ∈ entries, entry.2.isFile = true ∧ source.store ≠ "" ∧
          entry.1 = source.store ++ ".json" ∧ source.path = pathBelow directory entry.1 ∧
            source.file = entry.2) ∧
      (descriptorFiles directory entries).Pairwise
        (fun source source' => source.store ++ ".json" < source'.store ++ ".json") ∧
        LoadsAgree registry (descriptorFiles directory entries)
          (registry.load .skip directory (.directory entries))
          (registry.load .abort directory (.directory entries)) := by
  refine ⟨fun source => mem_descriptorFiles, ascending_descriptorFiles hnodup, ?_⟩
  obtain ⟨hend, hskips⟩ := load_skip registry directory hnodup
  have hstores := nodup_stores_descriptorFiles directory hnodup
  obtain ⟨hloaded, hskipped⟩ := loaded_of_skips hskips
  have habort := load_abort registry directory hnodup
  refine
    { completes := hend
      loaded_eq := hloaded
      skipped_eq := hskipped
      nodup_loaded := by rw [hloaded]; exact (List.filter_sublist.map _).nodup hstores
      fresh := fun name => fresh_of_skips hskips
      compiled := fun source => get?_of_skips hstores hskips
      names_eq := ?names_eq
      config_eq := by rw [hskips.registry_eq]
      kept := ?kept
      succeeds_iff := ?succeeds_iff
      same := ?same
      stops := ?stops }
  case names_eq =>
    rw [names, hskips.registry_eq, hloaded, ← DescriptorFile.keys_entries, Fields.keys,
      List.map_append]
    rfl
  case kept =>
    intro name hname
    rw [hskips.registry_eq]
    refine ⟨get?_of_isRegistered hname _, ?_⟩
    obtain ⟨-, heq⟩ | ⟨front, source, back, fault, -, -, hbreaks⟩ := habort
    · rw [heq, hskips.registry_eq]
      exact get?_of_isRegistered hname _
    · rw [hbreaks.registry_eq]
      exact get?_of_isRegistered hname _
  case succeeds_iff =>
    obtain ⟨hloads, heq⟩ | ⟨front, source, back, fault, hfiles, hfault, hbreaks⟩ := habort
    · rw [heq, hskipped, skipped_eq_nil_iff]
      exact ⟨fun _ => hloads, fun _ => hend⟩
    · rw [hfault, hskipped, hfiles, hbreaks.faults_eq]
      exact iff_of_false (Option.some_ne_none _) (List.cons_ne_nil _ _)
  case same =>
    intro hnil
    -- a load that breaks off would have skipped a file, the one that it breaks off at
    obtain ⟨-, heq⟩ | ⟨front, source, back, fault, hfiles, -, hbreaks⟩ := habort
    · exact heq
    · rw [hskipped, hfiles, hbreaks.faults_eq] at hnil
      cases hnil
  case stops =>
    intro fault hfault
    obtain ⟨-, heq⟩ | ⟨front, source, back, fault', hfiles, hfault', hbreaks⟩ := habort
    · rw [heq, hend] at hfault
      cases hfault
    · obtain rfl : fault' = fault := Option.some.inj (hfault'.symm.trans hfault)
      refine ⟨?_, front, source, back, hfiles, hbreaks, hbreaks.isPrefix_of_skips (hfiles ▸ hskips)⟩
      rw [hskipped, hfiles, hbreaks.faults_eq]
      rfl

/-- Of three files, the one in the middle is faulty. -/
theorem loads_agree_faultyMenus :
    (faultyMenus.map (·.1)).Nodup ∧
      (load {} .skip "menus" (.directory faultyMenus)).1.loaded = ["bread", "soup"] ∧
        LoadsAgree {} (descriptorFiles "menus" faultyMenus)
          (load {} .skip "menus" (.directory faultyMenus))
          (load {} .abort "menus" (.directory faultyMenus)) :=
  have hnodup : (faultyMenus.map (·.1)).Nodup := by decide
  ⟨hnodup, by decide +kernel, (loads_agree {} "menus" faultyMenus hnodup).2.2⟩

/-! ## A load that is broken off -/

/-- Loading a directory again after a load that was broken off fails as long as it still holds a
file whose store has been registered. -/
theorem load_abort_again {registry : Registry} {directory : String}
    {entries : List (String × FileNode)} (hnodup : (entries.map (·.1)).Nodup)
    {source : DescriptorFile} (hsource : source ∈ descriptorFiles directory entries)
    (htaken : registry.isRegistered source.store = true) :
    (registry.load .abort directory (.directory entries)).2 ≠ none := by
  obtain ⟨hloads, -⟩ | ⟨front, other, back, fault, -, hfault, -⟩ :=
    load_abort registry directory hnodup
  · have hloadable := hloads source hsource
    rw [DescriptorFile.isLoadable_of_isRegistered htaken] at hloadable
    cases hloadable
  · rw [hfault]
    exact Option.some_ne_none fault

/-- A load that is broken off keeps the stores of the files before the faulty one, behind those
that were there. The registry is what it was only when there is no such store, as when the
directory cannot be read; else the same files cannot be loaded into it once more. -/
theorem load_abort_failed (registry : Registry) (directory : String) (listing : Listing)
    (hnodup : ∀ entries, listing.entries = .ok entries → (entries.map (·.1)).Nodup)
    (final : Loading) (fault : Fault)
    (hload : registry.load .abort directory listing = (final, some fault)) :
    ((∃ reason, listing.entries = .error reason) ∧ final.registry = registry ∧ final.loaded = [] ∨
        ∃ entries front source back, listing.entries = .ok entries ∧
          descriptorFiles directory entries = front ++ source :: back ∧
            BreaksOff registry front source fault final) ∧
      (final.registry = registry ↔ final.loaded = []) ∧
      (∀ name, registry.isRegistered name = true →
        final.registry.get? name = registry.get? name) ∧
      ∀ directory' entries', (entries'.map (·.1)).Nodup →
        (∃ source ∈ descriptorFiles directory' entries', source.store ∈ final.loaded) →
          (final.registry.load .abort directory' (.directory entries')).2 ≠ none := by
  cases hentries : listing.entries with
  | error reason =>
    have hregistry : final.registry = registry ∧ final.loaded = [] := by
      unfold load at hload
      rw [hentries] at hload
      cases hload
      exact ⟨rfl, rfl⟩
    obtain ⟨hsame, hnone⟩ := hregistry
    refine ⟨.inl ⟨⟨reason, rfl⟩, hsame, hnone⟩, ⟨fun _ => hnone, fun _ => hsame⟩,
      fun name _ => (by rw [hsame]), ?_⟩
    rintro directory' entries' - ⟨source, -, hmem⟩
    rw [hnone] at hmem
    cases hmem
  | ok entries =>
    have hdirectory : registry.load .abort directory listing =
        registry.load .abort directory (.directory entries) := by
      unfold load
      rw [hentries]
      rfl
    rw [hload] at hdirectory
    obtain ⟨-, heq⟩ | ⟨front, source, back, fault', hfiles, hfault', hbreaks⟩ :=
      load_abort registry directory (hnodup entries hentries)
    · have hend := (load_skip registry directory
        (hnodup entries hentries)).1
      rw [← heq, ← hdirectory] at hend
      cases hend
    · rw [← hdirectory] at hfault' hbreaks
      obtain rfl : fault = fault' := Option.some.inj hfault'
      refine ⟨.inr ⟨entries, front, source, back, rfl, hfiles, hbreaks⟩, hbreaks.registry_eq_iff,
        fun name hname => ?_, ?_⟩
      · rw [hbreaks.registry_eq]
        exact get?_of_isRegistered hname _
      · -- the file is refused the second time, as its store has been kept
        rintro directory' entries' hnodup' ⟨other, hother, hmem⟩
        have hnames : other.store ∈ final.registry.names := by
          rw [hbreaks.names_eq]
          exact List.mem_append_right _ hmem
        exact load_abort_again hnodup' hother (Fields.mem_keys_iff_has.mp hnames)

/-- The file in front of the faulty one has been loaded, and stays. -/
theorem load_abort_failed_faultyMenus :
    (load {} .abort "menus" (.directory faultyMenus)).2 =
        some (.load "menus/fish.json" "Invalid JSON") ∧
      ¬ (load {} .abort "menus" (.directory faultyMenus)).1.registry = {} := by
  have hfault : (load {} .abort "menus" (.directory faultyMenus)).2 =
      some (.load "menus/fish.json" "Invalid JSON") := by decide +kernel
  have hloaded : (load {} .abort "menus" (.directory faultyMenus)).1.loaded = ["bread"] := by
    decide +kernel
  have hnodup : ∀ entries, (Listing.directory faultyMenus).entries = .ok entries →
      (entries.map (·.1)).Nodup := by
    intro entries hentries
    obtain rfl : faultyMenus = entries := Except.ok.inj hentries
    decide
  have hload : load {} .abort "menus" (.directory faultyMenus) =
      ((load {} .abort "menus" (.directory faultyMenus)).1,
        some (.load "menus/fish.json" "Invalid JSON")) := by
    rw [← hfault]
  obtain ⟨-, hsame, -⟩ :=
    load_abort_failed {} "menus" (.directory faultyMenus) hnodup _ _ hload
  refine ⟨hfault, fun heq => ?_⟩
  rw [hsame.mp heq] at hloaded
  cases hloaded

/-- A load that is broken off need not leave the registry as it was. -/
theorem not_load_abort_atomic :
    ¬ ∀ (registry : Registry) (directory : String) (entries : List (String × FileNode)),
      (entries.map (·.1)).Nodup →
        ((registry.load .abort directory (.directory entries)).2).isSome = true →
          (registry.load .abort directory (.directory entries)).1.registry.names =
            registry.names := by
  intro h
  have hnames := h {} "menus" faultyMenus (by decide) (by decide +kernel)
  have hbread : (load {} .abort "menus" (.directory faultyMenus)).1.registry.names = ["bread"] := by
    decide +kernel
  rw [hbread] at hnames
  cases hnames

end Registry

end NestedRecord
