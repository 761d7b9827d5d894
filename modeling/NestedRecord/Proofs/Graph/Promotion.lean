import NestedRecord.Proofs.Graph.Registering

/-!
# Aggregates, joins and references fit together

Four tables of a store speak of one another: the local aggregates and their order of evaluation, the
external aggregates by store, the joins by store, and the references. Registrations change them in
any sequence, and an external aggregate may be taken out from under a store that is not named by the
registration which replaces it.

* `Metadata.Consistent` says how the tables fit; `Consistent.register` and `Consistent.addJoin`
  restore it after every registration, `Consistent.refer` after a reference.
* `Metadata.Holds` says that a registration is in force, and `holds_register` what is in force after
  one more: that one, and those of other targets.

The tables are restored and not kept: in the middle of a registration a target has no aggregate, or
its join has none. That all of them fit again afterwards rests on `Tidy`, by which a target has at
most one aggregate, so that the one which is found and taken out is the only one that has to go.
-/

namespace NestedRecord

open Fields (get? has keys entries)

/-! ## Tables -/

namespace Fields

variable {α : Type}

/-- What is erased is gone, and the rest stays in its order. -/
theorem keys_erase (fields : Fields α) (key : String) :
    keys (erase fields key) = (keys fields).filter (· ≠ key) := by
  rw [keys, keys, erase, List.filter_map]
  rfl

/-- Setting a value adds one entry at most. -/
theorem mem_of_mem_set {fields : Fields α} {key : String} {value : α} {entry : String × α}
    (h : entry ∈ set fields key value) : entry ∈ fields ∨ entry = (key, value) := by
  induction fields with
  | nil => exact .inr (List.mem_singleton.mp h)
  | cons field rest ih =>
    obtain ⟨k, v⟩ := field
    by_cases hk : k = key
    · subst hk
      rw [set, if_pos rfl] at h
      rcases List.mem_cons.mp h with rfl | h
      · exact .inr rfl
      · exact .inl (List.mem_cons_of_mem _ h)
    · rw [set, if_neg hk] at h
      rcases List.mem_cons.mp h with rfl | h
      · exact .inl List.mem_cons_self
      · exact (ih h).imp_left (List.mem_cons_of_mem _)

/-- An entry after an update was there before, with its old value or the one it is updated from. -/
theorem exists_of_mem_update {f : α → α} {fields : Fields α} {key : String} {entry : String × α}
    (h : entry ∈ update f fields key) :
    ∃ value, (entry.1, value) ∈ fields ∧ (entry.2 = value ∨ entry.2 = f value) := by
  induction fields with
  | nil => cases h
  | cons field rest ih =>
    obtain ⟨k, v⟩ := field
    by_cases hk : k = key
    · rw [update, if_pos hk] at h
      rcases List.mem_cons.mp h with rfl | h
      · exact ⟨v, List.mem_cons_self, .inr rfl⟩
      · exact ⟨entry.2, List.mem_cons_of_mem _ h, .inl rfl⟩
    · rw [update, if_neg hk] at h
      rcases List.mem_cons.mp h with rfl | h
      · exact ⟨v, List.mem_cons_self, .inl rfl⟩
      · obtain ⟨value, hmem, hvalue⟩ := ih h
        exact ⟨value, List.mem_cons_of_mem _ hmem, hvalue⟩

/-- Writing a new value keeps the values distinct, also where it takes the place of another one. -/
theorem nodup_values_set {fields : Fields α} (h : (fields.map (·.2)).Nodup) (key : String)
    {value : α} (hnew : value ∉ fields.map (·.2)) : ((set fields key value).map (·.2)).Nodup := by
  induction fields with
  | nil => exact List.nodup_singleton _
  | cons field rest ih =>
    obtain ⟨k, v⟩ := field
    rw [List.map_cons, List.nodup_cons] at h
    rw [List.map_cons, List.mem_cons, not_or] at hnew
    by_cases hk : k = key
    · rw [set, if_pos hk, List.map_cons, List.nodup_cons]
      exact ⟨hnew.2, h.2⟩
    · rw [set, if_neg hk, List.map_cons, List.nodup_cons]
      refine ⟨fun hmem => ?_, ih h.2 hnew.2⟩
      obtain ⟨entry, hentry, heq⟩ := List.mem_map.mp hmem
      rcases mem_of_mem_set hentry with hold | rfl
      · exact h.1 (List.mem_map.mpr ⟨entry, hold, heq⟩)
      · exact hnew.1 heq

end Fields

namespace Metadata

variable {store : String} {metadata : Metadata}

/-! ## How the tables fit -/

/-- The targets of the joins that only feed an aggregate. -/
def fedTargets (joins : List Join) : List String :=
  (joins.filter (·.cardinality = .aggregate)).map (·.path)

/-- The tables of a store fit together. -/
structure Consistent (store : String) (metadata : Metadata) : Prop extends Tidy metadata where
  /-- the local aggregates stand in the order of evaluation -/
  order : keys metadata.aggregates = metadata.aggregatesSort
  /-- the joins of a store that feed aggregates are, in order, those of its external aggregates -/
  paired : ∀ source, fedTargets ((get? metadata.joins source).getD []) =
    ((get? metadata.externals source).getD []).map (·.target)
  joinsFilled : ∀ entry ∈ metadata.joins, entry.2 ≠ []
  externalsFilled : ∀ entry ∈ metadata.externals, entry.2 ≠ []
  /-- every external aggregate stands under its own store -/
  owned : ∀ entry ∈ metadata.externals, ∀ aggregate ∈ entry.2, aggregate.store = entry.1
  /-- no other store is referenced twice -/
  referenced : (metadata.references.map (·.2)).Nodup
  others : ∀ entry ∈ metadata.references, entry.2 ≠ store

/-- How the tables fit depends on them alone. -/
theorem Consistent.of_tables (h : metadata.Consistent store) {other : Metadata}
    (htables : (other.aggregates, other.aggregatesSort, other.externals, other.joins) =
      (metadata.aggregates, metadata.aggregatesSort, metadata.externals, metadata.joins))
    (hreferences : other.references = metadata.references) : other.Consistent store := by
  obtain ⟨haggregates, hsort, hexternals, hjoins⟩ := by simpa using htables
  refine ⟨h.toTidy.of_tables htables, ?_, ?_, ?_, ?_, ?_, ?_, ?_⟩
  · rw [haggregates, hsort]
    exact h.order
  · rw [hjoins, hexternals]
    exact h.paired
  · rw [hjoins]
    exact h.joinsFilled
  · rw [hexternals]
    exact h.externalsFilled
  · rw [hexternals]
    exact h.owned
  · rw [hreferences]
    exact h.referenced
  · rw [hreferences]
    exact h.others

/-- Empty tables fit. -/
theorem Consistent.start (store : String) : Consistent store { storeName := store } where
  toTidy := Tidy.start store
  order := rfl
  paired _ := rfl
  joinsFilled := List.forall_mem_nil _
  externalsFilled := List.forall_mem_nil _
  owned := List.forall_mem_nil _
  referenced := List.nodup_nil
  others := List.forall_mem_nil _

/-! ## Taking an external aggregate out -/

/-- The join of a target and its aggregate leave their lists together. -/
theorem fedTargets_without {joins : List Join} {list : List ExternalAggregate}
    (h : fedTargets joins = list.map (·.target)) (hnodup : (list.map (·.target)).Nodup)
    (target : String) :
    fedTargets (joins.filter fun join => ¬(join.cardinality = .aggregate ∧ join.path = target)) =
      (list.eraseP (·.target = target)).map (·.target) := by
  have hjoins : fedTargets (joins.filter fun join =>
      ¬(join.cardinality = .aggregate ∧ join.path = target)) =
        (fedTargets joins).filter (· != target) := by
    rw [fedTargets, fedTargets, List.filter_filter, List.filter_map, List.filter_filter]
    refine congrArg (List.map _) (List.filter_congr fun join _ => ?_)
    by_cases hfeeds : join.cardinality = .aggregate <;> simp [hfeeds, bne, beq_eq_decide]
  have hlist : (list.eraseP (·.target = target)).map (·.target) =
      (list.map (·.target)).filter (· != target) := by
    have herase := hnodup.erase_eq_filter target
    rw [List.erase_eq_eraseP, List.eraseP_map] at herase
    simpa [Function.comp_def, beq_eq_decide, eq_comm] using herase.symm
  rw [hjoins, hlist, h]

/-- An aggregate leaves its tables together with its join. -/
theorem Consistent.removeExternal (h : metadata.Consistent store) (target : String) :
    (metadata.removeExternal target).Consistent store := by
  have htidy := (h.toTidy.removeExternal target).1
  cases hfound : metadata.external? target with
  | none =>
    rw [Metadata.removeExternal, hfound]
    exact h
  | some found =>
    obtain ⟨source, first⟩ := found
    rw [removeExternal_of_some hfound] at htidy ⊢
    constructor
    case toTidy => exact htidy
    case order => exact h.order
    case paired =>
      intro other
      rw [withoutTarget, Fields.getD_get?_update_filter rfl h.joined,
        Fields.getD_get?_update_filter rfl h.stores]
      -- only the lists of one store are touched
      split
      · exact fedTargets_without (h.paired other) (h.toTidy.nodup_targets_of_store other) target
      · exact h.paired other
    case joinsFilled =>
      intro entry hentry hnil
      simpa [hnil] using (List.mem_filter.mp hentry).2
    case externalsFilled =>
      intro entry hentry hnil
      simpa [hnil] using (List.mem_filter.mp hentry).2
    case owned =>
      intro entry hentry aggregate haggregate
      obtain ⟨list, hlist, heq | heq⟩ :=
        Fields.exists_of_mem_update (List.mem_of_mem_filter hentry)
      · exact h.owned _ hlist aggregate (heq ▸ haggregate)
      · rw [heq] at haggregate
        exact h.owned _ hlist aggregate (List.mem_of_mem_eraseP haggregate)
    case referenced => exact h.referenced
    case others => exact h.others

/-! ## Registrations -/

/-- A local aggregate takes the place of what its target had. -/
theorem Consistent.declareLocal (h : metadata.Consistent store) (aggregate : LocalAggregate) :
    (metadata.declareLocal aggregate).Consistent store := by
  have hremoved := h.removeExternal aggregate.target
  refine ⟨h.toTidy.declareLocal aggregate, ?_, hremoved.paired, hremoved.joinsFilled,
    hremoved.externalsFilled, hremoved.owned, hremoved.referenced, hremoved.others⟩
  show keys (Fields.set _ aggregate.target aggregate) = if has _ _ then _ else _
  split
  · next hhas => rw [Fields.keys_set_of_has _ _ _ hhas, hremoved.order]
  · next hnew =>
    rw [Fields.set_of_not_has _ _ _ (Bool.eq_false_iff.mpr hnew), keys, List.map_append]
    exact congrArg (· ++ [aggregate.target]) hremoved.order

/-- Local aggregates are in no table of another store. -/
theorem Consistent.withoutLocal (h : metadata.Consistent store) (target : String) :
    (metadata.withoutLocal target).Consistent store where
  toTidy := h.toTidy.withoutLocal target
  order := by
    show keys (Fields.erase _ _) = _
    rw [Fields.keys_erase, h.order]
    rfl
  paired := h.paired
  joinsFilled := h.joinsFilled
  externalsFilled := h.externalsFilled
  owned := h.owned
  referenced := h.referenced
  others := h.others

/-- Nothing stands under a key without entries after something has been pushed. -/
theorem ne_nil_of_mem_push {α : Type} {fields : Fields (List α)} {key : String} {value : α}
    (h : ∀ entry ∈ fields, entry.2 ≠ []) :
    ∀ entry ∈ Fields.push fields key value, entry.2 ≠ [] := by
  intro entry hentry
  rcases Fields.mem_of_mem_set hentry with hold | rfl
  · exact h entry hold
  · exact List.append_ne_nil_of_right_ne_nil _ (List.cons_ne_nil _ _)

/-- The tables with a further external aggregate and its join. -/
def withExternal (metadata : Metadata) (aggregate : ExternalAggregate) : Metadata :=
  { metadata.addJoin ⟨aggregate.store, aggregate.target, .aggregate⟩ with
    externals := Fields.push metadata.externals aggregate.store aggregate }

/-- A promotion takes out whatever was registered for the target, then adds the aggregate. -/
theorem promote_eq (metadata : Metadata) (aggregate : ExternalAggregate) :
    metadata.promote aggregate = ((metadata.withoutLocal aggregate.target).removeExternal
      aggregate.target).withExternal aggregate := rfl

/-- A join that feeds an aggregate and the aggregate are added together. -/
theorem Consistent.withExternal (h : metadata.Consistent store) {aggregate : ExternalAggregate}
    (htidy : (metadata.withExternal aggregate).Tidy) :
    (metadata.withExternal aggregate).Consistent store where
  toTidy := htidy
  order := h.order
  paired source := by
    show fedTargets ((get? (Fields.push _ _ _) source).getD []) =
      ((get? (Fields.push _ _ _) source).getD []).map _
    rw [Fields.getD_get?_push, Fields.getD_get?_push]
    split
    · rw [List.map_append, ← h.paired aggregate.store, fedTargets, fedTargets, List.filter_append,
        List.map_append]
      rfl
    · exact h.paired source
  joinsFilled := ne_nil_of_mem_push h.joinsFilled
  externalsFilled := ne_nil_of_mem_push h.externalsFilled
  owned entry hentry other hother := by
    rcases Fields.mem_of_mem_set hentry with hold | rfl
    · exact h.owned entry hold other hother
    · rcases List.mem_append.mp hother with hlist | hnew
      · cases hget : get? metadata.externals aggregate.store with
        | none =>
          rw [hget] at hlist
          cases hlist
        | some list =>
          rw [hget] at hlist
          exact h.owned _ (Fields.mem_of_get? hget) other hlist
      · rw [List.mem_singleton.mp hnew]
  referenced := h.referenced
  others := h.others

theorem Consistent.promote (h : metadata.Consistent store) (aggregate : ExternalAggregate) :
    (metadata.promote aggregate).Consistent store := by
  have htidy := h.toTidy.promote aggregate
  rw [promote_eq] at htidy ⊢
  exact ((h.withoutLocal aggregate.target).removeExternal aggregate.target).withExternal htidy

/-- Attachments are no matter of aggregates. -/
theorem Consistent.addJoin (h : metadata.Consistent store) {join : Join}
    (hattaches : join.Attaches) : (metadata.addJoin join).Consistent store where
  toTidy := h.toTidy.addJoin hattaches
  order := h.order
  paired source := by
    show fedTargets ((get? (Fields.push _ _ _) source).getD []) = _
    rw [Fields.getD_get?_push]
    split
    · next heq =>
      have hnone : fedTargets [join] = [] := by
        simp [fedTargets, show ¬ join.cardinality = .aggregate from hattaches]
      rw [heq, fedTargets, List.filter_append, List.map_append]
      exact (congrArg (_ ++ ·) hnone).trans ((List.append_nil _).trans (h.paired join.store))
    · exact h.paired source
  joinsFilled := ne_nil_of_mem_push h.joinsFilled
  externalsFilled := h.externalsFilled
  owned := h.owned
  referenced := h.referenced
  others := h.others

/-- A store that is not referenced yet may be referenced, other than the store itself. -/
theorem Consistent.refer (h : metadata.Consistent store) {path other : String}
    (hother : other ≠ store) (hnew : other ∉ metadata.references.map (·.2)) :
    Consistent store
      { metadata with references := Fields.set metadata.references path other } where
  toTidy := h.toTidy.of_tables rfl
  order := h.order
  paired := h.paired
  joinsFilled := h.joinsFilled
  externalsFilled := h.externalsFilled
  owned := h.owned
  referenced := Fields.nodup_values_set h.referenced path hnew
  others entry hentry := by
    rcases Fields.mem_of_mem_set hentry with hold | rfl
    · exact h.others entry hold
    · exact hother

end Metadata

/-! ## What is in force -/

/-- An aggregate as a link of an attribute registers it. -/
inductive Registration where
  /-- over values of the record itself -/
  | own (aggregate : LocalAggregate)
  /-- over the records of another store -/
  | foreign (aggregate : ExternalAggregate)

def Registration.target : Registration → String
  | .own aggregate => aggregate.target
  | .foreign aggregate => aggregate.target

namespace Metadata

variable {store : String} {metadata : Metadata}

def register (metadata : Metadata) : Registration → Metadata
  | .own aggregate => metadata.declareLocal aggregate
  | .foreign aggregate => metadata.promote aggregate

/-- A registration is in force: its aggregate is in the tables. -/
def Holds (metadata : Metadata) : Registration → Prop
  | .own aggregate => get? metadata.aggregates aggregate.target = some aggregate
  | .foreign aggregate => aggregate ∈ entries metadata.externals

theorem Consistent.register (h : metadata.Consistent store) :
    ∀ registration, (metadata.register registration).Consistent store
  | .own aggregate => h.declareLocal aggregate
  | .foreign aggregate => h.promote aggregate

/-- Taking the external aggregate of a target out leaves those of the other targets. -/
theorem mem_entries_removeExternal (h : metadata.Tidy) {target : String}
    {aggregate : ExternalAggregate} :
    aggregate ∈ entries (metadata.removeExternal target).externals ↔
      aggregate.target ≠ target ∧ aggregate ∈ entries metadata.externals := by
  refine ⟨fun hmem => ⟨(h.removeExternal target).2.2.2 aggregate hmem,
    mem_of_mem_removeExternal hmem⟩, fun ⟨hne, hmem⟩ => ?_⟩
  unfold Metadata.removeExternal
  split
  · exact hmem
  · next source _ _ =>
    show aggregate ∈ entries ((withoutTarget metadata.externals source target).filter _)
    rw [Fields.entries_filter_isEmpty, withoutTarget]
    -- the list of one store is changed, wherever it stands among the others
    generalize metadata.externals = externals at hmem
    induction externals with
    | nil => cases hmem
    | cons field rest ih =>
      obtain ⟨k, list⟩ := field
      rw [entries, List.flatMap_cons, List.mem_append] at hmem
      by_cases hk : k = source
      · rw [Fields.update, if_pos hk, entries, List.flatMap_cons, List.mem_append]
        exact hmem.imp_left (List.mem_eraseP_of_neg (by simpa using hne)).mpr
      · rw [Fields.update, if_neg hk, entries, List.flatMap_cons, List.mem_append]
        exact hmem.imp_right ih

/-- After a registration that one is in force, and what was in force for other targets. -/
theorem holds_register (h : metadata.Tidy) (registration other : Registration) :
    (metadata.register registration).Holds other ↔
      other = registration ∨ other.target ≠ registration.target ∧ metadata.Holds other := by
  -- what was in force for the target is taken out of either table, and the registration is put
  -- into its own
  cases registration with
  | own aggregate =>
    have haggregates := (h.removeExternal aggregate.target).2.1
    cases other with
    | own other =>
      show get? (Fields.set _ aggregate.target aggregate) other.target = some other ↔ _
      rw [haggregates]
      by_cases heq : other.target = aggregate.target
      · rw [heq, Fields.get?_set_self]
        simp [Registration.target, heq, eq_comm]
      · rw [Fields.get?_set_of_ne _ _ heq]
        have hne : other ≠ aggregate := fun h => heq (congrArg _ h)
        simp [Registration.target, heq, hne, Holds]
    | foreign other =>
      show other ∈ entries (metadata.removeExternal aggregate.target).externals ↔ _
      rw [mem_entries_removeExternal h]
      simp [Registration.target, Holds]
  | foreign aggregate =>
    have htidy := h.withoutLocal aggregate.target
    cases other with
    | own other =>
      have haggregates := (htidy.removeExternal aggregate.target).2.1
      show get? ((metadata.withoutLocal aggregate.target).removeExternal
        aggregate.target).aggregates other.target = some other ↔ _
      rw [haggregates, get?_withoutLocal]
      simp [Registration.target, Holds]
    | foreign other =>
      have hpush := Fields.entries_push
        ((metadata.withoutLocal aggregate.target).removeExternal aggregate.target).externals
        aggregate.store aggregate
      have hmem : (metadata.promote aggregate).Holds (.foreign other) ↔
          other ∈ entries ((metadata.withoutLocal aggregate.target).removeExternal
            aggregate.target).externals ++ [aggregate] := hpush.mem_iff
      rw [List.mem_append, List.mem_singleton, mem_entries_removeExternal htidy] at hmem
      simp only [Registration.foreign.injEq, Registration.target]
      exact hmem.trans or_comm

end Metadata

end NestedRecord
