import Mathlib.Data.List.Basic
import Mathlib.Data.List.Nodup
import NestedRecord.Graph.Metadata

/-!
# One aggregate for a target

The registrations of aggregates keep the tables of a store in order, `Metadata.Tidy`: every
target has one aggregate, local or external, and stands once in the order of evaluation.
Attachments are not touched by them.

A registration first takes out what its target had, then enters the new aggregate. For an external
aggregate this means looking through the lists of all stores for one with that target, dropping it
and dropping the joins that feed it; a list that becomes empty is dropped with its key. The order of
these tables matters to later steps, so the lemmas are about lists of entries rather than about
sets.

* `Tidy.declareLocal`, `Tidy.promote`, `Tidy.addJoin` are the three registrations.
* `Tidy.nodup_targets` and `Tidy.not_external` are what later proofs use.
* `Metadata.attachments` are the attachments of all stores.
-/

namespace NestedRecord

/-! ## Tables -/

namespace Fields

variable {α : Type}

theorem get?_update (f : α → α) (fields : Fields α) (key other : String) :
    get? (update f fields key) other =
      if other = key then (get? fields other).map f else get? fields other := by
  induction fields with
  | nil => simp [update]
  | cons field rest ih =>
    obtain ⟨k, v⟩ := field
    by_cases hk : k = key
    · by_cases ho : k = other
      · simp [update, get?, hk, ← ho]
      · have hne : other ≠ key := fun h => ho (hk.trans h.symm)
        simp [update, get?, hk, hne, Ne.symm hne]
    · by_cases ho : k = other
      · have hne : other ≠ key := fun h => hk (ho.trans h)
        simp [update, get?, ho, hne]
      · simp [update, get?, hk, ho, ih]

theorem get?_erase (fields : Fields α) (key other : String) :
    get? (erase fields key) other = if other = key then none else get? fields other := by
  induction fields with
  | nil => simp [erase]
  | cons field rest ih =>
    obtain ⟨k, v⟩ := field
    simp only [erase, ne_eq, decide_not] at ih ⊢
    by_cases hk : k = key
    · by_cases ho : other = key
      · simpa [hk, ho] using ih
      · simpa [hk, get?, ho, Ne.symm ho] using ih
    · by_cases ho : k = other
      · have hne : other ≠ key := fun h => hk (ho.trans h)
        simp [get?, ho, hne]
      · simpa [hk, get?, ho] using ih

/-- Where keys differ, every entry is found under its key. -/
theorem get?_of_mem {fields : Fields α} (h : (keys fields).Nodup) {key : String} {value : α}
    (hmem : (key, value) ∈ fields) : get? fields key = some value := by
  induction fields with
  | nil => cases hmem
  | cons field rest ih =>
    obtain ⟨k, v⟩ := field
    obtain ⟨hnot, hrest⟩ := List.nodup_cons.mp h
    rcases List.mem_cons.mp hmem with heq | hmem
    · cases heq
      simp [get?]
    · have hne : k ≠ key := fun heq => hnot (List.mem_map.mpr ⟨_, hmem, heq.symm⟩)
      simpa [get?, hne] using ih hrest hmem

theorem has_iff {fields : Fields α} {key : String} :
    has fields key = true ↔ ∃ value, get? fields key = some value := Option.isSome_iff_exists

/-- What has been set is there, with what was there before. -/
theorem has_set (fields : Fields α) (key : String) (value : α) (other : String) :
    has (set fields key value) other = true ↔ other = key ∨ has fields other = true := by
  by_cases h : other = key
  · simp [has, h]
  · simp [has, get?_set_of_ne fields value h, h]

theorem keys_update (f : α → α) (fields : Fields α) (key : String) :
    keys (update f fields key) = keys fields := by
  induction fields with
  | nil => rfl
  | cons field rest ih =>
    obtain ⟨k, v⟩ := field
    by_cases hk : k = key
    · simp [update, keys, hk]
    · simpa [update, keys, hk] using ih

/-- A new key stands behind the others, an old one stays where it is. -/
theorem keys_set (fields : Fields α) (key : String) (value : α) :
    keys (set fields key value) = if has fields key then keys fields else keys fields ++ [key] := by
  by_cases h : has fields key = true
  · rw [if_pos h, keys_set_of_has fields key value h]
  · rw [if_neg h, set_of_not_has fields key value (Bool.eq_false_iff.mpr h), keys, List.map_append]
    rfl

/-- No key is there twice when another value has been set. -/
theorem nodup_keys_set {fields : Fields α} (h : (keys fields).Nodup) (key : String) (value : α) :
    (keys (set fields key value)).Nodup := by
  by_cases hkey : has fields key = true
  · rw [keys_set_of_has fields key value hkey]
    exact h
  · rw [set_of_not_has fields key value (Bool.eq_false_iff.mpr hkey), keys, List.map_append]
    refine List.nodup_append.mpr ⟨h, List.nodup_singleton _, ?_⟩
    rintro a ha b hb rfl
    obtain rfl : a = key := by simpa using hb
    exact hkey (mem_keys_iff_has.mp ha)

/-- Dropping empty lists does not show in what stands under a key. -/
theorem getD_get?_filter_isEmpty {fields : Fields (List α)} (h : (keys fields).Nodup)
    (key : String) :
    (get? (fields.filter fun entry => !entry.2.isEmpty) key).getD [] =
      (get? fields key).getD [] := by
  induction fields with
  | nil => rfl
  | cons field rest ih =>
    obtain ⟨k, list⟩ := field
    rw [keys, List.map_cons, List.nodup_cons] at h
    cases list with
    | cons x xs =>
      rw [List.filter_cons_of_pos (by simp)]
      by_cases hk : k = key
      · simp [get?, hk]
      · simpa [get?, hk] using ih h.2
    | nil =>
      rw [List.filter_cons_of_neg (by simp), ih h.2]
      by_cases hk : k = key
      · subst hk
        -- keys differ, so that an earlier list of this key does not come to light
        have hnone : get? rest k = none := by
          rw [← Option.not_isSome_iff_eq_none]
          exact fun hsome => h.1 (mem_keys_iff_has.mpr hsome)
        simp [get?, hnone]
      · simp [get?, hk]

/-- What stands under a key after the list of one key has been changed and empty lists dropped. -/
theorem getD_get?_update_filter {f : List α → List α} (hnil : f [] = []) {fields : Fields (List α)}
    (h : (keys fields).Nodup) (key other : String) :
    (get? ((update f fields key).filter fun entry => !entry.2.isEmpty) other).getD [] =
      if other = key then f ((get? fields other).getD []) else (get? fields other).getD [] := by
  rw [getD_get?_filter_isEmpty (by rwa [keys_update]), get?_update]
  split
  · cases get? fields other with
    | none => exact hnil.symm
    | some list => rfl
  · rfl

/-- What stands under a key after a value has been pushed. -/
theorem getD_get?_push (fields : Fields (List α)) (key : String) (value : α) (other : String) :
    (get? (push fields key value) other).getD [] =
      if other = key then (get? fields key).getD [] ++ [value] else (get? fields other).getD [] := by
  split
  · next heq => rw [heq, push, get?_set_self, Option.getD_some]
  · next hne => rw [push, get?_set_of_ne fields _ hne]

/-- All entries of the lists of a table. -/
def entries (fields : Fields (List α)) : List α := fields.flatMap (·.2)

/-- What stands under one key is a part of all entries. -/
theorem sublist_entries (fields : Fields (List α)) (key : String) :
    ((get? fields key).getD []).Sublist (entries fields) := by
  cases hget : get? fields key with
  | none => exact List.nil_sublist _
  | some list =>
    rw [entries, List.flatMap_def]
    exact List.sublist_flatten_of_mem (List.mem_map.mpr ⟨_, mem_of_get? hget, rfl⟩)

/-- Entries that are told apart by what a function makes of them stand under one key. -/
theorem key_eq_of_nodup {β : Type} {p : α → Bool} {f : α → β} {fields : Fields (List α)}
    (h : (((entries fields).filter p).map f).Nodup) {key key' : String} {a b : α}
    (ha : a ∈ (get? fields key).getD []) (hb : b ∈ (get? fields key').getD []) (hpa : p a = true)
    (hpb : p b = true) (heq : f a = f b) : key = key' := by
  induction fields with
  | nil => cases ha
  | cons field rest ih =>
    obtain ⟨k, list⟩ := field
    rw [entries, List.flatMap_cons, List.filter_append, List.map_append,
      List.nodup_append] at h
    obtain ⟨-, hrest, hapart⟩ := h
    have hhere : ∀ value ∈ list, p value = true → f value ∈ (list.filter p).map f :=
      fun value hvalue hp => List.mem_map_of_mem (List.mem_filter.mpr ⟨hvalue, hp⟩)
    have hlater : ∀ other, ∀ value ∈ (get? rest other).getD [], p value = true →
        f value ∈ ((entries rest).filter p).map f := fun other value hvalue hp =>
      List.mem_map_of_mem (List.mem_filter.mpr ⟨(sublist_entries rest other).subset hvalue, hp⟩)
    -- one of the two keys is in front, both are, or none is
    by_cases hkey : k = key <;> by_cases hkey' : k = key'
    · exact hkey.symm.trans hkey'
    · rw [get?, if_pos hkey, Option.getD_some] at ha
      rw [get?, if_neg hkey'] at hb
      exact absurd heq (hapart _ (hhere a ha hpa) _ (hlater key' b hb hpb))
    · rw [get?, if_neg hkey] at ha
      rw [get?, if_pos hkey', Option.getD_some] at hb
      exact absurd heq.symm (hapart _ (hhere b hb hpb) _ (hlater key a ha hpa))
    · rw [get?, if_neg hkey] at ha
      rw [get?, if_neg hkey'] at hb
      exact ih hrest ha hb

/-- Pushing adds one entry. -/
theorem entries_push (fields : Fields (List α)) (key : String) (value : α) :
    (entries (push fields key value)).Perm (entries fields ++ [value]) := by
  unfold push
  induction fields with
  | nil => simp [entries, set]
  | cons field rest ih =>
    obtain ⟨k, list⟩ := field
    by_cases hk : k = key
    · have hperm : (value :: entries rest).Perm (entries rest ++ [value]) := by
        simpa using (List.perm_append_singleton value (entries rest)).symm
      simpa [set, get?, hk, entries] using hperm.append_left list
    · simpa [set, get?, hk, entries] using ih.append_left list

/-- Lists that are dropped because they are empty hold no entries. -/
theorem entries_filter_isEmpty (fields : Fields (List α)) :
    entries (fields.filter fun entry => !entry.2.isEmpty) = entries fields := by
  induction fields with
  | nil => rfl
  | cons field rest ih =>
    obtain ⟨k, list⟩ := field
    rw [entries] at ih
    cases list with
    | nil => simpa [entries] using ih
    | cons x xs => simpa [entries] using ih

/-- Dropping entries without a property keeps those that have it. -/
theorem filter_entries_update {p q : α → Bool} (hpq : ∀ value, q value = true → p value = true)
    (fields : Fields (List α)) (key : String) :
    (entries (update (·.filter p) fields key)).filter q = (entries fields).filter q := by
  induction fields with
  | nil => rfl
  | cons field rest ih =>
    obtain ⟨k, list⟩ := field
    by_cases hk : k = key
    · have hkept : (list.filter p).filter q = list.filter q := by
        rw [List.filter_filter]
        refine List.filter_congr fun value _ => ?_
        cases hq : q value with
        | false => rfl
        | true => simp [hpq value hq]
      simp only [update, hk, if_true, entries, List.flatMap_cons, List.filter_append, hkept]
    · simp only [entries] at ih
      simp only [update, hk, if_false, entries, List.flatMap_cons, List.filter_append, ih]

end Fields

/-- Whether a join keeps the records of its store. -/
def Join.Attaches (join : Join) : Prop := join.cardinality ≠ .aggregate

instance (join : Join) : Decidable join.Attaches :=
  inferInstanceAs (Decidable (join.cardinality ≠ .aggregate))

/-- Whether a join feeds the external aggregate of a target. -/
def Join.Feeds (join : Join) (target : String) : Prop :=
  join.cardinality = .aggregate ∧ join.path = target

instance (join : Join) (target : String) : Decidable (join.Feeds target) :=
  inferInstanceAs (Decidable (join.cardinality = .aggregate ∧ join.path = target))

namespace Metadata

open Fields (entries get? has keys)

variable {metadata : Metadata}

/-- The attachments of all stores. -/
def attachments (metadata : Metadata) : List Join :=
  (entries metadata.joins).filter (·.Attaches)

/-- The tables of aggregates fit together. -/
structure Tidy (metadata : Metadata) : Prop where
  /-- no target stands twice in the order of evaluation -/
  sorted : metadata.aggregatesSort.Nodup
  /-- every target in it has an aggregate -/
  known : ∀ target ∈ metadata.aggregatesSort, has metadata.aggregates target = true
  /-- aggregates stand under their targets -/
  keyed : ∀ target aggregate, get? metadata.aggregates target = some aggregate →
    aggregate.target = target
  stores : (keys metadata.externals).Nodup
  /-- no target has two external aggregates -/
  targets : ((entries metadata.externals).map (·.target)).Nodup
  /-- no target has both kinds of aggregate -/
  apart : ∀ target, has metadata.aggregates target = true →
    ∀ aggregate ∈ entries metadata.externals, aggregate.target ≠ target
  joined : (keys metadata.joins).Nodup
  /-- every external aggregate is fed by one join of its store -/
  fed : ∀ store target, ((get? metadata.joins store).getD []).countP (·.Feeds target) =
    ((get? metadata.externals store).getD []).countP (·.target = target)

/-! ## Taking an external aggregate out

The aggregate is found in the first list that has one of its target; by `Tidy` there is no other. -/

/-- The lists of external aggregates without the one of a target. -/
def withoutTarget (externals : Fields (List ExternalAggregate)) (store target : String) :
    Fields (List ExternalAggregate) :=
  Fields.update (·.eraseP (·.target = target)) externals store

theorem entries_withoutTarget_sublist (externals : Fields (List ExternalAggregate))
    (store target : String) :
    (entries (withoutTarget externals store target)).Sublist (entries externals) := by
  unfold withoutTarget
  induction externals with
  | nil => exact List.Sublist.refl _
  | cons field rest ih =>
    obtain ⟨k, list⟩ := field
    by_cases hk : k = store
    · simpa [Fields.update, hk, entries] using List.eraseP_sublist
    · simpa [Fields.update, hk, entries] using ih

/-- In a list without repeated targets, taking out the first of a target leaves none. -/
theorem target_ne_of_mem_eraseP {list : List ExternalAggregate} {target : String}
    (h : (list.map (·.target)).Nodup) {aggregate : ExternalAggregate}
    (hmem : aggregate ∈ list.eraseP (·.target = target)) : aggregate.target ≠ target := by
  induction list with
  | nil => simp at hmem
  | cons first rest ih =>
    rw [List.map_cons, List.nodup_cons] at h
    by_cases hfirst : first.target = target
    · rw [List.eraseP_cons_of_pos (by simpa using hfirst)] at hmem
      intro heq
      exact h.1 (hfirst ▸ heq ▸ List.mem_map_of_mem hmem)
    · rw [List.eraseP_cons_of_neg (by simpa using hfirst), List.mem_cons] at hmem
      rcases hmem with rfl | hmem
      · exact hfirst
      · exact ih h.2 hmem

/-- No aggregate of the target is left. -/
theorem target_ne_of_mem_withoutTarget {target : String} :
    ∀ {externals : Fields (List ExternalAggregate)},
      (keys externals).Nodup → ((entries externals).map (·.target)).Nodup →
      ∀ {store : String} {found : ExternalAggregate},
        (externals.findSome? fun (store, aggregates) =>
          (aggregates.find? (·.target = target)).map fun aggregate => (store, aggregate)) =
            some (store, found) →
        ∀ aggregate ∈ entries (withoutTarget externals store target), aggregate.target ≠ target
  | [], _, _, _, _, h, _, _ => by simp at h
  | (k, list) :: rest, hkeys, htargets, store, found, h, aggregate, hmem => by
    rw [keys, List.map_cons, List.nodup_cons] at hkeys
    rw [entries, List.flatMap_cons, List.map_append, List.nodup_append] at htargets
    cases hfind : list.find? (·.target = target) with
    | some first =>
      obtain ⟨rfl, rfl⟩ : k = store ∧ first = found := by
        simpa [List.findSome?_cons, hfind] using h
      have hfirst : first.target = target := by simpa using List.find?_some hfind
      simp only [withoutTarget, Fields.update, if_true, entries, List.flatMap_cons,
        List.mem_append] at hmem
      rcases hmem with hmem | hmem
      · exact target_ne_of_mem_eraseP htargets.1 hmem
      · intro heq
        exact htargets.2.2 first.target (List.mem_map_of_mem (List.mem_of_find?_eq_some hfind))
          aggregate.target (List.mem_map_of_mem hmem) (hfirst.trans heq.symm)
    | none =>
      have hrest : (rest.findSome? fun (store, aggregates) =>
          (aggregates.find? (·.target = target)).map fun aggregate => (store, aggregate)) =
            some (store, found) := by
        simpa [List.findSome?_cons, hfind] using h
      have hstore : store ∈ keys rest := by
        obtain ⟨entry, hentry, hsome⟩ := List.exists_of_findSome?_eq_some hrest
        obtain ⟨other, hother, heq⟩ := Option.map_eq_some_iff.mp hsome
        obtain ⟨rfl, rfl⟩ := Prod.mk.inj heq
        exact List.mem_map_of_mem hentry
      have hne : k ≠ store := fun heq => hkeys.1 (heq ▸ hstore)
      simp only [withoutTarget, Fields.update, hne, if_false, entries, List.flatMap_cons,
        List.mem_append] at hmem
      rcases hmem with hmem | hmem
      · have hnone := List.find?_eq_none.mp hfind aggregate hmem
        simpa using hnone
      · exact target_ne_of_mem_withoutTarget hkeys.2 htargets.2.1 hrest aggregate hmem

/-- Taking out an aggregate takes out no attachment. -/
theorem attachments_removeExternal (metadata : Metadata) (target : String) :
    (metadata.removeExternal target).attachments = metadata.attachments := by
  unfold removeExternal
  cases metadata.external? target with
  | none => rfl
  | some found =>
    show ((entries ((Fields.update (·.filter fun join =>
      ¬(join.cardinality = .aggregate ∧ join.path = target)) metadata.joins found.1).filter
        fun entry => !entry.2.isEmpty)).filter (·.Attaches)) = _
    rw [Fields.entries_filter_isEmpty]
    refine Fields.filter_entries_update (fun join hattaches => ?_) metadata.joins found.1
    have hkept : join.Attaches := of_decide_eq_true hattaches
    exact decide_eq_true fun hfeeds => hkept hfeeds.1

/-- Taking the aggregate of a target out of a list, and the joins that feed it, leaves every other
target with as many of the one as of the other. -/
theorem countP_without {joins : List Join} {list : List ExternalAggregate} {target : String}
    (hlist : ∀ aggregate ∈ list.eraseP (·.target = target), aggregate.target ≠ target)
    (h : ∀ other, joins.countP (·.Feeds other) = list.countP (·.target = other)) (other : String) :
    (joins.filter fun join => ¬ join.Feeds target).countP (·.Feeds other) =
      (list.eraseP (·.target = target)).countP (·.target = other) := by
  rw [List.countP_filter]
  by_cases heq : other = target
  · subst heq
    rw [List.countP_eq_zero.mpr (by simp), List.countP_eq_zero.mpr (by simpa using hlist)]
  · have hjoins : joins.countP (fun join => decide (join.Feeds other) &&
        decide (¬ join.Feeds target)) = joins.countP (·.Feeds other) := by
      refine List.countP_congr fun join _ => ?_
      have hapart : join.Feeds other → ¬ join.Feeds target := fun hother htarget =>
        heq (hother.2.symm.trans htarget.2)
      simpa using hapart
    -- only the first aggregate of the target is taken out, and it is none of the other target
    have herase : (list.eraseP (·.target = target)).countP (·.target = other) =
        list.countP (·.target = other) := by
      cases hfind : list.find? (·.target = target) with
      | none => rw [List.eraseP_of_forall_not (by simpa using hfind)]
      | some first =>
        obtain ⟨hfirst, front, back, hsplit, hfront⟩ := List.find?_eq_some_iff_append.mp hfind
        have hne : first.target ≠ other := fun h => heq (h.symm.trans (by simpa using hfirst))
        have herase : (first :: back).eraseP (·.target = target) = back :=
          List.eraseP_cons_of_pos (by simpa using hfirst)
        rw [hsplit, List.eraseP_append_right _ (by simpa using hfront), herase]
        simp [List.countP_append, hne]
    rw [hjoins, herase, h other]

/-- The tables without the aggregate that a target is found to have. -/
theorem removeExternal_of_some {source target : String} {first : ExternalAggregate}
    (hfound : metadata.external? target = some (source, first)) :
    metadata.removeExternal target =
      { metadata with
        externals := (withoutTarget metadata.externals source target).filter
          fun entry => !entry.2.isEmpty
        joins := (Fields.update (·.filter fun join => ¬ join.Feeds target) metadata.joins
          source).filter fun entry => !entry.2.isEmpty } := by
  unfold removeExternal
  rw [hfound]
  rfl

theorem Tidy.nodup_targets_of_store (h : metadata.Tidy) (store : String) :
    (((get? metadata.externals store).getD []).map (·.target)).Nodup :=
  h.targets.sublist ((Fields.sublist_entries metadata.externals store).map _)

/-- What is left of the external aggregates after one has been taken out. -/
theorem Tidy.removeExternal (h : metadata.Tidy) (target : String) :
    (metadata.removeExternal target).Tidy ∧
      (metadata.removeExternal target).aggregates = metadata.aggregates ∧
      (metadata.removeExternal target).aggregatesSort = metadata.aggregatesSort ∧
      ∀ aggregate ∈ entries (metadata.removeExternal target).externals,
        aggregate.target ≠ target := by
  cases hfound : metadata.external? target with
  | none =>
    rw [Metadata.removeExternal, hfound]
    refine ⟨h, rfl, rfl, fun aggregate hmem heq => ?_⟩
    obtain ⟨entry, hentry, hlist⟩ := List.mem_flatMap.mp hmem
    have hnone := List.findSome?_eq_none_iff.mp hfound entry hentry
    rw [Option.map_eq_none_iff, List.find?_eq_none] at hnone
    simpa [heq] using hnone aggregate hlist
  | some found =>
    obtain ⟨source, first⟩ := found
    rw [removeExternal_of_some hfound]
    simp only [Fields.entries_filter_isEmpty]
    have hsub := entries_withoutTarget_sublist metadata.externals source target
    refine ⟨?_, trivial, trivial, target_ne_of_mem_withoutTarget h.stores h.targets hfound⟩
    constructor
    case sorted => exact h.sorted
    case known => exact h.known
    case keyed => exact h.keyed
    case stores =>
      refine List.Nodup.sublist (List.filter_sublist.map _) ?_
      show (keys (withoutTarget metadata.externals source target)).Nodup
      rw [withoutTarget, Fields.keys_update]
      exact h.stores
    case targets =>
      rw [Fields.entries_filter_isEmpty]
      exact h.targets.sublist (hsub.map _)
    case apart =>
      intro other hother aggregate hmem
      rw [Fields.entries_filter_isEmpty] at hmem
      exact h.apart other hother aggregate (hsub.subset hmem)
    case joined =>
      refine List.Nodup.sublist (List.filter_sublist.map _) ?_
      show (keys (Fields.update _ metadata.joins source)).Nodup
      rw [Fields.keys_update]
      exact h.joined
    -- the store that lost the aggregate counts one less, every other one as before
    case fed =>
      intro store other
      rw [withoutTarget, Fields.getD_get?_update_filter rfl h.joined,
        Fields.getD_get?_update_filter rfl h.stores]
      split
      · exact countP_without (fun _ => target_ne_of_mem_eraseP (h.nodup_targets_of_store store))
          (h.fed store) other
      · exact h.fed store other

/-! ## Registrations -/

/-- What is in order depends on the tables of aggregates and joins alone. -/
theorem Tidy.of_tables (h : metadata.Tidy) {other : Metadata}
    (htables : (other.aggregates, other.aggregatesSort, other.externals, other.joins) =
      (metadata.aggregates, metadata.aggregatesSort, metadata.externals, metadata.joins)) :
    other.Tidy := by
  obtain ⟨haggregates, hsort, hexternals, hjoins⟩ := by simpa using htables
  constructor
  · rw [hsort]
    exact h.sorted
  · rw [hsort, haggregates]
    exact h.known
  · rw [haggregates]
    exact h.keyed
  · rw [hexternals]
    exact h.stores
  · rw [hexternals]
    exact h.targets
  · rw [haggregates, hexternals]
    exact h.apart
  · rw [hjoins]
    exact h.joined
  · rw [hjoins, hexternals]
    exact h.fed

/-- Nothing is registered at the start. -/
theorem Tidy.start (store : String) : Tidy { storeName := store } where
  sorted := List.nodup_nil
  known := by simp
  keyed := by simp
  stores := List.nodup_nil
  targets := List.nodup_nil
  apart := by simp [has]
  joined := List.nodup_nil
  fed := by simp

/-- A local aggregate takes the place of what its target had. -/
theorem Tidy.declareLocal (h : metadata.Tidy) (aggregate : LocalAggregate) :
    (metadata.declareLocal aggregate).Tidy := by
  obtain ⟨htidy, haggregates, hsort, hremoved⟩ := h.removeExternal aggregate.target
  constructor
  case stores => exact htidy.stores
  case targets => exact htidy.targets
  case joined => exact htidy.joined
  case fed => exact htidy.fed
  case sorted =>
    show (if has _ _ then _ else _ : List String).Nodup
    split
    · exact htidy.sorted
    · next hnew =>
      refine List.nodup_append.mpr ⟨htidy.sorted, List.nodup_singleton _, ?_⟩
      rintro a ha b hb rfl
      obtain rfl : a = aggregate.target := by simpa using hb
      exact hnew (htidy.known _ ha)
  case known =>
    intro target htarget
    refine (Fields.has_set _ _ _ _).mpr ?_
    by_cases heq : target = aggregate.target
    · exact .inl heq
    · refine .inr (htidy.known target ?_)
      replace htarget : target ∈ (if has _ _ then _ else _ : List String) := htarget
      split at htarget
      · exact htarget
      · rcases List.mem_append.mp htarget with hold | hnew
        · exact hold
        · exact absurd (List.mem_singleton.mp hnew) heq
  case keyed =>
    intro target other hget
    replace hget : get? (Fields.set _ aggregate.target aggregate) target = some other := hget
    by_cases heq : target = aggregate.target
    · subst heq
      rw [Fields.get?_set_self] at hget
      rw [← Option.some.inj hget]
    · rw [Fields.get?_set_of_ne _ _ heq] at hget
      exact htidy.keyed target other hget
  case apart =>
    intro target hhas other hmem
    rcases (Fields.has_set _ _ _ _).mp hhas with rfl | hold
    · exact hremoved other hmem
    · exact htidy.apart target hold other hmem

/-- The tables without the local aggregate of a target. -/
def withoutLocal (metadata : Metadata) (target : String) : Metadata :=
  { metadata with
    aggregates := Fields.erase metadata.aggregates target
    aggregatesSort := metadata.aggregatesSort.filter (· ≠ target) }

/-- Without the local aggregate of a target, the others are found as before. -/
theorem get?_withoutLocal {target other : String} {aggregate : LocalAggregate} :
    get? (metadata.withoutLocal target).aggregates other = some aggregate ↔
      other ≠ target ∧ get? metadata.aggregates other = some aggregate := by
  rw [withoutLocal, Fields.get?_erase]
  by_cases heq : other = target <;> simp [heq]

/-- Taking out a local aggregate keeps the order. -/
theorem Tidy.withoutLocal (h : metadata.Tidy) (target : String) :
    (metadata.withoutLocal target).Tidy where
  sorted := h.sorted.filter _
  known other hother := by
    obtain ⟨hmem, hne⟩ := List.mem_filter.mp hother
    obtain ⟨value, hvalue⟩ := Fields.has_iff.mp (h.known other hmem)
    exact Fields.has_iff.mpr ⟨value, get?_withoutLocal.mpr ⟨by simpa using hne, hvalue⟩⟩
  keyed other aggregate hget := h.keyed other aggregate (get?_withoutLocal.mp hget).2
  stores := h.stores
  targets := h.targets
  apart other hhas := by
    obtain ⟨value, hvalue⟩ := Fields.has_iff.mp hhas
    exact h.apart other (Fields.has_iff.mpr ⟨value, (get?_withoutLocal.mp hvalue).2⟩)
  joined := h.joined
  fed := h.fed

/-- An external aggregate takes the place of what its target had. -/
theorem Tidy.promote (h : metadata.Tidy) (aggregate : ExternalAggregate) :
    (metadata.promote aggregate).Tidy := by
  obtain ⟨htidy, haggregates, hsort, hremoved⟩ :=
    (h.withoutLocal aggregate.target).removeExternal aggregate.target
  have hpush := Fields.entries_push
    ((metadata.withoutLocal aggregate.target).removeExternal aggregate.target).externals
    aggregate.store aggregate
  refine ⟨htidy.sorted, htidy.known, htidy.keyed, ?_, ?_, ?_,
    Fields.nodup_keys_set htidy.joined _ _, ?_⟩
  · exact Fields.nodup_keys_set htidy.stores _ _
  · refine ((hpush.map (·.target)).nodup_iff).mpr ?_
    rw [List.map_append, List.nodup_append]
    refine ⟨htidy.targets, List.nodup_singleton _, ?_⟩
    rintro a ha b hb rfl
    obtain rfl : a = aggregate.target := by simpa using hb
    obtain ⟨other, hother, heq⟩ := List.mem_map.mp ha
    exact hremoved other hother heq
  · intro target hhas other hmem
    rcases List.mem_append.mp (hpush.mem_iff.mp hmem) with hold | hnew
    · exact htidy.apart target hhas other hold
    · obtain rfl := List.mem_singleton.mp hnew
      -- the local aggregate of the target has been taken out before
      replace hhas : has ((metadata.withoutLocal other.target).removeExternal
        other.target).aggregates target = true := hhas
      rw [haggregates] at hhas
      obtain ⟨value, hvalue⟩ := Fields.has_iff.mp hhas
      exact (get?_withoutLocal.mp hvalue).1.symm
  · intro store target
    show ((get? (Fields.push _ _ _) store).getD []).countP _ =
      ((get? (Fields.push _ _ _) store).getD []).countP _
    rw [Fields.getD_get?_push, Fields.getD_get?_push]
    have hfed := htidy.fed store target
    split
    · next heq =>
      subst heq
      rw [List.countP_append, List.countP_append]
      exact congrArg₂ (· + ·) hfed (by simp [Join.Feeds])
    · exact hfed

/-- Attachments are no matter of aggregates. -/
theorem Tidy.addJoin (h : metadata.Tidy) {join : Join} (hattaches : join.Attaches) :
    (metadata.addJoin join).Tidy where
  sorted := h.sorted
  known := h.known
  keyed := h.keyed
  stores := h.stores
  targets := h.targets
  apart := h.apart
  joined := Fields.nodup_keys_set h.joined _ _
  fed store target := by
    show ((get? (Fields.push _ _ _) store).getD []).countP _ = _
    rw [Fields.getD_get?_push]
    split
    · next heq =>
      have hfeeds : ¬ join.Feeds target := fun hfeeds => hattaches hfeeds.1
      have hsingle : [join].countP (·.Feeds target) = 0 := by simp [hfeeds]
      rw [List.countP_append, hsingle, ← heq]
      exact h.fed store target
    · exact h.fed store target

/-! ## Attachments -/

/-- A join that attaches is one attachment more. -/
theorem attachments_addJoin (metadata : Metadata) (join : Join) :
    (metadata.addJoin join).attachments.Perm
      (metadata.attachments ++ if join.Attaches then [join] else []) := by
  have hpush := (Fields.entries_push metadata.joins join.store join).filter (·.Attaches)
  rw [List.filter_append] at hpush
  refine hpush.trans ?_
  by_cases hattaches : join.Attaches <;> simp [hattaches, attachments]

theorem attachments_declareLocal (metadata : Metadata) (aggregate : LocalAggregate) :
    (metadata.declareLocal aggregate).attachments = metadata.attachments :=
  attachments_removeExternal metadata aggregate.target

theorem attachments_promote (metadata : Metadata) (aggregate : ExternalAggregate) :
    (metadata.promote aggregate).attachments.Perm metadata.attachments := by
  have hjoin := attachments_addJoin
    ((metadata.withoutLocal aggregate.target).removeExternal aggregate.target)
    ⟨aggregate.store, aggregate.target, .aggregate⟩
  rw [attachments_removeExternal, if_neg (fun hattaches => hattaches rfl), List.append_nil] at hjoin
  exact hjoin

/-! ## What the order gives -/

namespace Tidy

/-- The local aggregates are in the order of their targets. -/
theorem targets_localAggregates (h : metadata.Tidy) :
    metadata.localAggregates.map (·.target) = metadata.aggregatesSort := by
  have hkeyed : ∀ target ∈ metadata.aggregatesSort,
      (get? metadata.aggregates target).map (·.target) = some target := by
    intro target htarget
    obtain ⟨aggregate, hget⟩ := Fields.has_iff.mp (h.known target htarget)
    rw [hget, Option.map_some, h.keyed target aggregate hget]
  rw [localAggregates, List.map_filterMap, List.filterMap_congr hkeyed, List.filterMap_some]

/-- No two local aggregates have one target. -/
theorem nodup_targets (h : metadata.Tidy) :
    (metadata.localAggregates.map (·.target)).Nodup := by
  rw [h.targets_localAggregates]
  exact h.sorted

/-- The target of a local aggregate has no external one. -/
theorem not_external (h : metadata.Tidy) {aggregate : LocalAggregate}
    (hlocal : aggregate ∈ metadata.localAggregates) {store : String}
    {external : ExternalAggregate}
    (hexternal : external ∈ (get? metadata.externals store).getD []) :
    external.target ≠ aggregate.target := by
  obtain ⟨target, -, hget⟩ := List.mem_filterMap.mp hlocal
  rw [h.keyed target aggregate hget]
  exact h.apart target (Fields.has_iff.mpr ⟨aggregate, hget⟩) external
    ((Fields.sublist_entries metadata.externals store).subset hexternal)

/-- A store has one external aggregate for a target at most. -/
theorem eq_of_target (h : metadata.Tidy) {store : String} {a b : ExternalAggregate}
    (ha : a ∈ (get? metadata.externals store).getD [])
    (hb : b ∈ (get? metadata.externals store).getD []) (htarget : a.target = b.target) : a = b :=
  List.inj_on_of_nodup_map (h.nodup_targets_of_store store) ha hb htarget

/-- The external aggregates of a target are those of one store. -/
theorem store_eq_of_target (h : metadata.Tidy) {store store' : String} {a b : ExternalAggregate}
    (ha : a ∈ (get? metadata.externals store).getD [])
    (hb : b ∈ (get? metadata.externals store').getD []) (htarget : a.target = b.target) :
    store = store' := by
  refine Fields.key_eq_of_nodup (p := fun _ => true) ?_ ha hb rfl rfl htarget
  rw [List.filter_true]
  exact h.targets

/-- One join of a store feeds the external aggregate of a target. -/
theorem fed_once (h : metadata.Tidy) {store : String} {aggregate : ExternalAggregate}
    (hmem : aggregate ∈ (get? metadata.externals store).getD []) :
    ((get? metadata.joins store).getD []).countP (·.Feeds aggregate.target) = 1 := by
  have hcount := List.count_eq_one_of_mem (h.nodup_targets_of_store store)
    (List.mem_map_of_mem hmem)
  rw [List.count, List.countP_map] at hcount
  rw [h.fed, ← hcount]
  refine List.countP_congr fun other _ => ?_
  simp

/-- Every external aggregate is fed by a join. -/
theorem exists_feed (h : metadata.Tidy) {store : String} {aggregate : ExternalAggregate}
    (hmem : aggregate ∈ (get? metadata.externals store).getD []) :
    ∃ join ∈ (get? metadata.joins store).getD [], join.Feeds aggregate.target := by
  have hpositive : 0 < ((get? metadata.joins store).getD []).countP (·.Feeds aggregate.target) :=
    h.fed_once hmem ▸ Nat.one_pos
  obtain ⟨join, hjoin, hfeeds⟩ := List.countP_pos_iff.mp hpositive
  exact ⟨join, hjoin, of_decide_eq_true hfeeds⟩

end Tidy

end Metadata

end NestedRecord
