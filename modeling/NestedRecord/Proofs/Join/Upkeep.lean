import NestedRecord.Proofs.Join.Coverage

/-!
# Keeping an aggregate current

The procedure of an attachment writes its new content and brings the aggregates over it up to
date, from their persisted states where there are any. Both ways of doing so lead to the fold of
the values that stand below the element of the target.

A persisted state is brought up to date by taking out the record that was replaced and adding the
one that has come in. With no state at hand, or when all records are set at once, everything is
folded anew. The two agree because a built-in kind does not depend on the order of the values as
long as they are exact: the values before and after the change are one rest and one record each.

- `Coverage.Kept` and `Coverage.Shown`: the persisted state and the target are the fold.
- `next_eq`: the next state is the fold of the values after the change.
- `Coverage.refreshAll_others`: the other aggregates over the attachment leave this one as it is.
- `Coverage.attach_settles`: after an instance has been written, both are the fold.
-/

namespace NestedRecord

open Joining
open Recompute (Resolved)
open AggregateKind (Exact Faithful)

/-- Whatever a failure is reported for, the value is the same. -/
theorem applyTransformer_value (procedure other path : String) (transformer : Option Handler)
    (value constants : Json) :
    (applyTransformer procedure path transformer value constants).1 =
      (applyTransformer other path transformer value constants).1 := by
  unfold applyTransformer
  cases transformer with
  | none => rfl
  | some handler =>
    simp only
    split <;> rfl

namespace Coverage

variable {blueprint : Blueprint} {join : Join} {attachment : ResolvedPath} {resolved : Resolved}
  {surroundings : Surroundings} {kind : AggregateKind}

/-! ## One aggregate -/

theorem value_inlined (surroundings : Surroundings) (record : Json) :
    ((inlined attachment resolved).value surroundings.constants record).1 =
      valueOf surroundings.toEnvironment resolved record :=
  applyTransformer_value _ _ _ _ _ _

/-- Records that are added one after the other are folded. -/
theorem foldl_addRecord (records : List Json) (state : AggregateState × Journal) :
    (records.foldl ((inlined attachment resolved).addRecord kind surroundings.constants) state).1 =
      (records.map (valueOf surroundings.toEnvironment resolved)).foldl kind.add state.1 := by
  induction records generalizing state with
  | nil => rfl
  | cons record rest ih =>
    rw [List.foldl_cons, ih, List.map_cons, List.foldl_cons]
    exact congrArg (fun value => List.foldl kind.add (kind.add state.1 value) _)
      (value_inlined surroundings record)

/-- Records that are removed one after the other are taken out of the fold. -/
theorem foldl_removeRecord (records : List Json) (state : AggregateState × Journal) :
    (records.foldl ((inlined attachment resolved).removeRecord kind surroundings.constants)
        state).1 =
      (records.map (valueOf surroundings.toEnvironment resolved)).foldl kind.remove state.1 := by
  induction records generalizing state with
  | nil => rfl
  | cons record rest ih =>
    rw [List.foldl_cons, ih, List.map_cons, List.foldl_cons]
    exact congrArg (fun value => List.foldl kind.remove (kind.remove state.1 value) _)
      (value_inlined surroundings record)

/-- A delta turns the fold of the values before it into that of the values after it. -/
theorem delta_eq (hfaithful : kind.Faithful) {removed added : Option Json}
    {before after rest : List Json}
    (hbefore : Exact before) (hafter : Exact after)
    (hremoved : before.Perm (removed.toList ++ rest)) (hadded : after.Perm (added.toList ++ rest)) :
    added.toList.foldl kind.add (removed.toList.foldl kind.remove (kind.fold before)) =
      kind.fold after := by
  have hwithout : removed.toList.foldl kind.remove (kind.fold before) = kind.fold rest := by
    rw [hfaithful.fold_perm hbefore hremoved]
    cases removed with
    | none => rfl
    | some value => exact hfaithful.remove_fold (hbefore.perm hremoved)
  rw [hwithout, hfaithful.fold_perm hafter (hadded.trans List.perm_append_comm)]
  cases added with
  | none =>
    rw [Option.toList_none, List.append_nil]
    rfl
  | some value => exact (kind.fold_append rest value).symm

/-- The next state of an aggregate is the fold of the values after the change. -/
theorem next_eq (hfaithful : kind.Faithful) {cursor : Cursor} {state : State}
    {persisted : Option AggregateState} {change : Attached.Change} {before after : List Json}
    (hpersisted : ∀ folded, persisted = some folded → folded = kind.fold before)
    (hattached : ((inlined attachment resolved).attached cursor state.record).map
      (valueOf surroundings.toEnvironment resolved) = after)
    (hdelta : rebuilds surroundings.delta = false → Exact before ∧ Exact after ∧ ∃ rest,
      before.Perm ((change.removed.map (valueOf surroundings.toEnvironment resolved)).toList ++
        rest) ∧
      after.Perm ((change.added.map (valueOf surroundings.toEnvironment resolved)).toList ++
        rest)) :
    ((inlined attachment resolved).next surroundings kind cursor state persisted change).1 =
      kind.fold after := by
  -- without a state, and after a snapshot, everything is folded from the record
  have hanew : (((inlined attachment resolved).attached cursor state.record).foldl
      ((inlined attachment resolved).addRecord kind surroundings.constants) (kind.init, [])).1 =
        kind.fold after := by
    rw [foldl_addRecord, hattached]
    rfl
  unfold Inlined.next
  cases persisted with
  | none => exact hanew
  | some folded =>
    cases hrebuilds : rebuilds surroundings.delta with
    | true => exact hanew
    | false =>
      obtain ⟨hbefore, hafter, rest, hremoved, hadded⟩ := hdelta hrebuilds
      obtain rfl := hpersisted folded rfl
      simp only [foldl_addRecord, foldl_removeRecord]
      rw [← Option.toList_map, ← Option.toList_map]
      exact delta_eq hfaithful hbefore hafter hremoved hadded

/-! ## What the attachment holds -/

variable {record : Json} {element cursor : Cursor} {state : State}

section

variable (hlevels : blueprint.LevelsDeclared)
  (h : Coverage blueprint join attachment resolved)

include hlevels h

/-- The records that the procedure finds below the element are those that the aggregate folds. -/
theorem attached_values (surroundings : Surroundings) (hfits : cursor.Fits attachment.loops)
    (hshaped : Json.shapedAlong attachment.leaf attachment.loops record = true) :
    ((inlined attachment resolved).attached cursor record).map
        (valueOf surroundings.toEnvironment resolved) =
      resolved.values surroundings.toEnvironment record (cursor.upTo resolved.target.depth) := by
  obtain ⟨helement, -⟩ := h.upTo_fits hlevels hfits
  obtain ⟨hleads, -⟩ := Blueprint.leads_of_lenient hlevels h.leads
  rw [h.values_eq hlevels]
  show _ = List.flatMap (fun inner => List.map _ _) _
  rw [← List.map_flatMap, Json.flatMap_reach]
  congr 1
  have hget : cursor.getAt? record resolved.target.depth [] =
      record.locate? (cursor.upTo resolved.target.depth).element := by
    rw [Cursor.getAt?_eq_locate?, Cursor.place_eq, Cursor.below, List.map_nil, List.append_nil]
  show ((_ : List String).foldl stepDown (cursor.getAt? record resolved.target.depth []).toList).filter
    Json.isObject = _
  rw [hget]
  -- where the element is missing, both ways find nothing
  cases hlocate : record.locate? (cursor.upTo resolved.target.depth).element with
  | none =>
    rw [Option.toList_none, foldl_stepDown]
    rfl
  | some value =>
    rw [Option.toList_some, List.flatMap_singleton]
    refine filter_foldl_stepDown hleads.leaf_ne_nil ?_
      fun loop hloop => hleads.access_ne_nil loop (List.mem_of_mem_drop hloop)
    rw [h.attachment_loops hlevels] at hshaped
    have hroot : record.locate? (Cursor.element {}) = some record := rfl
    exact Json.shapedAlong_of_under _ hroot hshaped
      (Cursor.fits_iff_under_root.mp helement) hlocate

/-- The targets that the attachment's procedure writes lie off the attachment. -/
theorem off_of_inlined (hfits : cursor.Fits attachment.loops) {other : Inlined}
    (hother : other ∈ (attachmentAt blueprint join attachment).inlined) :
    Off attachment resolved (cursor.place other.depth other.targetLeaf) := by
  obtain ⟨aggregate, haggregate, hinlined⟩ := List.mem_filterMap.mp hother
  obtain ⟨rest, target, -, htarget, hscalar, hloops, rfl⟩ := inlined?_eq_some hinlined
  exact h.off_of_target hlevels haggregate htarget (valueAt_of_inlined hother hfits).2
    (h.not_inside hlevels htarget hscalar hloops)

/-- Among the aggregates over the attachment, the others have other targets. -/
theorem exists_inlined (htidy : blueprint.metadata.Tidy) :
    ∃ front back, (attachmentAt blueprint join attachment).inlined =
        front ++ inlined attachment resolved :: back ∧
      ∀ other ∈ front ++ back, other.target ≠ resolved.aggregate.target := by
  obtain ⟨before, after, hsplit⟩ := List.append_of_mem h.feeds.mem
  have hnodup := htidy.nodup_targets
  rw [hsplit, List.map_append, List.map_cons] at hnodup
  refine ⟨before.filterMap (inlined? blueprint attachment),
    after.filterMap (inlined? blueprint attachment), ?_, ?_⟩
  · show blueprint.metadata.localAggregates.filterMap _ = _
    rw [hsplit, List.filterMap_append, List.filterMap_cons, h.inlined?_eq hlevels]
  · intro other hother
    rw [← List.filterMap_append] at hother
    obtain ⟨aggregate, hmem, hinlined⟩ := List.mem_filterMap.mp hother
    obtain ⟨-, -, -, -, -, -, rfl⟩ := inlined?_eq_some hinlined
    intro heq
    rcases List.mem_append.mp hmem with hmem | hmem
    · exact List.disjoint_of_nodup_append hnodup (List.mem_map_of_mem hmem)
        (heq ▸ List.mem_cons_self)
    · exact (List.nodup_cons.mp (List.nodup_append.mp hnodup).2.1).1
        (heq ▸ List.mem_map_of_mem hmem)

/-- The cursor of an instance is one of those below its element, and is listed once. -/
theorem exists_split (hfits : cursor.Fits attachment.loops)
    (hpresent : (record.locate? cursor.element).isSome) :
    ∃ front back, record.reach (cursor.upTo resolved.target.depth)
        (attachment.loops.drop resolved.target.depth) = front ++ cursor :: back ∧
      ∀ inner ∈ front ++ back, inner ≠ cursor ∧ inner.Fits attachment.loops := by
  obtain ⟨helement, hunder⟩ := h.upTo_fits hlevels hfits
  have hmem : cursor ∈ record.reach (cursor.upTo resolved.target.depth)
      (attachment.loops.drop resolved.target.depth) := by
    refine (Json.mem_reach ?_).mpr ⟨hunder, hpresent⟩
    obtain ⟨rest, hrest⟩ := Cursor.element_above hunder.entered_above
    rw [← hrest] at hpresent
    exact Json.locate?_isSome_of_append hpresent
  have hnodup : (record.reach (cursor.upTo resolved.target.depth)
      (attachment.loops.drop resolved.target.depth)).Nodup := Json.nodup_reach
  obtain ⟨front, back, hsplit⟩ := List.append_of_mem hmem
  refine ⟨front, back, hsplit, fun inner hinner => ⟨?_, ?_⟩⟩
  · rintro rfl
    rw [hsplit] at hnodup
    exact (List.nodup_cons.mp (List.perm_middle.nodup_iff.mp hnodup)).1 hinner
  · have hreach : inner ∈ record.reach (cursor.upTo resolved.target.depth)
        (attachment.loops.drop resolved.target.depth) := by
      rw [hsplit]
      exact List.perm_middle.mem_iff.mpr (List.mem_cons_of_mem _ hinner)
    have hboth := (Json.under_of_mem_reach hreach).fits helement
    rwa [← h.attachment_loops hlevels] at hboth

/-- Writing one instance of the attachment changes the values of its records only. -/
theorem exists_others {environment : Environment} {a b : Json}
    (hfits : cursor.Fits attachment.loops)
    (hwritten : Json.SameOutside (· = cursor.below attachment.leaf) a b)
    (hpresent : (a.locate? cursor.element).isSome) :
    ∃ others,
      (resolved.values environment a (cursor.upTo resolved.target.depth)).Perm
        (valuesAt environment attachment resolved a cursor ++ others) ∧
      (resolved.values environment b (cursor.upTo resolved.target.depth)).Perm
        (valuesAt environment attachment resolved b cursor ++ others) := by
  have htouched : ∀ location, location = cursor.below attachment.leaf →
      At attachment location ∨ Off attachment resolved location := by
    rintro location rfl
    exact .inl ⟨cursor, hfits, rfl⟩
  obtain ⟨front, back, hsplit, hothers⟩ := h.exists_split hlevels hfits hpresent
  -- what stands in the other instances has not been touched
  have hsame : ∀ inner ∈ front ++ back, valuesAt environment attachment resolved b inner =
      valuesAt environment attachment resolved a inner := by
    intro inner hinner
    obtain ⟨hne, hinnerFits⟩ := hothers inner hinner
    have hlocate := h.locate?_eq hlevels hwritten htouched hinnerFits fun hsame =>
      hne (Cursor.eq_of_above hinnerFits hfits ⟨[], (List.append_nil _).trans hsame⟩)
    rw [valuesAt, Json.itemsAt_eq_of_locate? hlocate, valuesAt]
  have hperm : ∀ f : Cursor → List Json, ((front ++ cursor :: back).flatMap f).Perm
      (f cursor ++ (front ++ back).flatMap f) := fun f =>
    List.perm_middle.flatMap_right f
  refine ⟨(front ++ back).flatMap (valuesAt environment attachment resolved a), ?_, ?_⟩
  · rw [h.values_eq hlevels, hsplit]
    exact hperm _
  · rw [h.values_eq hlevels,
      h.reach_eq hlevels hwritten htouched (h.upTo_fits hlevels hfits).1, hsplit,
      ← List.flatMap_congr hsame]
    exact hperm _

/-- The same with records that come and go. -/
theorem exists_values_rest {environment : Environment} {a b : Json}
    (hfits : cursor.Fits attachment.loops)
    (hwritten : Json.SameOutside (· = cursor.below attachment.leaf) a b)
    (hpresent : (a.locate? cursor.element).isSome) {removed added : Option Json} {rest : List Json}
    (hremoved : (a.itemsAt (cursor.below attachment.leaf)).Perm (removed.toList ++ rest))
    (hadded : (b.itemsAt (cursor.below attachment.leaf)).Perm (added.toList ++ rest)) :
    ∃ others,
      (resolved.values environment a (cursor.upTo resolved.target.depth)).Perm
        ((removed.map (valueOf environment resolved)).toList ++ others) ∧
      (resolved.values environment b (cursor.upTo resolved.target.depth)).Perm
        ((added.map (valueOf environment resolved)).toList ++ others) := by
  obtain ⟨others, hbefore, hafter⟩ := h.exists_others hlevels hfits hwritten hpresent
  have hlift : ∀ {moved : Option Json} {items : List Json}, items.Perm (moved.toList ++ rest) →
      (items.map (valueOf environment resolved) ++ others).Perm
        ((moved.map (valueOf environment resolved)).toList ++
          (rest.map (valueOf environment resolved) ++ others)) := by
    intro moved items hperm
    rw [Option.toList_map, ← List.append_assoc, ← List.map_append]
    exact (hperm.map _).append_right _
  exact ⟨_, hbefore.trans (hlift hremoved), hafter.trans (hlift hadded)⟩

/-- The record stays shaped when records that are objects come into an instance. -/
theorem shapedAlong_of_written {touched : Location → Prop} {a b : Json} {items incoming : List Json}
    (hfits : cursor.Fits attachment.loops) (hsame : Json.SameOutside touched a b)
    (htouched : ∀ location, touched location →
      location = cursor.below attachment.leaf ∨ Off attachment resolved location)
    (hcontent : b.locate? (cursor.below attachment.leaf) = some (.array items))
    (hsub : items.Subperm (a.itemsAt (cursor.below attachment.leaf) ++ incoming))
    (hobjects : ∀ record ∈ incoming, record.isObject = true)
    (ha : Json.shapedAlong attachment.leaf attachment.loops a = true) :
    Json.shapedAlong attachment.leaf attachment.loops b = true := by
  have hat : ∀ location, touched location →
      At attachment location ∨ Off attachment resolved location := fun location hlocation =>
    (htouched location hlocation).imp (fun heq => ⟨cursor, hfits, heq⟩) id
  refine h.shapedAlong_of_same hlevels hsame hat ha fun inner hinner hbefore part hpart => ?_
  -- the instance that is written holds old records and incoming ones
  by_cases hself : inner = cursor
  · subst hself
    cases Option.some.inj (hcontent.symm.trans hpart)
    refine .inr (List.all_eq_true.mpr fun item hitem => ?_)
    rcases List.mem_append.mp (hsub.subset hitem) with hold | hnew
    · unfold Json.itemsAt at hold
      split at hold
      · next old hlocate =>
        exact List.all_eq_true.mp ((hbefore _ hlocate).resolve_left (by simp)) item hold
      · cases hold
    · exact hobjects item hnew
  · refine hbefore part ?_
    rw [← h.locate?_eq hlevels hsame hat hinner fun hlocation => ?_]
    · exact hpart
    rcases htouched _ hlocation with heq | hoff
    · exact hself (Cursor.eq_of_above hinner hfits ⟨[], (List.append_nil _).trans heq⟩)
    · exact h.not_off_of_at hlevels ⟨inner, hinner, rfl⟩ hoff

end

/-! ## One event -/

/-- What is persisted for the target of an element, if anything, is the fold of the values below
the element. -/
def Kept (environment : Environment) (kind : AggregateKind) (resolved : Resolved) (state : State)
    (element : Cursor) : Prop :=
  ∀ folded, Fields.get? state.states (element.below resolved.target.leaf).pointer = some folded →
    folded = kind.fold (resolved.values environment state.record element)

theorem kept_empty (environment : Environment) (kind : AggregateKind) (resolved : Resolved)
    (record : Json) (element : Cursor) :
    Kept environment kind resolved { record, states := [] } element := by
  intro folded hfolded
  cases hfolded

/-- The target of an element shows the fold of the values below the element. -/
def Shown (environment : Environment) (kind : AggregateKind) (resolved : Resolved) (record : Json)
    (element : Cursor) : Prop :=
  record.locate? (element.below resolved.target.leaf) =
    some (kind.fold (resolved.values environment record element)).value

/-- The aggregate's own target takes its next state. -/
theorem refresh_inlined (hkind : surroundings.kinds.get? resolved.aggregate.op = some kind)
    (hleaf : resolved.target.leaf ≠ []) {change : Attached.Change} {folded : AggregateState}
    (hnext : ((inlined attachment resolved).next surroundings kind cursor state
      (Fields.get? state.states
        ((cursor.upTo resolved.target.depth).below resolved.target.leaf).pointer) change).1 =
          folded) :
    Fields.get? ((inlined attachment resolved).refresh surroundings cursor change state).states
        ((cursor.upTo resolved.target.depth).below resolved.target.leaf).pointer = some folded ∧
      (resolved.Owns state.record (cursor.upTo resolved.target.depth) →
        ((inlined attachment resolved).refresh surroundings cursor change state).record.locate?
          ((cursor.upTo resolved.target.depth).below resolved.target.leaf) =
            some folded.value) := by
  have hop : surroundings.kinds.get? (inlined attachment resolved).op = some kind := hkind
  subst hnext
  unfold Inlined.refresh
  rw [hop]
  refine ⟨Fields.get?_set_self _ _ _, fun howns => ?_⟩
  obtain ⟨record, hset⟩ := Option.isSome_iff_exists.mp ((Cursor.setAt?_isSome hleaf).mpr howns)
  show ((cursor.setAt? state.record resolved.target.depth resolved.target.leaf _).getD _).locate? _
    = _
  rw [hset]
  exact (Cursor.setAt?_written hset).locate?_self

section Event

variable {store : String} (hlevels : blueprint.LevelsDeclared)
  (h : Coverage blueprint join attachment resolved) (htidy : blueprint.metadata.Tidy)

include h

/-- The attachment's procedure leaves an instance as it is, or writes its records anew and brings
the aggregates over it up to date. -/
theorem attach_cases (surroundings : Surroundings) (cursor : Cursor) (state : State) :
    attach surroundings (attachmentAt blueprint join attachment) cursor state = state ∨
      ∃ change record items,
        attach surroundings (attachmentAt blueprint join attachment) cursor state =
          refreshAll surroundings (attachmentAt blueprint join attachment).inlined cursor change
            { state with record } ∧
        Json.Written (.array items) (cursor.below attachment.leaf) state.record record ∧
        (state.record.locate? cursor.element).isSome ∧
        items.Subperm (state.record.itemsAt (cursor.below attachment.leaf) ++
          Attached.incoming surroundings.delta) ∧
        (rebuilds surroundings.delta = false → ∃ rest,
          (state.record.itemsAt (cursor.below attachment.leaf)).Perm
            (change.removed.toList ++ rest) ∧
          items.Perm (change.added.toList ++ rest)) := by
  rcases Joining.attach_cases surroundings (attachmentAt blueprint join attachment) cursor state
    with heq | ⟨change, record, hchange, hset, heq⟩
  · exact .inl heq
  have hmany : (attachmentAt blueprint join attachment).many = true := by
    show (join.cardinality == .many) = true
    rw [h.many]
    rfl
  rw [changeAt?, hmany] at hchange
  obtain ⟨items, hcontent, hsub, hperm⟩ := Attached.changeMany?_perm hchange
  -- content that is no list counts as no records, on both sides
  have hrecords : Attached.records ((state.record.locate?
      (cursor.below attachment.leaf)).getD .null) =
        state.record.itemsAt (cursor.below attachment.leaf) := by
    unfold Attached.records Json.itemsAt
    cases state.record.locate? (cursor.below attachment.leaf) with
    | none => rfl
    | some content => cases content <;> rfl
  rw [show (attachmentAt blueprint join attachment).leaf = attachment.leaf from rfl, hrecords]
    at hsub hperm
  have hwritten := Cursor.setAt?_written hset
  rw [Cursor.place_depth, hcontent] at hwritten
  refine .inr ⟨change, record, items, heq, hwritten, ?_, hsub, hperm⟩
  obtain ⟨part, hpart, -⟩ := (Json.modifyAt?_isSome _ _).mp (Option.isSome_of_eq_some hset)
  rw [show cursor.location cursor.depth = cursor.element by
    rw [Cursor.location, Cursor.depth, List.take_length, Cursor.element]] at hpart
  exact Option.isSome_of_eq_some hpart

include hlevels

/-- Bringing other aggregates over the attachment up to date does not matter to this one. -/
theorem refreshAll_others (surroundings : Surroundings) {others : List Inlined}
    (hothers : ∀ other ∈ others, other ∈ (attachmentAt blueprint join attachment).inlined ∧
      other.target ≠ resolved.aggregate.target)
    (hfits : cursor.Fits attachment.loops) (change : Attached.Change) (state : State)
    (helement : element.Fits resolved.target.loops) :
    resolved.values surroundings.toEnvironment
        (refreshAll surroundings others cursor change state).record element =
      resolved.values surroundings.toEnvironment state.record element ∧
    Fields.get? (refreshAll surroundings others cursor change state).states
        (element.below resolved.target.leaf).pointer =
      Fields.get? state.states (element.below resolved.target.leaf).pointer ∧
    (refreshAll surroundings others cursor change state).record.locate?
        (element.below resolved.target.leaf) =
      state.record.locate? (element.below resolved.target.leaf) := by
  have hsame := refreshAll_sameOutside surroundings others cursor change state
  have hvalue : ∀ other ∈ others,
      blueprint.ValueAt other.target (cursor.place other.depth other.targetLeaf) :=
    fun other hother => (valueAt_of_inlined (hothers other hother).1 hfits).2
  -- what the others write are their targets, which lie apart from this one
  have hapart := fun other hother => (hvalue other hother).apart hlevels
    (h.feeds.valueAt helement) (.inl (hothers other hother).2)
  refine ⟨?_, ?_, ?_⟩
  · refine h.values_congr hlevels hsame ?_ helement ?_
    · rintro location ⟨other, hother, rfl⟩
      exact .inr (h.off_of_inlined hlevels hfits (hothers other hother).1)
    · rintro inner hinner - ⟨other, hother, heq⟩
      exact h.not_off_of_at hlevels ⟨inner, hinner, rfl⟩
        (heq ▸ h.off_of_inlined hlevels hfits (hothers other hother).1)
  · refine refreshAll_states others cursor change state fun other hother hpointer => ?_
    have heq := (h.feeds.valueAt helement).eq_of_pointer hlevels (hvalue other hother) hpointer
    exact (hapart other hother).2 (heq ▸ List.prefix_refl _)
  · refine (hsame _ ?_).2 ?_
    · rintro location ⟨other, hother, rfl⟩
      exact (hapart other hother).1
    · rintro location ⟨other, hother, rfl⟩
      exact (hapart other hother).2

/-- The targets that the attachment's procedure writes hold none of the values that are folded. -/
theorem refreshAll_kept (surroundings : Surroundings) (hfits : cursor.Fits attachment.loops)
    (change : Attached.Change) (state : State) (helement : element.Fits resolved.target.loops) :
    (refreshAll surroundings (attachmentAt blueprint join attachment).inlined cursor change
        state).record.locate? (cursor.below attachment.leaf) =
      state.record.locate? (cursor.below attachment.leaf) ∧
    resolved.values surroundings.toEnvironment (refreshAll surroundings
        (attachmentAt blueprint join attachment).inlined cursor change state).record element =
      resolved.values surroundings.toEnvironment state.record element := by
  have hsame := refreshAll_sameOutside surroundings
    (attachmentAt blueprint join attachment).inlined cursor change state
  have hoff : ∀ location, (∃ other ∈ (attachmentAt blueprint join attachment).inlined,
      location = cursor.place other.depth other.targetLeaf) → Off attachment resolved location := by
    rintro location ⟨other, hother, rfl⟩
    exact h.off_of_inlined hlevels hfits hother
  constructor
  · exact h.locate?_eq hlevels hsame (fun location hlocation => .inr (hoff location hlocation))
      hfits fun hlocation => h.not_off_of_at hlevels ⟨cursor, hfits, rfl⟩ (hoff _ hlocation)
  · exact h.values_congr hlevels hsame (fun location hlocation => .inr (hoff location hlocation))
      helement fun inner hinner _ hlocation =>
        h.not_off_of_at hlevels ⟨inner, hinner, rfl⟩ (hoff _ hlocation)

/-- Nothing that an attachment's procedure writes stands above the object that owns the target. -/
theorem owns_of_same {touched : Location → Prop} {a b : Json}
    (hsame : Json.SameOutside touched a b)
    (htouched : ∀ location, touched location → At attachment location ∨
      ∃ path, blueprint.ValueAt path location)
    (helement : element.Fits resolved.target.loops) (howns : resolved.Owns a element) :
    resolved.Owns b element := by
  have hleaf := (Blueprint.leads_of_strict hlevels h.feeds.target).1.leaf_ne_nil
  refine (owned_iff hsame (Cursor.below_ne_nil hleaf) fun location hlocation hstart => ?_).mpr howns
  rcases htouched location hlocation with ⟨inner, hinner, rfl⟩ | ⟨path, hvalue⟩
  · have hnames := Location.names_above hstart
    rw [ResolvedPath.names_below hinner, helement.names_below] at hnames
    exact absurd hnames
      (h.not_inside hlevels h.feeds.target h.feeds.targetScalar (h.target_loops hlevels))
  · exact (hvalue.eq_of_above hlevels (h.feeds.valueAt helement) hstart).2

/-- When an instance has been written and other aggregates over the attachment have been brought up
to date, the record is shaped and the target has its owner. -/
theorem refreshAll_written {others : List Inlined}
    (hothers : ∀ other ∈ others, other ∈ (attachmentAt blueprint join attachment).inlined)
    (hobjects : ∀ record ∈ Attached.incoming surroundings.delta, record.isObject = true)
    (hfits : cursor.Fits attachment.loops)
    (hshaped : Json.shapedAlong attachment.leaf attachment.loops state.record = true)
    {items : List Json}
    (hwritten : Json.Written (.array items) (cursor.below attachment.leaf) state.record record)
    (hsub : items.Subperm (state.record.itemsAt (cursor.below attachment.leaf) ++
      Attached.incoming surroundings.delta)) (change : Attached.Change) :
    Json.shapedAlong attachment.leaf attachment.loops
        (refreshAll surroundings others cursor change { state with record }).record = true ∧
      (resolved.Owns state.record (cursor.upTo resolved.target.depth) →
        resolved.Owns (refreshAll surroundings others cursor change { state with record }).record
          (cursor.upTo resolved.target.depth)) := by
  have hoff : ∀ location, (∃ other ∈ others, location = cursor.place other.depth other.targetLeaf) →
      Off attachment resolved location := by
    rintro location ⟨other, hother, rfl⟩
    exact h.off_of_inlined hlevels hfits (hothers other hother)
  have hrefreshed := refreshAll_sameOutside surroundings others cursor change { state with record }
  have hsame : Json.SameOutside (fun location => location = cursor.below attachment.leaf ∨
      ∃ other ∈ others, location = cursor.place other.depth other.targetLeaf) state.record
      (refreshAll surroundings others cursor change { state with record }).record :=
    (hwritten.sameOutside.mono fun location => Or.inl).trans
      (hrefreshed.mono fun location => Or.inr)
  constructor
  · refine h.shapedAlong_of_written hlevels hfits hsame (fun location => Or.imp id (hoff location))
      ?_ hsub hobjects hshaped
    rw [h.locate?_eq hlevels hrefreshed (fun location hlocation => .inr (hoff location hlocation))
      hfits fun hlocation => h.not_off_of_at hlevels ⟨cursor, hfits, rfl⟩ (hoff _ hlocation)]
    exact hwritten.locate?_self
  · refine h.owns_of_same hlevels hsame ?_ (h.upTo_fits hlevels hfits).1
    rintro location (rfl | ⟨other, hother, rfl⟩)
    · exact .inl ⟨cursor, hfits, rfl⟩
    · exact .inr ⟨_, (valueAt_of_inlined (hothers other hother) hfits).2⟩

include htidy

/-- After the attachment's procedure has written an instance, the target of the element around it
and what is persisted for it are the fold of the values below the element. -/
theorem attach_settles (hfaithful : kind.Faithful)
    (hkind : surroundings.kinds.get? resolved.aggregate.op = some kind)
    (hobjects : ∀ record ∈ Attached.incoming surroundings.delta, record.isObject = true)
    (hfits : cursor.Fits attachment.loops)
    (hshaped : Json.shapedAlong attachment.leaf attachment.loops state.record = true)
    (hkept : Kept surroundings.toEnvironment kind resolved state
      (cursor.upTo resolved.target.depth))
    {change : Attached.Change} {items : List Json}
    (hwritten : Json.Written (.array items) (cursor.below attachment.leaf) state.record record)
    (hpresent : (state.record.locate? cursor.element).isSome)
    (hsub : items.Subperm (state.record.itemsAt (cursor.below attachment.leaf) ++
      Attached.incoming surroundings.delta))
    (hdelta : rebuilds surroundings.delta = false →
      Exact (resolved.values surroundings.toEnvironment state.record
        (cursor.upTo resolved.target.depth)) ∧
      Exact (resolved.values surroundings.toEnvironment record
        (cursor.upTo resolved.target.depth)) ∧ ∃ rest,
          (state.record.itemsAt (cursor.below attachment.leaf)).Perm
            (change.removed.toList ++ rest) ∧
          items.Perm (change.added.toList ++ rest))
    {after : State}
    (hafter : after = refreshAll surroundings (attachmentAt blueprint join attachment).inlined
      cursor change { state with record }) :
    Fields.get? after.states
        ((cursor.upTo resolved.target.depth).below resolved.target.leaf).pointer =
      some (kind.fold (resolved.values surroundings.toEnvironment after.record
        (cursor.upTo resolved.target.depth))) ∧
    (resolved.Owns state.record (cursor.upTo resolved.target.depth) →
      Shown surroundings.toEnvironment kind resolved after.record
        (cursor.upTo resolved.target.depth)) := by
  obtain ⟨helement, -⟩ := h.upTo_fits hlevels hfits
  obtain ⟨front, back, hsplit, hothers⟩ := h.exists_inlined hlevels htidy
  have hleaf := (Blueprint.leads_of_strict hlevels h.feeds.target).1.leaf_ne_nil
  have hmem : ∀ other ∈ front ++ back,
      other ∈ (attachmentAt blueprint join attachment).inlined ∧
        other.target ≠ resolved.aggregate.target := by
    intro other hother
    refine ⟨?_, hothers other hother⟩
    rw [hsplit]
    exact List.perm_middle.mem_iff.mpr (List.mem_cons_of_mem _ hother)
  have hfront := fun other hother => hmem other (List.mem_append_left back hother)
  have hback := fun other hother => hmem other (List.mem_append_right front hother)
  -- the values that stand there in the end are those that the new content brings
  have hvalues : resolved.values surroundings.toEnvironment after.record
      (cursor.upTo resolved.target.depth) =
        resolved.values surroundings.toEnvironment record (cursor.upTo resolved.target.depth) := by
    rw [hafter]
    exact (h.refreshAll_kept hlevels surroundings hfits change { state with record } helement).2
  -- the aggregates before this one leave what it starts from
  obtain ⟨before, hbefore⟩ : ∃ before, before = refreshAll surroundings front cursor change
      { state with record } := ⟨_, rfl⟩
  have hafterBefore : after = refreshAll surroundings back cursor change
      ((inlined attachment resolved).refresh surroundings cursor change before) := by
    rw [hafter, hsplit, hbefore, refreshAll, List.foldl_append]
    rfl
  obtain ⟨hvaluesBefore, hstatesBefore, -⟩ := h.refreshAll_others hlevels surroundings hfront hfits
    change { state with record } helement
  obtain ⟨hshapedBefore, hownsBefore⟩ := h.refreshAll_written hlevels
    (fun other hother => (hfront other hother).1) hobjects hfits hshaped hwritten hsub change
  rw [← hbefore] at hvaluesBefore hstatesBefore hshapedBefore hownsBefore
  have hattached := h.attached_values hlevels surroundings hfits hshapedBefore
  rw [hvaluesBefore] at hattached
  -- so that it goes on to the fold of the new values
  have hnext : ((inlined attachment resolved).next surroundings kind cursor before
      (Fields.get? before.states
        ((cursor.upTo resolved.target.depth).below resolved.target.leaf).pointer) change).1 =
      kind.fold (resolved.values surroundings.toEnvironment record
        (cursor.upTo resolved.target.depth)) := by
    rw [hstatesBefore]
    refine next_eq hfaithful hkept hattached fun hrebuilds => ?_
    obtain ⟨hexact, hexact', rest, hremoved, hadded⟩ := hdelta hrebuilds
    refine ⟨hexact, hexact', h.exists_values_rest hlevels hfits hwritten.sameOutside hpresent
      hremoved ?_⟩
    rw [Json.itemsAt, hwritten.locate?_self]
    exact hadded
  obtain ⟨hstate, hshows⟩ := refresh_inlined hkind hleaf hnext
  -- those behind it leave its target
  obtain ⟨-, hstatesAfter, hshownAfter⟩ := h.refreshAll_others hlevels surroundings hback hfits
    change ((inlined attachment resolved).refresh surroundings cursor change before) helement
  rw [← hafterBefore] at hstatesAfter hshownAfter
  rw [Shown, hvalues, hstatesAfter, hshownAfter]
  exact ⟨hstate, fun howns => hshows (hownsBefore howns)⟩

end Event

end Coverage

end NestedRecord
