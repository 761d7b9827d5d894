import NestedRecord.Proofs.Aggregate.Recompute
import NestedRecord.Proofs.Join.Frame
import NestedRecord.Proofs.Join.Records

/-!
# Aggregates over an attachment

A local aggregate whose source lies in the records of a to-many attachment is kept current when
the attachment changes. What it folds is one value of every record of the attachment below the
element that owns its target.

To keep such an aggregate current, three things must not interfere: the instances of the attachment,
the values inside their records, and the target. `Off` says of a place that it has nothing to do
with any of them. It is derived from the declarations alone, that is, from how the paths of the
joins and of the aggregate relate; places then differ because their names do.

- `Coverage` is such an aggregate: no list lies between the records and the source.
- `Coverage.inlined` is the same aggregate as the attachment's procedure has it, and
  `Coverage.values_eq` are the values that it folds.
- `Metadata.Alone`: no other join of a store meets the attachment or the target.
- `Coverage.touches_cases`: what the procedures of such a store write to is an instance of the
  attachment, or lies off the way to the source, the attachment and the target.
-/

namespace NestedRecord

open Recompute (Resolved)

/-- No other join of a store lies at, inside or around an attachment, or at or around a target;
and the attachment is registered once at most. -/
def Metadata.Alone (metadata : Metadata) (store : String) (join : Join) (target : String) : Prop :=
  ((metadata.joinsOf store).filter fun other =>
    segments other.path <+: segments join.path ∨ segments join.path <+: segments other.path ∨
      segments other.path <+: segments target).Sublist [join]

instance (metadata : Metadata) (store : String) (join : Join) (target : String) :
    Decidable (metadata.Alone store join target) :=
  inferInstanceAs (Decidable (List.Sublist _ [join]))

theorem Metadata.Alone.eq {metadata : Metadata} {store target : String} {join other : Join}
    (h : metadata.Alone store join target) (hother : other ∈ metadata.joinsOf store)
    (hmeets : segments other.path <+: segments join.path ∨
      segments join.path <+: segments other.path ∨ segments other.path <+: segments target) :
    other = join :=
  List.mem_singleton.mp (h.subset (List.mem_filter.mpr ⟨hother, decide_eq_true hmeets⟩))

/-- A local aggregate that folds one value of every record of a to-many attachment. -/
structure Coverage (blueprint : Blueprint) (join : Join) (attachment : ResolvedPath)
    (resolved : Resolved) : Prop where
  feeds : resolved.Feeds blueprint
  many : join.cardinality = .many
  leads : blueprint.resolveLenient join.path = .ok attachment
  list : ∃ key, attachment.target = .level key .array
  /-- the source lies in the attachment -/
  inside : ∃ rest, resolved.aggregate.source = join.path ++ "." ++ rest
  /-- and in no further list -/
  direct : resolved.source.depth = attachment.depth + 1

namespace Coverage

variable {blueprint : Blueprint} {join : Join} {attachment : ResolvedPath} {resolved : Resolved}
  {store : String} {environment : Environment} {record : Json} {element : Cursor}

/-- The value that is folded for a record. -/
def valueOf (environment : Environment) (resolved : Resolved) (record : Json) : Json :=
  (applyTransformer "aggregate" resolved.aggregate.target resolved.aggregate.transformer
    ((record.at? resolved.source.leaf).getD .null) environment.constants).1

/-- The values that are folded for the records of one instance of the attachment. -/
def valuesAt (environment : Environment) (attachment : ResolvedPath) (resolved : Resolved)
    (record : Json) (inner : Cursor) : List Json :=
  (record.itemsAt (inner.below attachment.leaf)).map (valueOf environment resolved)

/-- The aggregate as the procedures of the attachment have it. -/
def inlined (attachment : ResolvedPath) (resolved : Resolved) : Joining.Inlined where
  target := resolved.aggregate.target
  op := resolved.aggregate.op
  depth := resolved.target.depth
  targetLeaf := resolved.target.leaf
  route :=
    (attachment.loops.drop resolved.target.depth).flatMap (·.access) ++ attachment.leaf
  source := resolved.source.leaf
  transformer := resolved.aggregate.transformer

/-- A place that is neither at, inside or around the attachment nor on the way to the source. -/
def Off (attachment : ResolvedPath) (resolved : Resolved) (location : Location) : Prop :=
  ¬ location.names <+: resolved.source.names ∧ ¬ attachment.names <+: location.names

/-- An instance of the attachment. -/
def At (attachment : ResolvedPath) (location : Location) : Prop :=
  ∃ inner : Cursor, inner.Fits attachment.loops ∧ location = inner.below attachment.leaf

variable (hlevels : blueprint.LevelsDeclared)
  (h : Coverage blueprint join attachment resolved)

include h

theorem level : attachment.isScalar = false := by
  obtain ⟨key, htarget⟩ := h.list
  rw [ResolvedPath.isScalar, htarget]

theorem attaches : join.Attaches := by
  rw [Join.Attaches, h.many]
  decide

include hlevels

theorem attachment_names : attachment.names = segments join.path :=
  (Blueprint.leads_of_lenient hlevels h.leads).2.2

/-- The lists around the source are those around the attachment and the attachment itself, and
the source is named behind it. -/
theorem source_eq :
    (∃ key, resolved.source.loops = attachment.loops ++ [⟨key, attachment.leaf⟩]) ∧
      ∃ rest, after? (attachment.path.toList ++ ['.']) resolved.aggregate.source.toList =
          some rest ∧ segments (String.ofList rest) = resolved.source.leaf := by
  obtain ⟨hleads, hpath, hnames⟩ := Blueprint.leads_of_lenient hlevels h.leads
  obtain ⟨hsource, -, hsegments⟩ := Blueprint.leads_of_lenient hlevels h.feeds.source
  obtain ⟨key, htarget⟩ := h.list
  obtain ⟨rest, hrest⟩ := h.inside
  have hafter := after?_below join.path rest
  rw [← hrest] at hafter
  have hbelow := segments_of_below hafter
  rw [← hsegments, ← hnames] at hbelow
  obtain ⟨inner, hloops, hinner⟩ :=
    hleads.inside_list htarget hsource (segments_ne_nil _) hbelow
  obtain rfl : inner = [] := by
    have hdepth := h.direct
    rw [ResolvedPath.depth, ResolvedPath.depth, hloops] at hdepth
    simpa using hdepth
  exact ⟨⟨key, hloops⟩, rest.toList, by rw [hpath]; exact hafter, hinner.symm⟩

theorem source_names :
    resolved.source.names = attachment.names ++ resolved.source.leaf := by
  obtain ⟨⟨key, hloops⟩, -⟩ := h.source_eq hlevels
  rw [ResolvedPath.names, hloops, ResolvedPath.names]
  simp

/-- The target lies in lists around the attachment. -/
theorem target_loops : resolved.target.loops <+: attachment.loops := by
  obtain ⟨⟨key, hloops⟩, -⟩ := h.source_eq hlevels
  have hinside := h.feeds.inside
  have hbelow := h.feeds.below
  rw [h.direct] at hbelow
  rw [hloops, List.take_append_of_le_length (Nat.le_of_lt_succ hbelow)] at hinside
  rw [← hinside]
  exact List.take_prefix _ _

/-- The lists around the attachment are those around the target, and then some. -/
theorem attachment_loops :
    attachment.loops = resolved.target.loops ++ attachment.loops.drop resolved.target.depth := by
  obtain ⟨back, hback⟩ := h.target_loops hlevels
  rw [← hback, ResolvedPath.depth, List.drop_left]

/-- From the element of the target on, the last list on the way to the source is the attachment. -/
theorem source_drop : ∃ key, resolved.source.loops.drop resolved.target.depth =
    attachment.loops.drop resolved.target.depth ++ [⟨key, attachment.leaf⟩] := by
  obtain ⟨⟨key, hloops⟩, -⟩ := h.source_eq hlevels
  refine ⟨key, ?_⟩
  rw [hloops, List.drop_append_of_le_length]
  exact (h.target_loops hlevels).length_le

/-- The procedures of the attachment keep the aggregate. -/
theorem inlined?_eq :
    Joining.inlined? blueprint attachment resolved.aggregate =
      some (inlined attachment resolved) := by
  obtain ⟨-, rest, hafter, hsegments⟩ := h.source_eq hlevels
  have hscope : (!resolved.target.isScalar ||
      !resolved.target.loops.isPrefixOf attachment.loops) = false := by
    rw [h.feeds.targetScalar, List.isPrefixOf_iff_prefix.mpr (h.target_loops hlevels)]
    rfl
  simp only [Joining.inlined?, hafter, h.feeds.target, hscope, Bool.false_eq_true, if_false,
    hsegments]
  rfl

/-- An element around the attachment lies below one that owns the target. -/
theorem upTo_fits {inner : Cursor} (hinner : inner.Fits attachment.loops) :
    (inner.upTo resolved.target.depth).Fits resolved.target.loops ∧
      inner.Under (inner.upTo resolved.target.depth)
        (attachment.loops.drop resolved.target.depth) := by
  have hupTo := hinner.upTo resolved.target.depth
  have htake : attachment.loops.take resolved.target.depth = resolved.target.loops :=
    (List.prefix_iff_eq_take.mp (h.target_loops hlevels)).symm
  rw [htake] at hupTo
  exact ⟨hupTo, hinner.under_upTo _⟩

/-! ## Values -/

omit h hlevels in
/-- What is read at an element of the attachment is the value of the record there. -/
theorem reading_enter (environment : Environment) (record : Json) (inner : Cursor)
    (access : List String) {index : Nat}
    (hindex : index < (record.itemsAt (inner.below access)).length) :
    resolved.fold.reading environment record (inner.enter access index) =
      valueOf environment resolved (record.itemsAt (inner.below access))[index] := by
  have hlocate : record.locate? ((inner.enter access index).below resolved.source.leaf) =
      (record.itemsAt (inner.below access))[index].at? resolved.source.leaf := by
    rw [Cursor.below, Json.locate?_append, Cursor.element_enter, Json.locate?_index,
      List.getElem?_eq_getElem hindex, Option.bind_some, Json.at?_eq_locate?]
  show (applyTransformer _ _ _ ((record.locate? ((inner.enter access index).below
    resolved.source.leaf)).getD .null) _).1 = _
  rw [hlocate]
  rfl

/-- The values that the aggregate folds, one for every record of the attachment. -/
theorem values_eq (environment : Environment) (record : Json) (element : Cursor) :
    resolved.values environment record element =
      (record.reach element (attachment.loops.drop resolved.target.depth)).flatMap
        (valuesAt environment attachment resolved record) := by
  obtain ⟨key, hdrop⟩ := h.source_drop hlevels
  rw [Resolved.values, hdrop, Json.reach_append, List.map_flatMap]
  refine List.flatMap_congr fun inner _ => ?_
  have hreach : record.reach inner [⟨key, attachment.leaf⟩] =
      (List.range (record.itemsAt (inner.below attachment.leaf)).length).map
        (inner.enter attachment.leaf) := by
    rw [Json.reach, Json.sizeAt_eq_length, ← List.flatMap_pure_eq_map]
    rfl
  rw [hreach, List.map_map]
  refine List.ext_getElem (by simp [valuesAt]) fun index hindex _ => ?_
  simp only [valuesAt, List.getElem_map, List.getElem_range, Function.comp_apply]
  exact reading_enter environment record inner _ (by simpa using hindex)

/-! ## What the procedures of a store write to -/

open Joining

/-- The lists around a value inside the attachment are those around the attachment, the attachment
and others. -/
theorem loops_of_inside {path : String} {value : ResolvedPath}
    (hvalue : blueprint.resolveStrict path = .ok value) (hscalar : value.isScalar = true)
    (hstart : attachment.names <+: value.names) :
    ∃ key inner, value.loops = attachment.loops ++ ⟨key, attachment.leaf⟩ :: inner := by
  obtain ⟨rest, hrest⟩ := hstart
  obtain ⟨key, htarget⟩ := h.list
  obtain ⟨hattachment, -⟩ := Blueprint.leads_of_lenient hlevels h.leads
  obtain ⟨hleads, -⟩ := Blueprint.leads_of_strict hlevels hvalue
  have hne : rest ≠ [] := by
    rintro rfl
    rw [List.append_nil] at hrest
    have hsame := (hattachment.eq_of_names hleads hrest).2.2.1
    rw [ResolvedPath.isScalar, ← hsame, htarget] at hscalar
    cases hscalar
  obtain ⟨inner, hinner, -⟩ := hattachment.inside_list htarget hleads hne hrest.symm
  exact ⟨key, inner, hinner⟩

/-- A value in lists around the attachment does not lie inside it. -/
theorem not_inside {path : String} {value : ResolvedPath}
    (hvalue : blueprint.resolveStrict path = .ok value) (hscalar : value.isScalar = true)
    (hloops : value.loops <+: attachment.loops) : ¬ attachment.names <+: value.names := by
  intro hstart
  obtain ⟨key, inner, hinner⟩ := h.loops_of_inside hlevels hvalue hscalar hstart
  have hlength := hloops.length_le
  rw [hinner] at hlength
  simp at hlength

/-- A join of a store in which the attachment is alone, and whose path meets the source, is the
attachment. -/
theorem eq_of_prefix_source (halone : blueprint.metadata.Alone store join resolved.aggregate.target)
    {other : Join} (hother : other ∈ blueprint.metadata.joinsOf store)
    (hstart : segments other.path <+: resolved.source.names) : other = join := by
  have hattachment : segments join.path <+: resolved.source.names := by
    rw [h.source_names hlevels, h.attachment_names hlevels]
    exact List.prefix_append _ _
  rcases List.prefix_or_prefix_of_prefix hstart hattachment with hmeets | hmeets
  · exact halone.eq hother (.inl hmeets)
  · exact halone.eq hother (.inr (.inl hmeets))

/-- The target of an aggregate lies off the attachment if it does not lie inside. -/
theorem off_of_target {aggregate : LocalAggregate} {target : ResolvedPath} {location : Location}
    (hmem : aggregate ∈ blueprint.metadata.localAggregates)
    (htarget : blueprint.resolveStrict aggregate.target = .ok target)
    (hvalue : blueprint.ValueAt aggregate.target location)
    (houtside : ¬ attachment.names <+: target.names) : Off attachment resolved location := by
  rw [Off, hvalue.names hlevels]
  refine ⟨(h.feeds.apart aggregate hmem).1, ?_⟩
  rwa [← (Blueprint.leads_of_strict hlevels htarget).2.2.1]

/-- A value in lists around any attachment of the store does not lie inside this one: it would take
an attachment inside this one. -/
theorem not_inside_of_alone
    (halone : blueprint.metadata.Alone store join resolved.aggregate.target) {other : Join}
    {around value : ResolvedPath} {path : String} (hother : other ∈ blueprint.metadata.joinsOf store)
    (hleads : blueprint.resolveLenient other.path = .ok around)
    (hvalue : blueprint.resolveStrict path = .ok value) (hscalar : value.isScalar = true)
    (hloops : value.loops <+: around.loops) : ¬ attachment.names <+: value.names := by
  intro hstart
  obtain ⟨key, inner, hinner⟩ := h.loops_of_inside hlevels hvalue hscalar hstart
  have hinside : segments join.path <+: segments other.path := by
    obtain ⟨back, hback⟩ := hloops
    rw [← h.attachment_names hlevels, ← (Blueprint.leads_of_lenient hlevels hleads).2.2,
      ResolvedPath.names, ResolvedPath.names, ← hback, hinner]
    simp [List.prefix_append_right_inj]
  obtain rfl := halone.eq hother (.inr (.inl hinside))
  obtain rfl := Except.ok.inj (hleads.symm.trans h.leads)
  exact h.not_inside hlevels hvalue hscalar hloops hstart

/-- A join of the store other than the attachment leads off the attachment. -/
theorem off_of_join (halone : blueprint.metadata.Alone store join resolved.aggregate.target)
    {other : Join} {location : Location} (hother : other ∈ blueprint.metadata.joinsOf store)
    (hne : other ≠ join) (hnames : location.names = segments other.path) :
    Off attachment resolved location := by
  rw [Off, hnames, h.attachment_names hlevels]
  exact ⟨fun hstart => hne (h.eq_of_prefix_source hlevels halone hother hstart),
    fun hstart => hne (halone.eq hother (.inr (.inl hstart)))⟩

/-- What a store's procedures write to is an instance of the attachment, or neither at, inside or
around it nor on the way to the source. -/
theorem touches_cases (halone : blueprint.metadata.Alone store join resolved.aggregate.target)
    {other : Join} {loops : List Loop} {action : Action} {cursor : Cursor} {location : Location}
    (hother : other ∈ blueprint.metadata.joinsOf store)
    (hstands : Stands blueprint store other loops action) (hfits : cursor.Fits loops)
    (htouches : action.Touches cursor location) :
    (action = .attach (attachmentAt blueprint join attachment) ∧ cursor.Fits attachment.loops ∧
        location = cursor.below attachment.leaf) ∨ Off attachment resolved location := by
  cases hstands with
  | @attachment resolved' hattaches hleads hlevel =>
    -- an attachment writes the list itself, or the target of an aggregate over it
    rcases htouches with rfl | ⟨inlined, hmem, rfl⟩
    · by_cases hself : other = join
      · obtain rfl := hself
        obtain rfl := Except.ok.inj (hleads.symm.trans h.leads)
        exact .inl ⟨rfl, hfits, rfl⟩
      · exact .inr (h.off_of_join hlevels halone hother hself
          ((ResolvedPath.names_below hfits).trans (Blueprint.leads_of_lenient hlevels hleads).2.2))
    · obtain ⟨aggregate, haggregate, hinlined⟩ := List.mem_filterMap.mp hmem
      obtain ⟨rest, target, -, htarget, hscalar, hloops, rfl⟩ := inlined?_eq_some hinlined
      exact .inr (h.off_of_target hlevels haggregate htarget (valueAt_of_inlined hmem hfits).2
        (h.not_inside_of_alone hlevels halone hother hleads htarget hscalar hloops))
  | @feed aggregate resolved' hfeeds hregistered htarget hleads hscalar =>
    obtain rfl : location = cursor.below resolved'.leaf := htouches
    have hself : other ≠ join := by
      rintro rfl
      exact h.attaches hfeeds
    have hnames := (Blueprint.leads_of_strict hlevels hleads).2.2.1
    rw [htarget] at hnames
    exact .inr (h.off_of_join hlevels halone hother hself
      ((ResolvedPath.names_below hfits).trans hnames))

omit hlevels in
/-- Another aggregate of the attachment has another target. -/
theorem target_ne (htidy : blueprint.metadata.Tidy) {aggregate : LocalAggregate}
    (hmem : aggregate ∈ blueprint.metadata.localAggregates)
    (hne : aggregate ≠ resolved.aggregate) :
    aggregate.target ≠ resolved.aggregate.target := fun heq =>
  hne (List.inj_on_of_nodup_map htidy.nodup_targets hmem h.feeds.mem heq)

/-- What a store's procedures write to lies apart from the target, unless it is the target and
the attachment's procedure that writes it. -/
theorem touches_target (htidy : blueprint.metadata.Tidy)
    (halone : blueprint.metadata.Alone store join resolved.aggregate.target)
    {other : Join} {loops : List Loop} {action : Action} {cursor : Cursor} {location : Location}
    (hother : other ∈ blueprint.metadata.joinsOf store)
    (hstands : Stands blueprint store other loops action) (hfits : cursor.Fits loops)
    (htouches : action.Touches cursor location) :
    (action = .attach (attachmentAt blueprint join attachment) ∧ cursor.Fits attachment.loops ∧
        location = (cursor.upTo resolved.target.depth).below resolved.target.leaf) ∨
      ∀ element : Cursor, element.Fits resolved.target.loops →
        ¬ location <+: element.below resolved.target.leaf ∧
          ¬ element.below resolved.target.leaf <+: location := by
  -- an attachment with the aggregates inlined in it, or a target that is fed from outside
  cases hstands with
  | @attachment resolved' hattaches hleads hlevel =>
    have hnames := (Blueprint.leads_of_lenient hlevels hleads).2.2
    rcases htouches with rfl | ⟨inlined, hmem, rfl⟩
    · refine .inr fun element helement => ⟨fun hstart => ?_, ?_⟩
      · replace hstart := Location.names_above hstart
        rw [show (attachmentAt blueprint other resolved').leaf = resolved'.leaf from rfl,
          ResolvedPath.names_below hfits, ResolvedPath.names_below helement, hnames] at hstart
        have htarget := (Blueprint.leads_of_strict hlevels h.feeds.target).2.2.1
        obtain rfl := halone.eq hother (.inr (.inr (htarget ▸ hstart)))
        rw [← h.attachment_names hlevels] at hstart
        exact h.not_inside hlevels h.feeds.target h.feeds.targetScalar (h.target_loops hlevels)
          hstart
      · exact (h.feeds.valueAt helement).not_above hlevels
          ⟨resolved', hleads, hlevel, cursor, hfits, rfl⟩
    · obtain ⟨aggregate, haggregate, hinlined⟩ := List.mem_filterMap.mp hmem
      obtain ⟨rest, target, hafter, htarget, hscalar, hloops, rfl⟩ := inlined?_eq_some hinlined
      have hvalue := (valueAt_of_inlined hmem hfits).2
      by_cases hself : aggregate = resolved.aggregate
      · -- the aggregate itself, whose source lies in no other attachment of the store
        obtain rfl : target = resolved.target :=
          Except.ok.inj (htarget.symm.trans (hself ▸ h.feeds.target))
        rw [hself, (Blueprint.leads_of_lenient hlevels hleads).2.1] at hafter
        have hsource := (Blueprint.leads_of_lenient hlevels h.feeds.source).2.2
        have hstart : segments other.path <+: resolved.source.names := by
          rw [hsource, segments_of_below hafter]
          exact List.prefix_append _ _
        obtain rfl := h.eq_of_prefix_source hlevels halone hother hstart
        obtain rfl := Except.ok.inj (hleads.symm.trans h.leads)
        exact .inl ⟨rfl, hfits, Cursor.place_eq _ _ _⟩
      · exact .inr fun element helement =>
          hvalue.apart hlevels (h.feeds.valueAt helement)
            (.inl (h.target_ne htidy haggregate hself))
  | @feed aggregate resolved' hfeeds hregistered htarget hleads hscalar =>
    obtain rfl : location = cursor.below resolved'.leaf := htouches
    refine .inr fun element helement => ?_
    exact Blueprint.ValueAt.apart hlevels ⟨resolved', hleads, hscalar, cursor, hfits, rfl⟩
      (h.feeds.valueAt helement) (.inl (htidy.not_external h.feeds.mem hregistered))

/-! ## What depends on the attachment alone -/

section Frame

variable {touched : Location → Prop} {a b : Json} (hsame : Json.SameOutside touched a b)
  (htouched : ∀ location, touched location →
    At attachment location ∨ Off attachment resolved location)

include htouched

/-- Nothing on the way to the attachment is touched. -/
theorem not_above_way {place : Location} (rest : List String) (hrest : rest ≠ [])
    (hnames : place.names ++ rest = attachment.names) {location : Location}
    (hlocation : touched location) : ¬ location <+: place := by
  intro hstart
  replace hstart := Location.names_above hstart
  rcases htouched location hlocation with ⟨inner, hinner, rfl⟩ | hoff
  · have hlength := hstart.length_le
    rw [ResolvedPath.names_below hinner, ← hnames, List.length_append] at hlength
    have := List.length_pos_iff.mpr hrest
    omega
  · refine hoff.1 (hstart.trans ?_)
    rw [h.source_names hlevels, ← hnames, List.append_assoc]
    exact List.prefix_append _ _

include hsame

/-- The elements on the way to the attachment stay the same. -/
theorem reach_way {outer loops rest : List Loop}
    (hattachment : attachment.loops = outer ++ (loops ++ rest)) (helement : element.Fits outer) :
    b.reach element loops = a.reach element loops := by
  refine Json.reach_congr fun front loop back hloops middle hmiddle => ?_
  refine hsame.sizeAt_eq fun location hlocation => ?_
  refine h.not_above_way hlevels htouched ((back ++ rest).flatMap (·.access) ++ attachment.leaf)
    ?_ ?_ hlocation
  · have hleaf := (Blueprint.leads_of_lenient hlevels h.leads).1.leaf_ne_nil
    simp [hleaf]
  · rw [(hmiddle.fits helement).names_below, ResolvedPath.names, hattachment, hloops]
    simp

/-- The elements around the attachment stay the same. -/
theorem reach_eq (helement : element.Fits resolved.target.loops) :
    b.reach element (attachment.loops.drop resolved.target.depth) =
      a.reach element (attachment.loops.drop resolved.target.depth) := by
  have hattachment := h.attachment_loops hlevels
  rw [← List.append_nil (attachment.loops.drop resolved.target.depth)] at hattachment
  exact h.reach_way hlevels hsame htouched hattachment helement

/-- The elements around the target stay the same. -/
theorem reach_target :
    b.reach {} resolved.target.loops = a.reach {} resolved.target.loops :=
  h.reach_way hlevels hsame htouched (h.attachment_loops hlevels) (Cursor.fits_root_iff.mpr rfl)

/-- An instance of the attachment that is not touched stays as it is. -/
theorem locate?_eq {inner : Cursor} (hinner : inner.Fits attachment.loops)
    (hne : ¬ touched (inner.below attachment.leaf)) :
    b.locate? (inner.below attachment.leaf) = a.locate? (inner.below attachment.leaf) := by
  have hnames := ResolvedPath.names_below hinner
  refine (hsame _ fun location hlocation hstart => ?_).2 fun location hlocation hstart => ?_
  · rcases htouched location hlocation with ⟨other, hother, rfl⟩ | hoff
    · rw [Cursor.eq_of_above hother hinner hstart] at hlocation
      exact hne hlocation
    · refine hoff.1 ((Location.names_above hstart).trans ?_)
      rw [hnames, h.source_names hlevels]
      exact List.prefix_append _ _
  · rcases htouched location hlocation with ⟨other, hother, rfl⟩ | hoff
    · rw [← Cursor.eq_of_above hinner hother hstart] at hlocation
      exact hne hlocation
    · exact hoff.2 (hnames ▸ Location.names_above hstart)

/-- The record stays shaped if the instances of the attachment do. -/
theorem shapedAlong_of_same (ha : Json.shapedAlong attachment.leaf attachment.loops a = true)
    (hcontent : ∀ inner : Cursor, inner.Fits attachment.loops →
      (∀ part, a.locate? (inner.below attachment.leaf) = some part →
        part = .null ∨ Json.isListOf Json.isObject part = true) →
      ∀ part, b.locate? (inner.below attachment.leaf) = some part →
        part = .null ∨ Json.isListOf Json.isObject part = true) :
    Json.shapedAlong attachment.leaf attachment.loops b = true := by
  have hleaf := (Blueprint.leads_of_lenient hlevels h.leads).1.leaf_ne_nil
  have hway : ∀ {place : Location} (rest : List String), rest ≠ [] →
      place.names ++ rest = attachment.names → Json.SameOutline a b place :=
    fun rest hrest hnames => hsame.outline_eq fun location hlocation =>
      h.not_above_way hlevels htouched rest hrest hnames hlocation
  refine Json.shapedAlong_congr (a := a) (b := b) rfl rfl ha
    (fun front loop back init rest hloops haccess inner hinner => ?_)
    (fun init last rest hnames inner hinner => ?_)
    (fun inner hinner => hcontent inner (Cursor.fits_iff_under_root.mpr hinner))
  · refine hway (rest ++ (back.flatMap (·.access) ++ attachment.leaf)) (by simp [hleaf]) ?_
    rw [(Cursor.fits_iff_under_root.mpr hinner).names_below, ResolvedPath.names, hloops]
    simp [haccess]
  · refine hway (last :: rest) (List.cons_ne_nil _ _) ?_
    rw [(Cursor.fits_iff_under_root.mpr hinner).names_below, ResolvedPath.names, hnames]
    simp

end Frame

/-- Instances of the attachment do not lie off it. -/
theorem not_off_of_at {location : Location} (hat : At attachment location) :
    ¬ Off attachment resolved location := by
  rintro ⟨hsource, -⟩
  obtain ⟨inner, hinner, rfl⟩ := hat
  rw [ResolvedPath.names_below hinner, h.source_names hlevels] at hsource
  exact hsource (List.prefix_append _ _)

/-- The values that are folded do not change unless an instance of the attachment below the element
is touched. -/
theorem values_congr {touched : Location → Prop} {a b : Json}
    (hsame : Json.SameOutside touched a b)
    (htouched : ∀ location, touched location →
      At attachment location ∨ Off attachment resolved location)
    (helement : element.Fits resolved.target.loops)
    (hnot : ∀ inner : Cursor, inner.Fits attachment.loops →
      inner.upTo resolved.target.depth = element → ¬ touched (inner.below attachment.leaf)) :
    resolved.values environment b element = resolved.values environment a element := by
  rw [h.values_eq hlevels, h.values_eq hlevels, h.reach_eq hlevels hsame htouched helement]
  refine List.flatMap_congr fun inner hinner => ?_
  have hunder := Json.under_of_mem_reach hinner
  have hfits : inner.Fits attachment.loops := by
    have hboth := hunder.fits helement
    rwa [← h.attachment_loops hlevels] at hboth
  have hupTo : inner.upTo resolved.target.depth = element := by
    rw [← show element.depth = resolved.target.depth from helement.depth, hunder.upTo]
  have hlocate := h.locate?_eq hlevels hsame htouched hfits (hnot inner hfits hupTo)
  rw [valuesAt, Json.itemsAt_eq_of_locate? hlocate, valuesAt]

end Coverage

end NestedRecord
