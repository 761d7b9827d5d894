import NestedRecord.Proofs.Join.Upheld

/-!
# Aggregates over attachments that declare no shape

When no attachment declares a shape, nothing is declared inside the records of other stores. No
join then lies inside another one, and an aggregate over an attachment reads one value of every
record.

A bare attachment is entered as a level of another store, and nothing is declared below such a
level. Two things follow from this for paths. A declared value never lies inside an attachment, so
the target of an aggregate cannot stand in records that come and go; and two attachments never lie
inside one another, since the way to the inner one would lead through a level that has no
attributes. With plain names a path is the same as its names, so that attachments are known by their
paths.

The theorem is then an instance of what holds of attachments in general: the conditions which
`Coverage` and `Alone` put on an aggregate and on the joins of a store are met by every aggregate
over every attachment of many records. What remains is a condition on the run, that no call folds
more than doubles can hold exactly (`Coverage.Affords`), and one on the record, that lists stand
where they are declared.

- `IsCompiled.fed_value` and `IsCompiled.foreign_level`: a join belongs to a declared value or to a
  level of another store.
- `IsCompiled.alone`: no join of any store meets an attachment or the target of an aggregate.
- `IsCompiled.coverage`: every aggregate over an attachment of many records is kept by it.
- `Store.joinEach_upToDate`: after any sequence of calls every aggregate over an attachment of many
  records is what recomputing it would leave.
-/

namespace NestedRecord

open Joining
open Recompute (Resolved)

namespace Store

variable {store : Store} {environment : Environment} {foreign : String} {join : Join}
  {attachment : ResolvedPath} {resolved : Resolved}

namespace IsCompiled

variable (hstore : store.IsCompiled)

include hstore

/-- Every local aggregate has been resolved. -/
theorem exists_resolved {aggregate : LocalAggregate}
    (hmem : aggregate ∈ store.metadata.localAggregates) :
    ∃ resolved : Resolved, resolved.aggregate = aggregate ∧ resolved.Valid store.blueprint := by
  obtain ⟨plan, hplan⟩ := Recompute.exists_plan_of_compile hstore.aggregates
  replace hmem : aggregate ∈ store.blueprint.metadata.localAggregates := hmem
  rw [← hplan.aggregates] at hmem
  obtain ⟨resolved, hresolved, heq⟩ := List.mem_map.mp hmem
  exact ⟨resolved, heq, hplan.valid resolved hresolved⟩

/-- A join that is no attachment belongs to a declared value, which no local aggregate has as its
target. -/
theorem fed_value (hjoin : join ∈ store.metadata.joinsOf foreign) (hfed : ¬ join.Attaches) :
    (∃ value, store.blueprint.resolveStrict join.path = .ok value ∧ value.isScalar = true) ∧
      ∀ aggregate ∈ store.metadata.localAggregates, join.path ≠ aggregate.target := by
  obtain ⟨procedures, hjoined⟩ := hstore.exists_joined? hjoin
  have hfeeds : join.Feeds join.path := ⟨Decidable.not_not.mp hfed, rfl⟩
  -- tables fit: a join that feeds has an external aggregate of its target
  have hpos : 0 < ((Fields.get? store.metadata.externals foreign).getD []).countP
      (·.target = join.path) := by
    rw [← hstore.tidy.fed foreign join.path]
    exact List.countP_pos_iff.mpr ⟨join, hjoin, decide_eq_true hfeeds⟩
  obtain ⟨external, hexternal, htarget⟩ := List.countP_pos_iff.mp hpos
  replace htarget := of_decide_eq_true htarget
  obtain ⟨value, hvalue, hscalar, -⟩ := JoinProcedures.placed_of_feeds
    (hstore.of_joined? hjoined) (.set []) hstore.tidy hexternal
  rw [htarget] at hvalue
  refine ⟨⟨value, hvalue, hscalar⟩, fun aggregate haggregate heq => ?_⟩
  exact hstore.tidy.not_external haggregate hexternal (htarget.trans heq)

variable (hplain : store.blueprint.flattened.PlainNames)
  (hbare : store.blueprint.flattened.BareAttachments)

include hplain hbare

/-- An attachment is a level of another store. -/
theorem foreign_level (hjoin : join ∈ store.metadata.joinsOf foreign) (hattaches : join.Attaches) :
    ∃ level, store.blueprint.resolveLenient join.path = .ok level ∧ level.isScalar = false ∧
      level.isVirtual = true ∧
      (join.cardinality = .many → ∃ key, level.target = .level key .array) := by
  obtain ⟨procedures, hjoined⟩ := hstore.exists_joined? hjoin
  obtain ⟨level, hleads, hlevel, -⟩ := JoinProcedures.placed_of_attaches
    (hstore.of_joined? hjoined) (.set []) hjoin hattaches
  obtain ⟨name, rootName, descriptor, hflatten⟩ := hstore.exists_flatten.1
  have hmem : join ∈ store.blueprint.metadata.attachments := by
    refine List.mem_filter.mpr ⟨?_, decide_eq_true hattaches⟩
    exact (Metadata.joinsOf_sublist store.metadata foreign).subset hjoin
  obtain ⟨hforeign, key, kind, htarget, hkind⟩ :=
    Blueprint.foreign_of_attachment hflatten hplain hbare hmem hleads hlevel
  refine ⟨level, hleads, hlevel, hforeign, fun hmany => ⟨key, ?_⟩⟩
  rw [htarget, hkind.mpr hmany]

/-- An attachment inside another one, of whichever store, is that one. -/
theorem eq_of_inside (hjoin : join ∈ store.metadata.joinsOf foreign) (hattaches : join.Attaches)
    {called : String} {other : Join} (hother : other ∈ store.metadata.joinsOf called)
    (hkeeps : other.Attaches) (hstart : segments join.path <+: segments other.path) :
    join = other := by
  have hlevels := hstore.levelsDeclared
  obtain ⟨level, hresolved, hlevel, hforeign, -⟩ :=
    hstore.foreign_level hplain hbare hjoin hattaches
  obtain ⟨level', hresolved', hlevel', -, -⟩ :=
    hstore.foreign_level hplain hbare hother hkeeps
  obtain ⟨hleads, -, hnames⟩ := Blueprint.leads_of_lenient hlevels hresolved
  obtain ⟨hleads', -, hnames'⟩ := Blueprint.leads_of_lenient hlevels hresolved'
  rw [← hnames, ← hnames'] at hstart
  -- one attachment cannot be followed into another one, so both have the same names
  have hequal := hleads.names_eq_of_foreign hlevel hforeign hleads' hlevel' hstart
  rw [hnames, hnames'] at hequal
  obtain ⟨name, rootName, descriptor, hflatten⟩ := hstore.exists_flatten.1
  refine List.inj_on_of_nodup_map (Blueprint.nodup_attachments hflatten hplain hbare) ?_ ?_
    (segments_injective hequal)
  · exact List.mem_filter.mpr ⟨(Metadata.joinsOf_sublist _ foreign).subset hjoin,
      decide_eq_true hattaches⟩
  · exact List.mem_filter.mpr ⟨(Metadata.joinsOf_sublist _ called).subset hother,
      decide_eq_true hkeeps⟩

/-- A join that meets an attachment or lies around the target of a local aggregate is the
attachment. -/
theorem eq_of_meets (hjoin : join ∈ store.metadata.joinsOf foreign) (hattaches : join.Attaches)
    (hvalid : resolved.Valid store.blueprint)
    (hmem : resolved.aggregate ∈ store.metadata.localAggregates) {called : String} {other : Join}
    (hother : other ∈ store.metadata.joinsOf called)
    (hmeets : segments other.path <+: segments join.path ∨
      segments join.path <+: segments other.path ∨
        segments other.path <+: segments resolved.aggregate.target) :
    other = join := by
  have hlevels := hstore.levelsDeclared
  obtain ⟨level, hresolved, hlevel, hforeign, -⟩ :=
    hstore.foreign_level hplain hbare hjoin hattaches
  obtain ⟨hleads, -, hnames⟩ := Blueprint.leads_of_lenient hlevels hresolved
  obtain ⟨htarget, -, htargetNames, hdeclared⟩ := Blueprint.leads_of_strict hlevels hvalid.target
  -- the other join attaches records, or feeds an aggregate at a declared value
  by_cases hkeeps : other.Attaches
  · rcases hmeets with hmeets | hmeets | hmeets
    · exact hstore.eq_of_inside hplain hbare hother hkeeps hjoin hattaches hmeets
    · exact (hstore.eq_of_inside hplain hbare hjoin hattaches hother hkeeps hmeets).symm
    · obtain ⟨level', hresolved', hlevel', hforeign', -⟩ :=
        hstore.foreign_level hplain hbare hother hkeeps
      obtain ⟨hleads', -, hnames'⟩ := Blueprint.leads_of_lenient hlevels hresolved'
      rw [← hnames', ← htargetNames] at hmeets
      exact absurd hmeets (hleads'.apart_of_foreign hlevel' hforeign' htarget
        ⟨hvalid.targetScalar, hdeclared⟩).1
  · obtain ⟨⟨value, hvalue, hscalar⟩, hnot⟩ := hstore.fed_value hother hkeeps
    obtain ⟨hleads', -, hnames', hdeclared'⟩ := Blueprint.leads_of_strict hlevels hvalue
    have hapart := hleads.apart_of_foreign hlevel hforeign hleads' ⟨hscalar, hdeclared'⟩
    rw [← hnames, ← hnames', ← htargetNames] at hmeets
    rcases hmeets with hmeets | hmeets | hmeets
    · exact absurd hmeets hapart.2
    · exact absurd hmeets hapart.1
    · -- declared values do not lie around one another
      have hequal := hleads'.names_eq_of_value ⟨hscalar, hdeclared'⟩ htarget hmeets
      rw [hnames', htargetNames] at hequal
      exact absurd (segments_injective hequal) (hnot _ hmem)

/-- No other join of any store meets an attachment or the target of a local aggregate. -/
theorem alone (hjoin : join ∈ store.metadata.joinsOf foreign) (hattaches : join.Attaches)
    (hvalid : resolved.Valid store.blueprint)
    (hmem : resolved.aggregate ∈ store.metadata.localAggregates) (called : String) :
    store.metadata.Alone called join resolved.aggregate.target := by
  obtain ⟨name, rootName, descriptor, hflatten⟩ := hstore.exists_flatten.1
  have hnodup : store.blueprint.metadata.attachments.Nodup :=
    List.Nodup.of_map _ (Blueprint.nodup_attachments hflatten hplain hbare)
  rw [Metadata.Alone]
  have hall : ∀ other ∈ (store.metadata.joinsOf called).filter fun other =>
      segments other.path <+: segments join.path ∨ segments join.path <+: segments other.path ∨
        segments other.path <+: segments resolved.aggregate.target, other = join := by
    intro other hother
    obtain ⟨hother, hmeets⟩ := List.mem_filter.mp hother
    exact hstore.eq_of_meets hplain hbare hjoin hattaches hvalid hmem hother
      (of_decide_eq_true hmeets)
  -- all such joins are this one, so they are counted as its copies, and it is registered once
  have honce : ((store.metadata.joinsOf called).filter fun other =>
      segments other.path <+: segments join.path ∨ segments join.path <+: segments other.path ∨
        segments other.path <+: segments resolved.aggregate.target).length ≤ 1 := by
    rw [← List.count_eq_length.mpr fun other hother => (hall other hother).symm]
    calc _ ≤ (store.metadata.joinsOf called).count join := List.filter_sublist.count_le join
      _ ≤ (Fields.entries store.blueprint.metadata.joins).count join :=
        (Metadata.joinsOf_sublist _ called).count_le join
      _ = store.blueprint.metadata.attachments.count join :=
        (List.count_filter (p := fun other : Join => decide other.Attaches)
          (decide_eq_true hattaches)).symm
      _ ≤ 1 := List.nodup_iff_count_le_one.mp hnodup join
  rw [List.eq_replicate_of_mem hall]
  exact (List.replicate_sublist_replicate join).mpr honce

/-- Every aggregate over an attachment of many records reads one value of every record, and no
other aggregate lies on the way to it. -/
theorem coverage (hjoin : join ∈ store.metadata.joinsOf foreign) (hmany : join.cardinality = .many)
    (hleads : store.blueprint.resolveLenient join.path = .ok attachment)
    (hvalid : resolved.Valid store.blueprint)
    (hmem : resolved.aggregate ∈ store.metadata.localAggregates)
    (hinside : ∃ rest, resolved.aggregate.source = join.path ++ "." ++ rest) :
    Coverage store.blueprint join attachment resolved ∧ attachment.isVirtual = true := by
  have hlevels := hstore.levelsDeclared
  have hattaches : join.Attaches := by
    rw [Join.Attaches, hmany]
    decide
  obtain ⟨level, hresolved, hlevel, hforeign, hlist⟩ :=
    hstore.foreign_level hplain hbare hjoin hattaches
  obtain rfl : level = attachment := Except.ok.inj (hresolved.symm.trans hleads)
  obtain ⟨key, htarget⟩ := hlist hmany
  obtain ⟨hlevelLeads, -, hnames⟩ := Blueprint.leads_of_lenient hlevels hleads
  obtain ⟨hsource, -, hsegments⟩ := Blueprint.leads_of_lenient hlevels hvalid.source
  obtain ⟨rest, hrest⟩ := id hinside
  have hbelow := segments_of_below (after?_below join.path rest)
  rw [← hrest, ← hsegments, ← hnames] at hbelow
  -- the way to the source goes through the attachment and no other list, and ends in the records
  obtain ⟨hloops, -, hvirtual, -⟩ :=
    hlevelLeads.inside_foreign_list htarget hforeign hsource (segments_ne_nil _) hbelow
  refine ⟨⟨⟨hvalid, hmem, ?_, ?_⟩, hmany, hleads, ⟨key, htarget⟩, hinside, ?_⟩, hforeign⟩
  · -- a target in the same lists would be declared inside the records
    by_contra hnot
    have hsame := hvalid.inside
    rw [List.take_of_length_le (Nat.le_of_not_lt hnot), hloops] at hsame
    obtain ⟨htargetLeads, -, -, hdeclared⟩ := Blueprint.leads_of_strict hlevels hvalid.target
    refine (hlevelLeads.apart_of_foreign hlevel hforeign htargetLeads
      ⟨hvalid.targetScalar, hdeclared⟩).1 ⟨resolved.target.leaf, ?_⟩
    simp [ResolvedPath.names, ← hsame]
  · -- a target is declared, and nothing is where the records of another store are
    intro aggregate haggregate
    obtain ⟨other, rfl, hother⟩ := hstore.exists_resolved haggregate
    obtain ⟨hotherLeads, -, hotherNames, hdeclared⟩ :=
      Blueprint.leads_of_strict hlevels hother.target
    have hapart : ¬ (other.target.names <+: resolved.source.names ∨
        resolved.source.names <+: other.target.names) := by
      intro hmeets
      have hequal := hotherLeads.names_eq_of_comparable ⟨hother.targetScalar, hdeclared⟩ hsource
        hvalid.sourceScalar hmeets
      have hsame := (hotherLeads.eq_of_names hsource hequal).2.2.2
      rw [hdeclared, hvirtual] at hsame
      cases hsame
    rw [← hotherNames]
    exact not_or.mp hapart
  · rw [ResolvedPath.depth, ResolvedPath.depth, hloops, List.length_append, List.length_singleton]

end IsCompiled

/-- Calls of joined stores leave the aggregates over attachments of many records up to date. -/
theorem joinEach_upToDate (hstore : store.IsCompiled)
    (hplain : store.blueprint.flattened.PlainNames)
    (hbare : store.blueprint.flattened.BareAttachments) (hkinds : environment.kinds = .builtIn)
    (hjoin : join ∈ store.metadata.joinsOf foreign) (hmany : join.cardinality = .many)
    (hleads : store.blueprint.resolveLenient join.path = .ok attachment)
    (hvalid : resolved.Valid store.blueprint)
    (hmem : resolved.aggregate ∈ store.metadata.localAggregates)
    (hinside : ∃ rest, resolved.aggregate.source = join.path ++ "." ++ rest) {record : Json}
    (hshaped : Json.shapedAlong attachment.leaf attachment.loops record = true)
    {calls : List (String × Delta)}
    (hcalls : ∀ call ∈ calls, (store.joined? call.1).isSome ∧
      ∀ record ∈ Attached.incoming call.2, record.isObject = true)
    (haffords : ∀ front call back middle, calls = front ++ call :: back →
      join ∈ store.metadata.joinsOf call.1 →
      store.joinEach environment front
          { record := (store.aggregate environment record).1, states := [] } = some middle →
        Coverage.Affords environment attachment resolved middle.record call.2) :
    ∃ final, store.joinEach environment calls
        { record := (store.aggregate environment record).1, states := [] } = some final ∧
      ∀ element : Cursor, element.Fits resolved.target.loops →
        resolved.Owns final.record element →
          store.UpToDate environment resolved final.record element := by
  obtain ⟨h, hforeign⟩ := hstore.coverage hplain hbare hjoin hmany hleads hvalid hmem hinside
  have hadmits : ∀ call ∈ calls, Coverage.Admits store join resolved call := fun call hcall =>
    ⟨(hcalls call hcall).1, hstore.alone hplain hbare hjoin h.attaches hvalid hmem call.1,
      (hcalls call hcall).2⟩
  -- the aggregates are current at the start, and every call keeps them so
  obtain ⟨final, hfinal, hupheld⟩ := h.upheld_joinEach hstore hkinds hadmits haffords
    (h.upheld_aggregate hstore hkinds hforeign hshaped)
  refine ⟨final, hfinal, fun element helement howns => ?_⟩
  exact h.upToDate_of_shown hstore hkinds helement howns (hupheld.shown element helement howns)

/-! ### Orders of several carts -/

/-- Vendors with carts, the orders of these, and what they earn with all of them. -/
def vendorWithCarts : Descriptor :=
  .mk [("id", .tuple [.word "int", .word "<<id>>"]),
    ("badge", .tuple [.word "object", .word "@badges"]),
    ("earned", .tuple [.word "number", .word "sum", .word "carts.orders.amount"]),
    ("carts", .tuple [.word "array", .nested (.mk [
      ("id", .tuple [.word "int", .word "<<cartId>>"]),
      ("orders", .tuple [.word "array", .word "@orders"])])])]

/-- The store of these vendors. -/
def vendors : Store := compiled "vendors" vendorWithCarts (by decide +kernel)

/-- A cart with its orders. -/
def cartWith (id : Nat) (orders : List Json) : Json :=
  .object [("id", .ofNat id), ("orders", .array orders)]

/-- A vendor with two carts, one of them with an order. -/
def vendor : Json :=
  .object [("id", .ofNat 1), ("badge", .null), ("earned", .null),
    ("carts", .array [cartWith 1 [order "a" 10], cartWith 2 []])]

def vendorOrdersJoin : Join := ⟨"orders", "carts.orders", .many⟩

/-- The attachment of the orders of a cart. -/
def vendorOrders : ResolvedPath :=
  ⟨"carts.orders", [⟨"carts2", ["carts"]⟩], ["orders"], .level "orders3" .array, true⟩

/-- What a vendor earns. -/
def earned : Resolved where
  aggregate := ⟨"earned", .sum, "carts.orders.amount", none⟩
  target := ⟨"earned", [], ["earned"], .scalar "main0" "earned" (some .number), false⟩
  source := ⟨"carts.orders.amount", [⟨"carts2", ["carts"]⟩, ⟨"orders3", ["orders"]⟩], ["amount"],
    .scalar "orders3" "amount" none, true⟩

/-- The state of the vendor when the earnings have been computed. -/
def countedVendor : State := { record := (vendors.aggregate {} vendor).1, states := [] }

/-- An order comes in for both carts, the vendor gets a badge, and the other order is taken out. -/
def vendorCalls : List (String × Delta) :=
  [("orders", .insert (order "b" 7)), ("badges", .set [.object [("amount", .string "gold")]]),
    ("orders", .delete (order "a" 0))]

/-- The vendor has earned 10 with the order that there is at first, and 14 with the one that has
come in for both carts. -/
theorem joinEach_upToDate_vendors :
    (countedVendor.record.locate? [.key "earned"]).map Json.outline =
        some (Json.ofNat 10).outline ∧
      ∃ final, vendors.joinEach {} vendorCalls countedVendor = some final ∧
        vendors.UpToDate {} earned final.record {} ∧
        (final.record.locate? [.key "earned"]).map Json.outline =
          some (Json.ofNat 14).outline := by
  have hvalid : earned.Valid vendors.blueprint :=
    ⟨Except.eq_ok_of_toOption (by decide +kernel), rfl, Except.eq_ok_of_toOption (by decide +kernel),
      rfl, rfl⟩
  have hmem : earned.aggregate ∈ vendors.metadata.localAggregates :=
    LocalAggregate.mem_of_isNone (by decide +kernel)
  have hcalls : ∀ call ∈ vendorCalls, (vendors.joined? call.1).isSome ∧
      ∀ record ∈ Attached.incoming call.2, record.isObject = true := by
    decide +kernel
  have hafford : Coverage.affordsEach vendors {} vendorOrders earned vendorCalls countedVendor =
      true := by
    decide +kernel
  obtain ⟨final, hfinal, hcurrent⟩ := joinEach_upToDate (isCompiled_compiled _ _ _)
    (by decide +kernel) (by decide +kernel) rfl
    (show vendorOrdersJoin ∈ vendors.metadata.joinsOf "orders" by decide +kernel) rfl
    (Except.eq_ok_of_toOption (by decide +kernel)) hvalid hmem ⟨"amount", rfl⟩
    (show Json.shapedAlong vendorOrders.leaf vendorOrders.loops vendor = true by decide +kernel)
    hcalls fun front call back middle hsplit _ hmiddle =>
      Coverage.affords_of_affordsEach hafford front call back middle hsplit hmiddle
  have hshown : (vendors.joinEach {} vendorCalls countedVendor).map (fun final =>
      (decide (Owned [.key "earned"] final.record),
        (final.record.locate? [.key "earned"]).map Json.outline)) =
      some (true, some (Json.ofNat 14).outline) := by
    decide +kernel
  rw [show vendors.joinEach {} vendorCalls countedVendor = some final from hfinal] at hshown
  simp only [Option.map_some, Option.some.injEq, Prod.mk.injEq, decide_eq_true_eq] at hshown
  exact ⟨by decide +kernel, final, hfinal, hcurrent {} rfl hshown.1, hshown.2⟩

end Store

end NestedRecord
