import NestedRecord.Proofs.Join.Interleaving

/-!
# What the calls of a store own

A call of a joined store may touch the attachments of the store and the targets that follow its
records, and nothing else, whatever the record looks like.

* `Follows` are the targets: those of the external aggregates that the store feeds, and those of the
  local aggregates that are kept current in an attachment of the store, `Inlines`.
* `Territory` are the places that the store owns, `territory_of_touches` finds the writes of every
  event there, and `followedAt_of_persists` its states at targets.
* `perform_eq_self`: a deletion of a record that no attachment of the store holds changes nothing.
* `Store.received_keeps` is the result for a call.

Unlike the other modules on joins this one asks nothing of the record, of names or of shapes: a call
may be made on any record, and what it must not touch it does not touch. The second half is about
doing nothing: a deletion finds its record by searching the attachments, and where it finds none the
record is returned as it is. With an external aggregate the state changes in any case.
-/

namespace NestedRecord

namespace Attached

/-- The records that an attachment holds. -/
def held (many : Bool) (content : Json) : List Json :=
  if many then
    match content with
    | .array records => records
    | _ => []
  else content.nonNull?.toList

/-- A record that is not in the list is not taken out of it. -/
theorem delete_eq_none {identityKey : String} {outgoing : Json} {records : List Json}
    (h : ∀ record ∈ records, sameRecord identityKey record outgoing = false) :
    delete identityKey outgoing records = none := by
  induction records with
  | nil => rfl
  | cons record rest ih =>
    rw [delete, h record List.mem_cons_self, if_neg Bool.false_ne_true,
      ih fun other hmem => h other (List.mem_cons_of_mem _ hmem)]
    rfl

/-- There is nothing to delete where the record is not held. -/
theorem change?_delete_eq_none {many : Bool} {identityKey : String} {content outgoing : Json}
    (h : ∀ record ∈ held many content, sameRecord identityKey record outgoing = false) :
    change? many identityKey content (.delete outgoing) = none := by
  cases many with
  | true =>
    cases content with
    | array records =>
      have hnone : delete identityKey outgoing records = none := delete_eq_none h
      show (delete identityKey outgoing records).map _ = none
      rw [hnone]
      rfl
    | _ => rfl
  | false =>
    show changeOne? identityKey content (.delete outgoing) = none
    by_cases hnull : content.isNull = true
    · simp [changeOne?, hnull]
    · -- what is not null is held
      have hheld : content ∈ held false content := by
        cases content <;> simp_all [held, Json.nonNull?, Json.isNull]
      simp [changeOne?, h content hheld]

end Attached

namespace Joining

open JoinProcedures (machine)

variable {blueprint : Blueprint} {store : String} {surroundings : Surroundings}
  {event : Event Action} {place : Location}

/-! ## The places of a store -/

/-- A local aggregate is kept current in the attachment of a join: it reads inside the attachment,
and its target lies in the lists around it or further outside. -/
structure Inlines (blueprint : Blueprint) (join : Join) (aggregate : LocalAggregate) : Prop where
  registered : aggregate ∈ blueprint.metadata.localAggregates
  inside : ∃ rest, aggregate.source = join.path ++ "." ++ rest
  scope : ∃ attachment target, blueprint.resolveLenient join.path = .ok attachment ∧
    blueprint.resolveStrict aggregate.target = .ok target ∧ target.loops <+: attachment.loops

/-- The targets that follow the records of a store. -/
inductive Follows (blueprint : Blueprint) (store : String) : String → Prop
  | inlined {join : Join} {aggregate : LocalAggregate}
      (joined : join ∈ blueprint.metadata.joinsOf store) (attaches : join.Attaches)
      (inlines : Inlines blueprint join aggregate) : Follows blueprint store aggregate.target
  | external {aggregate : ExternalAggregate}
      (registered : aggregate ∈ (Fields.get? blueprint.metadata.externals store).getD []) :
      Follows blueprint store aggregate.target

/-- The instances of these targets. -/
def FollowedAt (blueprint : Blueprint) (store : String) (place : Location) : Prop :=
  ∃ path, Follows blueprint store path ∧ blueprint.ValueAt path place

/-- The places that a store owns. -/
inductive Territory (blueprint : Blueprint) (store : String) (place : Location) : Prop
  | attachment {join : Join} (joined : join ∈ blueprint.metadata.joinsOf store)
      (attaches : join.Attaches) (attached : blueprint.AttachedAt join place)
  | target (followed : FollowedAt blueprint store place)

/-- The aggregates over an attachment write at targets that follow its store. -/
theorem followedAt_of_inlined (hlevels : blueprint.LevelsDeclared) {join : Join}
    {resolved : ResolvedPath} {inlined : Inlined}
    (hjoin : join ∈ blueprint.metadata.joinsOf store) (hattaches : join.Attaches)
    (hleads : blueprint.resolveLenient join.path = .ok resolved)
    (hmem : inlined ∈ (attachmentAt blueprint join resolved).inlined) {cursor : Cursor}
    (hfits : cursor.Fits resolved.loops) :
    FollowedAt blueprint store (cursor.place inlined.depth inlined.targetLeaf) := by
  have hvalue := (valueAt_of_inlined hmem hfits).2
  obtain ⟨aggregate, haggregate, hinlined⟩ := List.mem_filterMap.mp hmem
  obtain ⟨rest, target, hafter, htarget, -, hscope, rfl⟩ := inlined?_eq_some hinlined
  rw [(Blueprint.leads_of_lenient hlevels hleads).2.1] at hafter
  have hsource : aggregate.source = join.path ++ "." ++ String.ofList rest := by
    refine String.toList_injective ?_
    rw [after?_eq_some.mp hafter]
    simp
  exact ⟨aggregate.target, .inlined hjoin hattaches
    ⟨haggregate, ⟨_, hsource⟩, resolved, target, hleads, htarget, hscope⟩, hvalue⟩

/-- An event persists states of targets only. -/
theorem followedAt_of_persists (hlevels : blueprint.LevelsDeclared)
    (hevent : FromJoin blueprint store event) (h : event.action.Persists event.cursor place) :
    FollowedAt blueprint store place := by
  obtain ⟨action, cursor⟩ := event
  obtain ⟨join, hjoin, loops, hstands, hfits⟩ := hevent
  cases hstands with
  | attachment hattaches hleads hlevel =>
    obtain ⟨inlined, hmem, rfl⟩ := h
    exact followedAt_of_inlined hlevels hjoin hattaches hleads hmem hfits
  | feed hfeeds hregistered htarget hleads hscalar =>
    obtain rfl : place = _ := h
    exact ⟨_, .external hregistered, _, hleads, hscalar, cursor, hfits, rfl⟩

/-- An event writes to places that its store owns. -/
theorem territory_of_touches (hlevels : blueprint.LevelsDeclared)
    (hevent : FromJoin blueprint store event) (h : event.action.Touches event.cursor place) :
    Territory blueprint store place := by
  obtain ⟨action, cursor⟩ := event
  obtain ⟨join, hjoin, loops, hstands, hfits⟩ := id hevent
  cases hstands with
  | attachment hattaches hleads hlevel =>
    rcases h with rfl | hinlined
    · exact .attachment hjoin hattaches ⟨_, hleads, hlevel, cursor, hfits, rfl⟩
    · exact .target (followedAt_of_persists hlevels hevent hinlined)
  | feed => exact .target (followedAt_of_persists hlevels hevent h)

/-- No instance of an attachment of a store holds the record. -/
def Unheld (blueprint : Blueprint) (store identityKey : String) (outgoing record : Json) : Prop :=
  ∀ join ∈ blueprint.metadata.joinsOf store, join.Attaches →
    ∀ place, blueprint.AttachedAt join place → ∀ content, record.locate? place = some content →
      ∀ held ∈ Attached.held (join.cardinality == .many) content,
        sameRecord identityKey held outgoing = false

/-! ## A run -/

section Run

variable {events : List (Event Action)} (hevents : ∀ event ∈ events, FromJoin blueprint store event)

include hevents

/-- Events of a store leave everything that it does not own as it is. -/
theorem perform_sameOutside (hlevels : blueprint.LevelsDeclared) (state : State) :
    Json.SameOutside (Territory blueprint store) state.record
      ((machine surroundings).perform events state).record := by
  refine Machine.perform_induction (machine surroundings)
    (fun next => Json.SameOutside (Territory blueprint store) state.record next.record)
    (fun event hevent next hnext => ?_) (.refl _ _)
  exact hnext.trans ((act_sameOutside event.action event.cursor next).mono fun place htouches =>
    territory_of_touches hlevels (hevents event hevent) htouches)

/-- So they do with the states of other pointers. -/
theorem perform_states (hlevels : blueprint.LevelsDeclared) (state : State) {pointer : String}
    (hpointer : ∀ place, FollowedAt blueprint store place → pointer ≠ place.pointer) :
    Fields.get? ((machine surroundings).perform events state).states pointer =
      Fields.get? state.states pointer :=
  Machine.perform_congr (machine surroundings) (fun state => Fields.get? state.states pointer)
    (fun event hevent state => act_states event.action event.cursor state fun place hpersists =>
      hpointer place (followedAt_of_persists hlevels (hevents event hevent) hpersists)) state

/-- A store that feeds no external aggregate deletes nothing where it holds nothing to delete. -/
theorem perform_eq_self {outgoing : Json} {state : State}
    (hdelta : surroundings.delta = .delete outgoing)
    (hexternals : (Fields.get? blueprint.metadata.externals store).getD [] = [])
    (hunheld : Unheld blueprint store surroundings.identityKey outgoing state.record) :
    (machine surroundings).perform events state = state := by
  refine Machine.perform_induction (machine surroundings) (· = state) (fun event hevent next => ?_)
    rfl
  rintro rfl
  obtain ⟨action, cursor⟩ := event
  obtain ⟨join, hjoin, loops, hstands, hfits⟩ := hevents _ hevent
  cases hstands with
  | feed _ hregistered =>
    rw [hexternals] at hregistered
    cases hregistered
  | @attachment resolved hattaches hleads hlevel =>
    -- the record is still the first one, and no instance in it holds what is to be deleted
    refine attach_eq_self fun change hchange => ?_
    have hnone : changeAt? surroundings (attachmentAt blueprint join resolved) cursor next.record =
        none := by
      unfold changeAt?
      rw [hdelta]
      refine Attached.change?_delete_eq_none fun record hrecord => ?_
      have hplace : blueprint.AttachedAt join (cursor.below resolved.leaf) :=
        ⟨resolved, hleads, hlevel, cursor, hfits, rfl⟩
      replace hrecord : record ∈ Attached.held (join.cardinality == .many)
          ((next.record.locate? (cursor.below resolved.leaf)).getD .null) := hrecord
      cases hlocate : next.record.locate? (cursor.below resolved.leaf) with
      | none =>
        rw [hlocate] at hrecord
        cases hmany : (join.cardinality == .many) <;> rw [hmany] at hrecord <;> cases hrecord
      | some content =>
        rw [hlocate] at hrecord
        exact hunheld join hjoin hattaches _ hplace content hlocate record hrecord
    rw [hnone] at hchange
    cases hchange

end Run

end Joining

namespace Store

open Joining

/-- A call of a store leaves everything that the store does not own as it is, and the states of all
other pointers; and deleting a record that no attachment holds leaves all as it is, unless the store
feeds an external aggregate. -/
theorem received_keeps {store : Store} (hstore : store.IsCompiled) (environment : Environment)
    (foreign : String) (delta : Delta) (state : State) :
    Json.SameOutside (Territory store.blueprint foreign) state.record
        (store.received environment state (foreign, delta)).record ∧
      (∀ pointer, (∀ place, FollowedAt store.blueprint foreign place → pointer ≠ place.pointer) →
        Fields.get? (store.received environment state (foreign, delta)).states pointer =
          Fields.get? state.states pointer) ∧
      ∀ outgoing, delta = .delete outgoing →
        (Fields.get? store.metadata.externals foreign).getD [] = [] →
        Unheld store.blueprint foreign store.config.identityKey outgoing state.record →
          (store.received environment state (foreign, delta)).record = state.record ∧
            (store.received environment state (foreign, delta)).states = state.states := by
  cases hjoined : store.joined? foreign with
  | none =>
    rw [received_of_not_joined hjoined]
    exact ⟨.refl _ _, fun _ _ => rfl, fun _ _ _ _ => ⟨rfl, rfl⟩⟩
  | some procedures =>
    rw [received_of_joined hjoined]
    obtain ⟨events, hrun, -, hfrom⟩ := JoinProcedures.exists_events (hstore.of_joined? hjoined)
      { environment with delta, identityKey := store.config.identityKey } state.record state.states
    rw [hrun]
    refine ⟨perform_sameOutside hfrom hstore.levelsDeclared _,
      fun pointer hpointer => perform_states hfrom hstore.levelsDeclared _ hpointer,
      fun outgoing hdelta hexternals hunheld => ?_⟩
    rw [perform_eq_self hfrom hdelta hexternals hunheld]
    exact ⟨rfl, rfl⟩

/-- No cart of the vendor holds this order. -/
theorem unheld_newVendor :
    Unheld vendors.blueprint "orders" vendors.config.identityKey (order "z" 3) newVendor := by
  have hjoins : vendors.metadata.joinsOf "orders" = [vendorOrdersJoin] := by decide +kernel
  have hleads : vendors.blueprint.resolveLenient "carts.orders" = .ok vendorOrders :=
    Except.eq_ok_of_toOption (by decide +kernel)
  intro join hjoin hattaches place ⟨resolved, hresolved, hlevel, cursor, hfits, hplace⟩ content
    hcontent record hrecord
  rw [show vendors.blueprint.metadata.joinsOf "orders" = [vendorOrdersJoin] from hjoins] at hjoin
  obtain rfl := List.mem_singleton.mp hjoin
  obtain rfl : vendorOrders = resolved := Except.ok.inj (hleads.symm.trans hresolved)
  obtain ⟨entered⟩ := cursor
  obtain ⟨⟨access, index⟩, rfl, haccess⟩ := List.map_eq_singleton_iff.mp
    (show entered.map (·.access) = [["carts"]] from hfits)
  obtain rfl : access = ["carts"] := haccess
  subst hplace
  rcases index with _ | _ | index
  · obtain rfl : Json.array [order "a" 10] = content := Option.some.inj hcontent
    obtain rfl := List.mem_singleton.mp (show record ∈ [order "a" 10] from hrecord)
    decide +kernel
  · obtain rfl : Json.array [] = content := Option.some.inj hcontent
    cases hrecord
  · cases hcontent

/-- An order that no cart holds is taken out: the vendor stays as it is, and so do the states. -/
theorem received_keeps_vendors :
    Unheld vendors.blueprint "orders" vendors.config.identityKey (order "z" 3) newVendor ∧
      (vendors.received {} { record := newVendor, states := [] }
        ("orders", .delete (order "z" 3))).record = newVendor ∧
      (vendors.received {} { record := newVendor, states := [] }
        ("orders", .delete (order "z" 3))).states = [] :=
  ⟨unheld_newVendor, (received_keeps (isCompiled_compiled _ _ _) {} "orders"
    (.delete (order "z" 3)) { record := newVendor, states := [] }).2.2 _ rfl (by decide +kernel)
    unheld_newVendor⟩

end Store

end NestedRecord
