import NestedRecord.Proofs.Join.Frame
import NestedRecord.Proofs.Store.Compiled

/-!
# Rebuilding attachments from a snapshot

Setting all joined stores runs one procedure after the other. An attachment shows the records
of the snapshot at the end unless an attachment that is rebuilt after it lies around it or at
the same path: that one replaces what it stands in.

* `Metadata.RebuiltLast` is this condition.
* `Join.content` is what a snapshot puts into an attachment.
* `Rebuilt` says that a place shows it, up to the attachments and targets below.
* `joinAll_rebuilds` is the theorem.

The stores are set in the order in which they are registered, and this order is that of the walk: a
nested attachment is registered before the one around it. So an attachment inside another one is
filled first and then replaced by the records of the snapshot, which do not contain it. The theorem
therefore has to ask which attachment comes last, and the example shows that it does not hold for
the others.
-/

namespace NestedRecord

/-- No attachment that is rebuilt after the given one lies around it or at its path. Those of
its own store are run in the same pass, so none of them may. -/
def Metadata.RebuiltLast (metadata : Metadata) (store : String) (join : Join) : Prop :=
  ∃ front back, metadata.joinedStores = front ++ store :: back ∧
    (∀ other ∈ metadata.joinsOf store, other.Attaches →
      segments other.path <+: segments join.path → other = join) ∧
    ∀ later ∈ back, ∀ other ∈ metadata.joinsOf later, other.Attaches →
      ¬ segments other.path <+: segments join.path

/-- What records of a snapshot leave in an attachment. -/
def Join.content (join : Join) (records : List Json) : Json :=
  if join.cardinality = .many then .array records else records.head?.getD .null

/-- The places below a place that attachments and aggregates keep. -/
def Blueprint.MaintainsBelow (blueprint : Blueprint) (place rest : Location) : Prop :=
  rest ≠ [] ∧ blueprint.Maintains (place ++ rest)

/-- A place shows a value up to what attachments and aggregates keep below it. -/
def Rebuilt (blueprint : Blueprint) (place : Location) (value record : Json) : Prop :=
  ∃ shown, record.locate? place = some shown ∧
    Json.SameOutside (blueprint.MaintainsBelow place) value shown

variable {blueprint : Blueprint} {place : Location} {a b value : Json}

/-! ## Changes elsewhere -/

/-- Changes of kept places below leave a rebuilt place rebuilt. -/
theorem Rebuilt.keep {touched : Location → Prop} (hrebuilt : Rebuilt blueprint place value a)
    (h : Json.SameOutside touched a b)
    (hspares : ∀ location, touched location → ¬ location <+: place)
    (hkept : ∀ location, touched location → blueprint.Maintains location) :
    Rebuilt blueprint place value b := by
  obtain ⟨shown, hshown, hsame⟩ := hrebuilt
  obtain ⟨shown', hshown', hsame'⟩ := h.part hspares hshown
  refine ⟨shown', hshown', hsame.trans (hsame'.mono fun rest htouched => ?_)⟩
  refine ⟨?_, hkept _ htouched⟩
  rintro rfl
  rw [List.append_nil] at htouched
  exact hspares place htouched (List.prefix_refl place)

namespace Joining

variable {store foreign : String} {join : Join} {surroundings : Surroundings}
  {resolved : ResolvedPath} {cursor : Cursor}

/-- What an action writes to is kept by its store. -/
theorem maintains_of_touches {other : Join} {loops : List Loop} {action : Action}
    {location : Location} {c : Cursor} (hjoin : other ∈ blueprint.metadata.joinsOf store)
    (hstands : Stands blueprint store other loops action) (hfits : c.Fits loops)
    (h : action.Touches c location) : blueprint.Maintains location := by
  rcases touches_cases hstands hfits h with ⟨hattaches, hattached⟩ | ⟨path, htarget, hvalue⟩
  · exact .attachment hjoin hattaches hattached
  · exact .target htarget hvalue

/-- An action that writes at or above an instance of an attachment comes from an attachment
whose path lies around that one. -/
theorem attached_of_touches (hlevels : blueprint.LevelsDeclared) {other : Join}
    {loops : List Loop} {action : Action} {location : Location} {c : Cursor}
    (hstands : Stands blueprint store other loops action) (hfits : c.Fits loops)
    (h : action.Touches c location) (hplace : blueprint.AttachedAt join place)
    (hstart : location <+: place) :
    other.Attaches ∧ blueprint.AttachedAt other location ∧
      segments other.path <+: segments join.path := by
  rcases touches_cases hstands hfits h with ⟨hattaches, hattached⟩ | ⟨path, -, hvalue⟩
  · refine ⟨hattaches, hattached, ?_⟩
    rw [← hattached.names hlevels, ← hplace.names hlevels]
    exact Location.names_above hstart
  · exact absurd hstart (hvalue.not_above hlevels hplace)

/-- Rebuilding an attachment at an instance whose owner is an object. -/
theorem rebuilt_act (hlevels : blueprint.LevelsDeclared)
    (hleads : blueprint.resolveLenient join.path = .ok resolved)
    (hlevel : resolved.isScalar = false) (hattaches : join.Attaches)
    (hfits : cursor.Fits resolved.loops) {records : List Json}
    (hdelta : surroundings.delta = .set records) {state : State}
    (howned : Owned (cursor.below resolved.leaf) state.record) :
    Rebuilt blueprint (cursor.below resolved.leaf) (join.content records)
      (act surroundings (.attach (attachmentAt blueprint join resolved)) cursor state).record := by
  obtain ⟨hleads', -⟩ := Blueprint.leads_of_lenient hlevels hleads
  have hchange : changeAt? surroundings (attachmentAt blueprint join resolved) cursor
      state.record = some { content := join.content records } := by
    rw [changeAt?, hdelta, attachmentAt, Attached.change?, Join.content]
    cases hcardinality : join.cardinality with
    | aggregate => exact absurd hcardinality hattaches
    | one => rfl
    | many => rfl
  have hset : (cursor.setAt? state.record cursor.depth resolved.leaf
      (join.content records)).isSome := by
    rw [Cursor.setAt?_isSome hleads'.leaf_ne_nil, Cursor.place_depth]
    exact howned
  obtain ⟨record, hrecord⟩ := Option.isSome_iff_exists.mp hset
  have hact : act surroundings (.attach (attachmentAt blueprint join resolved)) cursor state = _ :=
    attach_eq hchange hrecord
  rw [hact]
  have hwritten := Cursor.setAt?_written hrecord
  rw [Cursor.place_depth] at hwritten
  have hshown : Rebuilt blueprint (cursor.below resolved.leaf) (join.content records) record :=
    ⟨_, hwritten.locate?_self, .refl _ _⟩
  -- the aggregates inlined in the attachment write targets only, none of them around it
  refine hshown.keep (refreshAll_sameOutside surroundings _ cursor _ { state with record }) ?_ ?_
  · rintro location ⟨inlined, hmem, rfl⟩
    exact (valueAt_of_inlined hmem hfits).2.not_above hlevels
      ⟨resolved, hleads, hlevel, cursor, hfits, rfl⟩
  · rintro location ⟨inlined, hmem, rfl⟩
    obtain ⟨htarget, hvalue⟩ := valueAt_of_inlined hmem hfits
    exact .target htarget hvalue

/-! ## One store -/

/-- The attachments of a store do not lie around an instance of another attachment. -/
def Spares (metadata : Metadata) (store : String) (join : Join) : Prop :=
  ∀ other ∈ metadata.joinsOf store, other.Attaches →
    segments other.path <+: segments join.path → other = join

/-- What the events of a store's procedure write at or above an instance of a spared attachment
is the instance itself. -/
theorem eq_of_touches (hlevels : blueprint.LevelsDeclared)
    (hspares : Spares blueprint.metadata store join) (hplace : blueprint.AttachedAt join place)
    {event : Event Action} (hevent : FromJoin blueprint store event) {location : Location}
    (h : event.action.Touches event.cursor location) (hstart : location <+: place) :
    location = place := by
  obtain ⟨other, hother, loops, hstands, hfits⟩ := hevent
  obtain ⟨hattaches, hattached, hnames⟩ :=
    attached_of_touches hlevels hstands hfits h hplace hstart
  obtain rfl := hspares other hother hattaches hnames
  obtain ⟨resolved, hleads, -, cursor, hcursor, rfl⟩ := hplace
  exact hattached.eq_of_above hleads hcursor hstart

section Run

variable {procedures : JoinProcedures}

open JoinProcedures (machine)

/-- An event that writes the instance of a spared attachment is that of the attachment. -/
theorem event_eq_of_touches (hlevels : blueprint.LevelsDeclared)
    (hspares : Spares blueprint.metadata store join)
    (hleads : blueprint.resolveLenient join.path = .ok resolved)
    (hlevel : resolved.isScalar = false) (hfits : cursor.Fits resolved.loops)
    {event : Event Action} (hevent : FromJoin blueprint store event)
    (h : event.action.Touches event.cursor (cursor.below resolved.leaf)) :
    event = ⟨.attach (attachmentAt blueprint join resolved), cursor⟩ := by
  obtain ⟨other, hother, loops, hstands, hfits'⟩ := hevent
  have hplace : blueprint.AttachedAt join (cursor.below resolved.leaf) :=
    ⟨resolved, hleads, hlevel, cursor, hfits, rfl⟩
  obtain ⟨hattaches, -, hnames⟩ :=
    attached_of_touches hlevels hstands hfits' h hplace (List.prefix_refl _)
  obtain rfl := hspares other hother hattaches hnames
  obtain ⟨action, c⟩ := event
  cases hstands with
  | feed hfeeds => exact absurd hfeeds hattaches
  | attachment _ hleads' _ =>
    obtain rfl := Except.ok.inj (hleads.symm.trans hleads')
    -- an attachment writes itself or the target of an aggregate, and no target is an attachment
    rcases h with heq | ⟨inlined, hmem, heq⟩
    · replace heq : cursor.below resolved.leaf = c.below resolved.leaf := heq
      have hstart : cursor.below resolved.leaf <+: c.below resolved.leaf :=
        ⟨[], by rw [List.append_nil, heq]⟩
      obtain rfl : cursor = c := Cursor.eq_of_above hfits hfits' hstart
      rfl
    · exact absurd (heq ▸ List.prefix_refl _)
        ((valueAt_of_inlined hmem hfits').2.not_above hlevels hplace)

/-- A procedure of the store leaves the owner of a spared attachment an object, or none. -/
theorem owned_run_iff (hlevels : blueprint.LevelsDeclared)
    (hcompile : JoinProcedures.compile blueprint store = .ok procedures)
    (hspares : Spares blueprint.metadata store join) (hplace : blueprint.AttachedAt join place)
    (hne : place ≠ []) (record : Json) (states : AggregateStates) :
    Owned place (procedures.run surroundings record states).record ↔ Owned place record := by
  obtain ⟨events, hrun, -, hfrom⟩ :=
    JoinProcedures.exists_events hcompile surroundings record states
  rw [hrun]
  exact owned_perform_of_spared hne (fun event hevent _ => eq_of_touches hlevels hspares hplace
    (hfrom event hevent)) _

/-- A procedure of another store keeps a rebuilt attachment that it does not lie around. -/
theorem rebuilt_run_later (hlevels : blueprint.LevelsDeclared)
    (hcompile : JoinProcedures.compile blueprint store = .ok procedures)
    (hspares : ∀ other ∈ blueprint.metadata.joinsOf store, other.Attaches →
      ¬ segments other.path <+: segments join.path)
    (hplace : blueprint.AttachedAt join place) {record : Json}
    (h : Rebuilt blueprint place value record) (states : AggregateStates) :
    Rebuilt blueprint place value (procedures.run surroundings record states).record := by
  obtain ⟨events, hrun, -, hfrom⟩ :=
    JoinProcedures.exists_events hcompile surroundings record states
  rw [hrun]
  refine Machine.perform_induction (machine surroundings)
    (fun state => Rebuilt blueprint place value state.record)
    (fun event hevent state hrebuilt => ?_) h
  obtain ⟨other, hother, loops, hstands, hfits⟩ := hfrom event hevent
  refine hrebuilt.keep (act_sameOutside event.action event.cursor state) ?_ ?_
  · intro location htouches hstart
    obtain ⟨hattaches, -, hnames⟩ :=
      attached_of_touches hlevels hstands hfits htouches hplace hstart
    exact hspares other hother hattaches hnames
  · exact fun location htouches => maintains_of_touches hother hstands hfits htouches

/-- The owner of an instance of a spared attachment stays an object while a procedure of the store
runs, so the action of the attachment is done at the instance. -/
theorem exists_events_at (hlevels : blueprint.LevelsDeclared)
    (hcompile : JoinProcedures.compile blueprint store = .ok procedures)
    (hspares : Spares blueprint.metadata store join)
    (hjoin : join ∈ blueprint.metadata.joinsOf store) (hattaches : join.Attaches)
    (hleads : blueprint.resolveLenient join.path = .ok resolved)
    (hfits : cursor.Fits resolved.loops) {record : Json}
    (howned : Owned (cursor.below resolved.leaf) record) (states : AggregateStates) :
    ∃ events, procedures.run surroundings record states =
        (machine surroundings).perform events { record, states } ∧
      (machine surroundings).Traced (procedures.program surroundings.delta).placed {} events
        { record, states } ∧
      (∀ event ∈ events, FromJoin blueprint store event) ∧
      (∀ front, front <+: events → Owned (cursor.below resolved.leaf)
        ((machine surroundings).perform front { record, states }).record) ∧
      ⟨.attach (attachmentAt blueprint join resolved), cursor⟩ ∈ events := by
  have hleaf := (Blueprint.leads_of_lenient hlevels hleads).1.leaf_ne_nil
  obtain ⟨other, hleads', hlevel, hplaced⟩ :=
    JoinProcedures.placed_of_attaches hcompile surroundings.delta hjoin hattaches
  obtain rfl : resolved = other := Except.ok.inj (hleads.symm.trans hleads')
  obtain ⟨events, hrun, htraced, hfrom⟩ :=
    JoinProcedures.exists_events hcompile surroundings record states
  have hplace : blueprint.AttachedAt join (cursor.below resolved.leaf) :=
    ⟨resolved, hleads, hlevel, cursor, hfits, rfl⟩
  have howns : ∀ front, front <+: events → Owned (cursor.below resolved.leaf)
      ((machine surroundings).perform front { record, states }).record := fun front hfront =>
    (owned_perform_of_spared (Cursor.below_ne_nil hleaf) (fun event hevent _ =>
      eq_of_touches hlevels hspares hplace (hfrom event (hfront.subset hevent))) _).mpr howned
  exact ⟨events, hrun, htraced, hfrom, howns, htraced.complete _ _ hplaced cursor
    (Cursor.fits_iff_under_root.mp hfits) fun front hfront => has_of_owned hleaf (howns front hfront)⟩

/-- The procedure of its own store rebuilds an attachment whose owner is an object. -/
theorem rebuilt_run (hlevels : blueprint.LevelsDeclared)
    (hcompile : JoinProcedures.compile blueprint store = .ok procedures)
    (hspares : Spares blueprint.metadata store join) (hplace : blueprint.AttachedAt join place)
    (hjoin : join ∈ blueprint.metadata.joinsOf store) (hattaches : join.Attaches)
    {records : List Json} (hdelta : surroundings.delta = .set records) {record : Json}
    (howned : Owned place record) (states : AggregateStates) :
    Rebuilt blueprint place (join.content records)
      (procedures.run surroundings record states).record := by
  obtain ⟨resolved, hleads, hlevel, cursor, hfits, rfl⟩ := id hplace
  have hne : cursor.below resolved.leaf ≠ [] :=
    Cursor.below_ne_nil (Blueprint.leads_of_lenient hlevels hleads).1.leaf_ne_nil
  obtain ⟨events, hrun, -, hfrom, -, hevent⟩ :=
    exists_events_at hlevels hcompile hspares hjoin hattaches hleads hfits howned states
  have hkept : ∀ event ∈ events, ∀ state : State, Owned (cursor.below resolved.leaf) state.record →
      Owned (cursor.below resolved.leaf)
        (act surroundings event.action event.cursor state).record := fun event hmem state =>
    (owned_act_of_spared hne
      (fun _ => eq_of_touches hlevels hspares hplace (hfrom event hmem)) state).mpr
  rw [hrun]
  -- the action at the instance rebuilds it; every event keeps it then, or rebuilds it once more
  refine (Machine.perform_of_mem (machine surroundings)
    (fun state => Owned (cursor.below resolved.leaf) state.record)
    (fun state => Owned (cursor.below resolved.leaf) state.record ∧
      Rebuilt blueprint (cursor.below resolved.leaf) (join.content records) state.record)
    hevent (fun state hstate => ?reach) (fun event hmem _ => hkept event hmem)
    (fun event hmem state hstate => ⟨hkept event hmem state hstate.1, ?keep⟩) howned).2
  case reach =>
    exact ⟨hkept _ hevent state hstate,
      rebuilt_act hlevels hleads hlevel hattaches hfits hdelta hstate⟩
  case keep =>
    by_cases hself : event.action.Touches event.cursor (cursor.below resolved.leaf)
    · obtain rfl :=
        event_eq_of_touches hlevels hspares hleads hlevel hfits (hfrom event hmem) hself
      exact rebuilt_act hlevels hleads hlevel hattaches hfits hdelta hstate.1
    · obtain ⟨other, hother, loops, hstands, hfits'⟩ := hfrom event hmem
      refine hstate.2.keep (act_sameOutside event.action event.cursor state) ?_ ?_
      · intro location htouches hstart
        exact hself
          (eq_of_touches hlevels hspares hplace (hfrom event hmem) htouches hstart ▸ htouches)
      · exact fun location htouches => maintains_of_touches hother hstands hfits' htouches

end Run

end Joining

/-! ## All stores -/

namespace Store

open Joining

variable {store : Store} {foreign : String} {join : Join}

/-- Sets the records of one joined store. -/
def setOne (store : Store) (environment : Environment) (snapshot : Fields (List Json))
    (state : State) (procedures : JoinProcedures) : State :=
  let delta := Delta.set ((Fields.get? snapshot procedures.store).getD [])
  let next := store.runJoin environment delta state.record state.states procedures
  { next with journal := state.journal ++ next.journal }

theorem joinAll_eq (store : Store) (environment : Environment) (snapshot : Fields (List Json))
    (record : Json) (states : AggregateStates) :
    store.joinAll environment snapshot record states =
      store.joins.foldl (store.setOne environment snapshot) { record, states } := rfl

/-- The stores that are set after an attachment's own keep its owner and its content. -/
theorem foldl_setOne_later (environment : Environment) (snapshot : Fields (List Json))
    (value : Json) (hlevels : store.blueprint.LevelsDeclared)
    (hplace : store.blueprint.AttachedAt join place) (hne : place ≠ []) {stores : List String}
    {procedures : List JoinProcedures}
    (hcompile : List.Forall₂ (fun name procedure =>
      JoinProcedures.compile store.blueprint name = .ok procedure) stores procedures)
    (hlater : ∀ later ∈ stores, ∀ other ∈ store.metadata.joinsOf later, other.Attaches →
      ¬ segments other.path <+: segments join.path) (state : State) :
    (Owned place (procedures.foldl (store.setOne environment snapshot) state).record ↔
      Owned place state.record) ∧
    (Rebuilt store.blueprint place value state.record → Rebuilt store.blueprint place value
      (procedures.foldl (store.setOne environment snapshot) state).record) := by
  induction hcompile generalizing state with
  | nil => exact ⟨Iff.rfl, id⟩
  | cons hfirst _ ih =>
    have hspares := hlater _ List.mem_cons_self
    obtain ⟨howned, hrebuilt⟩ := ih (fun later hmem => hlater later (List.mem_cons_of_mem _ hmem))
      (store.setOne environment snapshot state _)
    refine ⟨howned.trans ?_, fun h => hrebuilt ?_⟩
    · exact owned_run_iff hlevels hfirst
        (fun other hother hattaches hnames => absurd hnames (hspares other hother hattaches))
        hplace hne _ _
    · exact rebuilt_run_later hlevels hfirst hspares hplace h _

/-- Every attachment whose owner is an object shows the records of the snapshot after all joined
stores have been set, unless an attachment that is rebuilt later lies around it. -/
theorem joinAll_rebuilds (h : store.IsCompiled) (environment : Environment)
    (snapshot : Fields (List Json)) (record : Json) (states : AggregateStates)
    (hjoin : join ∈ store.metadata.joinsOf foreign) (hattaches : join.Attaches)
    (hlast : store.metadata.RebuiltLast foreign join)
    (hplace : store.blueprint.AttachedAt join place)
    (howned : Owned place (store.joinAll environment snapshot record states).record) :
    Rebuilt store.blueprint place
      (join.content ((Fields.get? snapshot foreign).getD []))
      (store.joinAll environment snapshot record states).record := by
  have hlevels := h.levelsDeclared
  obtain ⟨front, back, hstores, hspares, hlater⟩ := hlast
  have hcompile := JoinProcedures.forall_compile h.joins
  replace hstores : store.blueprint.metadata.joinedStores = front ++ foreign :: back := hstores
  rw [hstores] at hcompile
  obtain ⟨before, rest, hjoins, -, hrest⟩ := exists_append_of_forall₂ hcompile
  cases hrest with
  | @cons _ procedures _ after hown hafter =>
    obtain ⟨resolved, hleads, hlevel, cursor, hfits, rfl⟩ := id hplace
    have hne : cursor.below resolved.leaf ≠ [] := by
      have hleaf := (Blueprint.leads_of_lenient hlevels hleads).1.leaf_ne_nil
      simpa [Cursor.below] using fun _ => hleaf
    rw [joinAll_eq, hjoins, List.foldl_append, List.foldl_cons] at howned ⊢
    generalize before.foldl (store.setOne environment snapshot) { record, states } = state
      at howned ⊢
    obtain ⟨hiff, hkeep⟩ := foldl_setOne_later environment snapshot
      (join.content ((Fields.get? snapshot foreign).getD [])) hlevels hplace hne hafter hlater
      (store.setOne environment snapshot state procedures)
    have hstore : procedures.store = foreign :=
      (JoinProcedures.exists_compile hown (.set [])).1
    -- no store that is set later changes whether the owner is an object
    refine hkeep (rebuilt_run hlevels hown hspares hplace hjoin hattaches ?_ ?_ _)
    · rw [hstore]
    · exact (owned_run_iff hlevels hown hspares hplace hne _ _).mp (hiff.mp howned)

/-! ### An attachment around another one -/

/-- Carts of one store, which hold orders of another one. -/
def cartsOfOrders : Descriptor :=
  .mk [("carts", .tuple [.word "array", .word "@carts", .nested (.mk
    [("id", .tuple [.word "int", .word "<<cartId>>"]),
     ("orders", .tuple [.word "array", .word "@orders"])])])]

/-- The store of carts and orders. -/
def shop : Store := compiled "shop" cartsOfOrders (by decide +kernel)

/-- One cart and one order. -/
def shopSnapshot : Fields (List Json) :=
  [("carts", [.object [("_id", .ofNat 1), ("id", .ofNat 1), ("orders", .array [])]]),
   ("orders", [.object [("_id", .ofNat 7)]])]

/-- The carts are set last, so they show the snapshot. -/
theorem joinAll_rebuilds_carts :
    Rebuilt shop.blueprint [.key "carts"]
      (.array [.object [("_id", .ofNat 1), ("id", .ofNat 1), ("orders", .array [])]])
      (shop.joinAll {} shopSnapshot (.object [("id", .ofNat 1), ("carts", .array [])]) []).record :=
  joinAll_rebuilds (isCompiled_compiled _ _ _) {} shopSnapshot _ []
    (show (⟨"carts", "carts", .many⟩ : Join) ∈ shop.metadata.joinsOf "carts" by decide +kernel)
    (by decide) ⟨["orders"], [], by decide +kernel, by decide +kernel, by simp⟩
    ⟨_, Except.eq_ok_of_toOption (by decide +kernel : _ = some
      (⟨"carts", [], ["carts"], .level "carts1" .array, false⟩ : ResolvedPath)), rfl, {}, rfl, rfl⟩
    (by decide +kernel)

/-- The orders of a cart are set before the carts, which are put in place without them. -/
theorem not_joinAll_rebuilds_orders :
    ¬ ∀ (store : Store) (snapshot : Fields (List Json)) (record : Json) (foreign : String)
      (join : Join) (place : Location), store.IsCompiled →
        join ∈ store.metadata.joinsOf foreign → join.Attaches →
        store.blueprint.AttachedAt join place →
        Owned place (store.joinAll {} snapshot record []).record →
        Rebuilt store.blueprint place (join.content ((Fields.get? snapshot foreign).getD []))
          (store.joinAll {} snapshot record []).record := by
  intro h
  obtain ⟨shown, hshown, hsame⟩ := h shop shopSnapshot
    (.object [("id", .ofNat 1), ("carts", .array [])]) "orders" ⟨"orders", "carts.orders", .many⟩
    [.key "carts", .index 0, .key "orders"] (isCompiled_compiled _ _ _) (by decide +kernel)
    (by decide)
    ⟨_, Except.eq_ok_of_toOption (by decide +kernel : _ = some
      (⟨"carts.orders", [⟨"carts1", ["carts"]⟩], ["orders"], .level "orders2" .array, true⟩ :
        ResolvedPath)), rfl, ⟨[⟨["carts"], 0⟩]⟩, rfl, rfl⟩
    (by decide +kernel)
  have hempty : ((shop.joinAll {} shopSnapshot
      (.object [("id", .ofNat 1), ("carts", .array [])]) []).record.locate?
        [.key "carts", .index 0, .key "orders"]).map Json.outline = some (.array 0) := by
    decide +kernel
  have houtline := (hsame [] fun location hbelow hstart =>
    hbelow.1 (List.prefix_nil.mp hstart)).1
  rw [hshown] at hempty
  rw [Json.locate?_nil, Json.locate?_nil, hempty] at houtline
  revert houtline
  decide +kernel

end Store

end NestedRecord
