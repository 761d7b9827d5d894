import NestedRecord.Proofs.Aggregate.Exact
import NestedRecord.Proofs.Join.Instance
import NestedRecord.Proofs.Join.Records
import NestedRecord.Proofs.Store.Compiled

/-!
# An attachment and an external aggregate of one store

A to-many attachment keeps the records of a store, an external aggregate of the same store folds
values of them. The two follow the same deltas by different rules: an insertion replaces an attached
record that is the same, a deletion takes out only what is attached, but the aggregate adds and
removes what it is given. They agree as long as the rules do.

The aggregate cannot see the attachment, and it does not ask for it: it adds what comes in and
removes what goes out. So its state is the fold of the attached records exactly as long as every
record that comes in is new and every record that goes out is there. `Plain` says this of one delta
in terms of the list before it, and a run of plain deltas is followed with the list in hand.

- `Attached.Plain` says of a delta that it replaces nothing and takes out what it names.
- `Joining.InStep` is the agreement. `InStep.run` is one call, `Store.joinEach_folds` a sequence.
- `Store.not_joinEach_folds` is a sequence with a record that is inserted again.
-/

namespace NestedRecord

open AggregateKind (Exact Faithful)

namespace Attached

variable {identityKey : String} {items : List Json} {content : Json} {delta : Delta}

/-- The records of an attachment after a delta. -/
def after (identityKey : String) (items : List Json) : Delta → List Json
  | .insert record => (insert identityKey record items).1
  | .delete record => ((delete identityKey record items).map (·.1)).getD items
  | .set records => records

/-- The content of an attachment of some records; null stands for none. -/
def Holds (content : Json) (items : List Json) : Prop :=
  content = .array items ∨ content = .null ∧ items = []

/-- A delta that says all by itself: an inserted record replaces none, and a deleted one is attached
just as it is given. -/
def Plain (identityKey : String) (items : List Json) : Delta → Prop
  | .insert record => (insert identityKey record items).2 = none
  | .delete record => ∃ rest, delete identityKey record items = some (rest, record)
  | .set _ => True

/-- A record that replaces none is put behind the others. -/
theorem insert_of_new {record : Json} : ∀ {items : List Json},
    (insert identityKey record items).2 = none →
      (insert identityKey record items).1 = items ++ [record]
  | [], _ => rfl
  | item :: items, h => by
    by_cases hsame : sameRecord identityKey item record = true
    · simp [insert, hsame] at h
    · simp only [insert, hsame] at h ⊢
      exact congrArg (item :: ·) (insert_of_new h)

/-- A plain delta changes an attachment, and leaves the records after it. -/
theorem changeMany?_of_plain (hholds : Holds content items)
    (hplain : Plain identityKey items delta) :
    (changeMany? identityKey content delta).map (·.content) =
      some (.array (after identityKey items delta)) := by
  cases delta with
  | insert record => rcases hholds with rfl | ⟨rfl, rfl⟩ <;> rfl
  | delete record =>
    obtain ⟨rest, hdelete⟩ := hplain
    rcases hholds with rfl | ⟨rfl, rfl⟩
    · simp [changeMany?, after, hdelete]
    · cases hdelete
  | set records => rfl

end Attached

/-- The value that an external aggregate folds for a record. -/
def ExternalAggregate.folded (aggregate : ExternalAggregate) (constants record : Json) : Json :=
  (applyTransformer "join" aggregate.target aggregate.transformer (aggregate.sourceValue record)
    constants).1

namespace Joining

open Attached (after Holds Plain)

variable {surroundings : Surroundings} {aggregate : ExternalAggregate} {kind : AggregateKind}
  {items : List Json}

/-- The records of a delta are folded by their values. -/
theorem foldl_value (feed : Feed) (constants : Json) (records : List Json)
    (state : AggregateState × Journal) :
    (records.foldl (fun (state : AggregateState × Journal) record =>
        let (value, journal) := feed.value constants record
        (kind.add state.1 value, state.2 ++ journal)) state).1 =
      (records.map (feed.aggregate.folded constants)).foldl kind.add state.1 := by
  induction records generalizing state with
  | nil => rfl
  | cons record rest ih => exact ih _

/-- A plain delta takes the fold of the records before it to that of the records after it. -/
theorem Feed.next_fold (feed : Feed) (hfaithful : kind.Faithful)
    (hplain : Plain surroundings.identityKey items surroundings.delta)
    (hexact : Exact (items.map (feed.aggregate.folded surroundings.constants))) :
    (feed.next surroundings kind
        (kind.fold (items.map (feed.aggregate.folded surroundings.constants)))).1 =
      kind.fold ((after surroundings.identityKey items surroundings.delta).map
        (feed.aggregate.folded surroundings.constants)) := by
  cases hdelta : surroundings.delta with
  | insert record =>
    rw [hdelta] at hplain
    rw [Feed.next, hdelta, after, Attached.insert_of_new hplain, List.map_append]
    exact (kind.fold_append _ _).symm
  | delete record =>
    rw [hdelta] at hplain
    obtain ⟨rest, hdelete⟩ := hplain
    have hperm := (Attached.delete_perm hdelete).map
      (feed.aggregate.folded surroundings.constants)
    rw [hfaithful.fold_perm hexact hperm, Feed.next, hdelta, after, hdelete]
    exact hfaithful.remove_fold (hexact.perm hperm)
  | set records =>
    rw [Feed.next, hdelta]
    exact foldl_value feed surroundings.constants records (kind.init, [])

variable {blueprint : Blueprint} {store : String} {join : Join} {attachment target : ResolvedPath}
  {cursor inner : Cursor} {procedures : JoinProcedures}

/-- An attachment has some records, and the state of an aggregate is the fold of their values. -/
structure InStep (kind : AggregateKind) (value : Json → Json) (attached shown : Location)
    (items : List Json) (state : State) : Prop where
  attaches : Owned attached state.record
  shows : Owned shown state.record
  holds : Holds ((state.record.locate? attached).getD .null) items
  folds : (Fields.get? state.states shown.pointer).getD kind.init = kind.fold (items.map value)

/-- A call with a plain delta keeps the attachment and the aggregate in step, and the target shows
the fold. -/
theorem InStep.run (hlevels : blueprint.LevelsDeclared) (htidy : blueprint.metadata.Tidy)
    (hbare : Bare blueprint store join attachment)
    (hsupplied : Supplied blueprint store aggregate target)
    (hcompile : JoinProcedures.compile blueprint store = .ok procedures)
    (hattached : cursor.Fits attachment.loops) (hshown : inner.Fits target.loops)
    (hfaithful : kind.Faithful) (hkind : surroundings.kinds.get? aggregate.op = some kind)
    {state : State}
    (h : InStep kind (aggregate.folded surroundings.constants) (cursor.below attachment.leaf)
      (inner.below target.leaf) items state)
    (hplain : Plain surroundings.identityKey items surroundings.delta)
    (hexact : Exact (items.map (aggregate.folded surroundings.constants))) :
    InStep kind (aggregate.folded surroundings.constants) (cursor.below attachment.leaf)
        (inner.below target.leaf) (after surroundings.identityKey items surroundings.delta)
        (procedures.run surroundings state.record state.states) ∧
      (procedures.run surroundings state.record state.states).record.locate?
          (cursor.below attachment.leaf) =
        some (.array (after surroundings.identityKey items surroundings.delta)) ∧
      (procedures.run surroundings state.record state.states).record.locate?
          (inner.below target.leaf) =
        some (kind.fold ((after surroundings.identityKey items surroundings.delta).map
          (aggregate.folded surroundings.constants))).value := by
  obtain ⟨hattaches, hcontent⟩ := hbare.run_attaches hlevels hcompile surroundings hattached
    h.attaches state.states
  have hnext := Feed.next_fold ⟨target.leaf, aggregate⟩ hfaithful hplain hexact
  rw [← h.folds] at hnext
  obtain ⟨hshows, hpersisted, hvalue⟩ := hsupplied.run_supplies hlevels htidy hshown hcompile hkind
    h.shows state.states hnext.symm
  -- a plain delta is carried out, so that the attachment has the records after it
  have hchange := Attached.changeMany?_of_plain h.holds hplain
  obtain ⟨change, hsome, hafter⟩ := Option.map_eq_some_iff.mp hchange
  have hat : changeAt? surroundings (attachmentAt blueprint join attachment) cursor state.record =
      some change := by
    rw [changeAt?, attachmentAt, hbare.many]
    exact hsome
  rw [hat, Option.elim_some, hafter] at hcontent
  refine ⟨⟨hattaches, hshows, .inl ?_, ?_⟩, hcontent, hvalue⟩
  · rw [hcontent]
    rfl
  · rw [hpersisted]
    rfl

end Joining

/-! ## Sequences of calls -/

/-- What a sequence of plain deltas leaves; the values of the records that are attached in between
are exact. -/
def Attached.PlainRun (identityKey : String) (value : Json → Json) (items : List Json) :
    List Delta → Prop
  | [] => Exact (items.map value)
  | delta :: rest => Exact (items.map value) ∧ Plain identityKey items delta ∧
      PlainRun identityKey value (after identityKey items delta) rest

namespace Store

open Joining

variable {store : Store} {foreign : String} {join : Join} {attachment target : ResolvedPath}
  {aggregate : ExternalAggregate} {cursor inner : Cursor}

/-- Applies deltas of joined stores one after the other. -/
def joinEach (store : Store) (environment : Environment) (calls : List (String × Delta))
    (state : State) : Option State :=
  calls.foldlM (fun state call =>
    store.join? environment call.1 call.2 state.record state.states) state

/-- The first call, then the others. -/
theorem joinEach_cons (store : Store) (environment : Environment) (call : String × Delta)
    (calls : List (String × Delta)) (state : State) :
    store.joinEach environment (call :: calls) state =
      (store.join? environment call.1 call.2 state.record state.states).bind
        (store.joinEach environment calls) := List.foldlM_cons

/-- One call more. -/
theorem joinEach_concat (store : Store) (environment : Environment)
    (calls : List (String × Delta)) (call : String × Delta) (state : State) :
    store.joinEach environment (calls ++ [call]) state =
      (store.joinEach environment calls state).bind fun middle =>
        store.join? environment call.1 call.2 middle.record middle.states := by
  rw [joinEach, List.foldlM_append]
  simp only [List.foldlM_cons, List.foldlM_nil, bind_pure]
  rfl

/-- Plain deltas keep the attachment and the aggregate in step. -/
theorem joinEach_inStep (h : store.IsCompiled) (environment : Environment)
    (hbare : Bare store.blueprint foreign join attachment)
    (hsupplied : Supplied store.blueprint foreign aggregate target)
    (hattached : cursor.Fits attachment.loops) (hshown : inner.Fits target.loops)
    {kind : AggregateKind} (hfaithful : kind.Faithful)
    (hkind : environment.kinds.get? aggregate.op = some kind) :
    ∀ {deltas : List Delta} {items : List Json} {state : State}, deltas ≠ [] →
      InStep kind (aggregate.folded environment.constants) (cursor.below attachment.leaf)
        (inner.below target.leaf) items state →
      Attached.PlainRun store.config.identityKey (aggregate.folded environment.constants) items
        deltas →
      ∃ final, store.joinEach environment (deltas.map ((foreign, ·))) state = some final ∧
        final.record.locate? (cursor.below attachment.leaf) =
          some (.array (deltas.foldl (Attached.after store.config.identityKey) items)) ∧
        final.record.locate? (inner.below target.leaf) =
          some (kind.fold ((deltas.foldl (Attached.after store.config.identityKey) items).map
            (aggregate.folded environment.constants))).value
  | [], _, _, hne, _, _ => absurd rfl hne
  | delta :: rest, items, state, _, hstep, hplain => by
    obtain ⟨hexact, hfirst, hrest⟩ := hplain
    obtain ⟨procedures, hjoined⟩ := h.exists_joined? hbare.joined
    let surroundings : Surroundings :=
      { environment with delta, identityKey := store.config.identityKey }
    let next := procedures.run surroundings state.record state.states
    have hcall : store.join? environment foreign delta state.record state.states = some next := by
      rw [join?, hjoined]
      rfl
    obtain ⟨hnext, hcontent, hvalue⟩ := hstep.run h.levelsDeclared h.tidy hbare hsupplied
      (h.of_joined? hjoined) hattached hshown hfaithful
      (show surroundings.kinds.get? aggregate.op = some kind from hkind) hfirst hexact
    have hcons : store.joinEach environment ((delta :: rest).map ((foreign, ·))) state =
        store.joinEach environment (rest.map ((foreign, ·))) next := by
      rw [List.map_cons, joinEach_cons, hcall]
      rfl
    rw [hcons, List.foldl_cons]
    -- what the last call leaves is what is shown
    by_cases hempty : rest = []
    · subst hempty
      exact ⟨next, rfl, hcontent, hvalue⟩
    · exact joinEach_inStep h environment hbare hsupplied hattached hshown hfaithful hkind hempty
        hnext hrest

/-- After every call of a sequence of plain deltas, the target of an external aggregate shows the
fold of the values of the attached records. -/
theorem joinEach_folds (h : store.IsCompiled) {environment : Environment}
    (hkinds : environment.kinds = .builtIn)
    (hbare : Bare store.blueprint foreign join attachment)
    (hsupplied : Supplied store.blueprint foreign aggregate target)
    (hattached : cursor.Fits attachment.loops) (hshown : inner.Fits target.loops) {record : Json}
    {states : AggregateStates} (hattaches : Owned (cursor.below attachment.leaf) record)
    (hshows : Owned (inner.below target.leaf) record)
    (hempty : Attached.Holds ((record.locate? (cursor.below attachment.leaf)).getD .null) [])
    (hstates : Fields.get? states (inner.below target.leaf).pointer = none) {deltas : List Delta}
    (hne : deltas ≠ [])
    (hplain : Attached.PlainRun store.config.identityKey (aggregate.folded environment.constants)
      [] deltas) :
    ∃ final, store.joinEach environment (deltas.map ((foreign, ·))) { record, states } =
        some final ∧
      final.record.locate? (inner.below target.leaf) =
        some (aggregate.op.kind.fold
          ((final.record.itemsAt (cursor.below attachment.leaf)).map
            (aggregate.folded environment.constants))).value := by
  have hkind : environment.kinds.get? aggregate.op = some aggregate.op.kind := by
    rw [hkinds]
    exact AggregateKinds.get?_builtIn aggregate.op
  have hstart : InStep aggregate.op.kind (aggregate.folded environment.constants)
      (cursor.below attachment.leaf) (inner.below target.leaf) [] { record, states } := by
    refine ⟨hattaches, hshows, hempty, ?_⟩
    rw [hstates]
    rfl
  obtain ⟨final, hfinal, hcontent, hvalue⟩ := joinEach_inStep h environment hbare hsupplied
    hattached hshown aggregate.op.faithful hkind hne hstart hplain
  refine ⟨final, hfinal, ?_⟩
  rw [Json.itemsAt, hcontent]
  exact hvalue

/-! ### A record that is inserted again -/

/-- Customers with their orders and the total of these. -/
def customersWithTotal : Descriptor :=
  .mk [("id", .tuple [.word "int", .word "<<idCustomer>>"]),
    ("orders", .tuple [.word "array", .word "@orders"]),
    ("lifetime", .tuple [.word "number", .word "sum", .word "@orders.amount"])]

/-- The store of these customers. -/
def customers : Store := compiled "customers" customersWithTotal (by decide +kernel)

/-- An order with an identity and an amount. -/
def order (id : String) (amount : Nat) : Json :=
  .object [("_id", .string id), ("amount", .ofNat amount)]

/-- A customer without orders. -/
def customer : Json := .object [("id", .ofNat 1), ("orders", .array []), ("lifetime", .ofNat 0)]

/-- The total of a customer's orders. -/
def lifetime : ExternalAggregate := ⟨"lifetime", .sum, "orders", some "amount", none⟩

/-- The orders of a customer. -/
def ordersPath : ResolvedPath := ⟨"orders", [], ["orders"], .level "orders1" .array, true⟩

/-- The total of a customer. -/
def lifetimePath : ResolvedPath :=
  ⟨"lifetime", [], ["lifetime"], .scalar "main0" "lifetime" (some .number), false⟩

/-- The orders of a customer declare no shape. -/
theorem bare_orders :
    Bare customers.blueprint "orders" ⟨"orders", "orders", .many⟩ ordersPath where
  joined := by decide +kernel
  many := rfl
  leads := Except.eq_ok_of_toOption (by decide +kernel)
  foreign := rfl
  alone := by decide +kernel

/-- The total of a customer is supplied with the orders. -/
theorem supplied_lifetime : Supplied customers.blueprint "orders" lifetime lifetimePath where
  registered := by
    have hparts : ∃ aggregate ∈ (Fields.get? customers.blueprint.metadata.externals
        "orders").getD [], (aggregate.target, aggregate.op, aggregate.store,
          aggregate.sourceAttribute) = ("lifetime", .sum, "orders", some "amount") ∧
            aggregate.transformer.isNone := by decide +kernel
    obtain ⟨⟨target, op, store, source, transformer⟩, hmem, heq, hnone⟩ := hparts
    obtain ⟨rfl, rfl, rfl, rfl⟩ : target = _ ∧ op = _ ∧ store = _ ∧ source = _ := by
      simpa using heq
    obtain rfl : transformer = none := by simpa using hnone
    exact hmem
  leads := Except.eq_ok_of_toOption (by decide +kernel)
  spared := by decide +kernel

/-- Two orders are attached and one of them is taken out again. -/
theorem joinEach_folds_orders :
    ∃ final, customers.joinEach {}
        ([.insert (order "a" 10), .insert (order "b" 25), .delete (order "b" 25)].map (("orders", ·)))
        { record := customer, states := [] } = some final ∧
      final.record.locate? [.key "lifetime"] =
        some (AggregateKind.sum.fold ((final.record.itemsAt [.key "orders"]).map
          (lifetime.folded .null))).value :=
by
  have hnew : sameRecord customers.config.identityKey (order "a" 10) (order "b" 25) = false := by
    decide +kernel
  have hsame : sameRecord customers.config.identityKey (order "b" 25) (order "b" 25) = true := by
    decide +kernel
  have hplain : Attached.PlainRun customers.config.identityKey (lifetime.folded .null) []
      [.insert (order "a" 10), .insert (order "b" 25), .delete (order "b" 25)] := by
    simp only [Attached.PlainRun, Attached.Plain, Attached.after, Attached.insert, Attached.delete,
      hnew, hsame, if_true, if_false, Option.map_some, Option.getD_some, Bool.false_eq_true]
    exact ⟨by decide +kernel, trivial, by decide +kernel, trivial, by decide +kernel, ⟨_, rfl⟩,
      by decide +kernel⟩
  have hroot : Cursor.Fits {} ([] : List Loop) := rfl
  exact joinEach_folds (isCompiled_compiled _ _ _) rfl bare_orders supplied_lifetime hroot hroot
    (by decide +kernel) (by decide +kernel) (.inl rfl) rfl (by simp) hplain

/-- An order that is inserted again replaces the attached one, but adds to the total. -/
theorem not_joinEach_folds :
    ¬ ∀ (store : Store) (foreign : String) (join : Join) (attachment target : ResolvedPath)
      (aggregate : ExternalAggregate) (record : Json) (records : List Json) (final : State),
        store.IsCompiled → Bare store.blueprint foreign join attachment → attachment.loops = [] →
        Supplied store.blueprint foreign aggregate target → target.loops = [] →
        record.locate? (attachment.leaf.map .key) = some (.array []) →
        Owned (target.leaf.map .key) record →
        Exact (records.map (aggregate.folded .null)) →
        store.joinEach {} (records.map fun record => (foreign, .insert record))
          { record, states := [] } = some final →
        final.record.locate? (target.leaf.map .key) =
          some (aggregate.op.kind.fold
            ((final.record.itemsAt (attachment.leaf.map .key)).map (aggregate.folded .null))).value := by
  intro h
  obtain ⟨final, hfinal⟩ : ∃ final, customers.joinEach {}
      ([order "a" 10, order "a" 4].map fun record => ("orders", .insert record))
        { record := customer, states := [] } = some final :=
    Option.isSome_iff_exists.mp (by decide +kernel)
  have hfold := h customers "orders" _ ordersPath lifetimePath lifetime customer
    [order "a" 10, order "a" 4] final (isCompiled_compiled _ _ _) bare_orders rfl supplied_lifetime
    rfl rfl (by decide +kernel) (by decide +kernel) hfinal
  have hshown : (customers.joinEach {}
      ([order "a" 10, order "a" 4].map fun record => ("orders", .insert record))
        { record := customer, states := [] }).map (fun final =>
          ((final.record.locate? [.key "lifetime"]).map Json.outline,
            (AggregateKind.sum.fold ((final.record.itemsAt [.key "orders"]).map
              (lifetime.folded .null))).value.outline)) =
      some (some (Json.ofNat 14).outline, (Json.ofNat 4).outline) := by
    decide +kernel
  rw [hfinal] at hshown
  obtain ⟨hfourteen, hfour⟩ := Prod.mk.inj (Option.some.inj hshown)
  have houtlines := congrArg (Option.map Json.outline) hfold
  rw [Option.map_some] at houtlines
  have heq := hfourteen.symm.trans (houtlines.trans (congrArg some hfour))
  revert heq
  decide +kernel

end Store

end NestedRecord
