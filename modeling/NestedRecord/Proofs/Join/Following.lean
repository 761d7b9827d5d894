import NestedRecord.Proofs.Aggregate.Standing
import NestedRecord.Proofs.Join.Tandem
import NestedRecord.Proofs.Json.Alike

/-!
# External aggregates and the records they follow

An external aggregate sees nothing of its store but the deltas. It has to tell from them which
records there are: those of the last snapshot and those that came later, less those that left.

That two records are equal does not mean that they are the same: numbers may be written differently
and members ordered differently. A deletion is matched by equality, so what is taken out of a fold
is the value of one record and what was put in is that of another, equal one. Transformers are
foreign code and may tell them apart; `Respects` asks that they do not. For the rest, a run is
followed delta by delta with the fold of the live records as its invariant.

- `Live` are the records that deltas leave. A deletion names a record that is live, or one that
  equals it: `Json.Equal`.
- `Feed.next_live` is one delta, `Store.joinEach_live` a sequence of calls: the state persisted for
  an instance of the target is the fold of the live records.
- `Store.joinEach_follows` says so after every call of a run, and that the target shows the value.
-/

namespace NestedRecord

/-! ## Equal records -/

namespace Json

/-- Whether values are equal as far as either can tell: each direction of `same` looks for the
members of one side only, which is not enough where a key is repeated. -/
def Equal (a b : Json) : Prop := a.same b ∧ b.same a

/-- Members of the same value are the same. -/
theorem exists_same_of_get? {a b x : Json} (h : a.same b) {key : String}
    (hx : a.get? key = some x) : ∃ y, b.get? key = some y ∧ x.same y := by
  cases a <;> try cases hx
  cases b <;> simp only [same, Bool.false_eq_true] at h
  rw [Bool.and_eq_true] at h
  exact exists_same_of_sameMembers h.2 hx

namespace Equal

variable {a b : Json}

/-- Equal records have equal members. -/
theorem get? (h : a.Equal b) (key : String) : Option.Rel Equal (a.get? key) (b.get? key) := by
  cases hx : a.get? key with
  | none =>
    cases hy : b.get? key with
    | none => exact .none
    | some y =>
      obtain ⟨x, hx', -⟩ := exists_same_of_get? h.2 hy
      rw [hx] at hx'
      cases hx'
  | some x =>
    obtain ⟨y, hy, hsame⟩ := exists_same_of_get? h.1 hx
    obtain ⟨x', hx', hsame'⟩ := exists_same_of_get? h.2 hy
    obtain rfl := Option.some.inj (hx.symm.trans hx')
    rw [hy]
    exact .some ⟨hsame, hsame'⟩

/-- Equal values have equal values at the same place. -/
theorem at? (h : a.Equal b) (names : List String) :
    Option.Rel Equal (a.at? names) (b.at? names) := by
  induction names generalizing a b with
  | nil => exact .some h
  | cons name rest ih =>
    have hmember := h.get? name
    rw [Json.at?, Json.at?]
    generalize a.get? name = x, b.get? name = y at hmember
    cases hmember with
    | none => exact .none
    | some hinner => exact ih hinner

end Equal

end Json

namespace ExternalAggregate

variable {aggregate : ExternalAggregate} {constants twin record : Json}

/-- Equal records have equal source values. -/
theorem sourceValue_equal (h : twin.Equal record) :
    (aggregate.sourceValue twin).Equal (aggregate.sourceValue record) := by
  unfold sourceValue
  cases aggregate.sourceAttribute with
  | none => exact h
  | some path =>
    have hvalue := h.at? (segments path)
    simp only
    generalize twin.at? (segments path) = x, record.at? (segments path) = y at hvalue
    cases hvalue with
    | none => exact ⟨rfl, rfl⟩
    | some hvalue => exact hvalue

/-- Whether the transformer, if there is one, makes the same of equal values. -/
def Respects (aggregate : ExternalAggregate) (constants : Json) : Prop :=
  ∀ handler, aggregate.transformer = some handler → ∀ value other : Json, value.Equal other →
    (applyTransformer "join" aggregate.target (some handler) value constants).1.same
      (applyTransformer "join" aggregate.target (some handler) other constants).1

/-- Whether the deletion of a record takes out its twin: the very same record, or an equal one. A
transformer could tell equal values apart, by the order of members. -/
def Twins (aggregate : ExternalAggregate) (constants twin record : Json) : Prop :=
  twin = record ∨ twin.Equal record ∧ aggregate.Respects constants

/-- Of equal records the same value is folded, up to equality. -/
theorem folded_same (h : twin.Equal record) (hrespects : aggregate.Respects constants) :
    (aggregate.folded constants twin).same (aggregate.folded constants record) := by
  have hvalue : (aggregate.sourceValue twin).Equal (aggregate.sourceValue record) :=
    sourceValue_equal h
  unfold folded
  cases htransformer : aggregate.transformer with
  | none => exact hvalue.1
  | some handler => exact hrespects handler htransformer _ _ hvalue

end ExternalAggregate

/-! ## Live records -/

/-- The records that a delta names. -/
def Delta.records : Delta → List Json
  | .insert record => [record]
  | .delete record => [record]
  | .set records => records

/-- What a delta makes of the live records. A deleted record has a twin among them. -/
inductive Delta.Moves (twins : Json → Json → Prop) : Delta → List Json → List Json → Prop
  | insert (record : Json) (live : List Json) : Moves twins (.insert record) live (live ++ [record])
  | delete {record twin : Json} {live rest : List Json} (alike : twins twin record)
      (present : live.Perm (twin :: rest)) : Moves twins (.delete record) live rest
  | set (records live : List Json) : Moves twins (.set records) live records

/-- The records that deltas leave, from none on. -/
inductive Live (twins : Json → Json → Prop) : List Delta → List Json → Prop
  | start : Live twins [] []
  | step {deltas : List Delta} {delta : Delta} {live live' : List Json}
      (before : Live twins deltas live) (moves : delta.Moves twins live live') :
      Live twins (deltas ++ [delta]) live'

namespace Live

variable {twins : Json → Json → Prop} {deltas early : List Delta} {live : List Json}

/-- The beginning of a run has live records as well. -/
theorem exists_of_prefix (h : Live twins deltas live) (hearly : early <+: deltas) :
    ∃ live', Live twins early live' := by
  induction h with
  | start =>
    obtain rfl := List.prefix_nil.mp hearly
    exact ⟨[], .start⟩
  | step before moves ih =>
    rcases List.prefix_concat_iff.mp hearly with rfl | hearly
    · exact ⟨_, .step before moves⟩
    · exact ih hearly

/-- Whatever is live has been brought. -/
theorem subperm_incoming (h : Live twins deltas live) :
    live.Subperm (deltas.flatMap Attached.incoming) := by
  induction h with
  | start => exact List.Subperm.refl _
  | @step deltas delta live live' before moves ih =>
    rw [List.flatMap_append, List.flatMap_singleton]
    cases moves with
    | insert record => exact (List.subperm_append_right [record]).mpr ih
    | @delete record twin _ rest _ hpresent =>
      have hless : live'.Subperm live :=
        (List.sublist_cons_self twin live').subperm.trans hpresent.symm.subperm
      exact (hless.trans ih).trans (List.sublist_append_left ..).subperm
    | set records => exact (List.sublist_append_right ..).subperm

end Live

/-- A run whose folded values are exact: the numbers are integers whose magnitudes total at most
`2⁵³` over all records that come in, and there are never more live records than a count can tell. -/
structure ExactRun (value : Json → Json) (twins : Json → Json → Prop) (deltas : List Delta) :
    Prop where
  integral : ∀ delta ∈ deltas, ∀ record ∈ delta.records, AggregateKind.isIntegral (value record)
  total : AggregateKind.magnitude
    (AggregateKind.integers ((deltas.flatMap Attached.incoming).map value)) ≤ 2 ^ 53
  few : ∀ early, early <+: deltas → ∀ live, Live twins early live → live.length < 2 ^ 64

namespace ExactRun

open AggregateKind

variable {value : Json → Json} {twins : Json → Json → Prop} {deltas early : List Delta}
  {live : List Json}

/-- The beginning of an exact run is exact. -/
theorem of_prefix (h : ExactRun value twins deltas) (hearly : early <+: deltas) :
    ExactRun value twins early where
  integral delta hdelta := h.integral delta (hearly.subset hdelta)
  total := by
    obtain ⟨later, rfl⟩ := id hearly
    refine Nat.le_trans (magnitude_le_of_sublist ?_) h.total
    rw [List.flatMap_append]
    exact ((List.sublist_append_left ..).map value).filterMap integer?
  few first hfirst := h.few first (hfirst.trans hearly)

/-- The values of the live records are exact. -/
theorem exact (h : ExactRun value twins deltas) (hlive : Live twins deltas live) :
    Exact (live.map value) := by
  obtain ⟨middle, hperm, hsublist⟩ := hlive.subperm_incoming
  refine ⟨fun folded hfolded => ?_, ?_, ?_⟩
  · obtain ⟨record, hrecord, rfl⟩ := List.mem_map.mp hfolded
    obtain ⟨delta, hdelta, hin⟩ :=
      List.mem_flatMap.mp (hsublist.subset (hperm.mem_iff.mpr hrecord))
    refine h.integral delta hdelta record ?_
    cases delta with
    | insert other => exact hin
    | delete other => cases hin
    | set records => exact hin
  · have hless := magnitude_le_of_sublist ((hsublist.map value).filterMap integer?)
    rw [integers, ← magnitude_perm ((hperm.map value).filterMap integer?)]
    exact Nat.le_trans hless h.total
  · rw [List.length_map]
    exact h.few deltas (List.prefix_refl _) live hlive

end ExactRun

/-! ## One delta -/

namespace Joining

variable {surroundings : Surroundings} {aggregate : ExternalAggregate} {live live' : List Json}

/-- A delta takes the fold of the live records before it to that of the live records after it. -/
theorem Feed.next_live (feed : Feed)
    (hmoves : surroundings.delta.Moves (feed.aggregate.Twins surroundings.constants) live live')
    (hexact : AggregateKind.Exact (live.map (feed.aggregate.folded surroundings.constants)))
    (hintegral : ∀ record ∈ surroundings.delta.records,
      AggregateKind.isIntegral (feed.aggregate.folded surroundings.constants record)) :
    (feed.next surroundings feed.aggregate.op.kind
        (feed.aggregate.op.kind.fold
          (live.map (feed.aggregate.folded surroundings.constants)))).1 =
      feed.aggregate.op.kind.fold (live'.map (feed.aggregate.folded surroundings.constants)) := by
  generalize hdelta : surroundings.delta = delta at hmoves hintegral
  rw [Feed.next, hdelta]
  cases hmoves with
  | insert record =>
    rw [List.map_append]
    exact (feed.aggregate.op.kind.fold_append _ _).symm
  | @delete record twin _ _ htwin hpresent =>
    have hperm := hpresent.map (feed.aggregate.folded surroundings.constants)
    have htwins : feed.aggregate.op.kind.remove
        (feed.aggregate.op.kind.fold (live.map (feed.aggregate.folded surroundings.constants)))
        (feed.aggregate.folded surroundings.constants twin) =
      feed.aggregate.op.kind.remove
        (feed.aggregate.op.kind.fold (live.map (feed.aggregate.folded surroundings.constants)))
        (feed.aggregate.folded surroundings.constants record) := by
      -- taking out an equal value is taking out the value, as far as the kind can tell
      rcases htwin with rfl | ⟨hequal, hrespects⟩
      · rfl
      · refine AggregateOp.remove_eq_of_same _ (feed.aggregate.folded_same hequal hrespects) ?_
          (hintegral record (List.mem_singleton_self _)) _
        exact hexact.integral _ (hperm.mem_iff.mpr List.mem_cons_self)
    refine htwins.symm.trans ?_
    rw [feed.aggregate.op.faithful.fold_perm hexact hperm]
    exact feed.aggregate.op.faithful.remove_fold (hexact.perm hperm)
  | set => exact foldl_value feed surroundings.constants _ (_, [])

end Joining

/-! ## Sequences of calls -/

namespace Store

open Joining

variable {store : Store} {foreign : String} {aggregate : ExternalAggregate}
  {target : ResolvedPath} {environment : Environment} {deltas early : List Delta}
  {live : List Json}

/-- Every instance of the target that the record reaches keeps a state, and shows the value of it
where there is an owner. -/
structure Follows (target : ResolvedPath) (current : AggregateState) (state : State) : Prop where
  keeps : ∀ cursor ∈ state.record.reach {} target.loops,
    Fields.get? state.states (cursor.below target.leaf).pointer = some current
  shows : ∀ cursor ∈ state.record.reach {} target.loops,
    Owned (cursor.below target.leaf) state.record →
      state.record.locate? (cursor.below target.leaf) = some current.value

/-- One more call makes the aggregate follow the records that are live after it. -/
theorem join?_live (h : store.IsCompiled) (hkinds : environment.kinds = .builtIn)
    (hsupplied : Supplied store.blueprint foreign aggregate target) {delta : Delta}
    {live' : List Json}
    (hmoves : delta.Moves (aggregate.Twins environment.constants) live live')
    (hexact : AggregateKind.Exact (live.map (aggregate.folded environment.constants)))
    (hintegral : ∀ record ∈ delta.records,
      AggregateKind.isIntegral (aggregate.folded environment.constants record)) {state : State}
    (hstates : ∀ cursor ∈ state.record.reach {} target.loops,
      (Fields.get? state.states (cursor.below target.leaf).pointer).getD aggregate.op.kind.init =
        aggregate.op.kind.fold (live.map (aggregate.folded environment.constants))) :
    ∃ next, store.join? environment foreign delta state.record state.states = some next ∧
      (∀ cursor, cursor ∈ next.record.reach {} target.loops ↔
        cursor ∈ state.record.reach {} target.loops) ∧
      Follows target
        (aggregate.op.kind.fold (live'.map (aggregate.folded environment.constants))) next := by
  have hlevels := h.levelsDeclared
  obtain ⟨join, hjoin, -⟩ := h.tidy.exists_feed hsupplied.registered
  obtain ⟨procedures, hjoined⟩ := h.exists_joined? hjoin
  have hcompile := h.of_joined? hjoined
  let surroundings : Surroundings :=
    { environment with delta, identityKey := store.config.identityKey }
  have hkind : surroundings.kinds.get? aggregate.op = some aggregate.op.kind := by
    show environment.kinds.get? aggregate.op = _
    rw [hkinds]
    exact AggregateKinds.get?_builtIn aggregate.op
  have hreach : ∀ cursor, cursor ∈
      (procedures.run surroundings state.record state.states).record.reach {} target.loops ↔
        cursor ∈ state.record.reach {} target.loops := fun cursor =>
    hsupplied.mem_reach_run hlevels h.tidy hcompile surroundings state.record state.states
  -- the state of every instance is that of the live records, and takes up the change
  have hnext : ∀ cursor ∈ state.record.reach {} target.loops,
      (Feed.next ⟨target.leaf, aggregate⟩ surroundings aggregate.op.kind
        ((Fields.get? state.states (cursor.below target.leaf).pointer).getD
          aggregate.op.kind.init)).1 =
      aggregate.op.kind.fold (live'.map (aggregate.folded environment.constants)) := by
    intro cursor hcursor
    rw [hstates cursor hcursor]
    exact @Feed.next_live surroundings live live' ⟨target.leaf, aggregate⟩ hmoves hexact hintegral
  refine ⟨procedures.run surroundings state.record state.states, ?_, hreach, ⟨?_, ?_⟩⟩
  · rw [join?, hjoined]
    rfl
  · intro cursor hmem
    have hcursor := (hreach cursor).mp hmem
    obtain ⟨hfits, hpresent⟩ := Json.mem_reach_root.mp hcursor
    rw [hsupplied.run_persists hlevels h.tidy hfits hcompile hkind hpresent, hnext cursor hcursor]
  · intro cursor hmem howned
    have hcursor := (hreach cursor).mp hmem
    have hfits := (Json.mem_reach_root.mp hcursor).1
    have hbefore := (hsupplied.owned_run_iff hlevels h.tidy hfits hcompile surroundings _ _).mp
      howned
    exact (hsupplied.run_supplies hlevels h.tidy hfits hcompile hkind hbefore state.states
      (hnext cursor hcursor).symm).2.2

/-- After calls the states of the target's instances are the fold of the live records; before the
first one there is no state, which counts as the fold of none. -/
theorem joinEach_live (h : store.IsCompiled) (hkinds : environment.kinds = .builtIn)
    (hsupplied : Supplied store.blueprint foreign aggregate target)
    (hlive : Live (aggregate.Twins environment.constants) deltas live)
    (hexact : ExactRun (aggregate.folded environment.constants)
      (aggregate.Twins environment.constants) deltas) (record : Json) :
    ∃ state, store.joinEach environment (deltas.map ((foreign, ·))) { record, states := [] } =
        some state ∧
      (∀ cursor, cursor ∈ state.record.reach {} target.loops ↔
        cursor ∈ record.reach {} target.loops) ∧
      (∀ cursor ∈ state.record.reach {} target.loops,
        (Fields.get? state.states (cursor.below target.leaf).pointer).getD
            aggregate.op.kind.init =
          aggregate.op.kind.fold (live.map (aggregate.folded environment.constants))) ∧
      (deltas ≠ [] → Follows target
        (aggregate.op.kind.fold (live.map (aggregate.folded environment.constants))) state) := by
  induction hlive with
  | start => exact ⟨_, rfl, fun _ => Iff.rfl, fun _ _ => rfl, fun hne => absurd rfl hne⟩
  | @step deltas delta live live' before moves ih =>
    -- the states before the call are the fold of what was live before it
    have hearly := hexact.of_prefix (List.prefix_append deltas [delta])
    obtain ⟨state, hcalls, hreach, hstates, -⟩ := ih hearly
    obtain ⟨next, hcall, hreach', hfollows⟩ := join?_live h hkinds hsupplied moves
      (hearly.exact before) (hexact.integral delta (by simp)) hstates
    refine ⟨next, ?_, fun cursor => (hreach' cursor).trans (hreach cursor), ?_, fun _ => hfollows⟩
    · rw [List.map_append, List.map_singleton, joinEach_concat, hcalls]
      exact hcall
    · intro cursor hcursor
      rw [hfollows.keeps cursor hcursor]
      rfl

/-- After every call of a run, an external aggregate follows the live records: every instance of
its target keeps the state of their fold and shows its value. -/
theorem joinEach_follows (h : store.IsCompiled) (hkinds : environment.kinds = .builtIn)
    (hsupplied : Supplied store.blueprint foreign aggregate target)
    (hlive : Live (aggregate.Twins environment.constants) deltas live)
    (hexact : ExactRun (aggregate.folded environment.constants)
      (aggregate.Twins environment.constants) deltas) (record : Json)
    (hearly : early <+: deltas) (hne : early ≠ []) :
    ∃ state, store.joinEach environment (early.map ((foreign, ·))) { record, states := [] } =
        some state ∧
      (∀ cursor, cursor ∈ state.record.reach {} target.loops ↔
        cursor ∈ record.reach {} target.loops) ∧
      (∃ live, Live (aggregate.Twins environment.constants) early live) ∧
      ∀ live, Live (aggregate.Twins environment.constants) early live →
        Follows target
          (aggregate.op.kind.fold (live.map (aggregate.folded environment.constants))) state := by
  obtain ⟨standing, hstanding⟩ := hlive.exists_of_prefix hearly
  have hexact' := hexact.of_prefix hearly
  obtain ⟨state, hcalls, hreach, -, -⟩ := joinEach_live h hkinds hsupplied hstanding hexact' record
  refine ⟨state, hcalls, hreach, ⟨standing, hstanding⟩, fun other hother => ?_⟩
  obtain ⟨state', hcalls', -, -, hfollows⟩ :=
    joinEach_live h hkinds hsupplied hother hexact' record
  obtain rfl := Option.some.inj (hcalls.symm.trans hcalls')
  exact hfollows hne

/-- Shoppers with baskets, each of which tells the total of all orders. -/
def shoppersWithBaskets : Descriptor :=
  .mk [("id", .tuple [.word "int", .word "<<id>>"]),
    ("baskets", .tuple [.word "array", .nested (.mk [
      ("id", .tuple [.word "int", .word "<<basketId>>"]),
      ("spent", .tuple [.word "number", .word "sum", .word "@orders.amount"])])])]

/-- The store of these shoppers. -/
def shoppers : Store := compiled "shoppers" shoppersWithBaskets (by decide +kernel)

/-- The total of all orders. -/
def basketTotal : ExternalAggregate := ⟨"baskets.spent", .sum, "orders", some "amount", none⟩

/-- The total in a basket. -/
def basketTotalPath : ResolvedPath :=
  ⟨"baskets.spent", [⟨"baskets1", ["baskets"]⟩], ["spent"],
    .scalar "baskets1" "spent" (some .number), false⟩

theorem supplied_basketTotal :
    Supplied shoppers.blueprint "orders" basketTotal basketTotalPath where
  registered := by
    have hparts : ∃ aggregate ∈ (Fields.get? shoppers.blueprint.metadata.externals
        "orders").getD [], (aggregate.target, aggregate.op, aggregate.store,
          aggregate.sourceAttribute) = ("baskets.spent", .sum, "orders", some "amount") ∧
            aggregate.transformer.isNone := by decide +kernel
    obtain ⟨⟨target, op, store, source, transformer⟩, hmem, heq, hnone⟩ := hparts
    obtain ⟨rfl, rfl, rfl, rfl⟩ : target = _ ∧ op = _ ∧ store = _ ∧ source = _ := by
      simpa using heq
    obtain rfl : transformer = none := by simpa using hnone
    exact hmem
  leads := Except.eq_ok_of_toOption (by decide +kernel)
  spared := by decide +kernel

/-- A shopper with two baskets. -/
def shopper : Json :=
  .object [("id", .ofNat 1), ("baskets", .array [.object [("id", .ofNat 1)], .object []])]

/-- Two orders at once, a third one, and one of the first two taken out with its members in another
order. -/
def shopperDeltas : List Delta :=
  [.set [order "a" 10, order "b" 25], .insert (order "c" 4),
    .delete (.object [("amount", .ofNat 25), ("_id", .string "b")])]

/-- The orders that are left. -/
theorem live_shopperDeltas :
    Live (basketTotal.Twins .null) shopperDeltas [order "a" 10, order "c" 4] := by
  refine .step (.step (.step .start (.set [order "a" 10, order "b" 25] [])) (.insert _ _)) ?_
  refine .delete (.inr ⟨?_, fun handler hsome => by cases hsome⟩) (List.Perm.swap ..)
  exact ⟨by decide +kernel, by decide +kernel⟩

/-- After an order has been replaced and one has left, both baskets show what is left. -/
theorem joinEach_follows_shoppers :
    ∃ state, shoppers.joinEach {} (shopperDeltas.map (("orders", ·)))
        { record := shopper, states := [] } = some state ∧
      (state.record.locate? [.key "baskets", .index 1, .key "spent"]).map Json.render =
        some "14" := by
  have hexact : ExactRun (basketTotal.folded .null) (basketTotal.Twins .null) shopperDeltas := by
    refine ⟨by decide +kernel, by decide +kernel, fun early hearly live hlive => ?_⟩
    have hlength := hlive.subperm_incoming.length_le
    obtain ⟨later, hlater⟩ := hearly
    have hall : (shopperDeltas.flatMap Attached.incoming).length = 3 := rfl
    rw [← hlater, List.flatMap_append, List.length_append] at hall
    omega
  obtain ⟨state, hcalls, hreach, -, hfollows⟩ := joinEach_follows (isCompiled_compiled _ _ _)
    (show ({} : Environment).kinds = .builtIn from rfl) supplied_basketTotal live_shopperDeltas
    hexact shopper (List.prefix_refl shopperDeltas) (by decide)
  let second : Cursor := ⟨[⟨["baskets"], 1⟩]⟩
  have hsecond : second ∈ state.record.reach {} basketTotalPath.loops :=
    (hreach second).mpr (by decide +kernel)
  have howned : (shoppers.joinEach {} (shopperDeltas.map (("orders", ·)))
      { record := shopper, states := [] }).map (fun state =>
        decide (Owned (second.below basketTotalPath.leaf) state.record)) = some true := by
    decide +kernel
  rw [show shoppers.joinEach {} _ _ = some state from hcalls, Option.map_some, Option.some.injEq,
    decide_eq_true_eq] at howned
  have hshown := (hfollows _ live_shopperDeltas).shows second hsecond howned
  refine ⟨state, hcalls, ?_⟩
  rw [show state.record.locate? [.key "baskets", .index 1, .key "spent"] = _ from hshown]
  decide +kernel

end Store

end NestedRecord
