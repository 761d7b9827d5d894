import NestedRecord.Proofs.Join.Following
import NestedRecord.Proofs.Join.Undeclared
import NestedRecord.Proofs.Json.Same

/-!
# An attachment as an ordered map

The records of an attachment are kept under their identities: a record that comes in takes the place
of the one that is the same, and a record that leaves takes that one with it. As long as no two
attached records are the same, this is what calls make of the attachment.

* `sameRecord_symm` and `sameRecord_trans`: being the same is an equivalence, also between records
  with and without an identity.
* `Attached.put`, `Attached.drop` and `Attached.keyed` are the map. `after_eq_keyed` is one delta.
* `Attached.Lists` says what stands in an attachment, which may be missing until a record comes in.
* `Listed.run_keyed` is one call, and `Store.joinEach_keyed` a sequence.
* `Store.not_joinEach_keyed`: where a second attachment of the store lies around the first one, its
  records are replaced together with what is attached inside them.

The list is searched from the front and the first record that is the same is replaced or taken out.
The map replaces and drops all of them. Both come to the same for distinct records, and distinct
they stay, since what is put in takes the place of what it equals. Being the same has to be an
equivalence for this, which is not obvious: records with an identity are compared by it, others as a
whole.
-/

namespace NestedRecord

/-! ## Records that are the same -/

section Identity

variable {identityKey : String} {a b c : Json}

theorem Json.KeysDiffer.identity? (h : a.KeysDiffer) {identity : Json}
    (hidentity : NestedRecord.identity? identityKey a = some identity) : identity.KeysDiffer := by
  obtain ⟨value, hvalue, hnonNull⟩ := Option.bind_eq_some_iff.mp hidentity
  obtain rfl : value = identity := by cases value <;> simp_all [Json.nonNull?]
  exact h.child (.key identityKey) ((Json.child?_key a identityKey).trans hvalue)

theorem sameRecord_self (h : a.KeysDiffer) : sameRecord identityKey a a = true := by
  unfold sameRecord
  cases hidentity : identity? identityKey a with
  | none => exact h.same_self
  | some identity => exact (h.identity? hidentity).same_self

/-- Being the same is symmetric. -/
theorem sameRecord_symm (ha : a.KeysDiffer) (hb : b.KeysDiffer)
    (h : sameRecord identityKey a b = true) : sameRecord identityKey b a = true := by
  unfold sameRecord at h ⊢
  cases hx : identity? identityKey a <;> cases hy : identity? identityKey b <;> rw [hx, hy] at h
  · exact Json.same_symm ha hb h
  · cases h
  · cases h
  · exact Json.same_symm (ha.identity? hx) (hb.identity? hy) h

/-- Being the same is transitive. -/
theorem sameRecord_trans (ha : a.KeysDiffer) (hb : b.KeysDiffer) (hc : c.KeysDiffer)
    (h : sameRecord identityKey a b = true) (h' : sameRecord identityKey b c = true) :
    sameRecord identityKey a c = true := by
  unfold sameRecord at h h' ⊢
  cases hx : identity? identityKey a <;> cases hy : identity? identityKey b <;>
    cases hz : identity? identityKey c <;> simp only [hx, hy, hz, Bool.false_eq_true] at h h' ⊢
  · exact Json.same_trans ha hb hc h h'
  · exact Json.same_trans (ha.identity? hx) (hb.identity? hy) (hc.identity? hz) h h'

end Identity

namespace Attached

/-! ## The map -/

section Map

variable (identityKey : String)

/-- Puts a record in the place of the one that is the same, or at the end. -/
def put (incoming : Json) (items : List Json) : List Json :=
  if items.any (sameRecord identityKey · incoming) then
    items.map fun item => if sameRecord identityKey item incoming then incoming else item
  else items ++ [incoming]

/-- Takes the record out that is the same, if there is one. -/
def drop (outgoing : Json) (items : List Json) : List Json :=
  items.filter fun item => !sameRecord identityKey item outgoing

/-- The records of the map after a delta. -/
def keyed (items : List Json) : Delta → List Json
  | .insert record => put identityKey record items
  | .delete record => drop identityKey record items
  | .set records => records

/-- No two records are the same. -/
def Distinct (items : List Json) : Prop :=
  items.Pairwise fun first second => sameRecord identityKey first second = false

end Map

/-- Records none of which repeats a key in one of its objects. -/
def Proper (items : List Json) : Prop := ∀ item ∈ items, item.KeysDiffer

/-- A delta that names proper records, and sets only records of which no two are the same. -/
structure Admissible (identityKey : String) (delta : Delta) : Prop where
  proper : Proper delta.records
  distinct : ∀ records, delta = .set records → Distinct identityKey records

variable {identityKey : String} {items : List Json} {record : Json} {delta : Delta}

/-- After a record has been put in, no other one is the same. -/
theorem mem_put {item : Json} (h : item ∈ put identityKey record items) :
    item = record ∨ item ∈ items ∧ sameRecord identityKey item record = false := by
  unfold put at h
  split at h
  · obtain ⟨old, hold, rfl⟩ := List.mem_map.mp h
    by_cases hsame : sameRecord identityKey old record = true
    · exact .inl (if_pos hsame)
    · rw [if_neg hsame]
      exact .inr ⟨hold, Bool.not_eq_true _ ▸ hsame⟩
  · next hnone =>
    rcases List.mem_append.mp h with hitem | hitem
    · refine .inr ⟨hitem, Bool.eq_false_iff.mpr fun hsame => hnone ?_⟩
      exact List.any_eq_true.mpr ⟨item, hitem, hsame⟩
    · exact .inl (List.mem_singleton.mp hitem)

/-- Proper records come in, so proper records are kept. -/
theorem Proper.keyed (h : Proper items) (hdelta : Admissible identityKey delta) :
    Proper (keyed identityKey items delta) := by
  cases delta with
  | insert record =>
    intro item hitem
    rcases mem_put hitem with rfl | ⟨hitem, -⟩
    · exact hdelta.proper item (List.mem_singleton_self item)
    · exact h item hitem
  | delete record => exact fun item hitem => h item (List.mem_of_mem_filter hitem)
  | set records => exact hdelta.proper

/-- Putting in a record keeps records distinct. -/
theorem Distinct.put (h : Distinct identityKey items) (hitems : Proper items)
    (hrecord : record.KeysDiffer) : Distinct identityKey (put identityKey record items) := by
  unfold Attached.put
  split
  · refine List.pairwise_map.mpr (h.imp_of_mem fun {first second} hfirst hsecond hne => ?_)
    -- at most one of the two is replaced, and the other one is not the same as the new record
    by_cases hx : sameRecord identityKey first record = true <;>
      by_cases hy : sameRecord identityKey second record = true
    · have hboth := sameRecord_trans (hitems first hfirst) hrecord (hitems second hsecond) hx
        (sameRecord_symm (hitems second hsecond) hrecord hy)
      rw [hboth] at hne
      cases hne
    · rw [if_pos hx, if_neg hy]
      exact Bool.eq_false_iff.mpr fun hsame =>
        hy (sameRecord_symm hrecord (hitems second hsecond) hsame)
    · rw [if_neg hx, if_pos hy]
      exact Bool.eq_false_iff.mpr hx
    · rw [if_neg hx, if_neg hy]
      exact hne
  · next hnone =>
    refine List.pairwise_append.mpr
      ⟨h, List.pairwise_singleton _ _, fun item hitem other hother => ?_⟩
    obtain rfl := List.mem_singleton.mp hother
    exact Bool.eq_false_iff.mpr fun hsame => hnone (List.any_eq_true.mpr ⟨item, hitem, hsame⟩)

/-- No two records of the map are ever the same. -/
theorem Distinct.keyed (h : Distinct identityKey items) (hitems : Proper items)
    (hdelta : Admissible identityKey delta) :
    Distinct identityKey (keyed identityKey items delta) := by
  cases delta with
  | insert record => exact h.put hitems (hdelta.proper record (List.mem_singleton_self record))
  | delete record => exact h.sublist List.filter_sublist
  | set records => exact hdelta.distinct records rfl

/-- A delta that is repeated changes nothing more. -/
theorem keyed_keyed (hdelta : Admissible identityKey delta) :
    keyed identityKey (keyed identityKey items delta) delta = keyed identityKey items delta := by
  cases delta with
  | insert record =>
    have hself : sameRecord identityKey record record = true :=
      sameRecord_self (hdelta.proper record (List.mem_singleton_self record))
    have hmem : record ∈ put identityKey record items := by
      unfold put
      split
      · next hany =>
        obtain ⟨item, hitem, hsame⟩ := List.any_eq_true.mp hany
        exact List.mem_map.mpr ⟨item, hitem, if_pos hsame⟩
      · exact List.mem_append_right _ (List.mem_singleton_self record)
    -- the record is found the second time, and replaced by itself
    have hany : (put identityKey record items).any (sameRecord identityKey · record) = true :=
      List.any_eq_true.mpr ⟨record, hmem, hself⟩
    show put identityKey record (put identityKey record items) = put identityKey record items
    conv_lhs => rw [put, if_pos hany]
    refine (List.map_congr_left fun item hitem => ?_).trans (List.map_id _)
    rcases mem_put hitem with rfl | ⟨-, hne⟩
    · exact if_pos hself
    · rw [hne]
      rfl
  | delete record =>
    show drop identityKey record (drop identityKey record items) = drop identityKey record items
    unfold drop
    rw [List.filter_filter]
    simp only [Bool.and_self]
  | set records => rfl

/-! ## What the deltas make of a list -/

/-- Behind a record, no other one is the same as a third one that is. -/
theorem not_same_of_distinct {item : Json} (h : Distinct identityKey (item :: items))
    (hitems : Proper (item :: items)) (hrecord : record.KeysDiffer)
    (hsame : sameRecord identityKey item record = true) :
    ∀ other ∈ items, sameRecord identityKey other record = false := by
  intro other hother
  refine Bool.eq_false_iff.mpr fun hother' => ?_
  have hne := (List.pairwise_cons.mp h).1 other hother
  have hitem := hitems item List.mem_cons_self
  have hproper := hitems other (List.mem_cons_of_mem _ hother)
  rw [sameRecord_trans hitem hrecord hproper hsame
    (sameRecord_symm hproper hrecord hother')] at hne
  cases hne

/-- Among distinct records an insertion is that of the map. -/
theorem insert_eq_put (hrecord : record.KeysDiffer) :
    ∀ {items : List Json}, Distinct identityKey items → Proper items →
      (insert identityKey record items).1 = put identityKey record items
  | [], _, _ => rfl
  | item :: rest, h, hitems => by
    by_cases hsame : sameRecord identityKey item record = true
    · -- no record behind is the same, so the map replaces none of them
      have hothers := not_same_of_distinct h hitems hrecord hsame
      have hrest : rest.map (fun item =>
          if sameRecord identityKey item record then record else item) = rest := by
        refine (List.map_congr_left fun other hother => ?_).trans (List.map_id _)
        rw [hothers other hother]
        rfl
      simp only [insert, put, hsame, if_true, List.any_cons, Bool.true_or, List.map_cons, hrest]
    · have hrest := insert_eq_put hrecord (List.pairwise_cons.mp h).2
        fun other hother => hitems other (List.mem_cons_of_mem _ hother)
      rw [Bool.not_eq_true] at hsame
      have hput : put identityKey record (item :: rest) = item :: put identityKey record rest := by
        simp only [put, List.any_cons, hsame, Bool.false_or, List.map_cons, Bool.false_eq_true,
          if_false]
        split <;> rfl
      rw [hput, ← hrest, insert, if_neg (Bool.not_eq_true _ ▸ hsame)]

/-- Among distinct records a deletion is that of the map. -/
theorem delete_eq_drop (hrecord : record.KeysDiffer) :
    ∀ {items : List Json}, Distinct identityKey items → Proper items →
      ((delete identityKey record items).map (·.1)).getD items = drop identityKey record items
  | [], _, _ => rfl
  | item :: rest, h, hitems => by
    by_cases hsame : sameRecord identityKey item record = true
    · have hothers := not_same_of_distinct h hitems hrecord hsame
      have hrest : rest.filter (fun item => !sameRecord identityKey item record) = rest :=
        List.filter_eq_self.mpr fun other hother => by rw [hothers other hother]; rfl
      simp [delete, drop, hsame, hrest]
    · have hrest := delete_eq_drop hrecord (List.pairwise_cons.mp h).2
        fun other hother => hitems other (List.mem_cons_of_mem _ hother)
      rw [Bool.not_eq_true] at hsame
      have hdrop : drop identityKey record (item :: rest) = item :: drop identityKey record rest :=
        List.filter_cons_of_pos (by rw [hsame]; rfl)
      rw [hdrop, ← hrest, delete, if_neg (Bool.not_eq_true _ ▸ hsame)]
      cases delete identityKey record rest <;> rfl

/-- As long as no two records are the same, a delta does what it does to the map. -/
theorem after_eq_keyed (h : Distinct identityKey items) (hitems : Proper items)
    (hdelta : Admissible identityKey delta) :
    after identityKey items delta = keyed identityKey items delta := by
  cases delta with
  | insert record =>
    exact insert_eq_put (hdelta.proper record (List.mem_singleton_self record)) h hitems
  | delete record =>
    exact delete_eq_drop (hdelta.proper record (List.mem_singleton_self record)) h hitems
  | set records => rfl

/-- What stands in an attachment of some records: their list, or what stood there from the start if
there has never been a record. -/
def Lists (start : Option Json) (items : List Json) (now : Option Json) : Prop :=
  now = some (.array items) ∨ items = [] ∧ now = start ∧ start.getD .null = .null

theorem Lists.of_holds {now : Option Json} (h : Holds (now.getD .null) items) :
    Lists now items now := by
  rcases h with h | ⟨hnull, rfl⟩
  · cases now with
    | none => cases h
    | some content => exact .inl (congrArg some h)
  · exact .inr ⟨rfl, rfl, hnull⟩

/-- A delta changes the list. -/
theorem Lists.change {start now : Option Json} (h : Lists start items now) (delta : Delta) :
    Lists start (after identityKey items delta)
      ((changeMany? identityKey (now.getD .null) delta).elim now (some ·.content)) := by
  rcases h with rfl | ⟨rfl, rfl, hnull⟩
  · cases delta with
    | insert record => exact .inl rfl
    | delete record =>
      rw [Option.getD_some, after, changeMany?]
      cases delete identityKey record items with
      | none => exact .inl rfl
      | some rest => exact .inl rfl
    | set records => exact .inl rfl
  · rw [hnull]
    cases delta with
    | insert record => exact .inl rfl
    | delete record => exact .inr ⟨rfl, rfl, hnull⟩
    | set records => exact .inl rfl

end Attached

namespace Joining

open Attached (Admissible Distinct Lists Proper keyed)
open JoinProcedures (machine)

/-! ## A call -/

/-- A place with an owner, at which some records are listed. -/
def ListsAt (place : Location) (start : Option Json) (items : List Json) (state : State) : Prop :=
  Owned place state.record ∧ Lists start items (state.record.locate? place)

namespace Listed

variable {blueprint : Blueprint} {store : String} {join : Join} {attachment : ResolvedPath}
  {cursor : Cursor} {surroundings : Surroundings} {procedures : JoinProcedures}
  {start : Option Json} {items : List Json} (hlevels : blueprint.LevelsDeclared)
  (h : Listed blueprint store join attachment) (hfits : cursor.Fits attachment.loops)

include hlevels h hfits

/-- The other events of the store leave the records of an instance as they are. -/
theorem listsAt_act_other (hlevel : attachment.isScalar = false) {event : Event Action}
    (hevent : FromJoin blueprint store event)
    (hne : event ≠ ⟨.attach (attachmentAt blueprint join attachment), cursor⟩) {state : State}
    (hlists : ListsAt (cursor.below attachment.leaf) start items state) :
    ListsAt (cursor.below attachment.leaf) start items
      (act surroundings event.action event.cursor state) := by
  have hleaf := (Blueprint.leads_of_lenient hlevels h.leads).1.leaf_ne_nil
  refine ⟨(owned_act_of_spared (Cursor.below_ne_nil hleaf) (fun location htouches hstart =>
    (h.eq_of_touches hlevels hlevel hfits hevent htouches (.inl hstart)).2) state).mpr hlists.1, ?_⟩
  rw [h.act_other hlevels hlevel hfits hevent hne]
  exact hlists.2

/-- The event of an instance makes of its records what the delta makes of the map. -/
theorem listsAt_act_self (hlevel : attachment.isScalar = false)
    (hdistinct : Distinct surroundings.identityKey items) (hitems : Proper items)
    (hdelta : Admissible surroundings.identityKey surroundings.delta) {state : State}
    (hlists : ListsAt (cursor.below attachment.leaf) start items state) :
    ListsAt (cursor.below attachment.leaf) start
      (keyed surroundings.identityKey items surroundings.delta)
      (act surroundings (.attach (attachmentAt blueprint join attachment)) cursor state) := by
  have hleaf := (Blueprint.leads_of_lenient hlevels h.leads).1.leaf_ne_nil
  have hevent : FromJoin blueprint store
      ⟨.attach (attachmentAt blueprint join attachment), cursor⟩ :=
    ⟨join, h.joined, _, .attachment h.attaches h.leads hlevel, hfits⟩
  have hchange : changeAt? surroundings (attachmentAt blueprint join attachment) cursor
      state.record = Attached.changeMany? surroundings.identityKey
        ((state.record.locate? (cursor.below attachment.leaf)).getD .null) surroundings.delta := by
    rw [changeAt?, attachmentAt, h.many]
    rfl
  constructor
  · exact (owned_act_of_spared (Cursor.below_ne_nil hleaf) (fun location htouches hstart =>
      (h.eq_of_touches hlevels hlevel hfits hevent htouches (.inl hstart)).2) state).mpr hlists.1
  · rw [h.act_self hlevels hlevel hfits surroundings hlists.1, hchange,
      ← Attached.after_eq_keyed hdistinct hitems hdelta]
    exact hlists.2.change surroundings.delta

/-- A call makes of the records of an instance what the delta makes of the map. -/
theorem run_keyed (hcompile : JoinProcedures.compile blueprint store = .ok procedures)
    (hdistinct : Distinct surroundings.identityKey items) (hitems : Proper items)
    (hdelta : Admissible surroundings.identityKey surroundings.delta) {record : Json}
    {states : AggregateStates}
    (hlists : ListsAt (cursor.below attachment.leaf) start items { record, states }) :
    ListsAt (cursor.below attachment.leaf) start
      (keyed surroundings.identityKey items surroundings.delta)
      (procedures.run surroundings record states) := by
  obtain ⟨other, hleads', hlevel, -⟩ :=
    JoinProcedures.placed_of_attaches hcompile surroundings.delta h.joined h.attaches
  obtain rfl : attachment = other := Except.ok.inj (h.leads.symm.trans hleads')
  obtain ⟨events, hrun, -, hfrom, -, hevent⟩ := exists_events_at hlevels hcompile h.spares h.joined
    h.attaches h.leads hfits hlists.1 states
  rw [hrun]
  -- a second join of this path acts at the instance too, which changes nothing any more
  refine Machine.perform_of_mem (machine surroundings)
    (ListsAt (cursor.below attachment.leaf) start items)
    (ListsAt (cursor.below attachment.leaf) start
      (keyed surroundings.identityKey items surroundings.delta)) hevent
    (fun _ => h.listsAt_act_self hlevels hfits hlevel hdistinct hitems hdelta)
    (fun event hmem hself _ => h.listsAt_act_other hlevels hfits hlevel (hfrom event hmem) hself)
    (fun event hmem state hstate => ?_) hlists
  by_cases hself : event = ⟨.attach (attachmentAt blueprint join attachment), cursor⟩
  · subst hself
    have hagain := h.listsAt_act_self hlevels hfits hlevel (hdistinct.keyed hitems hdelta)
      (hitems.keyed hdelta) hdelta hstate
    rw [Attached.keyed_keyed hdelta] at hagain
    exact hagain
  · exact h.listsAt_act_other hlevels hfits hlevel (hfrom event hmem) hself hstate

end Listed

end Joining

/-! ## Sequences of calls -/

namespace Store

open Joining
open Attached (Admissible Distinct Holds Lists Proper keyed)

variable {store : Store} {foreign : String} {join : Join} {attachment : ResolvedPath}
  {cursor : Cursor}

/-- After a sequence of calls the attachment lists what the map holds. -/
theorem joinEach_listsAt (h : store.IsCompiled) (environment : Environment)
    (hlisted : Listed store.blueprint foreign join attachment)
    (hfits : cursor.Fits attachment.loops) {start : Option Json} :
    ∀ {deltas : List Delta} {items : List Json} {state : State},
      Distinct store.config.identityKey items → Proper items →
      (∀ delta ∈ deltas, Admissible store.config.identityKey delta) →
      ListsAt (cursor.below attachment.leaf) start items state →
      ∃ final, store.joinEach environment (deltas.map ((foreign, ·))) state = some final ∧
        ListsAt (cursor.below attachment.leaf) start
          (deltas.foldl (keyed store.config.identityKey) items) final ∧
        Distinct store.config.identityKey (deltas.foldl (keyed store.config.identityKey) items)
  | [], items, state, hdistinct, _, _, hlists => ⟨state, rfl, hlists, hdistinct⟩
  | delta :: rest, items, state, hdistinct, hitems, hdeltas, hlists => by
    obtain ⟨procedures, hjoined⟩ := h.exists_joined? hlisted.joined
    let surroundings : Surroundings :=
      { environment with delta, identityKey := store.config.identityKey }
    let next := procedures.run surroundings state.record state.states
    have hcall : store.join? environment foreign delta state.record state.states = some next := by
      rw [join?, hjoined]
      rfl
    have hdelta := hdeltas delta List.mem_cons_self
    have hnext : ListsAt (cursor.below attachment.leaf) start
        (keyed store.config.identityKey items delta) next :=
      hlisted.run_keyed h.levelsDeclared hfits (h.of_joined? hjoined)
        (show Distinct surroundings.identityKey items from hdistinct) hitems hdelta hlists
    rw [List.map_cons, joinEach_cons, hcall, List.foldl_cons]
    exact joinEach_listsAt h environment hlisted hfits (hdistinct.keyed hitems hdelta)
      (hitems.keyed hdelta) (fun other hmem => hdeltas other (List.mem_cons_of_mem _ hmem)) hnext

/-- After any calls of its store, an attachment lists what an ordered map of records holds, or
nothing has ever been attached; and no two attached records are the same. -/
theorem joinEach_keyed (h : store.IsCompiled) (environment : Environment)
    (hlisted : Listed store.blueprint foreign join attachment)
    (hfits : cursor.Fits attachment.loops) {record : Json} {states : AggregateStates}
    {items : List Json} (howned : Owned (cursor.below attachment.leaf) record)
    (hholds : Holds ((record.locate? (cursor.below attachment.leaf)).getD .null) items)
    (hdistinct : Distinct store.config.identityKey items) (hitems : Proper items)
    {deltas : List Delta} (hdeltas : ∀ delta ∈ deltas, Admissible store.config.identityKey delta) :
    ∃ final, store.joinEach environment (deltas.map ((foreign, ·))) { record, states } =
        some final ∧
      Lists (record.locate? (cursor.below attachment.leaf))
        (deltas.foldl (keyed store.config.identityKey) items)
        (final.record.locate? (cursor.below attachment.leaf)) ∧
      Distinct store.config.identityKey (deltas.foldl (keyed store.config.identityKey) items) := by
  obtain ⟨final, hfinal, hlists, hkept⟩ := joinEach_listsAt h environment hlisted hfits hdistinct
    hitems hdeltas (show ListsAt _ _ items { record, states } from ⟨howned, .of_holds hholds⟩)
  exact ⟨final, hfinal, hlists.2, hkept⟩

/-! ### Orders of the first cart -/

/-- Orders are proper records. -/
theorem keysDiffer_order (id : String) (amount : Nat) : (order id amount).KeysDiffer := by
  refine .of_members (by decide : ["_id", "amount"].Nodup) fun member hmember => ?_
  rcases List.mem_pair.mp hmember with rfl | rfl
  · exact .of_leaf nofun nofun
  · exact .of_leaf nofun nofun

/-- The orders of the carts declare no shape. -/
theorem bare_vendorOrders :
    Bare vendors.blueprint "orders" vendorOrdersJoin vendorOrders where
  joined := by decide +kernel
  many := rfl
  leads := Except.eq_ok_of_toOption (by decide +kernel)
  foreign := rfl
  alone := by decide +kernel

/-- The order of the first cart is replaced, a second one comes in, and the first one is taken
out. -/
def orderDeltas : List Delta :=
  [.insert (order "a" 4), .insert (order "b" 25), .delete (order "a" 0)]

/-- The first cart of a vendor. -/
def firstVendorCart : Cursor := ⟨[⟨["carts"], 0⟩]⟩

theorem joinEach_keyed_vendors :
    ∃ final,
      vendors.joinEach {} (orderDeltas.map (("orders", ·))) { record := vendor, states := [] } =
        some final ∧
      final.record.locate? [.key "carts", .index 0, .key "orders"] =
        some (.array [order "b" 25]) := by
  have hdeltas : ∀ delta ∈ orderDeltas, Admissible vendors.config.identityKey delta := by
    intro delta hdelta
    simp only [orderDeltas, List.mem_cons, List.not_mem_nil, or_false] at hdelta
    rcases hdelta with rfl | rfl | rfl <;>
      exact ⟨List.forall_mem_singleton.mpr (keysDiffer_order _ _), nofun⟩
  have hkept : orderDeltas.foldl (keyed vendors.config.identityKey) [order "a" 10] =
      [order "b" 25] := by
    have hfirst : sameRecord vendors.config.identityKey (order "a" 10) (order "a" 4) = true := by
      decide +kernel
    have hsecond : sameRecord vendors.config.identityKey (order "a" 4) (order "b" 25) = false := by
      decide +kernel
    have hgone : sameRecord vendors.config.identityKey (order "a" 4) (order "a" 0) = true := by
      decide +kernel
    have hleft : sameRecord vendors.config.identityKey (order "b" 25) (order "a" 0) = false := by
      decide +kernel
    simp [orderDeltas, keyed, Attached.put, Attached.drop, hfirst, hsecond, hgone, hleft]
  obtain ⟨final, hfinal, hlists, -⟩ : ∃ final,
      vendors.joinEach {} (orderDeltas.map (("orders", ·))) { record := vendor, states := [] } =
        some final ∧
      Lists (vendor.locate? (firstVendorCart.below vendorOrders.leaf))
        (orderDeltas.foldl (keyed vendors.config.identityKey) [order "a" 10])
        (final.record.locate? (firstVendorCart.below vendorOrders.leaf)) ∧
      Distinct vendors.config.identityKey
        (orderDeltas.foldl (keyed vendors.config.identityKey) [order "a" 10]) :=
    joinEach_keyed (isCompiled_compiled _ _ _) {} bare_vendorOrders.listed
      (show firstVendorCart.Fits vendorOrders.loops from rfl) (by decide +kernel) (.inl rfl)
      (List.pairwise_singleton _ _) (List.forall_mem_singleton.mpr (keysDiffer_order _ _)) hdeltas
  rw [hkept] at hlists
  refine ⟨final, hfinal, hlists.resolve_right fun hnone => ?_⟩
  cases hnone.1

/-- Customers with attached carts; records of the same store are attached in these. -/
def cartsWithinOrders : Descriptor :=
  .mk [("id", .tuple [.word "int", .word "<<id>>"]),
    ("carts", .tuple [.word "array", .word "@orders", .nested (.mk [
      ("id", .tuple [.word "int", .word "<<cartId>>"]),
      ("orders", .tuple [.word "array", .word "@orders"])])])]

/-- The store of these customers. -/
def nestedCarts : Store := compiled "customers" cartsWithinOrders (by decide +kernel)

/-- A record that is attached as a cart and as an order. -/
def emptyCart : Json :=
  .object [("_id", .ofNat 1), ("id", .ofNat 1), ("orders", .array [])]

/-- A record that comes in for an attachment and for one around it replaces what has just been
attached inside. -/
theorem not_joinEach_keyed :
    ¬ ∀ (store : Store) (foreign : String) (join : Join) (attachment : ResolvedPath)
      (cursor : Cursor) (record : Json) (items : List Json) (delta : Delta) (final : State),
        store.IsCompiled → join ∈ store.metadata.joinsOf foreign → join.cardinality = .many →
        store.blueprint.resolveLenient join.path = .ok attachment → attachment.isVirtual = true →
        cursor.Fits attachment.loops → Owned (cursor.below attachment.leaf) record →
        record.locate? (cursor.below attachment.leaf) = some (.array items) →
        Distinct store.config.identityKey items → Proper items →
        Admissible store.config.identityKey delta →
        store.joinEach {} [(foreign, delta)] { record, states := [] } = some final →
        final.record.locate? (cursor.below attachment.leaf) =
          some (.array (keyed store.config.identityKey items delta)) := by
  intro h
  let customer : Json := .object [("id", .ofNat 1), ("carts", .array [emptyCart])]
  have hproper : emptyCart.KeysDiffer := by
    refine .of_members (by decide : ["_id", "id", "orders"].Nodup) fun member hmember => ?_
    simp only [List.mem_cons, List.not_mem_nil, or_false] at hmember
    rcases hmember with rfl | rfl | rfl
    · exact .of_leaf nofun nofun
    · exact .of_leaf nofun nofun
    · exact .of_items nofun
  obtain ⟨final, hfinal⟩ : ∃ final, nestedCarts.joinEach {} [("orders", .insert emptyCart)]
      { record := customer, states := [] } = some final :=
    Option.isSome_iff_exists.mp (by decide +kernel)
  have hkept := h nestedCarts "orders" ⟨"orders", "carts.orders", .many⟩
    ⟨"carts.orders", [⟨"carts1", ["carts"]⟩], ["orders"], .level "orders2" .array, true⟩
    firstVendorCart customer [] (.insert emptyCart) final (isCompiled_compiled _ _ _)
    (by decide +kernel) rfl (Except.eq_ok_of_toOption (by decide +kernel)) rfl rfl
    (by decide +kernel) rfl .nil (by simp [Proper]) ⟨List.forall_mem_singleton.mpr hproper, nofun⟩ hfinal
  have hempty : (nestedCarts.joinEach {} [("orders", .insert emptyCart)]
      { record := customer, states := [] }).map (fun final =>
        (final.record.locate? [.key "carts", .index 0, .key "orders"]).map Json.outline) =
      some (some (.array 0)) := by
    decide +kernel
  rw [hfinal, Option.map_some] at hempty
  rw [show final.record.locate? [.key "carts", .index 0, .key "orders"] = _ from hkept] at hempty
  cases hempty

end Store

end NestedRecord
