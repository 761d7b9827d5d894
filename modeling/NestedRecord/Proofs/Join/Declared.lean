import NestedRecord.Proofs.Join.Upheld

/-!
# Aggregates over attachments that declare a shape

The records of an attachment may declare lists and attachments of their own.

Two things are different from attachments without a shape. What an aggregate reads may lie below a
list of the record, where the procedure that keeps the aggregate does not look. And an attachment
inside the records of another one is moved when these are, while the states that are persisted for
it stay under the places where it was. The theorems say what is left without these, and the examples
that it is not more.

- `Store.join?_upToDate`: one call leaves the aggregates over an attachment up to date if they read
  one value of every record. Lists inside the records are not gone through: `not_join?_upToDate`.
- `Store.joinEach_folds_own`: calls for an attachment inside records keep the aggregates over it.
  Calls that move the records do not: `not_joinEach_folds_own`.
-/

namespace NestedRecord

open Joining
open Recompute (Resolved)
open AggregateKind (Exact)

namespace Store

variable {store : Store} {environment : Environment} {join : Join} {attachment : ResolvedPath}
  {resolved : Resolved}

/-! ## One call -/

/-- A call that changes an instance of an attachment leaves the aggregates over the attachment up to
date. -/
theorem join?_upToDate (hstore : store.IsCompiled) (hkinds : environment.kinds = .builtIn)
    (h : Coverage store.blueprint join attachment resolved) {call : String × Delta}
    (hadmits : Coverage.Admits store join resolved call) {record : Json}
    (hshaped : Json.shapedAlong attachment.leaf attachment.loops record = true)
    (haffords : Coverage.Affords environment attachment resolved record call.2) :
    ∃ final, store.join? environment call.1 call.2 record [] = some final ∧
      ∀ element inner : Cursor, element.Fits resolved.target.loops →
        resolved.Owns final.record element → inner.Fits attachment.loops →
        inner.upTo resolved.target.depth = element →
        final.record.locate? (inner.below attachment.leaf) ≠
          record.locate? (inner.below attachment.leaf) →
            store.UpToDate environment resolved final.record element := by
  obtain ⟨final, hcall, -, hsettled⟩ := h.join?_settles hstore hkinds hadmits hshaped
    (fun _ => haffords) fun element _ => Coverage.kept_empty _ _ _ _ element
  refine ⟨final, hcall, fun element inner helement howns hinner hupTo hchanged => ?_⟩
  rcases (hsettled element helement).shown howns with hshown | hsame
  · exact h.upToDate_of_shown hstore hkinds helement howns hshown
  · exact absurd (hsame.instances inner hinner hupTo) hchanged

/-! ### Orders with lines -/

/-- Buyers with their orders, what they spent on them, and what the lines of the orders cost. -/
def buyersWithOrders : Descriptor :=
  .mk [("id", .tuple [.word "int", .word "<<id>>"]),
    ("orders", .tuple [.word "array", .word "@orders", .nested (.mk [
      ("id", .tuple [.word "int", .word "<<orderId>>"]),
      ("amount", .tuple [.word "number"]),
      ("lines", .tuple [.word "array", .nested (.mk [
        ("sku", .tuple [.word "string", .word "<<sku>>"]),
        ("price", .tuple [.word "number"])])])])]),
    ("spent", .tuple [.word "number", .word "sum", .word "orders.amount"]),
    ("total", .tuple [.word "number", .word "sum", .word "orders.lines.price"])]

/-- The store of these buyers. -/
def buyers : Store := compiled "buyers" buyersWithOrders (by decide +kernel)

def buyer : Json :=
  .object [("id", .ofNat 1), ("orders", .array []), ("spent", .ofNat 0), ("total", .ofNat 0)]

/-- An order with one line. -/
def orderWithLine : Json :=
  .object [("_id", .ofNat 1), ("id", .ofNat 1), ("amount", .ofNat 7),
    ("lines", .array [.object [("sku", .string "a"), ("price", .ofNat 5)]])]

/-- The attachment of the orders. -/
def ordersJoin : Join := ⟨"orders", "orders", .many⟩

def buyerOrders : ResolvedPath := ⟨"orders", [], ["orders"], .level "orders1" .array, false⟩

/-- What a buyer spent. -/
def spent : Resolved where
  aggregate := ⟨"spent", .sum, "orders.amount", none⟩
  target := ⟨"spent", [], ["spent"], .scalar "main0" "spent" (some .number), false⟩
  source := ⟨"orders.amount", [⟨"orders1", ["orders"]⟩], ["amount"],
    .scalar "orders1" "amount" (some .number), false⟩

/-- What a buyer has spent is read from the orders, one amount each. -/
theorem coverage_spent : Coverage buyers.blueprint ordersJoin buyerOrders spent where
  feeds :=
    { target := Except.eq_ok_of_toOption (by decide +kernel)
      targetScalar := rfl
      source := Except.eq_ok_of_toOption (by decide +kernel)
      sourceScalar := rfl
      inside := rfl
      mem := LocalAggregate.mem_of_isNone (by decide +kernel)
      below := by decide
      apart := by decide +kernel }
  many := rfl
  leads := Except.eq_ok_of_toOption (by decide +kernel)
  list := ⟨"orders1", rfl⟩
  inside := ⟨"amount", rfl⟩
  direct := rfl

/-- A buyer who orders for the first time has spent what the order costs. -/
theorem join?_upToDate_buyers :
    ∃ final, buyers.join? {} "orders" (.insert orderWithLine) buyer [] = some final ∧
      buyers.UpToDate {} spent final.record {} ∧
      (final.record.locate? [.key "spent"]).map Json.outline = some (Json.ofNat 7).outline := by
  have hadmits : Coverage.Admits buyers ordersJoin spent ("orders", .insert orderWithLine) :=
    ⟨by decide +kernel, by decide +kernel, by decide⟩
  have haffords : Coverage.Affords {} buyerOrders spent buyer (.insert orderWithLine) := by
    decide +kernel
  obtain ⟨final, hcall, hcurrent⟩ := join?_upToDate (isCompiled_compiled _ _ _) rfl coverage_spent
    hadmits (by decide +kernel) haffords
  have hshown : (buyers.join? {} "orders" (.insert orderWithLine) buyer []).map (fun final =>
      (decide (Owned [.key "spent"] final.record),
        (final.record.locate? [.key "orders"]).map Json.outline,
        (final.record.locate? [.key "spent"]).map Json.outline)) =
      some (true, some (.array 1), some (Json.ofNat 7).outline) := by
    decide +kernel
  rw [show buyers.join? {} "orders" (.insert orderWithLine) buyer [] = some final from hcall] at hshown
  simp only [Option.map_some, Option.some.injEq, Prod.mk.injEq, decide_eq_true_eq] at hshown
  obtain ⟨howns, horders, hspent⟩ := hshown
  have hchanged : final.record.locate? [.key "orders"] ≠ buyer.locate? [.key "orders"] := by
    intro hsame
    rw [hsame] at horders
    revert horders
    decide +kernel
  exact ⟨final, hcall, hcurrent {} {} rfl howns rfl rfl hchanged, hspent⟩

/-- What the lines of the orders cost. -/
def total : Resolved where
  aggregate := ⟨"total", .sum, "orders.lines.price", none⟩
  target := ⟨"total", [], ["total"], .scalar "main0" "total" (some .number), false⟩
  source := ⟨"orders.lines.price", [⟨"orders1", ["orders"]⟩, ⟨"lines2", ["lines"]⟩], ["price"],
    .scalar "lines2" "price" (some .number), false⟩

/-- The lists inside the records of an attachment are not gone through when a record comes in. -/
theorem not_join?_upToDate :
    ¬ ∀ (store : Store) (environment : Environment) (join : Join) (attachment : ResolvedPath)
      (resolved : Resolved) (call : String × Delta) (record : Json) (final : State)
      (element inner : Cursor),
        store.IsCompiled → store.blueprint.flattened.PlainNames → environment.kinds = .builtIn →
        join ∈ store.metadata.joinsOf call.1 → join.cardinality = .many →
        store.blueprint.resolveLenient join.path = .ok attachment → attachment.isVirtual = false →
        resolved.Valid store.blueprint →
        resolved.aggregate ∈ store.metadata.localAggregates →
        (∃ rest, resolved.aggregate.source = join.path ++ "." ++ rest) →
        resolved.target.loops <+: attachment.loops →
        (∀ record ∈ Attached.incoming call.2, record.isObject = true) →
        Json.shapedAlong attachment.leaf attachment.loops record = true →
        store.join? environment call.1 call.2 record [] = some final →
        Exact (resolved.values environment final.record element) →
        element.Fits resolved.target.loops → resolved.Owns final.record element →
        inner.Fits attachment.loops → inner.upTo resolved.target.depth = element →
        final.record.locate? (inner.below attachment.leaf) ≠
          record.locate? (inner.below attachment.leaf) →
            store.UpToDate environment resolved final.record element := by
  intro h
  obtain ⟨final, hcall⟩ : ∃ final,
      buyers.join? {} "orders" (.insert orderWithLine) buyer [] = some final :=
    Option.isSome_iff_exists.mp (by decide +kernel)
  have hvalid : total.Valid buyers.blueprint :=
    ⟨Except.eq_ok_of_toOption (by decide +kernel), rfl, Except.eq_ok_of_toOption (by decide +kernel),
      rfl, rfl⟩
  have hmem : total.aggregate ∈ buyers.metadata.localAggregates :=
    LocalAggregate.mem_of_isNone (by decide +kernel)
  have hshown : (buyers.join? {} "orders" (.insert orderWithLine) buyer []).map (fun final =>
      (decide (Owned [.key "total"] final.record),
        decide (Exact (total.values {} final.record {})),
        (final.record.locate? [.key "orders"]).map Json.outline,
        (final.record.locate? [.key "total"]).map Json.outline,
        ((buyers.aggregate {} final.record).1.locate? [.key "total"]).map Json.outline)) =
      some (true, true, some (.array 1), some (Json.ofNat 0).outline,
        some (Json.ofNat 5).outline) := by
    decide +kernel
  rw [hcall] at hshown
  simp only [Option.map_some, Option.some.injEq, Prod.mk.injEq, decide_eq_true_eq] at hshown
  obtain ⟨howns, hexact, horders, hzero, hfive⟩ := hshown
  have hchanged : final.record.locate? [.key "orders"] ≠ buyer.locate? [.key "orders"] := by
    intro hsame
    rw [hsame] at horders
    revert horders
    decide +kernel
  have hcurrent := h buyers {} ordersJoin buyerOrders total ("orders", .insert orderWithLine) buyer
    final {} {} (isCompiled_compiled _ _ _) (by decide +kernel) rfl (by decide +kernel) rfl
    (Except.eq_ok_of_toOption (by decide +kernel)) rfl hvalid hmem ⟨"lines.price", rfl⟩
    (List.prefix_refl _) (by decide) (by decide +kernel) hcall hexact rfl howns rfl rfl hchanged
  have houtlines : (final.record.locate? [.key "total"]).map Json.outline =
      ((buyers.aggregate {} final.record).1.locate? [.key "total"]).map Json.outline :=
    congrArg (Option.map Json.outline) hcurrent
  rw [hzero, hfive] at houtlines
  revert houtlines
  decide +kernel

/-! ## Attachments inside records -/

/-- The values that an aggregate folds for the records of the attachment of one element. -/
def ownValues (environment : Environment) (attachment : ResolvedPath) (resolved : Resolved)
    (record : Json) (element : Cursor) : List Json :=
  (record.itemsAt (element.below attachment.leaf)).map (Coverage.valueOf environment resolved)

/-- Calls that leave the elements around an attachment in their places leave every one with the fold
of the records that are attached to it. -/
theorem joinEach_folds_own (hstore : store.IsCompiled) (hkinds : environment.kinds = .builtIn)
    (h : Coverage store.blueprint join attachment resolved) (hbare : attachment.isVirtual = true)
    (hown : resolved.target.loops = attachment.loops) {record : Json}
    (hshaped : Json.shapedAlong attachment.leaf attachment.loops record = true)
    {calls : List (String × Delta)}
    (hadmits : ∀ call ∈ calls, Coverage.Admits store join resolved call)
    (haffords : ∀ front call back middle, calls = front ++ call :: back →
      store.joinEach environment front
          { record := (store.aggregate environment record).1, states := [] } = some middle →
        Coverage.Affords environment attachment resolved middle.record call.2) :
    ∃ final, store.joinEach environment calls
        { record := (store.aggregate environment record).1, states := [] } = some final ∧
      ∀ element : Cursor, element.Fits attachment.loops → resolved.Owns final.record element →
        final.record.locate? (element.below resolved.target.leaf) =
          some (resolved.aggregate.op.kind.fold
            (ownValues environment attachment resolved final.record element)).value := by
  obtain ⟨final, hcalls, hupheld⟩ := h.upheld_joinEach hstore hkinds hadmits
    (fun front call back middle hcalls _ => haffords front call back middle hcalls)
    (h.upheld_aggregate hstore hkinds hbare hshaped)
  refine ⟨final, hcalls, fun element helement howns => ?_⟩
  rw [← hown] at helement
  have hshown := hupheld.shown element helement howns
  -- the element of the target is that of the attachment, with no list between them
  have hdrop : attachment.loops.drop resolved.target.depth = [] := by
    rw [← hown]
    exact List.drop_eq_nil_iff.mpr (Nat.le_refl resolved.target.loops.length)
  rw [Coverage.Shown, h.values_eq hstore.levelsDeclared, hdrop, Json.reach,
    List.flatMap_singleton] at hshown
  exact hshown

/-! ### Carts that are taken out -/

/-- Markets with carts, their orders and what these cost. -/
def marketOfCarts : Descriptor :=
  .mk [("id", .tuple [.word "int", .word "<<id>>"]),
    ("carts", .tuple [.word "array", .word "@carts", .nested (.mk [
      ("id", .tuple [.word "int", .word "<<cartId>>"]),
      ("orders", .tuple [.word "array", .word "@orders"]),
      ("total", .tuple [.word "number", .word "sum", .word "orders.amount"])])])]

/-- The store of these markets. -/
def market : Store := compiled "market" marketOfCarts (by decide +kernel)

/-- An order of an amount. -/
def placed (id amount : Nat) : Json := .object [("_id", .ofNat id), ("amount", .ofNat amount)]

/-- A cart with one order. -/
def cart (id amount : Nat) : Json :=
  .object [("_id", .ofNat id), ("id", .ofNat id), ("orders", .array [placed 1 amount]),
    ("total", .ofNat 0)]

/-- Two carts with an order each. -/
def twoCarts : Json := .object [("id", .ofNat 1), ("carts", .array [cart 1 10, cart 2 20])]

def cartOrdersJoin : Join := ⟨"orders", "carts.orders", .many⟩

/-- The attachment of the orders of a cart. -/
def cartOrders : ResolvedPath :=
  ⟨"carts.orders", [⟨"carts1", ["carts"]⟩], ["orders"], .level "orders2" .array, true⟩

/-- What the orders of a cart cost. -/
def cartCost : Resolved where
  aggregate := ⟨"carts.total", .sum, "carts.orders.amount", none⟩
  target := ⟨"carts.total", [⟨"carts1", ["carts"]⟩], ["total"],
    .scalar "carts1" "total" (some .number), false⟩
  source := ⟨"carts.orders.amount", [⟨"carts1", ["carts"]⟩, ⟨"orders2", ["orders"]⟩], ["amount"],
    .scalar "orders2" "amount" none, true⟩

/-- The total of a cart is read from the orders attached to it. -/
theorem coverage_cartCost :
    Coverage market.blueprint cartOrdersJoin cartOrders cartCost where
  feeds :=
    { target := Except.eq_ok_of_toOption (by decide +kernel)
      targetScalar := rfl
      source := Except.eq_ok_of_toOption (by decide +kernel)
      sourceScalar := rfl
      inside := rfl
      mem := LocalAggregate.mem_of_isNone (by decide +kernel)
      below := by decide
      apart := by decide +kernel }
  many := rfl
  leads := Except.eq_ok_of_toOption (by decide +kernel)
  list := ⟨"orders2", rfl⟩
  inside := ⟨"amount", rfl⟩
  direct := rfl

/-- The state of two carts whose totals have been computed. -/
def countedCarts : State := { record := (market.aggregate {} twoCarts).1, states := [] }

/-- The first of two carts. -/
def firstCart : Cursor := ⟨[⟨["carts"], 0⟩]⟩

/-- An order is attached to both carts, and another one is taken out of both. -/
theorem joinEach_folds_own_market :
    ∃ final, market.joinEach {} [("orders", .insert (placed 2 1)), ("orders", .delete (placed 1 0))]
        countedCarts = some final ∧
      final.record.locate? [.key "carts", .index 0, .key "total"] =
        some (AggregateKind.sum.fold
          (ownValues {} cartOrders cartCost final.record firstCart)).value ∧
      (final.record.locate? [.key "carts", .index 0, .key "total"]).map Json.outline =
        some (Json.ofNat 1).outline := by
  have halone : market.metadata.Alone "orders" cartOrdersJoin cartCost.aggregate.target := by
    decide +kernel
  have hadmits : ∀ call ∈ [("orders", Delta.insert (placed 2 1)),
      ("orders", Delta.delete (placed 1 0))],
      Coverage.Admits market cartOrdersJoin cartCost call := by
    intro call hcall
    rcases List.mem_pair.mp hcall with rfl | rfl
    · exact ⟨by decide +kernel, halone, by decide⟩
    · exact ⟨by decide +kernel, halone, by decide⟩
  obtain ⟨final, hcalls, hfolds⟩ := joinEach_folds_own (isCompiled_compiled _ _ _) rfl
    coverage_cartCost rfl rfl (show Json.shapedAlong _ _ twoCarts = true by decide +kernel) hadmits
    (Coverage.affords_of_affordsEach (show Coverage.affordsEach market {} cartOrders cartCost _
      countedCarts = true by decide +kernel))
  have hshown : (market.joinEach {} [("orders", .insert (placed 2 1)),
      ("orders", .delete (placed 1 0))] countedCarts).map (fun final =>
        (decide (Owned [.key "carts", .index 0, .key "total"] final.record),
          (final.record.locate? [.key "carts", .index 0, .key "total"]).map Json.outline)) =
      some (true, some (Json.ofNat 1).outline) := by
    decide +kernel
  rw [show market.joinEach {} [("orders", .insert (placed 2 1)), ("orders", .delete (placed 1 0))]
    countedCarts = some final from hcalls] at hshown
  simp only [Option.map_some, Option.some.injEq, Prod.mk.injEq, decide_eq_true_eq] at hshown
  exact ⟨final, hcalls, hfolds firstCart rfl hshown.1, hshown.2⟩

/-- When a cart is taken out, the next one goes on from the total that was persisted for it. -/
theorem not_joinEach_folds_own :
    ¬ ∀ (store : Store) (environment : Environment) (outer inner : Join)
      (attachment : ResolvedPath) (resolved : Resolved) (record : Json)
      (front : List (String × Delta)) (last : String × Delta) (middle final : State)
      (element : Cursor),
        store.IsCompiled → store.blueprint.flattened.PlainNames → environment.kinds = .builtIn →
        outer ∈ store.metadata.joinsOf outer.store → outer.cardinality = .many →
        inner ∈ store.metadata.joinsOf inner.store →
        segments outer.path <+: segments inner.path →
        Coverage store.blueprint inner attachment resolved → attachment.isVirtual = true →
        resolved.target.loops = attachment.loops →
        Json.shapedAlong attachment.leaf attachment.loops record = true →
        (∀ call ∈ front ++ [last], (call.1 = outer.store ∨ call.1 = inner.store) ∧
          rebuilds call.2 = false ∧
          ∀ record ∈ Attached.incoming call.2, record.isObject = true) →
        last.1 = inner.store →
        store.joinEach environment front
          { record := (store.aggregate environment record).1, states := [] } = some middle →
        store.join? environment last.1 last.2 middle.record middle.states = some final →
        element.Fits attachment.loops → resolved.Owns final.record element →
        final.record.locate? (element.below attachment.leaf) ≠
          middle.record.locate? (element.below attachment.leaf) →
        Exact (ownValues environment attachment resolved final.record element) →
          final.record.locate? (element.below resolved.target.leaf) =
            some (resolved.aggregate.op.kind.fold
              (ownValues environment attachment resolved final.record element)).value := by
  intro h
  obtain ⟨middle, hmiddle⟩ : ∃ middle, market.joinEach {} [("orders", .insert (placed 2 1)),
      ("carts", .delete (cart 1 0))] countedCarts = some middle :=
    Option.isSome_iff_exists.mp (by decide +kernel)
  have hrun : (market.joinEach {} [("orders", .insert (placed 2 1)), ("carts", .delete (cart 1 0))]
      countedCarts).all (fun middle =>
        (market.join? {} "orders" (.insert (placed 3 5)) middle.record middle.states).any fun final =>
          decide (Owned [.key "carts", .index 0, .key "total"] final.record) &&
          decide (Exact (ownValues {} cartOrders cartCost final.record firstCart)) &&
          decide ((middle.record.locate? [.key "carts", .index 0, .key "orders"]).map Json.outline =
            some (.array 2)) &&
          decide ((final.record.locate? [.key "carts", .index 0, .key "orders"]).map Json.outline =
            some (.array 3)) &&
          decide ((final.record.locate? [.key "carts", .index 0, .key "total"]).map Json.outline =
            some (Json.ofNat 16).outline) &&
          decide ((AggregateKind.sum.fold
            (ownValues {} cartOrders cartCost final.record firstCart)).value.outline =
              (Json.ofNat 26).outline)) = true := by
    decide +kernel
  rw [hmiddle] at hrun
  obtain ⟨final, hfinal, hrun⟩ := (Option.any_eq_true _ _).mp hrun
  simp only [Bool.and_eq_true, decide_eq_true_eq] at hrun
  obtain ⟨⟨⟨⟨⟨howns, hexact⟩, htwo⟩, hthree⟩, hsixteen⟩, htwentySix⟩ := hrun
  have hchanged : final.record.locate? [.key "carts", .index 0, .key "orders"] ≠
      middle.record.locate? [.key "carts", .index 0, .key "orders"] := by
    intro hsame
    rw [hsame, htwo] at hthree
    revert hthree
    decide +kernel
  have hcalls : ∀ call ∈ [("orders", Delta.insert (placed 2 1)), ("carts", .delete (cart 1 0))] ++
      [("orders", .insert (placed 3 5))], (call.1 = "carts" ∨ call.1 = "orders") ∧
        rebuilds call.2 = false ∧
        ∀ record ∈ Attached.incoming call.2, record.isObject = true := by
    decide +kernel
  have hfolds := h market {} ⟨"carts", "carts", .many⟩ cartOrdersJoin cartOrders cartCost twoCarts
    [("orders", .insert (placed 2 1)), ("carts", .delete (cart 1 0))]
    ("orders", .insert (placed 3 5)) middle final firstCart (isCompiled_compiled _ _ _)
    (by decide +kernel) rfl (by decide +kernel) rfl (by decide +kernel) (by decide +kernel)
    coverage_cartCost rfl rfl (by decide +kernel) hcalls rfl hmiddle hfinal rfl howns hchanged
    hexact
  have houtlines := congrArg (Option.map Json.outline) hfolds
  rw [Option.map_some] at houtlines
  have heq := hsixteen.symm.trans (houtlines.trans (congrArg some htwentySix))
  revert heq
  decide +kernel

end Store

end NestedRecord
