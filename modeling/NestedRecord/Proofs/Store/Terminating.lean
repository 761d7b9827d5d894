import NestedRecord.Proofs.Aggregate.Recompute
import NestedRecord.Proofs.Join.Frame
import NestedRecord.Proofs.Procedure.Termination
import NestedRecord.Proofs.Store.Compiled

/-!
# The procedures of a store terminate

Procedures write while they go through lists: results of handlers, records of other stores and
whole elements. What they write never lies on the way to an element that they are in, so every list
that is being gone through stays as long as it was.

* `ComputedFields.keepsLists`, `Reference.keepsLists_collect` and `Reference.keepsLists_replace`:
  computed fields and references write below the element that they are at, or the element itself.
* `Recompute.keepsLists` and `Joining.keepsLists`: aggregates write targets also at enclosing
  elements, but a target is a single value, and no path to a list leads through one.
* `Store.IsCompiled.procedures_halt` is the result for all procedures of a store.

The size of a list is measured again before each element, so a procedure that adds to a list it goes
through might not end. It is enough that no action changes such a size, whatever the record looks
like; nothing is asked of handlers or of the records that come in, and where a write fails the
record is as before.
-/

namespace NestedRecord

/-- Whatever is below an element does not stand at or above a list around the element. -/
theorem Cursor.Under.not_above_list {inner middle : Cursor} {last : Loop} {back : List Loop}
    (h : inner.Under middle (last :: back)) (names : List String) :
    ¬ inner.below names <+: middle.below last.access := by
  intro hstart
  obtain ⟨index, hunder⟩ := Cursor.under_cons.mp h
  have helement := (Cursor.element_above hunder.entered_above).length_le
  rw [Cursor.element_enter, List.length_append, List.length_singleton] at helement
  have hbelow := hstart.length_le
  rw [Cursor.below, List.length_append] at hbelow
  omega

/-- A change elsewhere leaves a list at its size. -/
theorem Machine.size_eq_of_sameOutside {F σ : Type} {machine : Machine F σ} {cursor : Cursor}
    {loop : Loop} {touched : Location → Prop} {before after : σ}
    (h : Json.SameOutside touched (machine.record before) (machine.record after))
    (hspares : ∀ location, touched location → ¬ location <+: cursor.below loop.access) :
    machine.size cursor loop after = machine.size cursor loop before := by
  rw [Machine.size_eq_sizeAt, Machine.size_eq_sizeAt]
  exact h.sizeAt_eq hspares

/-! ## Computed fields -/

namespace ComputedFields

/-- How computed fields are evaluated. -/
def machine (constants : Json) : Machine Field State :=
  { act := evaluate constants, record := State.record }

/-- A computed field is written below the element of its owner. -/
theorem evaluate_sameOutside (constants : Json) (field : Field) (cursor : Cursor) (state : State) :
    Json.SameOutside (· = cursor.below (field.owner ++ [field.name])) state.record
      (evaluate constants field cursor state).record := by
  unfold evaluate
  split
  · simp only
    cases hset : cursor.setAt? state.record cursor.depth (field.owner ++ [field.name]) _ with
    | none => exact .refl _ _
    | some record =>
      rw [← Cursor.place_depth]
      exact (Cursor.setAt?_written hset).sameOutside
  · exact .refl _ _

theorem keepsLists (program : Program Field) (constants : Json) :
    program.KeepsLists (machine constants) := by
  intro front last back field _ middle inner _ hinner state
  refine Machine.size_eq_of_sameOutside (evaluate_sameOutside constants field inner state) ?_
  rintro location rfl
  exact hinner.not_above_list _

end ComputedFields

/-! ## References -/

namespace Reference

/-- How the keys of embedded copies are collected. -/
def collecting (keyOf : KeyFunction) : Machine (List String) Collection :=
  { act := collectKey keyOf, record := Collection.record }

/-- How the copies of a record are replaced. -/
def replacing (parent : Parent) : Machine (List String) Replacement :=
  { act := replaceCopy parent, record := Replacement.record }

/-- Collecting a key leaves the record as it is. -/
theorem record_collectKey (keyOf : KeyFunction) (leaf : List String) (cursor : Cursor)
    (state : Collection) : (collectKey keyOf leaf cursor state).record = state.record := by
  unfold collectKey
  split <;> rfl

/-- A copy is replaced at its place below the element, which may be the element itself. -/
theorem replaceCopy_sameOutside (parent : Parent) (leaf : List String) (cursor : Cursor)
    (state : Replacement) :
    Json.SameOutside (· = cursor.below leaf) state.record
      (replaceCopy parent leaf cursor state).record := by
  unfold replaceCopy
  split
  · exact .refl _ _
  · split
    · cases hset : cursor.setAt? state.record cursor.depth leaf parent.content with
      | none => exact .refl _ _
      | some record =>
        rw [← Cursor.place_depth]
        exact (Cursor.setAt?_written hset).sameOutside
    · exact .refl _ _

theorem keepsLists_collect (program : Program (List String)) (keyOf : KeyFunction) :
    program.KeepsLists (collecting keyOf) := by
  intro front last back leaf _ middle inner _ _ state
  rw [Machine.size_eq_sizeAt, Machine.size_eq_sizeAt]
  exact congrArg (Json.sizeAt · _) (record_collectKey keyOf leaf inner state)

theorem keepsLists_replace (program : Program (List String)) (parent : Parent) :
    program.KeepsLists (replacing parent) := by
  intro front last back leaf _ middle inner _ hinner state
  refine Machine.size_eq_of_sameOutside (replaceCopy_sameOutside parent leaf inner state) ?_
  rintro location rfl
  exact hinner.not_above_list leaf

end Reference

variable {blueprint : Blueprint}

/-! ## Local aggregates -/

/-- Computing aggregates leaves every list that is gone through at its size. -/
theorem Recompute.keepsLists (hlevels : blueprint.LevelsDeclared) {program : Program Action}
    (h : compile blueprint = .ok program) (environment : Environment) :
    program.KeepsLists (machine environment) := by
  intro front last back action hplaced middle inner hmiddle hinner state
  replace hmiddle := Cursor.fits_iff_under_root.mpr hmiddle
  obtain ⟨plan, hplan⟩ := exists_plan_of_compile h
  obtain ⟨resolved, hresolved, htarget, ⟨rest, hsource⟩, hfold⟩ := hplan.exists_resolved hplaced
  have hvalid := hplan.valid resolved hresolved
  have hvalue := valueAt_of_fits hvalid htarget (hinner.fits hmiddle)
  have hleads := (Blueprint.leads_of_lenient hlevels hvalid.source).1
  -- the list lies on the way to the source
  have hloops : resolved.source.loops = front ++ last :: (back ++ rest) := by
    rw [← hsource, List.append_assoc]
    rfl
  refine Machine.size_eq_of_sameOutside (act_sameOutside action inner state) ?_
  rintro location rfl
  rw [Action.place, hfold]
  exact hvalue.not_above_list hlevels hleads hloops hmiddle

/-! ## Joins -/

namespace Joining

/-- The lists around an action lie on the way to a path of the store. -/
theorem Stands.exists_resolved (hlevels : blueprint.LevelsDeclared) {store : String} {join : Join}
    {loops : List Loop} {action : Action} (h : Stands blueprint store join loops action) :
    ∃ resolved, blueprint.Leads resolved ∧ resolved.loops = loops := by
  cases h with
  | attachment _ hleads => exact ⟨_, (Blueprint.leads_of_lenient hlevels hleads).1, rfl⟩
  | feed _ _ _ hleads => exact ⟨_, (Blueprint.leads_of_strict hlevels hleads).1, rfl⟩

/-- An action writes below its element, or at instances of single values. -/
theorem Stands.below_or_value {store : String} {join : Join} {loops : List Loop} {action : Action}
    (h : Stands blueprint store join loops action) {cursor : Cursor} (hfits : cursor.Fits loops)
    {location : Location} (htouched : action.Touches cursor location) :
    (∃ names, location = cursor.below names) ∨ ∃ path, blueprint.ValueAt path location := by
  cases h with
  | attachment =>
    rcases htouched with rfl | ⟨inlined, hmem, rfl⟩
    · exact .inl ⟨_, rfl⟩
    · exact .inr ⟨_, (valueAt_of_inlined hmem hfits).2⟩
  | feed =>
    obtain rfl : location = _ := htouched
    exact .inl ⟨_, rfl⟩

/-- Serving a change leaves every list that is gone through at its size. -/
theorem keepsLists (hlevels : blueprint.LevelsDeclared) {store : String}
    {procedures : JoinProcedures} (h : JoinProcedures.compile blueprint store = .ok procedures)
    (surroundings : Surroundings) :
    (procedures.program surroundings.delta).KeepsLists (JoinProcedures.machine surroundings) := by
  intro front last back action hplaced middle inner hmiddle hinner state
  replace hmiddle := Cursor.fits_iff_under_root.mpr hmiddle
  obtain ⟨entries, hperm, -, hstands, -⟩ := JoinProcedures.exists_entries h surroundings.delta
  obtain ⟨⟨join, loops, action'⟩, hentry, heq⟩ := List.mem_map.mp (hperm.mem_iff.mp hplaced)
  obtain ⟨rfl, rfl⟩ := Prod.mk.inj heq
  have hstand := hstands _ hentry
  obtain ⟨resolved, hleads, hloops⟩ := hstand.exists_resolved hlevels
  refine Machine.size_eq_of_sameOutside (act_sameOutside action' inner state) ?_
  intro location htouched
  rcases hstand.below_or_value (hinner.fits hmiddle) htouched with ⟨names, rfl⟩ | ⟨path, hvalue⟩
  · exact hinner.not_above_list names
  · exact hvalue.not_above_list hlevels hleads hloops hmiddle

end Joining

/-! ## All procedures of a store -/

namespace Store.IsCompiled

variable {store : Store}

/-- Every procedure of a store ends on every record, whatever handlers, key functions, aggregate
kinds and records of other stores it is run with: no action changes the size of a list that is
being gone through, and so each list is left after the elements that it had when it was entered. -/
theorem procedures_halt (h : store.IsCompiled) :
    (∀ environment, store.aggregates.Halts (Recompute.machine environment)) ∧
    (∀ constants, store.computeds.Halts (ComputedFields.machine constants)) ∧
    (∀ procedures ∈ store.joins, ∀ surroundings : Joining.Surroundings,
      (procedures.program surroundings.delta).Halts (JoinProcedures.machine surroundings)) ∧
    (∀ entry ∈ store.references,
      (∀ keyOf, entry.2.collect.Halts (Reference.collecting keyOf)) ∧
        ∀ parent, entry.2.replace.Halts (Reference.replacing parent)) := by
  refine ⟨fun environment => ?_, fun constants => ?_, fun procedures hmem surroundings => ?_,
    fun entry _ => ⟨fun keyOf => ?_, fun parent => ?_⟩⟩
  · exact Program.halts_of_keepsLists (fun _ => rfl)
      (Recompute.keepsLists h.levelsDeclared h.aggregates environment)
  · exact Program.halts_of_keepsLists (fun _ => rfl) (ComputedFields.keepsLists _ constants)
  · obtain ⟨name, -, hcompile⟩ :=
      exists_of_forall₂_right (JoinProcedures.forall_compile h.joins) hmem
    exact Program.halts_of_keepsLists (fun _ => rfl)
      (Joining.keepsLists h.levelsDeclared hcompile surroundings)
  · exact Program.halts_of_keepsLists (fun _ => rfl) (Reference.keepsLists_collect _ keyOf)
  · exact Program.halts_of_keepsLists (fun _ => rfl) (Reference.keepsLists_replace _ parent)

/-- Accounts with bookings and what these come to, with the payments of another store and what they
come to, and with copies of the customers of a third. -/
def accountsWithBookings : Descriptor :=
  .mk [("id", .tuple [.word "int", .word "<<id>>"]),
    ("booked", .tuple [.word "number", .word "sum", .word "bookings.amount"]),
    ("bookings", .tuple [.word "array", .nested (.mk [
      ("line", .tuple [.word "int", .word "<<line>>"]),
      ("amount", .tuple [.word "number"]),
      ("label", .tuple [.word "string", .handler fun owner _ => .ok (.string owner.render)])])]),
    ("payments", .tuple [.word "array", .word "@payments"]),
    ("paid", .tuple [.word "number", .word "sum", .word "payments.amount"]),
    ("customers", .tuple [.word "array", .word "ref", .word "@customers", .nested (.mk [
      ("number", .tuple [.word "int", .word "<<number>>"])])])]

/-- The store of these accounts. -/
def accounts : Store := compiled "accounts" accountsWithBookings (by decide +kernel)

/-- A store with an aggregate, a joined store and a reference. -/
theorem procedures_halt_accounts : accounts.IsCompiled ∧
    (∀ environment, accounts.aggregates.Halts (Recompute.machine environment)) ∧
    (∀ constants, accounts.computeds.Halts (ComputedFields.machine constants)) ∧
    (∀ procedures ∈ accounts.joins, ∀ surroundings : Joining.Surroundings,
      (procedures.program surroundings.delta).Halts (JoinProcedures.machine surroundings)) ∧
    (∀ entry ∈ accounts.references,
      (∀ keyOf, entry.2.collect.Halts (Reference.collecting keyOf)) ∧
        ∀ parent, entry.2.replace.Halts (Reference.replacing parent)) ∧
    accounts.joins.map (·.store) = ["payments"] ∧
    Fields.keys accounts.references = ["customers"] := by
  have hcompiled : accounts.IsCompiled := isCompiled_compiled "accounts" accountsWithBookings _
  obtain ⟨haggregates, hcomputeds, hjoins, hreferences⟩ := procedures_halt hcompiled
  exact ⟨hcompiled, haggregates, hcomputeds, hjoins, hreferences, by decide +kernel,
    by decide +kernel⟩

end Store.IsCompiled

end NestedRecord
