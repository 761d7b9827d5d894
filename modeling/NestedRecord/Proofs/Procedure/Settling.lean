import NestedRecord.Proofs.Procedure.Assembly

/-!
# Runs that settle

A run stops once its state is settled. What it has done until then is the beginning of what it
would have done otherwise.

- `Machine.performUntil` does events in order as long as the state is not settled, and
  `Machine.recording` notes what a machine does.
- `Program.run_eq_performUntil`: a run over a record that stays as it is does the events of
  `Program.events`, up to the moment at which the state is settled.
- `Scaffold.Registration` is one call that builds a scaffold, and `Scaffold.assemble` makes all
  of them. `select_events_assemble`: an action registered for the elements of loops is done
  once at every element that the loops reach, whatever else has been registered.
- `Json.reach_ascending`: elements are reached in the order of their indexes.

Two things are put together here. A machine that leaves the record as it is goes through the events
that the record has, and settling cuts this list off: `performUntil` is a fold that stops. Which
events of a sort there are does not depend on other fragments, so a registered action can be found
among them however many calls there were.
-/

namespace NestedRecord

/-! ## Runs over a record that stays as it is -/

namespace Machine

variable {F σ : Type} (machine : Machine F σ)

/-- Whether no action changes the record. -/
def KeepsRecord : Prop :=
  ∀ action cursor state, machine.record (machine.act action cursor state) = machine.record state

/-- Does events one after the other, until the state is settled. -/
def performUntil : List (Event F) → σ → σ
  | [], state => state
  | event :: rest, state =>
    if machine.isSettled state then state
    else performUntil rest (machine.act event.action event.cursor state)

/-- The machine that notes which events it has done. -/
def recording : Machine F (σ × List (Event F)) where
  act action cursor state := (machine.act action cursor state.1, state.2 ++ [⟨action, cursor⟩])
  record state := machine.record state.1
  isSettled state := machine.isSettled state.1

variable {machine}

theorem KeepsRecord.recording (h : machine.KeepsRecord) : machine.recording.KeepsRecord :=
  fun action cursor state => h action cursor state.1

theorem performUntil_of_settled (events : List (Event F)) {state : σ}
    (h : machine.isSettled state = true) : machine.performUntil events state = state := by
  cases events with
  | nil => rfl
  | cons event rest => rw [performUntil, if_pos h]

/-- Events are done one after the other. -/
theorem performUntil_append (front back : List (Event F)) (state : σ) :
    machine.performUntil (front ++ back) state =
      machine.performUntil back (machine.performUntil front state) := by
  induction front generalizing state with
  | nil => rfl
  | cons event rest ih =>
    rw [List.cons_append, performUntil, performUntil]
    split
    · next hsettled => rw [performUntil_of_settled back hsettled]
    · exact ih _

/-- The record is the same after any number of events. -/
theorem KeepsRecord.performUntil (h : machine.KeepsRecord) (events : List (Event F)) (state : σ) :
    machine.record (machine.performUntil events state) = machine.record state := by
  induction events generalizing state with
  | nil => rfl
  | cons event rest ih =>
    rw [Machine.performUntil]
    split
    · rfl
    · rw [ih, h]

/-- Events that do not settle the state before the last one are all done. -/
theorem performUntil_eq_perform (events : List (Event F)) (state : σ)
    (h : ∀ done < events.length,
      machine.isSettled (machine.perform (events.take done) state) = false) :
    machine.performUntil events state = machine.perform events state := by
  induction events generalizing state with
  | nil => rfl
  | cons event rest ih =>
    have hfirst : machine.isSettled state = false := h 0 (Nat.succ_pos _)
    rw [performUntil, hfirst, if_neg Bool.false_ne_true, ih]
    · rfl
    · exact fun done hdone => h (done + 1) (Nat.succ_lt_succ hdone)

/-- A state that is settled by the first events is left there. -/
theorem performUntil_eq_take {events : List (Event F)} {state : σ} {done : Nat}
    (hbefore : ∀ fewer < done,
      machine.isSettled (machine.perform (events.take fewer) state) = false)
    (hsettled : machine.isSettled (machine.perform (events.take done) state) = true) :
    machine.performUntil events state = machine.perform (events.take done) state := by
  have hfront : machine.performUntil (events.take done) state =
      machine.perform (events.take done) state := by
    refine performUntil_eq_perform _ _ fun fewer hfewer => ?_
    have hlt : fewer < done := Nat.lt_of_lt_of_le hfewer (List.length_take_le _ _)
    rw [List.take_take, Nat.min_eq_left (Nat.le_of_lt hlt)]
    exact hbefore fewer hlt
  conv_lhs => rw [← List.take_append_drop done events]
  rw [performUntil_append, hfront, performUntil_of_settled _ hsettled]

/-- What a machine notes are the events, next to their effect. -/
theorem perform_recording (events : List (Event F)) (state : σ) (noted : List (Event F)) :
    machine.recording.perform events (state, noted) =
      (machine.perform events state, noted ++ events) := by
  induction events generalizing state noted with
  | nil => simp
  | cons event rest ih =>
    show machine.recording.perform rest (machine.act event.action event.cursor state,
      noted ++ [event]) = _
    rw [ih, List.append_assoc]
    rfl

/-- Fragments are done in order, until the state is settled. -/
theorem runFragments_eq_performUntil (cursor : Cursor) (fragments : List (Fragment F))
    (state : σ) :
    machine.runFragments cursor fragments state =
      machine.performUntil (Pass.eventsHere cursor fragments) state := by
  induction fragments generalizing state with
  | nil => rfl
  | cons fragment rest ih =>
    show (if machine.isSettled state = true then state
      else machine.runFragments cursor rest (machine.act fragment.action cursor state)) = _
    rw [ih]
    rfl

section Run

variable (hkeeps : machine.KeepsRecord) {record : Json}
include hkeeps

/-- The elements of a list are visited one after the other, until the state is settled. -/
theorem iterate_eq_performUntil (cursor : Cursor) (loop : Loop) {visit : Nat → σ → σ}
    {events : Nat → List (Event F)}
    (hvisit : ∀ index state, machine.record state = record →
      visit index state = machine.performUntil (events index) state) :
    ∀ (fuel index : Nat) (state : σ), machine.record state = record →
      index + fuel = record.sizeAt (cursor.below loop.access) →
      iterate (fun index state =>
        if machine.isSettled state || decide (machine.size cursor loop state ≤ index) then none
        else some (visit index state)) fuel index state =
          machine.performUntil ((List.range' index fuel).flatMap events) state
  | 0, _, _, _, _ => rfl
  | fuel + 1, index, state, hrecord, hsize => by
    have hlonger : ¬ machine.size cursor loop state ≤ index := by
      rw [size_eq_sizeAt, hrecord]
      omega
    cases hsettled : machine.isSettled state with
    | true => simp [iterate, hsettled, performUntil_of_settled]
    | false =>
      have hrecord' : machine.record (visit index state) = record := by
        rw [hvisit index state hrecord, hkeeps.performUntil, hrecord]
      have hrest := iterate_eq_performUntil cursor loop hvisit fuel (index + 1)
        (visit index state) hrecord' (by omega)
      rw [List.range'_succ, List.flatMap_cons, performUntil_append, ← hvisit index state hrecord,
        ← hrest]
      simp [iterate, hsettled, hlonger]

mutual

/-- A pass does its events, until the state is settled. -/
theorem runPass_eq_performUntil (cursor : Cursor) (loop : Loop) :
    ∀ (pass : Pass F) (state : σ), machine.record state = record →
      machine.runPass cursor loop pass state =
        machine.performUntil (pass.events record cursor loop) state
  | .mk pre body post inner, state, hrecord => by
    have hpre : machine.record (machine.performUntil (Pass.eventsHere cursor pre) state) =
        record := by
      rw [hkeeps.performUntil, hrecord]
    -- one element: the inner passes, then the body
    have hvisit : ∀ index state, machine.record state = record →
        machine.runFragments (cursor.enter loop.access index) body
          (machine.runInner (cursor.enter loop.access index) inner state) =
            machine.performUntil (Pass.eventsInner record (cursor.enter loop.access index) inner ++
              Pass.eventsHere (cursor.enter loop.access index) body) state := by
      intro index state hrecord
      rw [runInner_eq_performUntil (cursor.enter loop.access index) inner state hrecord,
        runFragments_eq_performUntil, performUntil_append]
    have hvisits := iterate_eq_performUntil hkeeps cursor loop hvisit
      (record.sizeAt (cursor.below loop.access)) 0 _ hpre (Nat.zero_add _)
    rw [runPass, runFragments_eq_performUntil, runFragments_eq_performUntil]
    simp only
    rw [size_eq_sizeAt, hpre, hvisits, Pass.events, performUntil_append, performUntil_append,
      List.range_eq_range']
termination_by structural pass => pass

/-- Passes over lists do their events, until the state is settled. -/
theorem runInner_eq_performUntil (cursor : Cursor) :
    ∀ (inner : List (Loop × Pass F)) (state : σ), machine.record state = record →
      machine.runInner cursor inner state =
        machine.performUntil (Pass.eventsInner record cursor inner) state
  | [], _, _ => rfl
  | (loop, pass) :: rest, state, hrecord => by
    rw [runInner, runPass_eq_performUntil cursor loop pass state hrecord, Pass.eventsInner,
      performUntil_append]
    exact runInner_eq_performUntil cursor rest _ (by rw [hkeeps.performUntil, hrecord])
termination_by structural inner => inner

end

end Run

end Machine

/-- A run over a record that stays as it is does the program's events, until the state is
settled. -/
theorem Program.run_eq_performUntil {F σ : Type} (program : Program F) {machine : Machine F σ}
    (hkeeps : machine.KeepsRecord) (state : σ) :
    program.run machine state =
      machine.performUntil (program.events (machine.record state)) state := by
  obtain ⟨name, ⟨pre, body, post, inner⟩, plan⟩ := program
  show machine.runFragments {} post (machine.runFragments {} body
    (machine.runInner {} inner (machine.runFragments {} pre state))) = _
  simp only [Machine.runFragments_eq_performUntil]
  rw [Machine.runInner_eq_performUntil hkeeps {} inner _ (hkeeps.performUntil _ _), events,
    Pass.eventsRoot]
  simp only [Machine.performUntil_append]

/-! ## The order of elements -/

/-- The positions of a cursor in the lists that it has entered. -/
def Cursor.indexes (cursor : Cursor) : List Nat := cursor.entered.map (·.index)

/-- Elements are reached in ascending order of their indexes, outer lists first. -/
theorem Json.reach_ascending (record : Json) (cursor : Cursor) (loops : List Loop) :
    ((record.reach cursor loops).map Cursor.indexes).Pairwise (· < ·) := by
  induction loops generalizing cursor with
  | nil => exact List.pairwise_singleton _ _
  | cons loop rest ih =>
    rw [reach, List.map_flatMap, List.pairwise_flatMap]
    refine ⟨fun index _ => ih _, List.pairwise_lt_range.imp fun {i j} hij => ?_⟩
    intro a ha b hb
    obtain ⟨first, hfirst, rfl⟩ := List.mem_map.mp ha
    obtain ⟨second, hsecond, rfl⟩ := List.mem_map.mp hb
    obtain ⟨tail, htail, -⟩ := under_of_mem_reach hfirst
    obtain ⟨tail', htail', -⟩ := under_of_mem_reach hsecond
    -- both begin with the indexes of the cursor, and the next one decides
    simp only [Cursor.indexes, htail, htail', Cursor.enter, List.map_append, List.map_cons,
      List.append_assoc, List.cons_append, List.nil_append]
    exact List.append_left_lt (List.cons_lt_cons_iff.mpr (.inl hij))

/-! ## Registered fragments -/

namespace Scaffold

variable {F : Type}

/-- A call that builds a scaffold: it goes to the pass of its loops and may leave a fragment
there. -/
structure Registration (F : Type) where
  loops : List Loop
  fragment : Option (Bucket × Fragment F)

namespace Registration

/-- What a call does to its pass. -/
def change (registration : Registration F) : Pass F → Pass F :=
  match registration.fragment with
  | none => id
  | some (bucket, fragment) => Pass.push bucket fragment

/-- Whether a call leaves no action of a sort. -/
def Avoids (registration : Registration F) (p : F → Bool) : Prop :=
  ∀ bucket fragment, registration.fragment = some (bucket, fragment) → p fragment.action = false

theorem Avoids.keepsPicked {registration : Registration F} {p : F → Bool}
    (h : registration.Avoids p) : Pass.KeepsPicked p registration.change := by
  obtain ⟨loops, fragment⟩ := registration
  cases fragment with
  | none => exact Pass.keepsPicked_id p
  | some entry => exact Pass.keepsPicked_push entry.1 (h entry.1 entry.2 rfl)

end Registration

/-- Makes one call. -/
def register (scaffold : Scaffold F) (registration : Registration F) : Scaffold F :=
  match registration.fragment with
  | none => scaffold.reach registration.loops
  | some (bucket, fragment) =>
    scaffold.add registration.loops bucket fragment.label fragment.action

/-- The scaffold of calls made in order. -/
def assemble (name : String) (registrations : List (Registration F)) : Scaffold F :=
  registrations.foldl register { name }

theorem register_eq (scaffold : Scaffold F) (registration : Registration F) :
    scaffold.register registration = scaffold.edit registration.loops registration.change := by
  obtain ⟨loops, fragment⟩ := registration
  cases fragment <;> rfl

/-- A scaffold that is free of conflicts was so before its last call. -/
theorem conflicts_of_register {scaffold : Scaffold F} {registration : Registration F}
    (h : (scaffold.register registration).conflicts = []) :
    scaffold.conflicts = [] ∧
      (Pass.edit registration.change registration.loops scaffold.root).2 = [] := by
  rw [register_eq] at h
  exact List.append_eq_nil_iff.mp h

theorem conflicts_of_foldl_register :
    ∀ (registrations : List (Registration F)) {scaffold : Scaffold F},
      (registrations.foldl register scaffold).conflicts = [] → scaffold.conflicts = []
  | [], _, h => h
  | _ :: rest, _, h => (conflicts_of_register (conflicts_of_foldl_register rest h)).1

section Select

variable {p : F → Bool}

/-- Calls that leave nothing of a sort do not change which events of that sort there are, and
leave none where none was. -/
theorem select_foldl_register (record : Json) :
    ∀ (registrations : List (Registration F)), (∀ call ∈ registrations, call.Avoids p) →
      ∀ {scaffold : Scaffold F}, (registrations.foldl register scaffold).conflicts = [] →
        (Event.select p (Pass.eventsRoot record (registrations.foldl register scaffold).root) =
          Event.select p (Pass.eventsRoot record scaffold.root)) ∧
        (Pass.Free p scaffold.root.placedRoot →
          Pass.Free p (registrations.foldl register scaffold).root.placedRoot)
  | [], _, _, _ => ⟨rfl, id⟩
  | call :: rest, havoids, scaffold, h => by
    have hkeeps := (havoids call List.mem_cons_self).keepsPicked
    obtain ⟨-, hedit⟩ := conflicts_of_register (conflicts_of_foldl_register rest h)
    obtain ⟨hselect, hfree⟩ := select_foldl_register record rest
      (fun other hother => havoids other (List.mem_cons_of_mem _ hother)) h
    rw [List.foldl_cons, hselect]
    rw [register_eq] at hfree ⊢
    exact ⟨Pass.select_eventsRoot_edit hkeeps call.loops scaffold.root hedit,
      fun hscaffold => hfree (Pass.free_editRoot hkeeps call.loops scaffold.root hedit hscaffold)⟩

/-- An action registered for the elements that loops reach is done once at each of them,
whatever else is registered. -/
theorem select_events_assemble {name : String} {front back : List (Registration F)}
    {loops : List Loop} {fragment : Fragment F}
    (h : (assemble name (front ++ ⟨loops, some (.body, fragment)⟩ :: back)).conflicts = [])
    (hp : p fragment.action = true) (havoids : ∀ call ∈ front ++ back, call.Avoids p)
    (record : Json) :
    Event.select p (Pass.eventsRoot record
        (assemble name (front ++ ⟨loops, some (.body, fragment)⟩ :: back)).root) =
      (record.reach {} loops).map fun element => ⟨fragment.action, element⟩ := by
  rw [assemble, List.foldl_append, List.foldl_cons] at h ⊢
  have hbefore := conflicts_of_foldl_register back h
  obtain ⟨hfront, hedit⟩ := conflicts_of_register hbefore
  obtain ⟨-, hfree⟩ := select_foldl_register (p := p) record front
    (fun call hcall => havoids call (List.mem_append_left _ hcall)) hfront
  rw [(select_foldl_register record back
    (fun call hcall => havoids call (List.mem_append_right _ hcall)) h).1]
  refine Pass.select_eventsRoot_add hp loops (hfree ?_) hedit
  simp [Pass.Free, Pass.placedRoot, Pass.empty, Pass.placedHere, Pass.placedInner]

end Select

/-- A program with one fragment goes once to each element that its loops reach. -/
theorem events_of_add {name label : String} {loops : List Loop} {action : F} {program : Program F}
    (h : (add { name } loops .body label action).synthesize = .ok program) (record : Json) :
    program.events record = (record.reach {} loops).map fun cursor => ⟨action, cursor⟩ := by
  have hall : ∀ events : List (Event F), Event.select (fun _ => true) events = events :=
    fun events => List.filter_eq_self.mpr fun _ _ => rfl
  have hconflicts : (assemble name
      ([] ++ ⟨loops, some (.body, ⟨label, action⟩)⟩ :: [])).conflicts = [] :=
    (root_of_synthesize h).1
  have hselect := select_events_assemble (p := fun _ => true) hconflicts rfl
    (List.forall_mem_nil _) record
  rw [hall] at hselect
  exact (events_of_synthesize h record).trans hselect

/-- A finished program goes through a record that stays as it is in the order of
`Pass.eventsRoot`, over all passes of the scaffold. It does all of its events, or those that
there are up to the moment at which the state is settled. An action registered for the
elements of loops is done once at every element that they reach, in ascending order of the
indexes. -/
theorem run_follows_events {σ : Type} {name : String} {registrations : List (Registration F)}
    {program : Program F} (hprogram : (assemble name registrations).synthesize = .ok program)
    {machine : Machine F σ} (hkeeps : machine.KeepsRecord) (state : σ) :
    let record := machine.record state
    let events := (assemble name registrations).root.eventsRoot record
    ((∀ done < events.length,
        machine.isSettled (machine.perform (events.take done) state) = false) →
      program.run machine state = machine.perform events state ∧
        (program.run machine.recording (state, [])).2 = events) ∧
    (∀ done, (∀ fewer < done,
        machine.isSettled (machine.perform (events.take fewer) state) = false) →
      machine.isSettled (machine.perform (events.take done) state) = true →
        program.run machine state = machine.perform (events.take done) state ∧
          (program.run machine.recording (state, [])).2 = events.take done) ∧
    (∀ (p : F → Bool) (front back : List (Registration F)) (loops : List Loop)
        (fragment : Fragment F),
      registrations = front ++ ⟨loops, some (.body, fragment)⟩ :: back →
      p fragment.action = true → (∀ call ∈ front ++ back, call.Avoids p) →
        Event.select p events =
          (record.reach {} loops).map fun element => ⟨fragment.action, element⟩) ∧
    ∀ loops, ((record.reach {} loops).map Cursor.indexes).Pairwise (· < ·) ∧
      ∀ cursor, cursor ∈ record.reach {} loops ↔
        cursor.Fits loops ∧ (record.locate? cursor.element).isSome := by
  intro record events
  have hconflicts := (root_of_synthesize hprogram).1
  have hrun : program.run machine state = machine.performUntil events state := by
    rw [program.run_eq_performUntil hkeeps, events_of_synthesize hprogram]
  have hrecorded : program.run machine.recording (state, []) =
      machine.recording.performUntil events (state, []) := by
    rw [program.run_eq_performUntil hkeeps.recording, events_of_synthesize hprogram]
    rfl
  -- recording the events does not change what they do
  have hsettled : ∀ done, machine.recording.isSettled
      (machine.recording.perform (events.take done) (state, [])) =
        machine.isSettled (machine.perform (events.take done) state) := fun done => by
    rw [Machine.perform_recording]
    rfl
  refine ⟨fun hnever => ?_, fun done hbefore hdone => ?_, ?_, fun loops =>
    ⟨Json.reach_ascending record {} loops, fun cursor => Json.mem_reach_root⟩⟩
  · have hall : machine.recording.performUntil events (state, []) =
        machine.recording.perform events (state, []) :=
      Machine.performUntil_eq_perform events (state, [])
        fun done hdone => (hsettled done).trans (hnever done hdone)
    refine ⟨hrun.trans (Machine.performUntil_eq_perform events state hnever), ?_⟩
    rw [hrecorded, hall, Machine.perform_recording, List.nil_append]
  · have htaken : machine.recording.performUntil events (state, []) =
        machine.recording.perform (events.take done) (state, []) :=
      Machine.performUntil_eq_take
        (fun fewer hfewer => (hsettled fewer).trans (hbefore fewer hfewer))
        ((hsettled done).trans hdone)
    refine ⟨hrun.trans (Machine.performUntil_eq_take hbefore hdone), ?_⟩
    rw [hrecorded, htaken, Machine.perform_recording, List.nil_append]
  · rintro p front back loops fragment rfl hp havoids
    exact select_events_assemble hconflicts hp havoids record

/-! ### Items of carts -/

/-- Calls that register a fragment for the items of carts, one before them, one for carts and
one behind everything; the pass over the gifts of carts stays empty. -/
def cartCalls : List (Registration String) :=
  [⟨[⟨"carts1", ["carts"]⟩, ⟨"items2", ["items"]⟩], some (.body, ⟨"sku", "item"⟩)⟩,
   ⟨[⟨"carts1", ["carts"]⟩, ⟨"gifts3", ["gifts"]⟩], none⟩,
   ⟨[⟨"carts1", ["carts"]⟩, ⟨"items2", ["items"]⟩], some (.pre, ⟨"items-pre", "before"⟩)⟩,
   ⟨[⟨"carts1", ["carts"]⟩], some (.body, ⟨"cart", "cart"⟩)⟩,
   ⟨[], some (.post, ⟨"done", "done"⟩)⟩]

/-- A machine that counts what it does and is settled after five actions. -/
def countToFive (record : Json) : Machine String Nat where
  act _ _ count := count + 1
  record _ := record
  isSettled count := decide (5 ≤ count)

/-- Two carts, the first with two items and the second with none. -/
def twoCarts : Json :=
  .object [("carts", .array
    [.object [("items", .array [.string "a", .string "b"])], .object [("items", .null)]])]

/-- The run over two carts stops behind the list of the second one's items. -/
theorem run_follows_events_carts :
    ∃ program : Program String, (assemble "test" cartCalls).synthesize = .ok program ∧
      (countToFive twoCarts).KeepsRecord ∧
      program.run (countToFive twoCarts) 0 = 5 ∧
      (program.run (countToFive twoCarts).recording (0, [])).2 =
        [⟨"before", ⟨[⟨["carts"], 0⟩]⟩⟩, ⟨"item", ⟨[⟨["carts"], 0⟩, ⟨["items"], 0⟩]⟩⟩,
         ⟨"item", ⟨[⟨["carts"], 0⟩, ⟨["items"], 1⟩]⟩⟩, ⟨"cart", ⟨[⟨["carts"], 0⟩]⟩⟩,
         ⟨"before", ⟨[⟨["carts"], 1⟩]⟩⟩] := by
  have hkeeps : (countToFive twoCarts).KeepsRecord := fun _ _ _ => rfl
  have hprogram : (assemble "test" cartCalls).synthesize = .ok _ := rfl
  obtain ⟨-, hstops, -⟩ := run_follows_events hprogram hkeeps 0
  have hevents : ((assemble "test" cartCalls).root.eventsRoot twoCarts).take 5 =
      [⟨"before", ⟨[⟨["carts"], 0⟩]⟩⟩, ⟨"item", ⟨[⟨["carts"], 0⟩, ⟨["items"], 0⟩]⟩⟩,
       ⟨"item", ⟨[⟨["carts"], 0⟩, ⟨["items"], 1⟩]⟩⟩, ⟨"cart", ⟨[⟨["carts"], 0⟩]⟩⟩,
       ⟨"before", ⟨[⟨["carts"], 1⟩]⟩⟩] := rfl
  obtain ⟨hstate, hnoted⟩ := hstops 5 (by decide) (by decide)
  exact ⟨_, rfl, hkeeps, hstate, hnoted.trans hevents⟩

end Scaffold

end NestedRecord
