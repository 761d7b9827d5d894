import NestedRecord.Proofs.Procedure.Trace

/-!
# Schedules

What a run does can be read off the record in advance when nothing that it does changes the
lists that it goes through.

- `Program.events` are the events of a run, in order, for the sizes that the lists of a
  record have.
- `Program.run_eq_perform`: a run performs these events if an invariant of its actions fixes
  the sizes of the lists.
- `Pass.lists` are the loops of all passes inside a pass.

A run measures its lists as it goes, so in general its events are only known afterwards (`Trace`).
Most procedures do not change the lists that they go through. For them an invariant of the states
says what their sizes are, and the events can be listed from the record at the start; what is in
between is the same record for the purpose of going through it.
-/

namespace NestedRecord

namespace Pass

variable {F : Type}

/-- The events of fragments at a cursor. -/
def eventsHere (cursor : Cursor) (fragments : List (Fragment F)) : List (Event F) :=
  fragments.map fun fragment => ⟨fragment.action, cursor⟩

mutual

/-- The events of a pass over the list of a loop, with the sizes of a record's lists. -/
def events (record : Json) (cursor : Cursor) (loop : Loop) : Pass F → List (Event F)
  | .mk pre body post inner =>
    let visit (index : Nat) : List (Event F) :=
      let element := cursor.enter loop.access index
      eventsInner record element inner ++ eventsHere element body
    eventsHere cursor pre ++
      (List.range (record.sizeAt (cursor.below loop.access))).flatMap visit ++
        eventsHere cursor post
termination_by structural pass => pass

/-- The events of passes over lists. -/
def eventsInner (record : Json) (cursor : Cursor) : List (Loop × Pass F) → List (Event F)
  | [] => []
  | (loop, pass) :: rest => events record cursor loop pass ++ eventsInner record cursor rest
termination_by structural inner => inner

end

/-- The events of the pass over the record as a whole. -/
def eventsRoot (record : Json) : Pass F → List (Event F)
  | .mk pre body post inner =>
    eventsHere {} pre ++ eventsInner record {} inner ++ eventsHere {} body ++ eventsHere {} post

mutual

/-- The loops to the lists of a pass and of the passes inside it. -/
def lists (loop : Loop) : Pass F → List (List Loop)
  | .mk _ _ _ inner => [loop] :: (listsInner inner).map (loop :: ·)
termination_by structural pass => pass

/-- The loops to the lists of passes. -/
def listsInner : List (Loop × Pass F) → List (List Loop)
  | [] => []
  | (loop, pass) :: rest => lists loop pass ++ listsInner rest
termination_by structural inner => inner

end

/-- Fragments are done where they stand. -/
theorem mem_eventsHere {cursor : Cursor} {fragments : List (Fragment F)} {event : Event F} :
    event ∈ eventsHere cursor fragments ↔
      ([], event.action) ∈ placedHere fragments ∧ event.cursor = cursor := by
  obtain ⟨action, other⟩ := event
  simp only [eventsHere, placedHere, List.mem_map, Event.mk.injEq, Prod.mk.injEq, true_and]
  constructor
  · rintro ⟨fragment, hmem, haction, hcursor⟩
    exact ⟨⟨fragment, hmem, haction⟩, hcursor.symm⟩
  · rintro ⟨⟨fragment, hmem, haction⟩, hcursor⟩
    exact ⟨fragment, hmem, haction, hcursor.symm⟩

theorem placed_of_mem_eventsHere {cursor : Cursor} {fragments : List (Fragment F)}
    {event : Event F} (h : event ∈ eventsHere cursor fragments) :
    ∃ loops, (loops, event.action) ∈ placedHere fragments ∧ event.cursor.Under cursor loops := by
  obtain ⟨hplaced, hcursor⟩ := mem_eventsHere.mp h
  exact ⟨[], hplaced, Cursor.under_nil.mpr hcursor⟩

mutual

/-- The events of a pass are actions placed there. -/
theorem placed_of_mem_events {record : Json} {cursor : Cursor} {loop : Loop} :
    ∀ {pass : Pass F} {event : Event F}, event ∈ events record cursor loop pass →
      ∃ loops, (loops, event.action) ∈ placed loop pass ∧ event.cursor.Under cursor loops
  | .mk pre body post inner, event, hevent => by
    simp only [events, List.mem_append, List.mem_flatMap] at hevent
    simp only [placed, List.mem_append]
    rcases hevent with (hpre | ⟨index, -, hinner | hbody⟩) | hpost
    · obtain ⟨loops, hplaced, hunder⟩ := placed_of_mem_eventsHere hpre
      exact ⟨loops, .inl (.inl hplaced), hunder⟩
    · obtain ⟨loops, hplaced, hunder⟩ := placed_of_mem_eventsInner hinner
      exact ⟨loop :: loops,
        .inl (.inr (List.mem_map.mpr ⟨_, List.mem_append_left _ hplaced, rfl⟩)),
        Cursor.under_cons.mpr ⟨index, hunder⟩⟩
    · obtain ⟨loops, hplaced, hunder⟩ := placed_of_mem_eventsHere hbody
      exact ⟨loop :: loops,
        .inl (.inr (List.mem_map.mpr ⟨_, List.mem_append_right _ hplaced, rfl⟩)),
        Cursor.under_cons.mpr ⟨index, hunder⟩⟩
    · obtain ⟨loops, hplaced, hunder⟩ := placed_of_mem_eventsHere hpost
      exact ⟨loops, .inr hplaced, hunder⟩
termination_by structural pass => pass

/-- The events below a pass are actions placed there. -/
theorem placed_of_mem_eventsInner {record : Json} {cursor : Cursor} :
    ∀ {inner : List (Loop × Pass F)} {event : Event F},
      event ∈ eventsInner record cursor inner →
        ∃ loops, (loops, event.action) ∈ placedInner inner ∧ event.cursor.Under cursor loops
  | [], event, hevent => by simp [eventsInner] at hevent
  | (loop, pass) :: rest, event, hevent => by
    rw [eventsInner, List.mem_append] at hevent
    rcases hevent with hfirst | hrest
    · obtain ⟨loops, hplaced, hunder⟩ := placed_of_mem_events hfirst
      exact ⟨loops, List.mem_append_left _ hplaced, hunder⟩
    · obtain ⟨loops, hplaced, hunder⟩ := placed_of_mem_eventsInner hrest
      exact ⟨loops, List.mem_append_right _ hplaced, hunder⟩
termination_by structural inner => inner

end

end Pass

namespace Machine

variable {F σ : Type} {machine : Machine F σ} {Inv : σ → Prop} {record : Json}

/-- Actions that keep an invariant keep it over any number of events. -/
theorem perform_induction (machine : Machine F σ) (Inv : σ → Prop) {events : List (Event F)}
    (hact : ∀ event ∈ events, ∀ state, Inv state →
      Inv (machine.act event.action event.cursor state)) {state : σ} (h : Inv state) :
    Inv (machine.perform events state) := by
  induction events generalizing state with
  | nil => exact h
  | cons event rest ih =>
    exact ih (fun event' hevent' => hact event' (List.mem_cons_of_mem _ hevent'))
      (hact event List.mem_cons_self state h)

/-- A trace leads from one property to another: one of its events turns the first into the second,
its events keep the first until then, and all of them keep the second. -/
theorem perform_of_mem (machine : Machine F σ) (Before After : σ → Prop) {events : List (Event F)}
    {turn : Event F} (hturn : turn ∈ events)
    (hreach : ∀ state, Before state → After (machine.act turn.action turn.cursor state))
    (hbefore : ∀ event ∈ events, event ≠ turn → ∀ state, Before state →
      Before (machine.act event.action event.cursor state))
    (hafter : ∀ event ∈ events, ∀ state, After state →
      After (machine.act event.action event.cursor state)) {state : σ} (h : Before state) :
    After (machine.perform events state) := by
  induction events generalizing state with
  | nil => cases hturn
  | cons event rest ih =>
    have hkept : ∀ event' ∈ rest, ∀ state, After state →
        After (machine.act event'.action event'.cursor state) :=
      fun event' hevent' => hafter event' (List.mem_cons_of_mem _ hevent')
    by_cases hself : event = turn
    · subst hself
      exact perform_induction machine After hkept (hreach state h)
    · exact ih ((List.mem_cons.mp hturn).resolve_left fun heq => hself heq.symm)
        (fun event' hevent' => hbefore event' (List.mem_cons_of_mem _ hevent')) hkept
        (hbefore event List.mem_cons_self hself state h)

/-- Fragments are performed where they stand. -/
theorem runFragments_eq_perform (hsettled : ∀ state, machine.isSettled state = false)
    (cursor : Cursor) (fragments : List (Fragment F)) (state : σ) :
    machine.runFragments cursor fragments state =
      machine.perform (Pass.eventsHere cursor fragments) state := by
  induction fragments generalizing state with
  | nil => rfl
  | cons fragment rest ih =>
    rw [runFragments, hsettled]
    exact ih _

/-- A list that keeps its size is gone through from one end to the other. -/
theorem iterate_eq_perform {size : Nat} {visit : Nat → σ → σ}
    {events : Nat → List (Event F)} {measure : σ → Nat}
    (hmeasure : ∀ state, Inv state → measure state = size)
    (hvisit : ∀ index state, index < size → Inv state →
      visit index state = machine.perform (events index) state ∧
        Inv (machine.perform (events index) state)) :
    ∀ (fuel index : Nat) (state : σ), index + fuel = size → Inv state →
      iterate (fun index state =>
        if measure state ≤ index then none else some (visit index state)) fuel index state =
          machine.perform ((List.range' index fuel).flatMap events) state ∧
      Inv (machine.perform ((List.range' index fuel).flatMap events) state)
  | 0, _, _, _, hinv => ⟨rfl, hinv⟩
  | fuel + 1, index, state, hsize, hinv => by
    have hlonger : ¬ measure state ≤ index := by
      rw [hmeasure state hinv]
      omega
    obtain ⟨heq, hinv'⟩ := hvisit index state (by omega) hinv
    obtain ⟨hrest, hinv''⟩ := iterate_eq_perform hmeasure hvisit fuel (index + 1)
      (machine.perform (events index) state) (by omega) hinv'
    rw [List.range'_succ, List.flatMap_cons, perform_append]
    refine ⟨?_, hinv''⟩
    rw [← hrest]
    simp [iterate, hlonger, heq]

/-- Placed actions keep an invariant at the elements that their loops lead to. -/
def Preserves (machine : Machine F σ) (Inv : σ → Prop) (cursor : Cursor)
    (placed : List (List Loop × F)) : Prop :=
  ∀ loops action, (loops, action) ∈ placed → ∀ inner : Cursor, inner.Under cursor loops →
    ∀ state, Inv state → Inv (machine.act action inner state)

/-- An invariant fixes the sizes of lists: they have those that they have in a record. -/
def Sized (machine : Machine F σ) (Inv : σ → Prop) (record : Json) (cursor : Cursor)
    (lists : List (List Loop)) : Prop :=
  ∀ front last, front ++ [last] ∈ lists → ∀ inner : Cursor, inner.Under cursor front →
    ∀ state, Inv state → machine.size inner last state = record.sizeAt (inner.below last.access)

section Invariant

variable {cursor : Cursor} {loop : Loop} {placed placed' : List (List Loop × F)}
  {lists lists' : List (List Loop)}

theorem Preserves.mono (h : machine.Preserves Inv cursor placed) (hsub : placed' ⊆ placed) :
    machine.Preserves Inv cursor placed' :=
  fun loops action hplaced => h loops action (hsub hplaced)

/-- Actions inside a list keep the invariant at each of its elements. -/
theorem Preserves.below (h : machine.Preserves Inv cursor (Pass.placedBelow loop placed))
    (index : Nat) : machine.Preserves Inv (cursor.enter loop.access index) placed :=
  fun loops action hplaced inner hunder => h (loop :: loops) action
    (List.mem_map.mpr ⟨_, hplaced, rfl⟩) inner (Cursor.under_cons.mpr ⟨index, hunder⟩)

/-- Events that are placed actions keep the invariant. -/
theorem Preserves.perform (h : machine.Preserves Inv cursor placed) {events : List (Event F)}
    (hevents : ∀ {event}, event ∈ events →
      ∃ loops, (loops, event.action) ∈ placed ∧ event.cursor.Under cursor loops)
    {state : σ} (hinv : Inv state) : Inv (machine.perform events state) := by
  refine perform_induction machine Inv (fun event hevent => ?_) hinv
  obtain ⟨loops, hplaced, hunder⟩ := hevents hevent
  exact h loops event.action hplaced event.cursor hunder

theorem Sized.mono (h : machine.Sized Inv record cursor lists) (hsub : lists' ⊆ lists) :
    machine.Sized Inv record cursor lists' :=
  fun front last hmem => h front last (hsub hmem)

theorem Sized.below (h : machine.Sized Inv record cursor (lists.map (loop :: ·))) (index : Nat) :
    machine.Sized Inv record (cursor.enter loop.access index) lists :=
  fun front last hmem inner hunder => h (loop :: front) last (List.mem_map.mpr ⟨_, hmem, rfl⟩) inner
    (Cursor.under_cons.mpr ⟨index, hunder⟩)

end Invariant

mutual

/-- A pass over lists that keep their sizes performs its events. -/
theorem runPass_eq_perform (hsettled : ∀ state, machine.isSettled state = false)
    (cursor : Cursor) (loop : Loop) :
    ∀ (pass : Pass F), machine.Preserves Inv cursor (pass.placed loop) →
      machine.Sized Inv record cursor (pass.lists loop) → ∀ state, Inv state →
        machine.runPass cursor loop pass state =
          machine.perform (pass.events record cursor loop) state
  | .mk pre body post inner, hkeeps, hsized, state, hinv => by
    have hpre : Inv (machine.perform (Pass.eventsHere cursor pre) state) := by
      have hkeepsPre : machine.Preserves Inv cursor (Pass.placedHere pre) :=
        hkeeps.mono fun entry hentry => by simp [Pass.placed, hentry]
      exact hkeepsPre.perform Pass.placed_of_mem_eventsHere hinv
    have hmeasure : ∀ state, Inv state →
        machine.size cursor loop state = record.sizeAt (cursor.below loop.access) :=
      hsized [] loop List.mem_cons_self cursor (Cursor.under_nil.mpr rfl)
    -- one element: its inner passes and its body, with the invariant kept for the next element
    have hvisit : ∀ index state, index < record.sizeAt (cursor.below loop.access) → Inv state →
        machine.runFragments (cursor.enter loop.access index) body
          (machine.runInner (cursor.enter loop.access index) inner state) =
            machine.perform (Pass.eventsInner record (cursor.enter loop.access index) inner ++
              Pass.eventsHere (cursor.enter loop.access index) body) state ∧
        Inv (machine.perform (Pass.eventsInner record (cursor.enter loop.access index) inner ++
          Pass.eventsHere (cursor.enter loop.access index) body) state) := by
      intro index state _ hinv
      have hbelow : machine.Preserves Inv (cursor.enter loop.access index)
          (Pass.placedInner inner ++ Pass.placedHere body) :=
        (hkeeps.mono fun entry hentry =>
          List.mem_append_left _ (List.mem_append_right _ hentry)).below index
      have hinner := hbelow.mono (List.subset_append_left _ _)
      rw [perform_append]
      constructor
      · rw [runInner_eq_perform hsettled (cursor.enter loop.access index) inner hinner
          ((hsized.mono fun _ => List.mem_cons_of_mem _).below index) state hinv,
          runFragments_eq_perform hsettled]
      · exact (hbelow.mono (List.subset_append_right _ _)).perform Pass.placed_of_mem_eventsHere
          (hinner.perform Pass.placed_of_mem_eventsInner hinv)
    obtain ⟨hvisits, -⟩ := iterate_eq_perform hmeasure hvisit
      (record.sizeAt (cursor.below loop.access)) 0 _ (Nat.zero_add _) hpre
    rw [runPass, runFragments_eq_perform hsettled, runFragments_eq_perform hsettled]
    simp only [hsettled, Bool.false_or, decide_eq_true_eq]
    rw [hmeasure _ hpre, hvisits, Pass.events, perform_append, perform_append, List.range_eq_range']
termination_by structural pass => pass

/-- Passes over lists that keep their sizes perform their events. -/
theorem runInner_eq_perform (hsettled : ∀ state, machine.isSettled state = false)
    (cursor : Cursor) :
    ∀ (inner : List (Loop × Pass F)), machine.Preserves Inv cursor (Pass.placedInner inner) →
      machine.Sized Inv record cursor (Pass.listsInner inner) → ∀ state, Inv state →
        machine.runInner cursor inner state =
          machine.perform (Pass.eventsInner record cursor inner) state
  | [], _, _, _, _ => rfl
  | (loop, pass) :: rest, hkeeps, hsized, state, hinv => by
    have hfirst := hkeeps.mono (List.subset_append_left _ _)
    rw [runInner, runPass_eq_perform hsettled cursor loop pass hfirst
      (hsized.mono (List.subset_append_left _ _)) state hinv, Pass.eventsInner, perform_append]
    exact runInner_eq_perform hsettled cursor rest (hkeeps.mono (List.subset_append_right _ _))
      (hsized.mono (List.subset_append_right _ _)) _
      (hfirst.perform Pass.placed_of_mem_events hinv)
termination_by structural inner => inner

end

end Machine

namespace Program

variable {F σ : Type}

/-- The events of a program, with the sizes of a record's lists. -/
def events (record : Json) (program : Program F) : List (Event F) :=
  program.root.eventsRoot record

/-- Every event is a placed action at an element that its loops lead to. -/
theorem placed_of_mem_events {record : Json} {program : Program F} {event : Event F}
    (h : event ∈ program.events record) :
    ∃ loops, (loops, event.action) ∈ program.placed ∧ event.cursor.Fits loops := by
  obtain ⟨name, ⟨pre, body, post, inner⟩, plan⟩ := program
  have hhere : ∀ fragments : List (Fragment F), event ∈ Pass.eventsHere {} fragments →
      ([], event.action) ∈ Pass.placedHere fragments ∧ event.cursor.Fits [] := by
    intro fragments hevent
    obtain ⟨hplaced, hcursor⟩ := Pass.mem_eventsHere.mp hevent
    exact ⟨hplaced, hcursor ▸ rfl⟩
  simp only [events, Pass.eventsRoot, List.mem_append] at h
  simp only [placed, Pass.placedRoot, List.mem_append]
  rcases h with ((hpre | hinner) | hbody) | hpost
  · exact ⟨[], .inl (.inl (.inl (hhere pre hpre).1)), (hhere pre hpre).2⟩
  · obtain ⟨loops, hplaced, hunder⟩ := Pass.placed_of_mem_eventsInner hinner
    exact ⟨loops, .inl (.inl (.inr hplaced)), Cursor.fits_iff_under_root.mpr hunder⟩
  · exact ⟨[], .inl (.inr (hhere body hbody).1), (hhere body hbody).2⟩
  · exact ⟨[], .inr (hhere post hpost).1, (hhere post hpost).2⟩

/-- A run performs the events of a record if an invariant of its actions fixes the sizes of
the lists that it goes through. -/
theorem run_eq_perform (program : Program F) (machine : Machine F σ) (Inv : σ → Prop)
    {record : Json} (hsettled : ∀ state, machine.isSettled state = false)
    (hact : ∀ loops action, (loops, action) ∈ program.placed → ∀ cursor : Cursor,
      cursor.Fits loops → ∀ state, Inv state → Inv (machine.act action cursor state))
    (hsize : ∀ front last, front ++ [last] ∈ Pass.listsInner program.root.inner →
      ∀ cursor : Cursor, cursor.Fits front → ∀ state, Inv state →
        machine.size cursor last state = record.sizeAt (cursor.below last.access))
    {state : σ} (hinv : Inv state) :
    program.run machine state = machine.perform (program.events record) state ∧
      Inv (machine.perform (program.events record) state) := by
  have hkeeps : machine.Preserves Inv {} program.placed :=
    fun loops action hplaced cursor hunder =>
      hact loops action hplaced cursor (Cursor.fits_iff_under_root.mpr hunder)
  refine ⟨?_, hkeeps.perform (fun hevent => ?_) hinv⟩
  · obtain ⟨name, ⟨pre, body, post, inner⟩, plan⟩ := program
    have hpre : machine.Preserves Inv {} (Pass.placedHere pre) :=
      hkeeps.mono fun entry hentry => by simp [Program.placed, Pass.placedRoot, hentry]
    -- the inner passes start from what the fragments in front have made
    have hinner := Machine.runInner_eq_perform hsettled {} inner
      (hkeeps.mono fun entry hentry => by simp [Program.placed, Pass.placedRoot, hentry])
      (fun front last hmem cursor hunder => hsize front last hmem cursor
        (Cursor.fits_iff_under_root.mpr hunder)) _
      (hpre.perform Pass.placed_of_mem_eventsHere hinv)
    show machine.runFragments {} post (machine.runFragments {} body
      (machine.runInner {} inner (machine.runFragments {} pre state))) = _
    simp only [Machine.runFragments_eq_perform hsettled, events, Pass.eventsRoot,
      Machine.perform_append]
    rw [hinner]
  · obtain ⟨loops, hplaced, hfits⟩ := placed_of_mem_events hevent
    exact ⟨loops, hplaced, Cursor.fits_iff_under_root.mp hfits⟩

end Program

end NestedRecord
