import NestedRecord.Proofs.Procedure.Reach

/-!
# Traces of runs

A run does one thing after the other, each at a cursor. Which things these are depends on
the record while it changes, because lists are measured when they are entered. What holds of
every run is said here of its trace.

- `Pass.placed` lists the actions of a pass with the loops to the elements at which they are
  done.
- `Machine.perform` does the events of a trace in order.
- `Machine.Traced` says of a trace that each of its events is a placed action at an element
  that the action's loops lead to, that no element gets an action more often than it is placed
  there, and that every element gets it unless it is missing at some moment of the run.
- `Program.exists_trace`: every run of a machine that never settles performs such a trace.

A trace is sound, complete up to elements that are missing at some moment, and does nothing twice.
The three are proved together, because each is kept when traces are put one behind the other and
each list is gone through by an induction on the elements that are left. An element that is there
during the whole run has to be reached although lists are measured anew: a list is as long as the
number of an element in it asks for.
-/

namespace NestedRecord

/-- An action done at a cursor. -/
structure Event (F : Type) where
  action : F
  cursor : Cursor

namespace Pass

variable {F : Type}

/-- The actions of fragments, at the element where the fragments stand. -/
def placedHere (fragments : List (Fragment F)) : List (List Loop × F) :=
  fragments.map fun fragment => ([], fragment.action)

/-- Actions placed below the elements of a loop's list. -/
def placedBelow (loop : Loop) (placed : List (List Loop × F)) : List (List Loop × F) :=
  placed.map fun (loops, action) => (loop :: loops, action)

mutual

/-- The actions of a pass over the list of a loop. What stands before and after the pass is
done at the element that holds the list. -/
def placed (loop : Loop) : Pass F → List (List Loop × F)
  | .mk pre body post inner =>
    placedHere pre ++ placedBelow loop (placedInner inner ++ placedHere body) ++ placedHere post
termination_by structural pass => pass

/-- The actions of passes over lists. -/
def placedInner : List (Loop × Pass F) → List (List Loop × F)
  | [] => []
  | (loop, pass) :: rest => placed loop pass ++ placedInner rest
termination_by structural inner => inner

end

/-- The actions of the pass over the record as a whole. -/
def placedRoot : Pass F → List (List Loop × F)
  | .mk pre body post inner =>
    placedHere pre ++ placedInner inner ++ placedHere body ++ placedHere post

end Pass

namespace Machine

variable {F σ : Type} (machine : Machine F σ)

/-- Does events one after the other. -/
def perform (events : List (Event F)) (state : σ) : σ :=
  events.foldl (fun state event => machine.act event.action event.cursor state) state

@[simp] theorem perform_nil (state : σ) : machine.perform [] state = state := rfl

theorem perform_append (front back : List (Event F)) (state : σ) :
    machine.perform (front ++ back) state = machine.perform back (machine.perform front state) :=
  List.foldl_append

/-- Whether the element of a cursor is there in the record of a state. -/
def Has (cursor : Cursor) (state : σ) : Prop :=
  ((machine.record state).locate? cursor.element).isSome

theorem size_eq_sizeAt (cursor : Cursor) (loop : Loop) (state : σ) :
    machine.size cursor loop state =
      (machine.record state).sizeAt (cursor.below loop.access) := by
  unfold size Cursor.get?
  rw [Cursor.getAt?_eq_locate?, Cursor.place_depth]
  rfl

/-- A list is longer than the number of an element below which something is there. -/
theorem Has.lt_size {machine : Machine F σ} {cursor inner : Cursor} {loop : Loop}
    {loops : List Loop} {index : Nat} {state : σ} (h : machine.Has inner state)
    (hunder : inner.Under (cursor.enter loop.access index) loops) :
    index < machine.size cursor loop state := by
  obtain ⟨tail, htail⟩ := Cursor.element_above hunder.entered_above
  unfold Has at h
  rw [← htail] at h
  have helement := Json.locate?_isSome_of_append h
  rw [Cursor.element_enter, Json.isSome_locate?_index] at helement
  rw [size_eq_sizeAt]
  exact helement

/-- What is known of a trace of placed actions, from an element and a state on. -/
structure Traced (placed : List (List Loop × F)) (cursor : Cursor) (events : List (Event F))
    (state : σ) : Prop where
  /-- every event is a placed action at an element that its loops lead to -/
  sound : ∀ event ∈ events, ∃ loops, (loops, event.action) ∈ placed ∧
    event.cursor.Under cursor loops
  /-- actions of one sort are done at an element as often as they are placed there at most -/
  once : ∀ (sort : F → Bool) (inner : Cursor),
    events.countP (fun event => decide (event.cursor = inner) && sort event.action) ≤
      placed.countP fun entry => decide (inner.Under cursor entry.1) && sort entry.2
  /-- every action is done at every element that is there throughout -/
  complete : ∀ loops action, (loops, action) ∈ placed → ∀ inner : Cursor,
    inner.Under cursor loops →
      (∀ front, front <+: events → machine.Has inner (machine.perform front state)) →
        ⟨action, inner⟩ ∈ events

variable {machine} {placed placed' : List (List Loop × F)} {cursor : Cursor}
  {events events' : List (Event F)} {state : σ}

/-- What no event changes, a trace does not change. -/
theorem perform_congr (machine : Machine F σ) {α : Type} (observe : σ → α)
    (h : ∀ event ∈ events, ∀ state,
      observe (machine.act event.action event.cursor state) = observe state) (state : σ) :
    observe (machine.perform events state) = observe state := by
  induction events generalizing state with
  | nil => rfl
  | cons event rest ih =>
    refine (ih (fun other hother => h other (List.mem_cons_of_mem _ hother)) _).trans ?_
    exact h event List.mem_cons_self state

/-- What one event of a trace changes alone is what that event makes of it. -/
theorem perform_of_others (machine : Machine F σ) {α : Type} (observe : σ → α) {event : Event F}
    {front back : List (Event F)}
    (h : ∀ other ∈ front ++ back, ∀ state,
      observe (machine.act other.action other.cursor state) = observe state) (state : σ) :
    observe (machine.perform front state) = observe state ∧
      observe (machine.perform (front ++ event :: back) state) =
        observe (machine.act event.action event.cursor (machine.perform front state)) := by
  rw [perform_append]
  exact ⟨perform_congr machine observe
      (fun other hother => h other (List.mem_append_left _ hother)) state,
    perform_congr machine observe
      (fun other hother => h other (List.mem_append_right _ hother)) _⟩

/-- Among events that do actions of one sort at an element once, no other one does so. -/
theorem exists_split_of_countP_le (sort : F → Bool) {action : F} {inner : Cursor}
    (hsort : sort action = true) (hevent : ⟨action, inner⟩ ∈ events)
    (honce : events.countP
      (fun event => decide (event.cursor = inner) && sort event.action) ≤ 1) :
    ∃ front back, events = front ++ ⟨action, inner⟩ :: back ∧
      ∀ event ∈ front ++ back,
        event ∈ events ∧ (event.cursor = inner → sort event.action = false) := by
  obtain ⟨front, back, hsplit⟩ := List.append_of_mem hevent
  refine ⟨front, back, hsplit, fun event hmem => ⟨?_, fun hcursor => ?_⟩⟩
  · rw [hsplit, List.mem_append, List.mem_cons]
    exact (List.mem_append.mp hmem).imp_right .inr
  rw [hsplit, List.countP_append, List.countP_cons_of_pos (by simpa using hsort)] at honce
  have hzero : (front ++ back).countP
      (fun event => decide (event.cursor = inner) && sort event.action) = 0 := by
    rw [List.countP_append]
    omega
  simpa [hcursor] using List.countP_eq_zero.mp hzero event hmem

/-- A placed action that is the only one of its sort at an element is done there once. -/
theorem Traced.exists_split (h : machine.Traced placed cursor events state) (sort : F → Bool)
    {action : F} {inner : Cursor} (hsort : sort action = true) (hevent : ⟨action, inner⟩ ∈ events)
    (honce : placed.countP
      (fun entry => decide (inner.Under cursor entry.1) && sort entry.2) ≤ 1) :
    ∃ front back, events = front ++ ⟨action, inner⟩ :: back ∧
      ∀ event ∈ front ++ back,
        event ∈ events ∧ (event.cursor = inner → sort event.action = false) :=
  exists_split_of_countP_le sort hsort hevent (Nat.le_trans (h.once sort inner) honce)

/-- Traces follow one another. -/
theorem Traced.append (h : machine.Traced placed cursor events state)
    (h' : machine.Traced placed' cursor events' (machine.perform events state)) :
    machine.Traced (placed ++ placed') cursor (events ++ events') state where
  sound event hevent := by
    rcases List.mem_append.mp hevent with hevent | hevent
    · obtain ⟨loops, hplaced, hunder⟩ := h.sound event hevent
      exact ⟨loops, List.mem_append_left _ hplaced, hunder⟩
    · obtain ⟨loops, hplaced, hunder⟩ := h'.sound event hevent
      exact ⟨loops, List.mem_append_right _ hplaced, hunder⟩
  once sort inner := by
    rw [List.countP_append, List.countP_append]
    exact Nat.add_le_add (h.once sort inner) (h'.once sort inner)
  complete loops action hplaced inner hunder hhas := by
    rcases List.mem_append.mp hplaced with hplaced | hplaced
    · exact List.mem_append_left _ (h.complete loops action hplaced inner hunder
        fun front hfront => hhas front (hfront.trans (List.prefix_append ..)))
    · -- what is there all the time is there during the second part
      refine List.mem_append_right _ (h'.complete loops action hplaced inner hunder ?_)
      intro front hfront
      rw [← perform_append]
      exact hhas (events ++ front) ((List.prefix_append_right_inj events).mpr hfront)

/-- Fragments are done where they stand. -/
theorem exists_trace_fragments (hsettled : ∀ state, machine.isSettled state = false)
    (cursor : Cursor) (fragments : List (Fragment F)) (state : σ) :
    ∃ events, machine.runFragments cursor fragments state = machine.perform events state ∧
      machine.Traced (Pass.placedHere fragments) cursor events state := by
  induction fragments generalizing state with
  | nil =>
    refine ⟨[], rfl, ⟨by simp, by simp, ?_⟩⟩
    simp [Pass.placedHere]
  | cons fragment rest ih =>
    obtain ⟨events, hrun, htraced⟩ := ih (machine.act fragment.action cursor state)
    have hfirst : machine.Traced [([], fragment.action)] cursor [⟨fragment.action, cursor⟩]
        state := by
      refine ⟨?_, ?_, ?_⟩
      · intro event hevent
        rw [List.mem_singleton.mp hevent]
        exact ⟨[], List.mem_singleton_self _, Cursor.under_nil.mpr rfl⟩
      · intro sort inner
        by_cases hhere : cursor = inner
        · simp [List.countP_cons, Cursor.under_nil, hhere]
        · simp [List.countP_cons, hhere]
      · intro loops action hplaced inner hunder _
        obtain ⟨rfl, rfl⟩ := Prod.mk.inj (List.mem_singleton.mp hplaced)
        exact Cursor.under_nil.mp hunder ▸ List.mem_singleton_self _
    refine ⟨⟨fragment.action, cursor⟩ :: events, ?_, hfirst.append htraced⟩
    rw [runFragments, hsettled]
    exact hrun

/-! ## Visits to the elements of a list -/

/-- What is known of a trace of visits to so many elements of a list, from a number on. -/
structure TracedFrom (machine : Machine F σ) (placed : List (List Loop × F)) (cursor : Cursor)
    (loop : Loop) (index fuel : Nat) (events : List (Event F)) (state : σ) : Prop where
  sound : ∀ event ∈ events, ∃ i loops, index ≤ i ∧ (loops, event.action) ∈ placed ∧
    event.cursor.Under (cursor.enter loop.access i) loops
  once : ∀ (sort : F → Bool) (inner : Cursor),
    events.countP (fun event => decide (event.cursor = inner) && sort event.action) ≤
      placed.countP fun entry => decide (inner.Under cursor (loop :: entry.1)) && sort entry.2
  complete : ∀ loops action, (loops, action) ∈ placed → ∀ i, index ≤ i → i < index + fuel →
    ∀ inner : Cursor, inner.Under (cursor.enter loop.access i) loops →
      (∀ front, front <+: events → machine.Has inner (machine.perform front state)) →
        ⟨action, inner⟩ ∈ events

variable {loop : Loop} {index fuel : Nat}

/-- No visits are left, or the list has become too short: no later element is there any more. -/
theorem TracedFrom.nil (h : fuel = 0 ∨ machine.size cursor loop state ≤ index) :
    machine.TracedFrom placed cursor loop index fuel [] state where
  sound := by simp
  once := by simp
  complete loops action _ i hi hi' inner hunder hhas := by
    have hlonger := (hhas [] List.nil_prefix).lt_size hunder
    rw [perform_nil] at hlonger
    omega

/-- A trace has its events at and below its element. -/
theorem Traced.countP_eq_zero (h : machine.Traced placed cursor events state) {inner : Cursor}
    (hnot : ¬ cursor.entered <+: inner.entered) (sort : F → Bool) :
    events.countP (fun event => decide (event.cursor = inner) && sort event.action) = 0 := by
  refine List.countP_eq_zero.mpr fun event hevent hcounts => hnot ?_
  obtain ⟨loops, -, hunder⟩ := h.sound event hevent
  obtain ⟨rfl, -⟩ : event.cursor = inner ∧ _ := by simpa using hcounts
  exact hunder.entered_above

/-- Later visits have no events at and below an earlier element. -/
theorem TracedFrom.countP_eq_zero
    (h : machine.TracedFrom placed cursor loop index fuel events state) {inner : Cursor} {i : Nat}
    (hi : i < index) (habove : (cursor.enter loop.access i).entered <+: inner.entered)
    (sort : F → Bool) :
    events.countP (fun event => decide (event.cursor = inner) && sort event.action) = 0 := by
  refine List.countP_eq_zero.mpr fun event hevent hcounts => ?_
  obtain ⟨j, loops, hj, -, hunder⟩ := h.sound event hevent
  obtain ⟨rfl, -⟩ : event.cursor = inner ∧ _ := by simpa using hcounts
  have heq : i = j := Cursor.index_eq_of_above habove hunder.entered_above
  omega

/-- A visit goes before the visits to the later elements. -/
theorem TracedFrom.cons
    (h : machine.Traced placed (cursor.enter loop.access index) events state)
    (h' : machine.TracedFrom placed cursor loop (index + 1) fuel events'
      (machine.perform events state)) :
    machine.TracedFrom placed cursor loop index (fuel + 1) (events ++ events') state where
  sound event hevent := by
    rcases List.mem_append.mp hevent with hevent | hevent
    · obtain ⟨loops, hplaced, hunder⟩ := h.sound event hevent
      exact ⟨index, loops, Nat.le_refl _, hplaced, hunder⟩
    · obtain ⟨i, loops, hi, hplaced, hunder⟩ := h'.sound event hevent
      exact ⟨i, loops, Nat.le_of_succ_le hi, hplaced, hunder⟩
  once sort inner := by
    rw [List.countP_append]
    -- an element lies below one element of the list, so one of the two parts has none
    by_cases hhere : (cursor.enter loop.access index).entered <+: inner.entered
    · rw [h'.countP_eq_zero (Nat.lt_succ_self index) hhere, Nat.add_zero]
      refine Nat.le_trans (h.once sort inner) (List.countP_mono_left fun entry _ hcounts => ?_)
      simp only [Bool.and_eq_true, decide_eq_true_eq] at hcounts ⊢
      exact ⟨Cursor.under_cons.mpr ⟨index, hcounts.1⟩, hcounts.2⟩
    · rw [h.countP_eq_zero hhere, Nat.zero_add]
      exact h'.once sort inner
  complete loops action hplaced i hi hi' inner hunder hhas := by
    rcases Nat.eq_or_lt_of_le hi with rfl | hlater
    · exact List.mem_append_left _ (h.complete loops action hplaced inner hunder
        fun front hfront => hhas front (hfront.trans (List.prefix_append ..)))
    · refine List.mem_append_right _
        (h'.complete loops action hplaced i hlater (by omega) inner hunder ?_)
      intro front hfront
      rw [← perform_append]
      exact hhas (events ++ front) ((List.prefix_append_right_inj events).mpr hfront)

/-- Visits to all elements that a list has at first. -/
theorem TracedFrom.traced
    (h : machine.TracedFrom placed cursor loop 0 (machine.size cursor loop state) events state) :
    machine.Traced (Pass.placedBelow loop placed) cursor events state where
  sound event hevent := by
    obtain ⟨i, loops, -, hplaced, hunder⟩ := h.sound event hevent
    exact ⟨loop :: loops, List.mem_map.mpr ⟨_, hplaced, rfl⟩, Cursor.under_cons.mpr ⟨i, hunder⟩⟩
  once sort inner := by
    rw [Pass.placedBelow, List.countP_map]
    exact h.once sort inner
  complete loops action hplaced inner hunder hhas := by
    obtain ⟨⟨loops', action'⟩, hplaced', heq⟩ := List.mem_map.mp hplaced
    obtain ⟨rfl, rfl⟩ := Prod.mk.inj heq
    obtain ⟨i, hunder⟩ := Cursor.under_cons.mp hunder
    refine h.complete loops' action' hplaced' i (Nat.zero_le _) ?_ inner hunder hhas
    rw [Nat.zero_add]
    exact (hhas [] List.nil_prefix).lt_size hunder

/-- Going through a list leaves a trace of visits. -/
theorem exists_trace_iterate {visit : Nat → σ → σ}
    (hvisit : ∀ index state, ∃ events, visit index state = machine.perform events state ∧
      machine.Traced placed (cursor.enter loop.access index) events state) :
    ∀ (fuel index : Nat) (state : σ), ∃ events,
      iterate (fun index state =>
        if machine.size cursor loop state ≤ index then none else some (visit index state))
          fuel index state = machine.perform events state ∧
      machine.TracedFrom placed cursor loop index fuel events state
  | 0, index, state => ⟨[], rfl, .nil (.inl rfl)⟩
  | fuel + 1, index, state => by
    by_cases hsize : machine.size cursor loop state ≤ index
    · exact ⟨[], by simp [iterate, hsize], .nil (.inr hsize)⟩
    · obtain ⟨events, hrun, htraced⟩ := hvisit index state
      obtain ⟨events', hrun', htraced'⟩ :=
        exists_trace_iterate hvisit fuel (index + 1) (machine.perform events state)
      refine ⟨events ++ events', ?_, .cons htraced htraced'⟩
      rw [perform_append, ← hrun']
      simp [iterate, hsize, hrun]

/-! ## Passes -/

mutual

/-- A pass over a list leaves a trace. -/
theorem exists_trace_pass (hsettled : ∀ state, machine.isSettled state = false)
    (cursor : Cursor) (loop : Loop) :
    ∀ (pass : Pass F) (state : σ), ∃ events,
      machine.runPass cursor loop pass state = machine.perform events state ∧
        machine.Traced (pass.placed loop) cursor events state
  | .mk pre body post inner, state => by
    obtain ⟨before, hbefore, htbefore⟩ := exists_trace_fragments hsettled cursor pre state
    -- one element: the inner passes, then the body
    have hvisit : ∀ index state, ∃ events,
        machine.runFragments (cursor.enter loop.access index) body
          (machine.runInner (cursor.enter loop.access index) inner state) =
            machine.perform events state ∧
        machine.Traced (Pass.placedInner inner ++ Pass.placedHere body)
          (cursor.enter loop.access index) events state := by
      intro index state
      obtain ⟨first, hfirst, htfirst⟩ :=
        exists_trace_inner hsettled (cursor.enter loop.access index) inner state
      obtain ⟨second, hsecond, htsecond⟩ := exists_trace_fragments hsettled
        (cursor.enter loop.access index) body (machine.perform first state)
      exact ⟨first ++ second, by rw [hfirst, hsecond, perform_append], htfirst.append htsecond⟩
    obtain ⟨visits, hvisits, htvisits⟩ := exists_trace_iterate hvisit
      (machine.size cursor loop (machine.perform before state)) 0 (machine.perform before state)
    obtain ⟨after, hafter, htafter⟩ := exists_trace_fragments hsettled cursor post
      (machine.perform visits (machine.perform before state))
    refine ⟨before ++ visits ++ after, ?_, (htbefore.append htvisits.traced).append ?_⟩
    · rw [runPass, hbefore]
      simp only [hsettled, Bool.false_or, decide_eq_true_eq]
      rw [hvisits, hafter, perform_append, perform_append]
    · rw [perform_append]
      exact htafter
termination_by structural pass => pass

/-- Passes over lists leave a trace. -/
theorem exists_trace_inner (hsettled : ∀ state, machine.isSettled state = false)
    (cursor : Cursor) :
    ∀ (inner : List (Loop × Pass F)) (state : σ), ∃ events,
      machine.runInner cursor inner state = machine.perform events state ∧
        machine.Traced (Pass.placedInner inner) cursor events state
  | [], state => ⟨[], rfl, ⟨by simp, by simp, by simp [Pass.placedInner]⟩⟩
  | (loop, pass) :: rest, state => by
    obtain ⟨first, hfirst, htfirst⟩ := exists_trace_pass hsettled cursor loop pass state
    obtain ⟨others, hothers, htothers⟩ :=
      exists_trace_inner hsettled cursor rest (machine.perform first state)
    refine ⟨first ++ others, ?_, htfirst.append htothers⟩
    rw [runInner, hfirst, hothers, perform_append]
termination_by structural inner => inner

end

end Machine

/-- The actions of a program. -/
def Program.placed {F : Type} (program : Program F) : List (List Loop × F) :=
  program.root.placedRoot

/-- Every run performs a trace of the program's actions from the record on. -/
theorem Program.exists_trace {F σ : Type} (machine : Machine F σ)
    (hsettled : ∀ state, machine.isSettled state = false) (program : Program F) (state : σ) :
    ∃ events, program.run machine state = machine.perform events state ∧
      machine.Traced program.placed {} events state := by
  obtain ⟨name, ⟨pre, body, post, inner⟩, plan⟩ := program
  obtain ⟨first, hfirst, htfirst⟩ := Machine.exists_trace_fragments hsettled {} pre state
  obtain ⟨second, hsecond, htsecond⟩ :=
    Machine.exists_trace_inner hsettled {} inner (machine.perform first state)
  obtain ⟨third, hthird, htthird⟩ := Machine.exists_trace_fragments hsettled {} body
    (machine.perform second (machine.perform first state))
  obtain ⟨fourth, hfourth, htfourth⟩ := Machine.exists_trace_fragments hsettled {} post
    (machine.perform third (machine.perform second (machine.perform first state)))
  have htwo := htfirst.append htsecond
  have hthree := htwo.append (by rw [Machine.perform_append]; exact htthird)
  refine ⟨first ++ second ++ third ++ fourth, ?_, hthree.append ?_⟩
  · show machine.runFragments {} post (machine.runFragments {} body
      (machine.runInner {} inner (machine.runFragments {} pre state))) = _
    rw [hfirst, hsecond, hthird, hfourth]
    simp only [Machine.perform_append]
  · simpa only [Machine.perform_append] using htfourth

end NestedRecord
