import NestedRecord.Proofs.Procedure.Trace

/-!
# Runs come to an end

A pass measures its list again before every element, so nothing in the pass itself says that it is
ever left: an action that makes the list longer could keep it going for ever. Runs are described
here without a bound on the number of elements, and shown to end.

`Program.run` is no help for this question: it is defined with the size of the list at the start as
a bound, so it ends by definition, also where a list gets longer and the loop would go on. The
relations below have no bound. `Visits` has a rule for leaving a list when it is exhausted, one for
leaving it when the state is settled and one for visiting an element, after which the size is read
again; a run that is never left has no derivation.

That there is a derivation is shown along the structure of the pass. The elements that are left are
counted by the size at the start. The count goes down with each element because of what `Trace`
knows of the actions inside it: each of them is placed below the element, so the condition applies
to it and the list has kept its size. That there is one derivation only is an induction on the first
one, since in every state one rule applies.

- `Machine.Visits` goes through a list until it has no further element, `Machine.PassEnds` and
  `Program.Ends` do so for passes and programs. Each says which lists are gone through, with the
  sizes they were found to have, and which state is left in the end.
- `Machine.KeepsLists` is the condition on actions: none changes the size of a list around the
  element at which it is done.
- `Program.halts_of_keepsLists`: under this condition every run ends, in one way only, in the
  state that `Program.run` gives, and every list is left after the elements that it had when it
  was entered.

The sizes that were found and the elements that were visited are kept in a `Tour` for each list.
They are part of the relation and not computed afterwards, so that the result can say of every list,
at every time when it is entered, that it was visited from its first element to its last one and
never changed its size on the way.
-/

namespace NestedRecord

/-- How a list has been gone through. -/
structure Tour where
  cursor : Cursor
  loop : Loop
  /-- the size of the list before each element, and when none was left -/
  sizes : List Nat
  /-- the numbers of the elements, in the order of the visits -/
  visited : List Nat

/-- The list has kept the size that it had at first, and each of its elements has been visited
once, in order. -/
def Tour.IsSteady (tour : Tour) : Prop :=
  ∃ size, tour.sizes = List.replicate (size + 1) size ∧ tour.visited = List.range size

namespace Machine

variable {F σ : Type}

/-- Going through a list from a number on, with what is done for an element. The list is left when
it has no element of the number, or when the state is settled. -/
inductive Visits (machine : Machine F σ) (cursor : Cursor) (loop : Loop)
    (element : Nat → σ → List Tour → σ → Prop) : Nat → σ → Tour → List Tour → σ → Prop
  | settled {index : Nat} {state : σ} (settled : machine.isSettled state = true) :
      Visits machine cursor loop element index state ⟨cursor, loop, [], []⟩ [] state
  | finished {index : Nat} {state : σ} (unsettled : machine.isSettled state = false)
      (exhausted : machine.size cursor loop state ≤ index) :
      Visits machine cursor loop element index state
        ⟨cursor, loop, [machine.size cursor loop state], []⟩ [] state
  | visit {index : Nat} {state middle final : σ} {tour : Tour} {tours tours' : List Tour}
      (unsettled : machine.isSettled state = false)
      (present : index < machine.size cursor loop state)
      (here : element index state tours middle)
      (rest : Visits machine cursor loop element (index + 1) middle tour tours' final) :
      Visits machine cursor loop element index state
        ⟨cursor, loop, machine.size cursor loop state :: tour.sizes, index :: tour.visited⟩
        (tours ++ tours') final

mutual

/-- A pass over the list of a loop ends in a state, having gone through some lists. -/
def PassEnds (machine : Machine F σ) (cursor : Cursor) (loop : Loop) :
    Pass F → σ → List Tour → σ → Prop
  | .mk pre body post inner, state, tours, final =>
    let element (index : Nat) (state : σ) (tours : List Tour) (final : σ) : Prop :=
      ∃ middle, InnerEnds machine (cursor.enter loop.access index) inner state tours middle ∧
        final = machine.runFragments (cursor.enter loop.access index) body middle
    ∃ tour others last,
      Visits machine cursor loop element 0 (machine.runFragments cursor pre state) tour others
        last ∧
      tours = tour :: others ∧ final = machine.runFragments cursor post last
termination_by structural pass => pass

/-- Passes over lists end, one after the other. -/
def InnerEnds (machine : Machine F σ) (cursor : Cursor) :
    List (Loop × Pass F) → σ → List Tour → σ → Prop
  | [], state, tours, final => tours = [] ∧ final = state
  | (loop, pass) :: rest, state, tours, final =>
    ∃ first middle others, PassEnds machine cursor loop pass state first middle ∧
      InnerEnds machine cursor rest middle others final ∧ tours = first ++ others
termination_by structural inner => inner

end

variable {machine : Machine F σ} {cursor : Cursor} {loop : Loop}
  {element : Nat → σ → List Tour → σ → Prop} {index : Nat} {state final final' : σ}
  {tour tour' : Tour} {tours tours' : List Tour}

/-! ## One way to end -/

/-- A list is gone through in one way, if that is so of each of its elements. -/
theorem Visits.unique
    (helement : ∀ {index state tours tours' final final'}, element index state tours final →
      element index state tours' final' → tours' = tours ∧ final' = final)
    (h : Visits machine cursor loop element index state tour tours final)
    (h' : Visits machine cursor loop element index state tour' tours' final') :
    tour' = tour ∧ tours' = tours ∧ final' = final := by
  -- the three rules exclude each other by what they ask of the state
  induction h generalizing tour' tours' final' with
  | settled hsettled =>
    cases h' with
    | settled => exact ⟨rfl, rfl, rfl⟩
    | finished hunsettled => simp [hsettled] at hunsettled
    | visit hunsettled => simp [hsettled] at hunsettled
  | finished hunsettled hexhausted =>
    cases h' with
    | settled hsettled => simp [hunsettled] at hsettled
    | finished => exact ⟨rfl, rfl, rfl⟩
    | visit _ hpresent => omega
  | visit hunsettled hpresent hhere _ ih =>
    cases h' with
    | settled hsettled => simp [hunsettled] at hsettled
    | finished _ hexhausted => omega
    | visit _ _ hhere' hrest' =>
      obtain ⟨rfl, rfl⟩ := helement hhere hhere'
      obtain ⟨rfl, rfl, rfl⟩ := ih hrest'
      exact ⟨rfl, rfl, rfl⟩

mutual

/-- A pass ends in one way. -/
theorem PassEnds.unique : ∀ {pass : Pass F} {cursor : Cursor} {loop : Loop} {state final final' : σ}
    {tours tours' : List Tour}, PassEnds machine cursor loop pass state tours final →
      PassEnds machine cursor loop pass state tours' final' → tours' = tours ∧ final' = final
  | .mk pre body post inner, cursor, loop, state, final, final', tours, tours', h, h' => by
    obtain ⟨tour, others, last, hvisits, rfl, rfl⟩ := h
    obtain ⟨tour', others', last', hvisits', rfl, rfl⟩ := h'
    -- what is done for one element ends in one way by the induction on the inner passes
    obtain ⟨rfl, rfl, rfl⟩ := hvisits.unique (fun hhere hhere' => by
      obtain ⟨middle, hinner, rfl⟩ := hhere
      obtain ⟨middle', hinner', rfl⟩ := hhere'
      obtain ⟨rfl, rfl⟩ := InnerEnds.unique hinner hinner'
      exact ⟨rfl, rfl⟩) hvisits'
    exact ⟨rfl, rfl⟩
termination_by structural pass => pass

/-- Passes end in one way. -/
theorem InnerEnds.unique : ∀ {inner : List (Loop × Pass F)} {cursor : Cursor}
    {state final final' : σ} {tours tours' : List Tour},
      InnerEnds machine cursor inner state tours final →
      InnerEnds machine cursor inner state tours' final' → tours' = tours ∧ final' = final
  | [], cursor, state, final, final', tours, tours', h, h' => by
    obtain ⟨rfl, rfl⟩ := h
    obtain ⟨rfl, rfl⟩ := h'
    exact ⟨rfl, rfl⟩
  | (loop, pass) :: rest, cursor, state, final, final', tours, tours', h, h' => by
    obtain ⟨first, middle, others, hpass, hrest, rfl⟩ := h
    obtain ⟨first', middle', others', hpass', hrest', rfl⟩ := h'
    obtain ⟨rfl, rfl⟩ := PassEnds.unique hpass hpass'
    obtain ⟨rfl, rfl⟩ := InnerEnds.unique hrest hrest'
    exact ⟨rfl, rfl⟩
termination_by structural inner => inner

end

/-! ## Lists that keep their sizes -/

/-- No placed action changes the size of a list around the element at which it is done. -/
def KeepsLists (machine : Machine F σ) (cursor : Cursor) (placed : List (List Loop × F)) : Prop :=
  ∀ front last back action, (front ++ last :: back, action) ∈ placed →
    ∀ middle inner : Cursor, middle.Under cursor front → inner.Under middle (last :: back) →
      ∀ state, machine.size middle last (machine.act action inner state) =
        machine.size middle last state

theorem KeepsLists.mono {placed placed' : List (List Loop × F)}
    (h : machine.KeepsLists cursor placed) (hsub : ∀ entry ∈ placed', entry ∈ placed) :
    machine.KeepsLists cursor placed' :=
  fun front last back action hplaced => h front last back action (hsub _ hplaced)

/-- What holds around the elements of a list holds inside each of them. -/
theorem KeepsLists.enter {placed : List (List Loop × F)}
    (h : machine.KeepsLists cursor (Pass.placedBelow loop placed)) (index : Nat) :
    machine.KeepsLists (cursor.enter loop.access index) placed := by
  intro front last back action hplaced middle inner hmiddle
  exact h (loop :: front) last back action (List.mem_map.mpr ⟨_, hplaced, rfl⟩) middle inner
    (Cursor.under_cons.mpr ⟨index, hmiddle⟩)

/-- The events inside an element leave the list that the element stands in at its size. -/
theorem KeepsLists.size_perform {placed : List (List Loop × F)} {events : List (Event F)}
    (h : machine.KeepsLists cursor (Pass.placedBelow loop placed))
    (htraced : machine.Traced placed (cursor.enter loop.access index) events state) :
    machine.size cursor loop (machine.perform events state) = machine.size cursor loop state := by
  refine perform_congr machine (machine.size cursor loop) (fun event hevent state => ?_) state
  obtain ⟨loops, hplaced, hunder⟩ := htraced.sound event hevent
  -- the list is the innermost one around all of these events
  exact h [] loop loops event.action (List.mem_map.mpr ⟨_, hplaced, rfl⟩) cursor event.cursor
    (Cursor.under_nil.mpr rfl) (Cursor.under_cons.mpr ⟨index, hunder⟩) state

/-- A list that keeps its size is gone through from one end to the other. -/
theorem exists_visits {size : Nat} (element : Nat → σ → List Tour → σ → Prop) (visit : Nat → σ → σ)
    (hsettled : ∀ state, machine.isSettled state = false)
    (helement : ∀ index state, machine.size cursor loop state = size →
      machine.size cursor loop (visit index state) = size ∧
        ∃ tours, element index state tours (visit index state) ∧ ∀ tour ∈ tours, tour.IsSteady) :
    ∀ (fuel index : Nat) (state : σ), index + fuel = size →
      machine.size cursor loop state = size →
        ∃ tours,
          Visits machine cursor loop element index state
            ⟨cursor, loop, List.replicate (fuel + 1) size, List.range' index fuel⟩ tours
            (iterate (fun index state =>
              if machine.size cursor loop state ≤ index then none
              else some (visit index state)) fuel index state) ∧
          ∀ tour ∈ tours, tour.IsSteady
  | 0, index, state, hindex, hsize => by
    refine ⟨[], ?_, by simp⟩
    have hexhausted : machine.size cursor loop state ≤ index := by omega
    -- no element is left, and the size is read once more to find this out
    have hfinished : Visits machine cursor loop element index state
        ⟨cursor, loop, [machine.size cursor loop state], []⟩ [] state :=
      .finished (hsettled state) hexhausted
    rw [hsize] at hfinished
    exact hfinished
  | fuel + 1, index, state, hindex, hsize => by
    obtain ⟨hkept, tours, hhere, hsteady⟩ := helement index state hsize
    -- the element has kept the size, so one element less is left
    obtain ⟨others, hrest, hothers⟩ :=
      exists_visits element visit hsettled helement fuel (index + 1) _ (by omega) hkept
    have hpresent : index < machine.size cursor loop state := by omega
    refine ⟨tours ++ others, ?_, fun tour htour => ?_⟩
    · have hvisit := Visits.visit (hsettled state) hpresent hhere hrest
      rw [hsize] at hvisit
      rw [iterate, if_neg (Nat.not_le.mpr hpresent), List.replicate_succ, List.range'_succ]
      exact hvisit
    · rcases List.mem_append.mp htour with htour | htour
      · exact hsteady tour htour
      · exact hothers tour htour

mutual

/-- A pass ends if its actions leave the lists around them at their sizes. -/
theorem exists_passEnds (hsettled : ∀ state, machine.isSettled state = false) :
    ∀ (pass : Pass F) (cursor : Cursor) (loop : Loop),
      machine.KeepsLists cursor (pass.placed loop) → ∀ state,
        ∃ tours, PassEnds machine cursor loop pass state tours
            (machine.runPass cursor loop pass state) ∧ ∀ tour ∈ tours, tour.IsSteady
  | .mk pre body post inner, cursor, loop, hkeeps, state => by
    have hinside : machine.KeepsLists cursor
        (Pass.placedBelow loop (Pass.placedInner inner ++ Pass.placedHere body)) := by
      refine hkeeps.mono fun entry hentry => ?_
      rw [Pass.placed, List.mem_append, List.mem_append]
      exact .inl (.inr hentry)
    -- what is done for one element keeps the size of the list, and the inner passes end
    have helement : ∀ index state,
        machine.size cursor loop (machine.runFragments (cursor.enter loop.access index) body
          (machine.runInner (cursor.enter loop.access index) inner state)) =
            machine.size cursor loop state ∧
        ∃ tours, InnerEnds machine (cursor.enter loop.access index) inner state tours
            (machine.runInner (cursor.enter loop.access index) inner state) ∧
          ∀ tour ∈ tours, tour.IsSteady := by
      intro index state
      obtain ⟨first, hfirst, htfirst⟩ :=
        exists_trace_inner hsettled (cursor.enter loop.access index) inner state
      obtain ⟨second, hsecond, htsecond⟩ := exists_trace_fragments hsettled
        (cursor.enter loop.access index) body (machine.perform first state)
      refine ⟨?_, exists_innerEnds hsettled inner _ ?_ state⟩
      · rw [hfirst, hsecond, ← perform_append]
        exact hinside.size_perform (htfirst.append htsecond)
      · exact (hinside.enter index).mono fun entry hentry => List.mem_append_left _ hentry
    -- the bound is the size behind the fragments in front of the list
    obtain ⟨tours, hvisits, hsteady⟩ := exists_visits
      (fun index state tours final =>
        ∃ middle, InnerEnds machine (cursor.enter loop.access index) inner state tours middle ∧
          final = machine.runFragments (cursor.enter loop.access index) body middle)
      (fun index state => machine.runFragments (cursor.enter loop.access index) body
        (machine.runInner (cursor.enter loop.access index) inner state))
      hsettled (fun index state hsize => by
        obtain ⟨hkept, tours, hinner, hsteady⟩ := helement index state
        exact ⟨hkept.trans hsize, tours, ⟨_, hinner, rfl⟩, hsteady⟩)
      (machine.size cursor loop (machine.runFragments cursor pre state)) 0
      (machine.runFragments cursor pre state) (Nat.zero_add _) rfl
    refine ⟨_ :: tours, ⟨_, tours, _, hvisits, rfl, ?_⟩, fun tour htour => ?_⟩
    · -- the run asks for a settled state as well, which there is not
      rw [runPass]
      simp only [hsettled, Bool.false_or, decide_eq_true_eq]
    · rcases List.mem_cons.mp htour with rfl | htour
      · exact ⟨_, rfl, List.range_eq_range'.symm⟩
      · exact hsteady tour htour
termination_by structural pass => pass

/-- Passes end one after the other. -/
theorem exists_innerEnds (hsettled : ∀ state, machine.isSettled state = false) :
    ∀ (inner : List (Loop × Pass F)) (cursor : Cursor),
      machine.KeepsLists cursor (Pass.placedInner inner) → ∀ state,
        ∃ tours, InnerEnds machine cursor inner state tours (machine.runInner cursor inner state) ∧
          ∀ tour ∈ tours, tour.IsSteady
  | [], cursor, _, state => ⟨[], ⟨rfl, rfl⟩, by simp⟩
  | (loop, pass) :: rest, cursor, hkeeps, state => by
    obtain ⟨first, hfirst, hsteady⟩ := exists_passEnds hsettled pass cursor loop
      (hkeeps.mono fun entry hentry => List.mem_append_left _ hentry) state
    -- the later passes start from the state that the first one leaves
    obtain ⟨others, hothers, hsteady'⟩ := exists_innerEnds hsettled rest cursor
      (hkeeps.mono fun entry hentry => List.mem_append_right _ hentry)
      (machine.runPass cursor loop pass state)
    refine ⟨first ++ others, ⟨first, _, others, hfirst, hothers, rfl⟩, fun tour htour => ?_⟩
    rcases List.mem_append.mp htour with htour | htour
    · exact hsteady tour htour
    · exact hsteady' tour htour
termination_by structural inner => inner

end

end Machine

namespace Program

variable {F σ : Type}

/-- A program ends in a state, having gone through some lists. -/
def Ends (program : Program F) (machine : Machine F σ) (state : σ) (tours : List Tour)
    (final : σ) : Prop :=
  ∃ last, machine.InnerEnds {} program.root.inner
      (machine.runFragments {} program.root.pre state) tours last ∧
    final = machine.runFragments {} program.root.post
      (machine.runFragments {} program.root.body last)

/-- No action of a program changes the size of a list around the element at which it is done. -/
def KeepsLists (program : Program F) (machine : Machine F σ) : Prop :=
  machine.KeepsLists {} program.placed

/-- What is wanted of a program: its actions leave the lists around them at their sizes, and from
every state it ends, in the state that its run gives and in no other way, with every list left after
the elements that it had when it was entered. -/
structure Halts (program : Program F) (machine : Machine F σ) : Prop where
  keepsLists : program.KeepsLists machine
  ends : ∀ state, ∃ tours, program.Ends machine state tours (program.run machine state) ∧
    (∀ tour ∈ tours, tour.IsSteady) ∧
    ∀ tours' final, program.Ends machine state tours' final →
      tours' = tours ∧ final = program.run machine state

/-- A program ends because its actions leave the lists around them at their sizes. -/
theorem halts_of_keepsLists {program : Program F} {machine : Machine F σ}
    (hsettled : ∀ state, machine.isSettled state = false) (h : program.KeepsLists machine) :
    program.Halts machine := by
  -- what is placed in the inner passes is placed in the program
  have hinside : machine.KeepsLists {} (Pass.placedInner program.root.inner) := by
    obtain ⟨name, ⟨pre, body, post, inner⟩, plan⟩ := program
    refine h.mono fun entry hentry => ?_
    simp only [placed, Pass.placedRoot, List.mem_append]
    exact .inl (.inl (.inr hentry))
  refine ⟨h, fun state => ?_⟩
  obtain ⟨tours, hinner, hsteady⟩ := Machine.exists_innerEnds hsettled program.root.inner {}
    hinside (machine.runFragments {} program.root.pre state)
  refine ⟨tours, ⟨_, hinner, rfl⟩, hsteady, ?_⟩
  rintro tours' final ⟨last, hinner', rfl⟩
  obtain ⟨rfl, rfl⟩ := hinner.unique hinner'
  exact ⟨rfl, rfl⟩

end Program

end NestedRecord
