import NestedRecord.Proofs.Procedure.Schedule

/-!
# What a scaffold is made of

A procedure is put together one fragment at a time, and passes over the same list are shared.
What the finished program does is nevertheless what its fragments say, each for itself.

A scaffold is a tree of passes, and a fragment is added by walking down its loops, entering a pass
at each of them if there is none yet. So adding is an edit of one pass deep in the tree, and
everything that is read off the tree in order, such as what is placed, which lists are gone through
and which events there are, changes in one part only: `exists_editInner` states this once, for all
of these readings. With some actions picked, the parts without any of them drop out, and the picked
events are followed through the edits of an aggregate.

- `Scaffold.Assembled` lists the actions added to a scaffold; `Assembled.add` extends it, and
  `Assembled.placed` says that the finished program places exactly these actions.
- `Event.select` picks the events of some actions out of a schedule.
- `select_events_reset_add`: two fragments of which the first stands before a list and the
  second at elements below it take turns: for each element around the list first the one,
  then the other at every element reached from there.
-/

namespace NestedRecord

/-- The loops to the element at which a fragment of a bucket is run. -/
def Bucket.loops : Bucket → List Loop → List Loop
  | .body, loops => loops
  | .pre, loops | .post, loops => loops.dropLast

/-- The events whose actions are picked. -/
def Event.select {F : Type} (p : F → Bool) (events : List (Event F)) : List (Event F) :=
  events.filter fun event => p event.action

namespace Pass

variable {F : Type}

/-! ## Adding a fragment -/

theorem Bucket.loops_cons (bucket : Bucket) (loop next : Loop) (rest : List Loop) :
    bucket.loops (loop :: next :: rest) = loop :: bucket.loops (next :: rest) := by
  cases bucket <;> rfl

/-- No conflict arises in a changed pass if its list is reached as before. -/
theorem editInner_cons_of_key {edit : Pass F → Pass F × List String} {loop known : Loop}
    {pass : Pass F} {rest : List (Loop × Pass F)} (hkey : known.key = loop.key)
    (h : (editInner edit loop ((known, pass) :: rest)).2 = []) :
    known = loop ∧ (edit pass).2 = [] ∧
      (editInner edit loop ((known, pass) :: rest)).1 = (loop, (edit pass).1) :: rest := by
  simp only [editInner, hkey, if_true, List.append_eq_nil_iff] at h ⊢
  by_cases hknown : known = loop
  · exact ⟨hknown, h.2, by rw [hknown]⟩
  · simp [hknown] at h

theorem editInner_cons_of_ne {edit : Pass F → Pass F × List String} {loop known : Loop}
    {pass : Pass F} {rest : List (Loop × Pass F)} (hkey : known.key ≠ loop.key) :
    editInner edit loop ((known, pass) :: rest) =
      ((known, pass) :: (editInner edit loop rest).1, (editInner edit loop rest).2) := by
  simp [editInner, hkey]

/-- What a change of the pass under a loop does to a reading that goes through passes in
order: it changes one of the parts, which is that of an empty pass if there was none. -/
theorem exists_editInner {edit : Pass F → Pass F × List String} {loop : Loop}
    {inner : List (Loop × Pass F)} (h : (editInner edit loop inner).2 = []) :
    ∃ front pass back, (edit pass).2 = [] ∧
      (editInner edit loop inner).1 = front ++ (loop, (edit pass).1) :: back ∧
      (inner = front ++ (loop, pass) :: back ∨ inner = front ∧ pass = .empty ∧ back = []) := by
  induction inner with
  | nil => exact ⟨[], .empty, [], h, rfl, .inr ⟨rfl, rfl, rfl⟩⟩
  | cons entry rest ih =>
    obtain ⟨known, pass⟩ := entry
    by_cases hkey : known.key = loop.key
    · obtain ⟨rfl, hedit, heq⟩ := editInner_cons_of_key hkey h
      exact ⟨[], pass, rest, hedit, heq, .inl rfl⟩
    · rw [editInner_cons_of_ne hkey] at h ⊢
      obtain ⟨front, pass', back, hedit, heq, hinner⟩ := ih h
      refine ⟨(known, pass) :: front, pass', back, hedit, by rw [heq]; rfl, ?_⟩
      rcases hinner with rfl | ⟨rfl, hempty, hback⟩
      · exact .inl rfl
      · exact .inr ⟨rfl, hempty, hback⟩

theorem placedInner_append (front back : List (Loop × Pass F)) :
    placedInner (front ++ back) = placedInner front ++ placedInner back := by
  induction front with
  | nil => rfl
  | cons entry rest ih =>
    obtain ⟨loop, pass⟩ := entry
    rw [List.cons_append, placedInner, placedInner, ih, List.append_assoc]

theorem listsInner_append (front back : List (Loop × Pass F)) :
    listsInner (front ++ back) = listsInner front ++ listsInner back := by
  induction front with
  | nil => rfl
  | cons entry rest ih =>
    obtain ⟨loop, pass⟩ := entry
    rw [List.cons_append, listsInner, listsInner, ih, List.append_assoc]

theorem eventsInner_append (record : Json) (cursor : Cursor) (front back : List (Loop × Pass F)) :
    eventsInner record cursor (front ++ back) =
      eventsInner record cursor front ++ eventsInner record cursor back := by
  induction front with
  | nil => rfl
  | cons entry rest ih =>
    obtain ⟨loop, pass⟩ := entry
    rw [List.cons_append, eventsInner, eventsInner, ih, List.append_assoc]

@[simp] theorem placed_empty (loop : Loop) : placed loop (.empty : Pass F) = [] := rfl

@[simp] theorem events_empty (record : Json) (cursor : Cursor) (loop : Loop) :
    events record cursor loop (.empty : Pass F) = [] := by
  simp [events, eventsInner, eventsHere, empty]

/-- The last of a pass's actions that a fragment adds. -/
theorem placed_push (bucket : Bucket) (fragment : Fragment F) (loop : Loop) (pass : Pass F) :
    (placed loop (push bucket fragment pass)).Perm
      (placed loop pass ++ [(bucket.loops [loop], fragment.action)]) := by
  obtain ⟨pre, body, post, inner⟩ := pass
  cases bucket
  all_goals
    simp only [push, placed, placedHere, placedBelow, List.map_append, List.map_cons,
      List.map_nil, Bucket.loops, List.dropLast_singleton, List.append_assoc]
  · refine List.Perm.append_left _ ?_
    exact List.perm_append_comm.trans (by simp [List.append_assoc])
  · refine List.Perm.append_left _ (List.Perm.append_left _ (List.Perm.append_left _ ?_))
    exact List.perm_append_comm
  · exact List.Perm.refl _

/-- A fragment adds one action, where its loops lead. -/
theorem placed_edit (bucket : Bucket) (fragment : Fragment F) :
    ∀ (loops : List Loop) (loop : Loop) (pass : Pass F),
      (edit (push bucket fragment) loops pass).2 = [] →
        (placed loop (edit (push bucket fragment) loops pass).1).Perm
          (placed loop pass ++ [(bucket.loops (loop :: loops), fragment.action)])
  | [], loop, pass, _ => placed_push bucket fragment loop pass
  | next :: rest, loop, .mk pre body post inner, h => by
    obtain ⟨front, pass, back, hedit, heq, hinner⟩ := exists_editInner
      (show (editInner (edit (push bucket fragment) rest) next inner).2 = [] from h)
    have hpass := placed_edit bucket fragment rest next pass hedit
    -- among the passes over lists, one is edited; it may be new
    have hplaced : (placedInner (editInner (edit (push bucket fragment) rest) next inner).1).Perm
        (placedInner inner ++ [(bucket.loops (next :: rest), fragment.action)]) := by
      rw [heq, placedInner_append, placedInner]
      rcases hinner with rfl | ⟨rfl, rfl, rfl⟩
      · rw [placedInner_append, placedInner, List.append_assoc, List.append_assoc]
        refine List.Perm.append_left _ ((hpass.append_right _).trans ?_)
        rw [List.append_assoc]
        exact List.Perm.append_left _ List.perm_append_comm
      · exact List.Perm.append_left _ (by simpa [placedInner] using hpass)
    show (placed loop (.mk pre body post _)).Perm _
    rw [placed, placed, Bucket.loops_cons]
    simp only [List.append_assoc]
    refine List.Perm.append_left _ ?_
    -- all that is placed below the list gets its loop in front
    have hbelow := hplaced.map fun entry : List Loop × F => (loop :: entry.1, entry.2)
    simp only [placedBelow, List.map_append, List.map_cons, List.map_nil, List.append_assoc]
      at hbelow ⊢
    refine (hbelow.append_right _).trans ?_
    simp only [List.append_assoc]
    refine List.Perm.append_left _ ?_
    exact List.perm_append_comm.trans (by simp [List.append_assoc])

/-- A fragment adds one action to the whole procedure. -/
theorem placedRoot_edit (bucket : Bucket) (fragment : Fragment F) (loops : List Loop)
    (pass : Pass F) (h : (edit (push bucket fragment) loops pass).2 = []) :
    (placedRoot (edit (push bucket fragment) loops pass).1).Perm
      (placedRoot pass ++ [(bucket.loops loops, fragment.action)]) := by
  obtain ⟨pre, body, post, inner⟩ := pass
  cases loops with
  | nil =>
    -- what is placed is listed bucket by bucket, so that the fragment may have others behind it
    cases bucket
    all_goals
      simp only [edit, push, placedRoot, placedHere, List.map_append, List.map_cons,
        List.map_nil, Bucket.loops, List.dropLast_nil, List.append_assoc]
    · refine List.Perm.append_left _ ?_
      exact List.perm_append_comm.trans (by simp [List.append_assoc])
    · refine List.Perm.append_left _ (List.Perm.append_left _ (List.Perm.append_left _ ?_))
      exact List.perm_append_comm
    · exact List.Perm.refl _
  | cons loop rest =>
    obtain ⟨front, pass, back, hedit, heq, hinner⟩ := exists_editInner
      (show (editInner (edit (push bucket fragment) rest) loop inner).2 = [] from h)
    have hpass := placed_edit bucket fragment rest loop pass hedit
    show (placedRoot (.mk pre body post _)).Perm _
    rw [heq, placedRoot, placedRoot, placedInner_append, placedInner]
    simp only [List.append_assoc]
    refine List.Perm.append_left _ ?_
    rcases hinner with rfl | ⟨rfl, rfl, rfl⟩
    · rw [placedInner_append, placedInner]
      simp only [List.append_assoc]
      refine List.Perm.append_left _ ((hpass.append_right _).trans ?_)
      rw [List.append_assoc]
      refine List.Perm.append_left _ ?_
      exact List.perm_append_comm.trans (by simp [List.append_assoc])
    · refine List.Perm.append_left _ ?_
      simp only [placed_empty, List.nil_append, placedInner] at hpass ⊢
      exact (hpass.append_right _).trans
        (List.perm_append_comm.trans (by simp [List.append_assoc]))

/-! ## The lists gone through -/

/-- A change that leaves the inner passes of a pass alone. -/
def KeepsInner (f : Pass F → Pass F) : Prop := ∀ pass, (f pass).inner = pass.inner

theorem keepsInner_push (bucket : Bucket) (fragment : Fragment F) :
    KeepsInner (push bucket fragment) := by
  rintro ⟨pre, body, post, inner⟩
  cases bucket <;> rfl

theorem lists_eq (loop : Loop) (pass : Pass F) :
    lists loop pass = [loop] :: (listsInner pass.inner).map (loop :: ·) := by
  obtain ⟨pre, body, post, inner⟩ := pass
  rw [lists, Pass.inner]

/-- An edit makes a procedure go through no lists but those on its way. -/
theorem listsInner_edit {f : Pass F → Pass F} (hf : KeepsInner f) :
    ∀ (loops : List Loop) (pass : Pass F), (edit f loops pass).2 = [] →
      ∀ list ∈ listsInner (edit f loops pass).1.inner,
        list ∈ listsInner pass.inner ∨ list <+: loops
  | [], pass, _, list, hlist => by
    rw [edit, hf] at hlist
    exact .inl hlist
  | next :: rest, .mk pre body post inner, h, list, hlist => by
    obtain ⟨front, pass, back, hedit, heq, hinner⟩ := exists_editInner
      (show (editInner (edit f rest) next inner).2 = [] from h)
    have hlist' : list ∈ listsInner (editInner (edit f rest) next inner).1 := hlist
    show list ∈ listsInner inner ∨ _
    rw [heq, listsInner_append, listsInner, lists_eq] at hlist'
    simp only [List.mem_append, List.mem_cons, List.mem_map] at hlist'
    -- a list before, in or behind the pass that is edited
    rcases hlist' with hfront | (rfl | ⟨list', hmem, rfl⟩) | hback
    · rcases hinner with rfl | ⟨rfl, -, -⟩
      · exact .inl (by rw [listsInner_append]; exact List.mem_append_left _ hfront)
      · exact .inl hfront
    · exact .inr (List.cons_prefix_cons.mpr ⟨rfl, List.nil_prefix⟩)
    · rcases listsInner_edit hf rest pass hedit list' hmem with hold | hnew
      · rcases hinner with rfl | ⟨rfl, rfl, rfl⟩
        · left
          rw [listsInner_append, listsInner, lists_eq]
          simp only [List.mem_append, List.mem_cons, List.mem_map]
          exact .inr (.inl (.inr ⟨list', hold, rfl⟩))
        · simp [Pass.empty, Pass.inner, listsInner] at hold
      · exact .inr (List.cons_prefix_cons.mpr ⟨rfl, hnew⟩)
    · rcases hinner with rfl | ⟨rfl, rfl, rfl⟩
      · left
        rw [listsInner_append, listsInner]
        exact List.mem_append_right _ (List.mem_append_right _ hback)
      · simp [listsInner] at hback

/-! ## Leaving out what does nothing

A finished program has no empty passes. They place nothing and have no events. -/

/-- An empty pass places nothing. -/
theorem placed_eq_nil_of_isEmpty (loop : Loop) {pass : Pass F} (h : pass.isEmpty) :
    placed loop pass = [] := by
  obtain ⟨pre, body, post, inner⟩ := pass
  simp only [isEmpty, Pass.pre, Pass.body, Pass.post, Pass.inner, Bool.and_eq_true,
    List.isEmpty_iff] at h
  obtain ⟨⟨⟨rfl, rfl⟩, rfl⟩, rfl⟩ := h
  rfl

/-- An empty pass has no events. -/
theorem events_eq_nil_of_isEmpty (record : Json) (cursor : Cursor) (loop : Loop) {pass : Pass F}
    (h : pass.isEmpty) : events record cursor loop pass = [] := by
  obtain ⟨pre, body, post, inner⟩ := pass
  simp only [isEmpty, Pass.pre, Pass.body, Pass.post, Pass.inner, Bool.and_eq_true,
    List.isEmpty_iff] at h
  obtain ⟨⟨⟨rfl, rfl⟩, rfl⟩, rfl⟩ := h
  exact events_empty record cursor loop

mutual

theorem placed_prune (loop : Loop) : ∀ pass : Pass F, placed loop pass.prune = placed loop pass
  | .mk pre body post inner => by rw [prune, placed, placed, placedInner_prune]
termination_by structural pass => pass

theorem placedInner_prune : ∀ inner : List (Loop × Pass F),
    placedInner (pruneInner inner) = placedInner inner
  | [] => rfl
  | (loop, pass) :: rest => by
    rw [pruneInner, placedInner, ← placed_prune loop pass, ← placedInner_prune rest]
    split
    · next h => rw [placed_eq_nil_of_isEmpty loop h, List.nil_append]
    · rfl
termination_by structural inner => inner

end

mutual

theorem events_prune (record : Json) (cursor : Cursor) (loop : Loop) :
    ∀ pass : Pass F, events record cursor loop pass.prune = events record cursor loop pass
  | .mk pre body post inner => by
    rw [prune, events, events]
    simp only [fun cursor => eventsInner_prune record cursor inner]
termination_by structural pass => pass

theorem eventsInner_prune (record : Json) (cursor : Cursor) :
    ∀ inner : List (Loop × Pass F),
      eventsInner record cursor (pruneInner inner) = eventsInner record cursor inner
  | [] => rfl
  | (loop, pass) :: rest => by
    rw [pruneInner, eventsInner, ← events_prune record cursor loop pass,
      ← eventsInner_prune record cursor rest]
    split
    · next h => rw [events_eq_nil_of_isEmpty record cursor loop h, List.nil_append]
    · rfl
termination_by structural inner => inner

end

mutual

/-- Without empty passes, fewer lists are gone through. -/
theorem lists_prune_subset (loop : Loop) :
    ∀ pass : Pass F, ∀ list ∈ lists loop pass.prune, list ∈ lists loop pass
  | .mk pre body post inner, list, hlist => by
    rw [prune, lists, List.mem_cons, List.mem_map] at hlist
    rw [lists, List.mem_cons, List.mem_map]
    rcases hlist with rfl | ⟨list', hmem, rfl⟩
    · exact .inl rfl
    · exact .inr ⟨list', listsInner_prune_subset inner list' hmem, rfl⟩
termination_by structural pass => pass

theorem listsInner_prune_subset :
    ∀ inner : List (Loop × Pass F), ∀ list ∈ listsInner (pruneInner inner),
      list ∈ listsInner inner
  | [], list, hlist => hlist
  | (loop, pass) :: rest, list, hlist => by
    rw [listsInner, List.mem_append]
    rw [pruneInner] at hlist
    split at hlist
    · exact .inr (listsInner_prune_subset rest list hlist)
    · rw [listsInner, List.mem_append] at hlist
      exact hlist.imp (lists_prune_subset loop pass list) (listsInner_prune_subset rest list)
termination_by structural inner => inner

end

/-! ## Picked events -/

/-- None of the placed actions is picked. -/
def Free (p : F → Bool) (placed : List (List Loop × F)) : Prop :=
  ∀ entry ∈ placed, p entry.2 = false

section Select

variable {p : F → Bool} {record : Json}

theorem select_append (p : F → Bool) (front back : List (Event F)) :
    Event.select p (front ++ back) = Event.select p front ++ Event.select p back :=
  List.filter_append ..

theorem select_flatMap (p : F → Bool) {α : Type} (xs : List α) (f : α → List (Event F)) :
    Event.select p (xs.flatMap f) = xs.flatMap fun x => Event.select p (f x) := by
  induction xs with
  | nil => rfl
  | cons x rest ih => rw [List.flatMap_cons, List.flatMap_cons, select_append, ih]

theorem select_eq_nil {events : List (Event F)} (h : ∀ event ∈ events, p event.action = false) :
    Event.select p events = [] :=
  List.filter_eq_nil_iff.mpr fun event hevent => by simp [h event hevent]

/-- Where nothing picked is placed, no event is picked. -/
theorem select_eventsHere_of_free {cursor : Cursor} {fragments : List (Fragment F)}
    (h : Free p (placedHere fragments)) : Event.select p (eventsHere cursor fragments) = [] :=
  select_eq_nil fun _ hevent => h _ (mem_eventsHere.mp hevent).1

theorem select_eventsInner_of_free {cursor : Cursor} {inner : List (Loop × Pass F)}
    (h : Free p (placedInner inner)) : Event.select p (eventsInner record cursor inner) = [] :=
  select_eq_nil fun _ hevent => by
    obtain ⟨loops, hplaced, -⟩ := placed_of_mem_eventsInner hevent
    exact h _ hplaced

/-- A pass without picked actions has none in its parts. -/
theorem Free.parts {loop : Loop} {pass : Pass F} (h : Free p (placed loop pass)) :
    Free p (placedHere pass.pre) ∧ Free p (placedInner pass.inner) ∧
      Free p (placedHere pass.body) ∧ Free p (placedHere pass.post) := by
  obtain ⟨pre, body, post, inner⟩ := pass
  simp only [Free, placed, placedBelow, List.mem_append, List.mem_map] at h ⊢
  refine ⟨fun entry he => h entry (.inl (.inl he)),
    fun entry he => h (loop :: entry.1, entry.2) (.inl (.inr ⟨entry, .inl he, rfl⟩)),
    fun entry he => h (loop :: entry.1, entry.2) (.inl (.inr ⟨entry, .inr he, rfl⟩)),
    fun entry he => h entry (.inr he)⟩

theorem events_eq (record : Json) (cursor : Cursor) (loop : Loop) (pass : Pass F) :
    events record cursor loop pass =
      eventsHere cursor pass.pre ++
        (List.range (record.sizeAt (cursor.below loop.access))).flatMap (fun index =>
          eventsInner record (cursor.enter loop.access index) pass.inner ++
            eventsHere (cursor.enter loop.access index) pass.body) ++
          eventsHere cursor pass.post := by
  obtain ⟨pre, body, post, inner⟩ := pass
  rw [events]
  rfl

theorem edit_cons (f : Pass F → Pass F) (loop : Loop) (rest : List Loop) (pass : Pass F) :
    edit f (loop :: rest) pass =
      (.mk pass.pre pass.body pass.post (editInner (edit f rest) loop pass.inner).1,
        (editInner (edit f rest) loop pass.inner).2) := by
  obtain ⟨pre, body, post, inner⟩ := pass
  rfl

/-- Where nothing was picked, the picked events are those of the pass that is changed. -/
theorem eventsRoot_eq (record : Json) (pass : Pass F) :
    eventsRoot record pass =
      eventsHere {} pass.pre ++ eventsInner record {} pass.inner ++ eventsHere {} pass.body ++
        eventsHere {} pass.post := by
  obtain ⟨pre, body, post, inner⟩ := pass
  rfl

/-- An edit below lists leaves the fragments at the record alone. -/
theorem edit_fragments (f : Pass F → Pass F) (loops : List Loop) (h : loops ≠ []) (pass : Pass F) :
    (edit f loops pass).1.pre = pass.pre ∧ (edit f loops pass).1.body = pass.body ∧
      (edit f loops pass).1.post = pass.post := by
  cases loops with
  | nil => exact absurd rfl h
  | cons loop rest =>
    rw [edit_cons]
    exact ⟨rfl, rfl, rfl⟩

theorem Free.rootParts {pass : Pass F} (h : Free p (placedRoot pass)) :
    Free p (placedHere pass.pre) ∧ Free p (placedInner pass.inner) ∧
      Free p (placedHere pass.body) ∧ Free p (placedHere pass.post) := by
  obtain ⟨pre, body, post, inner⟩ := pass
  rw [placedRoot] at h
  refine ⟨fun entry hentry => h entry ?_, fun entry hentry => h entry ?_,
    fun entry hentry => h entry ?_, fun entry hentry => h entry ?_⟩ <;>
    simp_all [Pass.pre, Pass.body, Pass.post, Pass.inner]

/-- Below a list, the picked events are those of the pass that is edited. -/
theorem exists_select_editInner (record : Json) {edit : Pass F → Pass F × List String} {loop : Loop}
    {inner : List (Loop × Pass F)} (hfree : Free p (placedInner inner))
    (h : (editInner edit loop inner).2 = []) :
    ∃ pass, Free p (placed loop pass) ∧ (edit pass).2 = [] ∧ ∀ cursor,
      Event.select p (eventsInner record cursor (editInner edit loop inner).1) =
        Event.select p (events record cursor loop (edit pass).1) := by
  obtain ⟨front, pass, back, hedit, heq, hinner⟩ := exists_editInner h
  have hparts : Free p (placedInner front) ∧ Free p (placed loop pass) ∧
      Free p (placedInner back) := by
    rcases hinner with rfl | ⟨rfl, rfl, rfl⟩
    · simp only [Free, placedInner_append, placedInner, List.mem_append] at hfree ⊢
      exact ⟨fun entry he => hfree entry (.inl he), fun entry he => hfree entry (.inr (.inl he)),
        fun entry he => hfree entry (.inr (.inr he))⟩
    · exact ⟨hfree, by simp [Free], by simp [Free, placedInner]⟩
  refine ⟨pass, hparts.2.1, hedit, fun cursor => ?_⟩
  rw [heq, eventsInner_append, eventsInner, select_append, select_append,
    select_eventsInner_of_free hparts.1, select_eventsInner_of_free hparts.2.2,
    List.nil_append, List.append_nil]

/-- Adds fragments at the end of the body. -/
def pushAll (fragments : List (Fragment F)) : Pass F → Pass F
  | .mk pre body post inner => .mk pre (body ++ fragments) post inner

theorem push_body (fragment : Fragment F) : push .body fragment = pushAll [fragment] := by
  funext pass
  cases pass
  rfl

theorem pushAll_pushAll (front back : List (Fragment F)) (pass : Pass F) :
    pushAll back (pushAll front pass) = pushAll (front ++ back) pass := by
  obtain ⟨pre, body, post, inner⟩ := pass
  simp [pushAll]

/-- The events of fragments that are all picked. -/
theorem select_eventsHere_append {cursor : Cursor} {fragments added : List (Fragment F)}
    (hfree : Free p (placedHere fragments)) (hp : ∀ fragment ∈ added, p fragment.action = true) :
    Event.select p (eventsHere cursor (fragments ++ added)) = eventsHere cursor added := by
  rw [eventsHere, List.map_append, select_append]
  have hnone : Event.select p (eventsHere cursor fragments) = [] := select_eventsHere_of_free hfree
  have hall : Event.select p (eventsHere cursor added) = eventsHere cursor added := by
    refine List.filter_eq_self.mpr fun event hevent => ?_
    obtain ⟨fragment, hfragment, rfl⟩ := List.mem_map.mp hevent
    exact hp fragment hfragment
  rw [eventsHere] at hnone hall
  rw [hnone, List.nil_append, hall]
  rfl

/-- Actions added at elements are done at each of them. -/
theorem select_events_pushAll {added : List (Fragment F)}
    (hp : ∀ fragment ∈ added, p fragment.action = true) :
    ∀ (loops : List Loop) (loop : Loop) (pass : Pass F) (cursor : Cursor),
      Free p (placed loop pass) → (edit (pushAll added) loops pass).2 = [] →
        Event.select p (events record cursor loop (edit (pushAll added) loops pass).1) =
          (record.reach cursor (loop :: loops)).flatMap (eventsHere · added)
  | [], loop, .mk pre body post inner, cursor, hfree, _ => by
    obtain ⟨hpre, hinner, hbody, hpost⟩ : Free p (placedHere pre) ∧ Free p (placedInner inner) ∧
      Free p (placedHere body) ∧ Free p (placedHere post) := hfree.parts
    rw [edit, pushAll, events, select_append, select_append, select_eventsHere_of_free hpre,
      select_eventsHere_of_free hpost, select_flatMap, List.nil_append, List.append_nil,
      Json.reach, List.flatMap_assoc]
    refine List.flatMap_congr fun index _ => ?_
    rw [select_append, select_eventsInner_of_free hinner, select_eventsHere_append hbody hp,
      Json.reach, List.flatMap_singleton]
    rfl
  | next :: rest, loop, pass, cursor, hfree, h => by
    obtain ⟨hpre, hinner, hbody, hpost⟩ := hfree.parts
    rw [edit_cons] at h ⊢
    -- nothing picked stands elsewhere, so only the edited pass has to be looked at
    obtain ⟨pass', hfree', hedit, heq⟩ := exists_select_editInner record hinner h
    rw [events, select_append, select_append, select_eventsHere_of_free hpre,
      select_eventsHere_of_free hpost, select_flatMap, List.nil_append, List.append_nil,
      Json.reach, List.flatMap_assoc]
    refine List.flatMap_congr fun index _ => ?_
    rw [select_append, select_eventsHere_of_free hbody, List.append_nil, heq,
      select_events_pushAll hp rest next pass' _ hfree' hedit]

/-- Actions added at elements are done at each of them, in a whole procedure. -/
theorem select_eventsRoot_pushAll {added : List (Fragment F)}
    (hp : ∀ fragment ∈ added, p fragment.action = true) (loops : List Loop) {pass : Pass F}
    (hfree : Free p (placedRoot pass)) (h : (edit (pushAll added) loops pass).2 = []) :
    Event.select p (eventsRoot record (edit (pushAll added) loops pass).1) =
      (record.reach {} loops).flatMap (eventsHere · added) := by
  cases loops with
  | nil =>
    obtain ⟨pre, body, post, inner⟩ := pass
    obtain ⟨hpre, hinner, hbody, hpost⟩ : Free p (placedHere pre) ∧ Free p (placedInner inner) ∧
      Free p (placedHere body) ∧ Free p (placedHere post) := hfree.rootParts
    rw [edit, pushAll, eventsRoot]
    simp only [select_append]
    rw [select_eventsHere_of_free hpre, select_eventsInner_of_free hinner,
      select_eventsHere_append hbody hp, select_eventsHere_of_free hpost]
    simp [Json.reach]
  | cons loop rest =>
    obtain ⟨hpre, hinner, hbody, hpost⟩ := hfree.rootParts
    rw [edit_cons] at h ⊢
    obtain ⟨pass', hfree', hedit, heq⟩ := exists_select_editInner record hinner h
    rw [eventsRoot]
    simp only [select_append, select_eventsHere_of_free hpre, select_eventsHere_of_free hbody,
      select_eventsHere_of_free hpost, List.nil_append, List.append_nil]
    rw [heq, select_events_pushAll hp rest loop pass' {} hfree' hedit]

/-- An action added at elements is done at each of them. -/
theorem select_events_add {fragment : Fragment F} (hp : p fragment.action = true)
    (loops : List Loop) (loop : Loop) (pass : Pass F) (cursor : Cursor)
    (hfree : Free p (placed loop pass)) (h : (edit (push .body fragment) loops pass).2 = []) :
    Event.select p (events record cursor loop (edit (push .body fragment) loops pass).1) =
      (record.reach cursor (loop :: loops)).map fun inner => ⟨fragment.action, inner⟩ := by
  rw [push_body] at h ⊢
  rw [select_events_pushAll (by simpa using hp) loops loop pass cursor hfree h]
  exact List.map_eq_flatMap.symm

/-- An action added at elements is done once at each of them, in a whole procedure. -/
theorem select_eventsRoot_add {fragment : Fragment F} (hp : p fragment.action = true)
    (loops : List Loop) {pass : Pass F} (hfree : Free p (placedRoot pass))
    (h : (edit (push .body fragment) loops pass).2 = []) :
    Event.select p (eventsRoot record (edit (push .body fragment) loops pass).1) =
      (record.reach {} loops).map fun element => ⟨fragment.action, element⟩ := by
  rw [push_body] at h ⊢
  rw [select_eventsRoot_pushAll (by simpa using hp) loops hfree h]
  exact List.map_eq_flatMap.symm

/-- An action added before a list is done before anything that was there. -/
theorem select_events_push_pre {fragment : Fragment F} (hp : p fragment.action = true)
    {loop : Loop} {pass : Pass F} {cursor : Cursor} (hfree : Free p (placedHere pass.pre)) :
    Event.select p (events record cursor loop (push .pre fragment pass)) =
      ⟨fragment.action, cursor⟩ :: Event.select p (events record cursor loop pass) := by
  obtain ⟨pre, body, post, inner⟩ := pass
  have hpre : Event.select p (eventsHere cursor pre) = [] := select_eventsHere_of_free hfree
  have hsplit : eventsHere cursor (pre ++ [fragment]) =
      eventsHere cursor pre ++ [⟨fragment.action, cursor⟩] := by simp [eventsHere]
  have hnew : Event.select p [⟨fragment.action, cursor⟩] = [⟨fragment.action, cursor⟩] := by
    simp [Event.select, hp]
  rw [push, events, events, hsplit]
  simp only [select_append, hpre, hnew, List.nil_append, List.cons_append]

/-- Two changes of the pass under a loop, one after the other, are one change. -/
theorem editInner_editInner {edit edit' both : Pass F → Pass F × List String} {loop : Loop}
    (hboth : ∀ pass, (edit pass).2 = [] → (edit' (edit pass).1).2 = [] →
      edit' (edit pass).1 = both pass)
    {inner : List (Loop × Pass F)} (h : (editInner edit loop inner).2 = [])
    (h' : (editInner edit' loop (editInner edit loop inner).1).2 = []) :
    editInner edit' loop (editInner edit loop inner).1 = editInner both loop inner := by
  induction inner with
  | nil =>
    obtain ⟨-, hsecond, -⟩ := editInner_cons_of_key rfl h'
    show editInner edit' loop [(loop, (edit .empty).1)] = editInner both loop []
    simp only [editInner, if_true, hboth .empty h hsecond, List.nil_append]
  | cons entry rest ih =>
    obtain ⟨known, pass⟩ := entry
    by_cases hkey : known.key = loop.key
    · obtain ⟨rfl, hedit, heq⟩ := editInner_cons_of_key hkey h
      rw [heq] at h' ⊢
      obtain ⟨-, hedit', -⟩ := editInner_cons_of_key rfl h'
      simp only [editInner, if_true, hboth pass hedit hedit']
    · rw [editInner_cons_of_ne hkey] at h h' ⊢
      rw [editInner_cons_of_ne hkey] at h' ⊢
      rw [editInner_cons_of_ne hkey, ih h h']

/-- The change that two changes make one after the other, with the conflicts of both. -/
theorem exists_editInner_twice {edit edit' : Pass F → Pass F × List String} {loop : Loop}
    {inner : List (Loop × Pass F)} (h : (editInner edit loop inner).2 = [])
    (h' : (editInner edit' loop (editInner edit loop inner).1).2 = []) :
    ∃ both : Pass F → Pass F × List String, (∀ pass, (both pass).1 = (edit' (edit pass).1).1) ∧
      (∀ pass, (both pass).2 = [] → (edit pass).2 = [] ∧ (edit' (edit pass).1).2 = []) ∧
      (editInner both loop inner).2 = [] ∧
      (editInner both loop inner).1 = (editInner edit' loop (editInner edit loop inner).1).1 := by
  let both (pass : Pass F) : Pass F × List String :=
    ((edit' (edit pass).1).1, (edit pass).2 ++ (edit' (edit pass).1).2)
  have hboth (pass : Pass F) (hfirst : (edit pass).2 = []) (_ : (edit' (edit pass).1).2 = []) :
      edit' (edit pass).1 = both pass :=
    Prod.ext rfl ((congrArg (· ++ _) hfirst).trans (List.nil_append _)).symm
  have heq := editInner_editInner hboth h h'
  exact ⟨both, fun _ => rfl, fun pass hnone => List.append_eq_nil_iff.mp hnone, heq ▸ h',
    congrArg Prod.fst heq.symm⟩

/-- Two changes of the pass that loops lead to, one after the other. -/
theorem edit_edit (f g : Pass F → Pass F) :
    ∀ (loops : List Loop) (pass : Pass F), (edit f loops pass).2 = [] →
      (edit g loops (edit f loops pass).1).2 = [] →
        edit g loops (edit f loops pass).1 = edit (fun pass => g (f pass)) loops pass
  | [], _, _, _ => rfl
  | loop :: rest, .mk pre body post inner, h, h' => by
    have heq := editInner_editInner (edit_edit f g rest) h h'
    show (Pass.mk pre body post
        (editInner (edit g rest) loop (editInner (edit f rest) loop inner).1).1,
      (editInner (edit g rest) loop (editInner (edit f rest) loop inner).1).2) = _
    rw [heq]
    rfl

/-- What is added before a list and what is added to bodies do not meet. -/
theorem edit_push_body_push_pre (add reset : Fragment F) (loops : List Loop) (pass : Pass F) :
    edit (push .body add) loops (push .pre reset pass) =
        (push .pre reset (edit (push .body add) loops pass).1, (edit (push .body add) loops pass).2) ∧
      (edit (push .body add) loops pass).1.pre = pass.pre := by
  obtain ⟨pre, body, post, inner⟩ := pass
  cases loops <;> exact ⟨rfl, rfl⟩

/-- An action before a list and one at elements below it: for each element around the list,
the first is done there and then the second wherever the list leads. -/
theorem select_events_reset_add {reset add : Fragment F} (hreset : p reset.action = true)
    (hadd : p add.action = true) (loop : Loop) (back : List Loop) :
    ∀ (front : List Loop) (pass : Pass F) (cursor : Cursor), Free p (placedInner pass.inner) →
      (edit (push .pre reset) (front ++ [loop]) pass).2 = [] →
      (edit (push .body add) (front ++ loop :: back)
        (edit (push .pre reset) (front ++ [loop]) pass).1).2 = [] →
        Event.select p (eventsInner record cursor (edit (push .body add) (front ++ loop :: back)
          (edit (push .pre reset) (front ++ [loop]) pass).1).1.inner) =
          (record.reach cursor front).flatMap fun element =>
            ⟨reset.action, element⟩ ::
              (record.reach element (loop :: back)).map fun inner => ⟨add.action, inner⟩
  | [], pass, cursor, hfree, h, h' => by
    rw [List.nil_append, List.nil_append] at *
    rw [edit_cons] at h h' ⊢
    rw [edit_cons] at h' ⊢
    obtain ⟨both, hboth, hconflicts, hnone, heq⟩ := exists_editInner_twice h h'
    obtain ⟨pass', hfree', hedit, hselect⟩ :=
      exists_select_editInner record hfree hnone
    -- both edits end in the pass over the list, and do not see each other there
    obtain ⟨hcommute, hkept⟩ := edit_push_body_push_pre add reset back pass'
    have hback : (edit (push .body add) back (push .pre reset pass')).2 = [] :=
      (hconflicts pass' hedit).2
    rw [hcommute] at hback
    show Event.select p (eventsInner record cursor (editInner _ loop (editInner _ loop _).1).1) = _
    rw [← heq, hselect, hboth]
    show Event.select p (events record cursor loop
      (edit (push .body add) back (push .pre reset pass')).1) = _
    rw [hcommute, select_events_push_pre hreset (hkept ▸ hfree'.parts.1),
      select_events_add hadd back loop pass' cursor hfree' hback]
    simp [Json.reach]
  | first :: front, pass, cursor, hfree, h, h' => by
    rw [List.cons_append, List.cons_append] at *
    rw [edit_cons] at h h' ⊢
    rw [edit_cons] at h' ⊢
    obtain ⟨both, hboth, hconflicts, hnone, heq⟩ := exists_editInner_twice h h'
    obtain ⟨pass', hfree', hedit, hselect⟩ :=
      exists_select_editInner record hfree hnone
    obtain ⟨hfirst, hsecond⟩ := hconflicts pass' hedit
    obtain ⟨hpre, hinner, hbody, hpost⟩ := hfree'.parts
    obtain ⟨hpre₁, hbody₁, hpost₁⟩ :=
      edit_fragments (push .pre reset) (front ++ [loop]) (by simp) pass'
    obtain ⟨hpre₂, hbody₂, hpost₂⟩ := edit_fragments (push .body add) (front ++ loop :: back)
      (by simp) (edit (push .pre reset) (front ++ [loop]) pass').1
    show Event.select p (eventsInner record cursor (editInner _ first (editInner _ first _).1).1) = _
    rw [← heq, hselect, hboth, events_eq, hpre₂, hbody₂, hpost₂, hpre₁, hbody₁, hpost₁,
      select_append, select_append, select_eventsHere_of_free hpre,
      select_eventsHere_of_free hpost, select_flatMap, List.nil_append, List.append_nil,
      Json.reach, List.flatMap_assoc]
    refine List.flatMap_congr fun index _ => ?_
    rw [select_append, select_eventsHere_of_free hbody, List.append_nil,
      select_events_reset_add hreset hadd loop back front pass' _ hinner hfirst hsecond]

/-- The picked events of fragments are those of the picked fragments. -/
theorem select_eventsHere (p : F → Bool) (cursor : Cursor) (fragments : List (Fragment F)) :
    Event.select p (eventsHere cursor fragments) =
      eventsHere cursor (fragments.filter fun fragment => p fragment.action) := by
  simp only [Event.select, eventsHere, List.filter_map]
  rfl

/-- A change of a pass that leaves its inner passes and its picked fragments alone. -/
structure KeepsPicked (p : F → Bool) (f : Pass F → Pass F) : Prop where
  inner : KeepsInner f
  pre : ∀ pass, (f pass).pre.filter (fun fragment => p fragment.action) =
    pass.pre.filter fun fragment => p fragment.action
  body : ∀ pass, (f pass).body.filter (fun fragment => p fragment.action) =
    pass.body.filter fun fragment => p fragment.action
  post : ∀ pass, (f pass).post.filter (fun fragment => p fragment.action) =
    pass.post.filter fun fragment => p fragment.action

theorem keepsPicked_id (p : F → Bool) : KeepsPicked p (id : Pass F → Pass F) :=
  ⟨fun _ => rfl, fun _ => rfl, fun _ => rfl, fun _ => rfl⟩

theorem keepsPicked_push (bucket : Bucket) {fragment : Fragment F}
    (hp : p fragment.action = false) : KeepsPicked p (push bucket fragment) := by
  refine ⟨keepsInner_push bucket fragment, ?_, ?_, ?_⟩ <;>
    · rintro ⟨pre, body, post, inner⟩
      cases bucket <;> simp [push, Pass.pre, Pass.body, Pass.post, hp]

theorem free_placedHere_iff {fragments : List (Fragment F)} :
    Free p (placedHere fragments) ↔ fragments.filter (fun fragment => p fragment.action) = [] := by
  simp [Free, placedHere]

theorem Free.of_parts {loop : Loop} {pass : Pass F} (hpre : Free p (placedHere pass.pre))
    (hinner : Free p (placedInner pass.inner)) (hbody : Free p (placedHere pass.body))
    (hpost : Free p (placedHere pass.post)) : Free p (placed loop pass) := by
  obtain ⟨pre, body, post, inner⟩ := pass
  simp only [Free, placed, placedBelow, List.mem_append, List.mem_map]
  rintro entry ((he | ⟨other, he | he, rfl⟩) | he)
  · exact hpre entry he
  · exact hinner other he
  · exact hbody other he
  · exact hpost entry he

/-- Where nothing is picked, nothing is after such a change. -/
theorem free_edit {f : Pass F → Pass F} (hf : KeepsPicked p f) :
    ∀ (loops : List Loop) (loop : Loop) (pass : Pass F), (edit f loops pass).2 = [] →
      Free p (placed loop pass) → Free p (placed loop (edit f loops pass).1)
  | [], loop, pass, _, hfree => by
    obtain ⟨hpre, hinner, hbody, hpost⟩ := hfree.parts
    rw [free_placedHere_iff] at hpre hbody hpost
    refine .of_parts (free_placedHere_iff.mpr ?_) ?_ (free_placedHere_iff.mpr ?_)
      (free_placedHere_iff.mpr ?_)
    · rw [edit, hf.pre, hpre]
    · rw [edit, hf.inner]
      exact hinner
    · rw [edit, hf.body, hbody]
    · rw [edit, hf.post, hpost]
  | next :: rest, loop, pass, h, hfree => by
    rw [edit_cons] at h ⊢
    obtain ⟨hpre, hinner, hbody, hpost⟩ := hfree.parts
    refine .of_parts hpre ?_ hbody hpost
    obtain ⟨front, pass', back, hedit, heq, hfrom⟩ := exists_editInner h
    show Free p (placedInner (editInner (edit f rest) next pass.inner).1)
    rw [heq]
    have hparts : Free p (placedInner front) ∧ Free p (placed next pass') ∧
        Free p (placedInner back) := by
      -- the edited pass stood there before, or was added as an empty one
      rcases hfrom with hfrom | ⟨hfrom, rfl, rfl⟩
      · rw [hfrom] at hinner
        simp only [Free, placedInner_append, placedInner, List.mem_append] at hinner ⊢
        exact ⟨fun entry he => hinner entry (.inl he),
          fun entry he => hinner entry (.inr (.inl he)),
          fun entry he => hinner entry (.inr (.inr he))⟩
      · exact ⟨hfrom ▸ hinner, by simp [Free], by simp [Free, placedInner]⟩
    have hedited := free_edit hf rest next pass' hedit hparts.2.1
    intro entry he
    rw [placedInner_append, placedInner, List.mem_append, List.mem_append] at he
    rcases he with he | he | he
    · exact hparts.1 entry he
    · exact hedited entry he
    · exact hparts.2.2 entry he

theorem free_editRoot {f : Pass F → Pass F} (hf : KeepsPicked p f) (loops : List Loop)
    (pass : Pass F) (h : (edit f loops pass).2 = []) (hfree : Free p (placedRoot pass)) :
    Free p (placedRoot (edit f loops pass).1) := by
  obtain ⟨hpre, hinner, hbody, hpost⟩ := hfree.rootParts
  -- which list the pass goes through does not matter
  have hplaced := free_edit hf loops ⟨"", []⟩ pass h (.of_parts hpre hinner hbody hpost)
  obtain ⟨hpre', hinner', hbody', hpost'⟩ := hplaced.parts
  generalize (edit f loops pass).1 = edited at hpre' hinner' hbody' hpost' ⊢
  obtain ⟨pre, body, post, inner⟩ := edited
  intro entry hentry
  simp only [placedRoot, List.mem_append] at hentry
  rcases hentry with ((he | he) | he) | he
  · exact hpre' entry he
  · exact hinner' entry he
  · exact hbody' entry he
  · exact hpost' entry he

/-- Actions that are not picked do not change which events are. -/
theorem select_events_edit {f : Pass F → Pass F} (hf : KeepsPicked p f) :
    ∀ (loops : List Loop) (loop : Loop) (pass : Pass F) (cursor : Cursor),
      (edit f loops pass).2 = [] →
        Event.select p (events record cursor loop (edit f loops pass).1) =
          Event.select p (events record cursor loop pass)
  | [], loop, pass, cursor, _ => by
    rw [edit, events_eq, events_eq, hf.inner]
    simp only [select_append, select_flatMap, select_eventsHere, hf.pre, hf.body, hf.post]
  | next :: rest, loop, pass, cursor, h => by
    rw [edit_cons] at h ⊢
    obtain ⟨front, pass', back, hedit, heq, hinner⟩ := exists_editInner h
    -- the edited pass has the same picked events as before, wherever it stands
    have hsame : ∀ element, Event.select p (eventsInner record element
        (editInner (edit f rest) next pass.inner).1) =
          Event.select p (eventsInner record element pass.inner) := fun element => by
      rw [heq, eventsInner_append, eventsInner, select_append, select_append,
        select_events_edit hf rest next pass' element hedit]
      rcases hinner with hinner | ⟨hinner, rfl, rfl⟩
      · rw [hinner, eventsInner_append, eventsInner, select_append, select_append]
      · rw [hinner, events_empty, eventsInner]
        simp [Event.select]
    rw [events, events_eq]
    simp only [select_append, select_flatMap, hsame]

/-- Actions that are not picked do not change which events of a procedure are. -/
theorem select_eventsRoot_edit {f : Pass F → Pass F} (hf : KeepsPicked p f) (loops : List Loop)
    (pass : Pass F) (h : (edit f loops pass).2 = []) :
    Event.select p (eventsRoot record (edit f loops pass).1) =
      Event.select p (eventsRoot record pass) := by
  cases loops with
  | nil =>
    rw [edit, eventsRoot_eq, eventsRoot_eq, hf.inner]
    simp only [select_append, select_eventsHere, hf.pre, hf.body, hf.post]
  | cons loop rest =>
    rw [edit_cons] at h ⊢
    obtain ⟨front, pass', back, hedit, heq, hinner⟩ := exists_editInner h
    obtain ⟨pre, body, post, inner⟩ := pass
    simp only [eventsRoot, select_append, Pass.pre, Pass.body, Pass.post, Pass.inner] at *
    rw [heq, eventsInner_append, eventsInner, select_append, select_append,
      select_events_edit hf rest loop pass' {} hedit]
    rcases hinner with hinner | ⟨hinner, rfl, rfl⟩
    · rw [hinner, eventsInner_append, eventsInner, select_append, select_append]
    · rw [hinner, events_empty, eventsInner]
      simp [Event.select]

end Select

end Pass

namespace Scaffold

variable {F : Type}

/-- The actions added to a scaffold, each with its loops, bucket and action; nothing has been
in conflict. -/
structure Assembled (scaffold : Scaffold F) (added : List (List Loop × Bucket × F)) : Prop where
  conflicts : scaffold.conflicts = []
  placed : scaffold.root.placedRoot.Perm
    (added.map fun entry => (entry.2.1.loops entry.1, entry.2.2))
  lists : ∀ list ∈ Pass.listsInner scaffold.root.inner, ∃ entry ∈ added, list <+: entry.1

theorem assembled_start (name : String) : Assembled { name : Scaffold F } [] :=
  ⟨rfl, List.Perm.refl _, by simp [Pass.empty, Pass.inner, Pass.listsInner]⟩

/-- A scaffold that is free of conflicts was so before its last fragment. -/
theorem conflicts_of_add {scaffold : Scaffold F} {loops : List Loop} {bucket : Bucket}
    {label : String} {action : F} (h : (scaffold.add loops bucket label action).conflicts = []) :
    scaffold.conflicts = [] ∧
      (Pass.edit (Pass.push bucket ⟨label, action⟩) loops scaffold.root).2 = [] :=
  List.append_eq_nil_iff.mp h

/-- A fragment that is added without a conflict adds its action. -/
theorem Assembled.add {scaffold : Scaffold F} {added : List (List Loop × Bucket × F)}
    (h : scaffold.Assembled added) {loops : List Loop} {bucket : Bucket} {label : String}
    {action : F} (hconflicts : (scaffold.add loops bucket label action).conflicts = []) :
    (scaffold.add loops bucket label action).Assembled (added ++ [(loops, bucket, action)]) where
  conflicts := hconflicts
  placed := by
    rw [List.map_append]
    exact (Pass.placedRoot_edit bucket ⟨label, action⟩ loops scaffold.root
      (conflicts_of_add hconflicts).2).trans (h.placed.append_right _)
  lists list hlist := by
    rcases Pass.listsInner_edit (Pass.keepsInner_push bucket ⟨label, action⟩) loops scaffold.root
      (conflicts_of_add hconflicts).2 list hlist with hold | hnew
    · obtain ⟨entry, hentry, hstart⟩ := h.lists list hold
      exact ⟨entry, List.mem_append_left _ hentry, hstart⟩
    · exact ⟨_, List.mem_append_right _ (List.mem_singleton_self _), hnew⟩

/-- A finished program is the scaffold without passes that do nothing. -/
theorem root_of_synthesize {scaffold : Scaffold F} {program : Program F}
    (h : scaffold.synthesize = .ok program) :
    scaffold.conflicts = [] ∧ program.root = scaffold.root.prune := by
  unfold synthesize at h
  split at h
  · cases h
  · next hconflicts =>
    split at h
    · cases h
    · cases h
      exact ⟨hconflicts, rfl⟩

theorem placed_of_synthesize {scaffold : Scaffold F} {program : Program F}
    (h : scaffold.synthesize = .ok program) : program.placed = scaffold.root.placedRoot := by
  rw [Program.placed, (root_of_synthesize h).2]
  obtain ⟨pre, body, post, inner⟩ := scaffold.root
  rw [Pass.prune, Pass.placedRoot, Pass.placedRoot, Pass.placedInner_prune]

/-- The program places the actions added, and nothing else. -/
theorem Assembled.placed_program {scaffold : Scaffold F}
    {added : List (List Loop × Bucket × F)} {program : Program F} (h : scaffold.Assembled added)
    (hprogram : scaffold.synthesize = .ok program) :
    program.placed.Perm (added.map fun entry => (entry.2.1.loops entry.1, entry.2.2)) := by
  rw [placed_of_synthesize hprogram]
  exact h.placed

/-- The program goes through lists of the loops that were added. -/
theorem Assembled.lists_program {scaffold : Scaffold F}
    {added : List (List Loop × Bucket × F)} {program : Program F} (h : scaffold.Assembled added)
    (hprogram : scaffold.synthesize = .ok program) :
    ∀ list ∈ Pass.listsInner program.root.inner, ∃ entry ∈ added, list <+: entry.1 := by
  intro list hlist
  rw [(root_of_synthesize hprogram).2] at hlist
  refine h.lists list ?_
  generalize scaffold.root = root at hlist ⊢
  obtain ⟨pre, body, post, inner⟩ := root
  rw [Pass.prune] at hlist
  exact Pass.listsInner_prune_subset inner list hlist

theorem events_of_synthesize {scaffold : Scaffold F} {program : Program F}
    (h : scaffold.synthesize = .ok program) (record : Json) :
    program.events record = scaffold.root.eventsRoot record := by
  rw [Program.events, (root_of_synthesize h).2]
  obtain ⟨pre, body, post, inner⟩ := scaffold.root
  rw [Pass.prune, Pass.eventsRoot, Pass.eventsRoot, Pass.eventsInner_prune]

end Scaffold

end NestedRecord
