import NestedRecord.Proofs.Procedure.Assembly

/-!
# The order of events

Fragments that are added to one bucket of one pass are run in the order in which they were added,
and everything inside an element is done before the body at the element.

- `Pass.Filed` says of a pass that its buckets hold what was added there, in that order, and that
  its inner passes go over different lists. `Scaffold.Arranged` says it of all passes of a scaffold.
- `Arranged.add` extends it.
- `Precedes` is the condition for actions at elements to be done before others there, and
  `Arranged.pairwise_events` the order of the events that follows from it.

Two events at one element are in the order of their fragments if these stand in one pass; otherwise
one of them was done further inside, and what is inside comes before the body. The statement is
therefore about pairs of events, `Pairwise`, with one exception: an early event may follow a late
one if it is done at or inside another element, which `NotInside` rules out.
-/

namespace NestedRecord

namespace Pass

variable {F : Type} {added : List (List Loop × Bucket × F)} {here : List Loop}

/-- The actions of a bucket, in order. -/
def actions (bucket : Bucket) (pass : Pass F) : List F :=
  match bucket with
  | .pre => pass.pre.map (·.action)
  | .body => pass.body.map (·.action)
  | .post => pass.post.map (·.action)

/-- The pass over the lists of `here` goes on into different lists, and its buckets hold what was
added there, in the order in which it was added. -/
structure Filed (added : List (List Loop × Bucket × F)) (here : List Loop) (pass : Pass F) :
    Prop where
  keys : (pass.inner.map (·.1.key)).Nodup
  actions : ∀ bucket, (pass.actions bucket).Sublist
    ((added.filter fun entry => entry.1 = here ∧ entry.2.1 = bucket).map (·.2.2))

mutual

/-- A property of a pass and of all passes inside it, each with the loops to its list. -/
def Every (p : List Loop → Pass F → Prop) (here : List Loop) : Pass F → Prop
  | .mk pre body post inner => p here (.mk pre body post inner) ∧ EveryInner p here inner
termination_by structural pass => pass

/-- A property of passes over lists and of all passes inside them. -/
def EveryInner (p : List Loop → Pass F → Prop) (here : List Loop) : List (Loop × Pass F) → Prop
  | [] => True
  | (loop, pass) :: rest => Every p (here ++ [loop]) pass ∧ EveryInner p here rest
termination_by structural inner => inner

end

/-- What all inner passes have, each of them has. -/
theorem everyInner_iff {p : List Loop → Pass F → Prop} {inner : List (Loop × Pass F)} :
    EveryInner p here inner ↔ ∀ entry ∈ inner, Every p (here ++ [entry.1]) entry.2 := by
  induction inner with
  | nil => simp [EveryInner]
  | cons entry rest ih =>
    obtain ⟨loop, pass⟩ := entry
    rw [EveryInner, ih, List.forall_mem_cons]

mutual

theorem Every.mono {p q : List Loop → Pass F → Prop}
    (h : ∀ {here pass}, p here pass → q here pass) :
    ∀ {here : List Loop} {pass : Pass F}, Every p here pass → Every q here pass
  | _, .mk _ _ _ _, ⟨hpass, hinner⟩ => ⟨h hpass, EveryInner.mono h hinner⟩
termination_by structural _ pass => pass

theorem EveryInner.mono {p q : List Loop → Pass F → Prop}
    (h : ∀ {here pass}, p here pass → q here pass) :
    ∀ {here : List Loop} {inner : List (Loop × Pass F)}, EveryInner p here inner →
      EveryInner q here inner
  | _, [], _ => trivial
  | _, (_, _) :: _, ⟨hfirst, hrest⟩ => ⟨Every.mono h hfirst, EveryInner.mono h hrest⟩
termination_by structural _ inner => inner

end

/-- What all passes have, the outer one has and all inner ones. -/
theorem Every.parts {p : List Loop → Pass F → Prop} {pass : Pass F} (h : Every p here pass) :
    p here pass ∧ EveryInner p here pass.inner := by
  obtain ⟨pre, body, post, inner⟩ := pass
  exact h

/-! ## Adding a fragment -/

theorem Filed.mono {pass : Pass F} (h : Filed added here pass)
    (entry : List Loop × Bucket × F) : Filed (added ++ [entry]) here pass where
  keys := h.keys
  actions bucket := by
    rw [List.filter_append, List.map_append]
    exact (h.actions bucket).trans (List.sublist_append_left _ _)

theorem filed_empty : Filed added here (.empty : Pass F) where
  keys := List.nodup_nil
  actions bucket := by
    cases bucket <;> exact List.nil_sublist _

theorem actions_push_self (bucket : Bucket) (fragment : Fragment F) (pass : Pass F) :
    (push bucket fragment pass).actions bucket = pass.actions bucket ++ [fragment.action] := by
  obtain ⟨pre, body, post, inner⟩ := pass
  cases bucket <;> exact List.map_append

theorem actions_push_of_ne {bucket other : Bucket} (hne : other ≠ bucket) (fragment : Fragment F)
    (pass : Pass F) : (push bucket fragment pass).actions other = pass.actions other := by
  obtain ⟨pre, body, post, inner⟩ := pass
  cases bucket <;> cases other <;> first | rfl | exact absurd rfl hne

/-- A fragment that is added to a pass is the last of its bucket. -/
theorem Filed.push {pass : Pass F} (h : Filed added here pass) (bucket : Bucket)
    (fragment : Fragment F) :
    Filed (added ++ [(here, bucket, fragment.action)]) here (push bucket fragment pass) where
  keys := by
    rw [keepsInner_push bucket fragment pass]
    exact h.keys
  actions other := by
    by_cases hother : other = bucket
    · subst hother
      rw [actions_push_self, List.filter_append, List.map_append]
      exact (h.actions other).append (by simp)
    · rw [actions_push_of_ne hother]
      exact (h.mono _).actions other

/-- An edit enters one list at most. -/
theorem keys_editInner (edit : Pass F → Pass F × List String) (loop : Loop)
    (inner : List (Loop × Pass F)) :
    (editInner edit loop inner).1.map (·.1.key) =
      if loop.key ∈ inner.map (·.1.key) then inner.map (·.1.key)
      else inner.map (·.1.key) ++ [loop.key] := by
  induction inner with
  | nil => rfl
  | cons entry rest ih =>
    obtain ⟨known, pass⟩ := entry
    by_cases hkey : known.key = loop.key
    · simp [editInner, hkey]
    · have hne : loop.key ≠ known.key := Ne.symm hkey
      rw [editInner_cons_of_ne hkey, List.map_cons, ih]
      by_cases hmem : loop.key ∈ rest.map (·.1.key)
      · simp [hmem]
      · simp [hmem, hne]

/-- Different passes stay passes over different lists. -/
theorem nodup_keys_editInner {edit : Pass F → Pass F × List String} {loop : Loop}
    {inner : List (Loop × Pass F)} (h : (inner.map (·.1.key)).Nodup) :
    ((editInner edit loop inner).1.map (·.1.key)).Nodup := by
  rw [keys_editInner]
  split
  · exact h
  · next hnot =>
    exact (List.perm_append_singleton _ _).nodup_iff.mpr (List.nodup_cons.mpr ⟨hnot, h⟩)

/-- A fragment that is added where loops lead to is the last of its bucket there. -/
theorem every_filed_edit (bucket : Bucket) (fragment : Fragment F) :
    ∀ (rest here : List Loop) (pass : Pass F), Every (Filed added) here pass →
      (edit (push bucket fragment) rest pass).2 = [] →
        Every (Filed (added ++ [(here ++ rest, bucket, fragment.action)])) here
          (edit (push bucket fragment) rest pass).1
  | [], here, pass, h, _ => by
    obtain ⟨hfiled, hinner⟩ := h.parts
    have hpushed := hfiled.push bucket fragment
    rw [List.append_nil]
    have hkeeps : (push bucket fragment pass).inner = pass.inner :=
      keepsInner_push bucket fragment pass
    show Every _ here (push bucket fragment pass)
    generalize push bucket fragment pass = pushed at hpushed hkeeps ⊢
    obtain ⟨pre, body, post, inner⟩ := pushed
    obtain rfl : inner = pass.inner := hkeeps
    exact ⟨hpushed, hinner.mono fun hbelow => hbelow.mono _⟩
  | loop :: rest, here, .mk pre body post inner, h, hconflicts => by
    obtain ⟨hfiled, hinner⟩ := h
    rw [edit_cons] at hconflicts ⊢
    -- the pass that is edited stood among the inner ones, or is an empty one added behind them
    obtain ⟨front, below, back, hedit, heq, hbefore⟩ := exists_editInner hconflicts
    replace hbefore : inner = front ++ (loop, below) :: back ∨
        inner = front ∧ below = .empty ∧ back = [] := hbefore
    rw [everyInner_iff] at hinner
    have hmono : ∀ {entry : Loop × Pass F}, Every (Filed added) (here ++ [entry.1]) entry.2 →
        Every (Filed (added ++ [(here ++ loop :: rest, bucket, fragment.action)]))
          (here ++ [entry.1]) entry.2 := fun hentry => hentry.mono fun hbelow => hbelow.mono _
    have hbelow : Every (Filed added) (here ++ [loop]) below := by
      rcases hbefore with rfl | ⟨-, rfl, -⟩
      · exact hinner (loop, below) (by simp)
      · exact ⟨filed_empty, trivial⟩
    have hedited := every_filed_edit bucket fragment rest (here ++ [loop]) below hbelow hedit
    rw [List.append_assoc, List.singleton_append] at hedited
    refine ⟨⟨nodup_keys_editInner hfiled.keys, (hfiled.mono _).actions⟩, ?_⟩
    rw [heq, everyInner_iff]
    intro entry hentry
    rcases List.mem_append.mp hentry with hfront | hrest
    · refine hmono (hinner entry ?_)
      rcases hbefore with rfl | ⟨rfl, -, -⟩
      · exact List.mem_append_left _ hfront
      · exact hfront
    rcases List.mem_cons.mp hrest with rfl | hback
    · exact hedited
    · refine hmono (hinner entry ?_)
      rcases hbefore with rfl | ⟨rfl, -, rfl⟩
      · exact List.mem_append_right _ (List.mem_cons_of_mem _ hback)
      · cases hback

/-! ## The order of events -/

section Order

variable {record : Json}

/-- An event at the element of a cursor is no event at or inside another one's element. -/
def NotInside (first second : Event F) : Prop := ¬ first.cursor.entered <+: second.cursor.entered

/-- `late` actions are added for the elements that `loops` reach, `early` ones for these elements or
further inside, and to the same bucket only before the `late` ones. -/
structure Precedes (added : List (List Loop × Bucket × F)) (loops : List Loop)
    (early late : F → Bool) : Prop where
  bodies : ∀ entry ∈ added, late entry.2.2 = true → entry.1 = loops ∧ entry.2.1 = .body
  inside : ∀ entry ∈ added, early entry.2.2 = true → loops <+: entry.1 ∧ entry.2.1 ≠ .post
  ordered : added.Pairwise fun first second =>
    late first.2.2 = true → early second.2.2 = true → second.1 ≠ loops

theorem Filed.exists_added {pass : Pass F} (h : Filed added here pass) {bucket : Bucket}
    {action : F} (haction : action ∈ pass.actions bucket) :
    ∃ entry ∈ added, entry.1 = here ∧ entry.2.1 = bucket ∧ entry.2.2 = action := by
  obtain ⟨entry, hentry, rfl⟩ := List.mem_map.mp ((h.actions bucket).subset haction)
  rw [List.mem_filter, decide_eq_true_eq] at hentry
  exact ⟨entry, hentry.1, hentry.2.1, hentry.2.2, rfl⟩

theorem action_of_mem_eventsHere {cursor : Cursor} {fragments : List (Fragment F)}
    {event : Event F} (h : event ∈ eventsHere cursor fragments) :
    event.action ∈ fragments.map (·.action) ∧ event.cursor = cursor := by
  obtain ⟨fragment, hfragment, rfl⟩ := List.mem_map.mp h
  exact ⟨List.mem_map_of_mem hfragment, rfl⟩

mutual

/-- The events of a pass are actions added there or inside. -/
theorem added_of_mem_events {cursor : Cursor} {loop : Loop} :
    ∀ {pass : Pass F} {here : List Loop} {event : Event F}, Every (Filed added) here pass →
      event ∈ events record cursor loop pass →
        ∃ entry ∈ added, entry.2.2 = event.action ∧ here <+: entry.1
  | .mk pre body post inner, here, event, h, hevent => by
    obtain ⟨hfiled, hinner⟩ := h
    have hbucket : ∀ bucket : Bucket,
        event.action ∈ (Pass.mk pre body post inner).actions bucket →
          ∃ entry ∈ added, entry.2.2 = event.action ∧ here <+: entry.1 := fun bucket haction => by
      obtain ⟨entry, hentry, rfl, -, heq⟩ := hfiled.exists_added haction
      exact ⟨entry, hentry, heq, List.prefix_refl _⟩
    simp only [events, List.mem_append, List.mem_flatMap] at hevent
    rcases hevent with (hpre | ⟨index, -, hbelow | hbody⟩) | hpost
    · exact hbucket .pre (action_of_mem_eventsHere hpre).1
    · obtain ⟨entry, hentry, heq, loop', -, hstart⟩ := added_of_mem_eventsInner hinner hbelow
      exact ⟨entry, hentry, heq, (List.prefix_append _ _).trans hstart⟩
    · exact hbucket .body (action_of_mem_eventsHere hbody).1
    · exact hbucket .post (action_of_mem_eventsHere hpost).1
termination_by structural pass => pass

/-- The events below a pass are actions added further inside. -/
theorem added_of_mem_eventsInner {cursor : Cursor} :
    ∀ {inner : List (Loop × Pass F)} {here : List Loop} {event : Event F},
      EveryInner (Filed added) here inner → event ∈ eventsInner record cursor inner →
        ∃ entry ∈ added, entry.2.2 = event.action ∧
          ∃ loop ∈ inner.map (·.1), here ++ [loop] <+: entry.1
  | [], _, _, _, hevent => by simp [eventsInner] at hevent
  | (loop, pass) :: rest, here, event, h, hevent => by
    obtain ⟨hfirst, hrest⟩ := h
    rw [eventsInner, List.mem_append] at hevent
    rcases hevent with hevent | hevent
    · obtain ⟨entry, hentry, heq, hstart⟩ := added_of_mem_events hfirst hevent
      exact ⟨entry, hentry, heq, loop, List.mem_cons_self, hstart⟩
    · obtain ⟨entry, hentry, heq, loop', hloop', hstart⟩ := added_of_mem_eventsInner hrest hevent
      exact ⟨entry, hentry, heq, loop', List.mem_cons_of_mem _ hloop', hstart⟩
termination_by structural inner => inner

end

variable {loops : List Loop} {early late : F → Bool}

/-- The events of one bucket at one element. -/
theorem Precedes.pairwise_eventsHere (h : Precedes added loops early late) {pass : Pass F}
    (hfiled : Filed added here pass) (bucket : Bucket) {fragments : List (Fragment F)}
    (hfragments : fragments.map (·.action) = pass.actions bucket) (cursor : Cursor) :
    (eventsHere cursor fragments).Pairwise fun first second =>
      late first.action = true → early second.action = true → NotInside first second := by
  have hadded : (added.filter fun entry => entry.1 = here ∧ entry.2.1 = bucket).Pairwise
      fun first second => late first.2.2 = true → early second.2.2 = true → False := by
    refine (h.ordered.sublist List.filter_sublist).imp_of_mem fun {first second} hfirst hsecond
      hordered hlate hearly => hordered hlate hearly ?_
    rw [List.mem_filter, decide_eq_true_eq] at hfirst hsecond
    rw [hsecond.2.1, ← hfirst.2.1]
    exact (h.bodies first hfirst.1 hlate).1
  have hactions := (List.pairwise_map.mpr hadded :
    List.Pairwise (fun first second => late first = true → early second = true → False) _).sublist
      (hfiled.actions bucket)
  rw [← hfragments] at hactions
  exact List.pairwise_map.mpr ((List.pairwise_map.mp hactions).imp fun hnot hlate hearly =>
    (hnot hlate hearly).elim)

/-- A late event of a bucket comes from a body at one of the elements. -/
theorem Precedes.body_of_late (h : Precedes added loops early late) {pass : Pass F}
    (hfiled : Filed added here pass) (bucket : Bucket) {fragments : List (Fragment F)}
    (hfragments : fragments.map (·.action) = pass.actions bucket) {cursor : Cursor}
    {event : Event F} (hevent : event ∈ eventsHere cursor fragments)
    (hlate : late event.action = true) : here = loops ∧ bucket = .body := by
  obtain ⟨entry, hentry, rfl, rfl, heq⟩ :=
    hfiled.exists_added (hfragments ▸ (action_of_mem_eventsHere hevent).1)
  exact h.bodies entry hentry (heq ▸ hlate)

/-- An early event of a bucket comes from at or inside one of the elements, and not from what
is done behind it. -/
theorem Precedes.inside_of_early (h : Precedes added loops early late) {pass : Pass F}
    (hfiled : Filed added here pass) (bucket : Bucket) {fragments : List (Fragment F)}
    (hfragments : fragments.map (·.action) = pass.actions bucket) {cursor : Cursor}
    {event : Event F} (hevent : event ∈ eventsHere cursor fragments)
    (hearly : early event.action = true) : loops <+: here ∧ bucket ≠ .post := by
  obtain ⟨entry, hentry, rfl, rfl, heq⟩ :=
    hfiled.exists_added (hfragments ▸ (action_of_mem_eventsHere hevent).1)
  exact h.inside entry hentry (heq ▸ hearly)

/-- Nothing late is done inside the elements. -/
theorem Precedes.not_late_of_inner (h : Precedes added loops early late)
    {inner : List (Loop × Pass F)} (hinner : EveryInner (Filed added) here inner)
    (hhere : loops <+: here) {cursor : Cursor} {event : Event F}
    (hevent : event ∈ eventsInner record cursor inner) : late event.action ≠ true := by
  intro hlate
  obtain ⟨entry, hentry, heq, loop, -, hstart⟩ := added_of_mem_eventsInner hinner hevent
  rw [(h.bodies entry hentry (heq ▸ hlate)).1] at hstart
  have hlength := (hstart.trans hhere).length_le
  rw [List.length_append, List.length_singleton] at hlength
  omega

mutual

/-- In a pass, nothing early comes behind something late at the same element. -/
theorem Precedes.pairwise_events (h : Precedes added loops early late) :
    ∀ {pass : Pass F} {here : List Loop} {cursor : Cursor} {loop : Loop},
      Every (Filed added) here pass →
        (events record cursor loop pass).Pairwise fun first second =>
          late first.action = true → early second.action = true → NotInside first second
  | .mk pre body post inner, here, cursor, loop, hevery => by
    obtain ⟨hfiled, hinner⟩ := hevery
    rw [events, List.pairwise_append, List.pairwise_append, List.pairwise_flatMap]
    refine ⟨⟨h.pairwise_eventsHere hfiled .pre rfl cursor, ⟨fun index _ => ?_, ?_⟩,
      fun first hfirst second _ hlate => nomatch (h.body_of_late hfiled .pre rfl hfirst hlate).2⟩,
      h.pairwise_eventsHere hfiled .post rfl cursor,
      fun first _ second hsecond _ hearly =>
        absurd rfl (h.inside_of_early hfiled .post rfl hsecond hearly).2⟩
    · -- at one element the inner passes come before the body
      rw [List.pairwise_append]
      refine ⟨h.pairwise_eventsInner hinner hfiled.keys,
        h.pairwise_eventsHere hfiled .body rfl _, fun first hfirst second hsecond hlate hearly => ?_⟩
      have hhere := (h.inside_of_early hfiled .body rfl hsecond hearly).1
      exact absurd hlate (h.not_late_of_inner hinner hhere hfirst)
    · -- different elements of the list lie apart
      have habove : ∀ {index : Nat} {event : Event F},
          event ∈ eventsInner record (cursor.enter loop.access index) inner ++
            eventsHere (cursor.enter loop.access index) body →
          (cursor.enter loop.access index).entered <+: event.cursor.entered := by
        intro index event hevent
        rcases List.mem_append.mp hevent with hbelow | hbody
        · obtain ⟨loops', -, hunder⟩ := placed_of_mem_eventsInner hbelow
          exact hunder.entered_above
        · exact (action_of_mem_eventsHere hbody).2 ▸ List.prefix_refl _
      exact List.pairwise_lt_range.imp fun hlt first hfirst second hsecond _ _ hstart =>
        Nat.ne_of_lt hlt
          (Cursor.index_eq_of_above ((habove hfirst).trans hstart) (habove hsecond))
termination_by structural pass => pass

/-- Below a list, nothing early comes behind something late at the same element. -/
theorem Precedes.pairwise_eventsInner (h : Precedes added loops early late) :
    ∀ {inner : List (Loop × Pass F)} {here : List Loop} {cursor : Cursor},
      EveryInner (Filed added) here inner → (inner.map (·.1.key)).Nodup →
        (eventsInner record cursor inner).Pairwise fun first second =>
          late first.action = true → early second.action = true → NotInside first second
  | [], _, _, _, _ => List.Pairwise.nil
  | (loop, pass) :: rest, here, cursor, hevery, hkeys => by
    obtain ⟨hfirst, hrest⟩ := hevery
    obtain ⟨hnot, hnodup⟩ := List.nodup_cons.mp hkeys
    rw [eventsInner, List.pairwise_append]
    refine ⟨h.pairwise_events hfirst, h.pairwise_eventsInner hrest hnodup,
      fun first hmem second hmem' hlate hearly => ?_⟩
    -- both would stand in the pass over the same list
    exfalso
    obtain ⟨entry, hentry, heq, hstart⟩ := added_of_mem_events hfirst hmem
    obtain ⟨entry', hentry', heq', loop', hloop', hstart'⟩ := added_of_mem_eventsInner hrest hmem'
    rw [(h.bodies entry hentry (heq ▸ hlate)).1] at hstart
    have hboth := List.prefix_of_prefix_length_le
      (hstart.trans (h.inside entry' hentry' (heq' ▸ hearly)).1) hstart' (by simp)
    have hloops := hboth.eq_of_length (by simp)
    rw [List.append_cancel_left_eq, List.cons.injEq] at hloops
    obtain ⟨other, hother, rfl⟩ := List.mem_map.mp hloop'
    exact hnot (List.mem_map.mpr ⟨other, hother, by rw [hloops.1]⟩)
termination_by structural inner => inner

end

/-- In a whole procedure, nothing early comes behind something late at the same element. -/
theorem Precedes.pairwise_eventsRoot (h : Precedes added loops early late) {pass : Pass F}
    (hevery : Every (Filed added) [] pass) :
    (eventsRoot record pass).Pairwise fun first second =>
      late first.action = true → early second.action = true → NotInside first second := by
  obtain ⟨pre, body, post, inner⟩ := pass
  obtain ⟨hfiled, hinner⟩ := hevery
  simp only [eventsRoot, List.pairwise_append]
  refine ⟨⟨⟨h.pairwise_eventsHere hfiled .pre rfl {}, h.pairwise_eventsInner hinner hfiled.keys,
    fun first hfirst second _ hlate => nomatch (h.body_of_late hfiled .pre rfl hfirst hlate).2⟩,
    h.pairwise_eventsHere hfiled .body rfl {}, fun first hfirst second hsecond hlate hearly => ?_⟩,
    h.pairwise_eventsHere hfiled .post rfl {},
    fun first _ second hsecond _ hearly =>
      absurd rfl (h.inside_of_early hfiled .post rfl hsecond hearly).2⟩
  -- what comes before the body of the record stands before it or inside a list
  rcases List.mem_append.mp hfirst with hfirst | hfirst
  · exact nomatch (h.body_of_late hfiled .pre rfl hfirst hlate).2
  · have hhere := (h.inside_of_early hfiled .body rfl hsecond hearly).1
    exact absurd hlate (h.not_late_of_inner hinner hhere hfirst)

end Order

end Pass

namespace Scaffold

variable {F : Type} {scaffold : Scaffold F} {added : List (List Loop × Bucket × F)}

/-- The passes of a scaffold hold what was added, each in its place and its order. -/
structure Arranged (scaffold : Scaffold F) (added : List (List Loop × Bucket × F)) : Prop where
  conflicts : scaffold.conflicts = []
  filed : Pass.Every (Pass.Filed added) [] scaffold.root

theorem arranged_start (name : String) : Arranged { name : Scaffold F } [] :=
  ⟨rfl, Pass.filed_empty, trivial⟩

/-- Adding a fragment keeps the scaffold arranged. -/
theorem Arranged.add (h : scaffold.Arranged added) {loops : List Loop} {bucket : Bucket}
    {label : String} {action : F}
    (hconflicts : (scaffold.add loops bucket label action).conflicts = []) :
    (scaffold.add loops bucket label action).Arranged (added ++ [(loops, bucket, action)]) := by
  obtain ⟨-, hedit⟩ := conflicts_of_add hconflicts
  exact ⟨hconflicts, Pass.every_filed_edit bucket ⟨label, action⟩ loops [] scaffold.root h.filed
    hedit⟩

/-- In a run, nothing early comes behind something late at the same element. -/
theorem Arranged.pairwise_events (h : scaffold.Arranged added) {program : Program F}
    (hprogram : scaffold.synthesize = .ok program) {loops : List Loop} {early late : F → Bool}
    (hprecedes : Pass.Precedes added loops early late) (record : Json) :
    (program.events record).Pairwise fun first second =>
      late first.action = true → early second.action = true → Pass.NotInside first second := by
  rw [events_of_synthesize hprogram]
  exact hprecedes.pairwise_eventsRoot h.filed

end Scaffold

end NestedRecord
