import NestedRecord.Proofs.Procedure.Settling
import NestedRecord.Proofs.Store.Compiled
import NestedRecord.Proofs.Text.Matching

/-!
# Filters search for one value that passes

A filter passes exactly if one of the values at its path does: of every list on the way any element
may be taken, and of a list of compared values any one.

The program of a filter is one loop nest with one look at a value inside, and it may stop early.
Both ways of running it are taken to the list of its events: whether there is one that finds a value
which passes depends on the elements that the loops reach, and these are the instances of the
declared path. What a matcher remembers from one look to the next is a parameter, as long as its
answers do not depend on it.

* `Flattened.Finds` are the values at a path, read off the declared levels.
* `FilterOperator.passes` says when a value passes, with what a matcher answers as a parameter.
* `Filter.found_run`: a search that stops at the first value that passes answers as one that looks
  at all of them.
* `Filter.search_iff` is the result; a list of compared values is tested as its elements are.
-/

namespace NestedRecord

open Fields (get?)

/-! ## The values at a path -/

/-- A value stands at a path: at one of the locations that the path has, whichever element is taken
of each list. -/
def Flattened.Finds (flattened : Flattened) (path : String) (record found : Json) : Prop :=
  ∃ root location, get? flattened.nodes flattened.root = some root ∧
    Resolver.Instance { nodes := flattened.nodes } root (segments path) location ∧
    record.locate? location = some found

/-- The values at a declared path are those below the elements that its loops reach. -/
theorem Blueprint.finds_iff {blueprint : Blueprint} (hlevels : blueprint.LevelsDeclared)
    {path : String} {resolved : ResolvedPath} (h : blueprint.resolveStrict path = .ok resolved)
    {record found : Json} :
    blueprint.flattened.Finds path record found ↔
      ∃ cursor ∈ record.reach {} resolved.loops, cursor.get? record resolved.leaf = some found := by
  obtain ⟨root, hroot, hwalk⟩ := Resolver.walk?_of_resolve h
  have hnode : get? blueprint.flattened.nodes blueprint.flattened.root = some root := by
    simpa [Resolver.node?] using hroot
  have hvirtual := (leads_of_strict hlevels h).2.2.2
  -- an instance of the path is a leaf below an element that is reached, and the other way round
  constructor
  · rintro ⟨root', location, hroot', hinstance, hlocate⟩
    obtain rfl : root = root' := Option.some.inj (hnode.symm.trans hroot')
    obtain ⟨cursor, hfits, rfl⟩ := (Resolver.instance_iff_of_walk? hwalk hvirtual).mp hinstance
    refine ⟨cursor, Json.mem_reach_root.mpr ⟨hfits, ?_⟩, ?_⟩
    · rw [Cursor.below, Json.locate?_append] at hlocate
      obtain ⟨element, helement, -⟩ := Option.bind_eq_some_iff.mp hlocate
      rw [helement]
      rfl
    · rw [Cursor.get?_eq_locate?, hlocate]
  · rintro ⟨cursor, hcursor, hget⟩
    rw [Cursor.get?_eq_locate?] at hget
    have hplace : resolved.Place (cursor.below resolved.leaf) :=
      ⟨cursor, (Json.mem_reach_root.mp hcursor).1, rfl⟩
    exact ⟨root, _, hnode, (Resolver.instance_iff_of_walk? hwalk hvirtual).mpr hplace, hget⟩

/-! ## Values that pass -/

namespace FilterOperator

variable {μ : Type} {like : PatternTest μ} {answer : String → String → Bool}

/-- Whether a value compares with another one. A null never does; `answer` tells which texts match
which patterns. -/
def compares (operator : FilterOperator) (answer : String → String → Bool)
    (actual expected : Json) : Bool :=
  match operator, actual, expected with
  | _, .null, _ => false
  | .like, .string text, .string pattern => answer text pattern
  | operator, actual, expected => operator.relates actual expected

/-- Whether a value compares with another one or, if that is a list, with one of its elements. -/
def passes (operator : FilterOperator) (answer : String → String → Bool) (actual : Json) :
    Json → Bool
  | .array candidates => candidates.any (operator.compares answer actual)
  | expected => operator.compares answer actual expected

section Pure

variable {operator : FilterOperator} (hpure : operator = .like →
  ∀ matcher text pattern, (like matcher text pattern).1 = answer text pattern)
include hpure

/-- A test answers as the matcher does. -/
theorem test_fst (matcher : μ) (actual expected : Json) :
    (operator.test like matcher actual expected).1 = operator.compares answer actual expected := by
  unfold test
  split
  · rfl
  · exact hpure rfl _ _ _
  · next hnull hlike => simp only [compares]

/-- A list of compared values passes if one of them does. -/
theorem testCandidates_fst (actual : Json) (candidates : List Json) (matcher : μ) :
    (operator.testCandidates like actual matcher candidates).1 =
      candidates.any (operator.compares answer actual) := by
  induction candidates generalizing matcher with
  | nil => rfl
  | cons candidate rest ih =>
    have htest := test_fst hpure matcher actual candidate
    rw [testCandidates, List.any_cons, ← htest]
    rcases operator.test like matcher actual candidate with ⟨holds, matcher'⟩
    cases holds with
    | true => rfl
    | false => exact ih matcher'

/-- What a matcher remembers makes no difference. -/
theorem testAny_fst (matcher : μ) (actual expected : Json) :
    (operator.testAny like matcher actual expected).1 = operator.passes answer actual expected := by
  cases expected with
  | array candidates => exact testCandidates_fst hpure actual candidates matcher
  | _ => exact test_fst hpure matcher actual _

end Pure

end FilterOperator

/-! ## Searching -/

namespace Filter

variable {μ : Type} {like : PatternTest μ} {answer : String → String → Bool} {record : Json}

/-- Whether a value passes where an event looks. -/
def passesAt (operator : FilterOperator) (answer : String → String → Bool) (record expected : Json)
    (event : Event (List String)) : Bool :=
  (event.cursor.get? record event.action).any (operator.passes answer · expected)

/-- A value passes against a list without lists inside if it passes against one of its elements. -/
theorem passesAt_array {operator : FilterOperator} {candidates : List Json}
    (hflat : ∀ list, .array list ∉ candidates) {event : Event (List String)} :
    passesAt operator answer record (.array candidates) event ↔
      ∃ candidate ∈ candidates, passesAt operator answer record candidate event := by
  unfold passesAt
  cases event.cursor.get? record event.action with
  | none => simp
  | some actual =>
    simp only [Option.any_some, FilterOperator.passes, List.any_eq_true]
    refine exists_congr fun candidate => and_congr_right fun hcandidate => ?_
    cases candidate with
    | array list => exact absurd hcandidate (hflat list)
    | _ => rfl

/-- The machine that searches a record; it may stop once a value has passed, or look on. -/
def searcher (operator : FilterOperator) (like : PatternTest μ) (record expected : Json)
    (stops : Bool) : Machine (List String) (Search μ) where
  act := testAt operator like record expected
  record _ := record
  isSettled search := stops && search.found

/-- The answer of a search that looks at every value. -/
def searchAll (filter : Filter) (like : PatternTest μ) (matcher : μ) (record expected : Json) :
    Bool :=
  (filter.program.run (searcher filter.operator like record expected false) { matcher }).found

/-- A filter stops at the first value that passes. -/
theorem search_eq (filter : Filter) (like : PatternTest μ) (matcher : μ) (record expected : Json) :
    (filter.search like matcher record expected).1 =
      (filter.program.run (searcher filter.operator like record expected true) { matcher }).found :=
  rfl

section Pure

variable {operator : FilterOperator} (hpure : operator = .like →
  ∀ matcher text pattern, (like matcher text pattern).1 = answer text pattern)
include hpure

/-- One look at a value. -/
theorem found_testAt (expected : Json) (event : Event (List String)) (search : Search μ) :
    (testAt operator like record expected event.action event.cursor search).found =
      (search.found || passesAt operator answer record expected event) := by
  unfold testAt passesAt
  cases event.cursor.get? record event.action with
  | none => simp
  | some actual =>
    have htest := FilterOperator.testAny_fst hpure search.matcher actual expected
    simp only [Option.any_some, ← htest]

/-- Whether or not it stops at the first value that passes, a search tells whether there is one. -/
theorem found_performUntil (expected : Json) (stops : Bool)
    (events : List (Event (List String))) (search : Search μ) :
    ((searcher operator like record expected stops).performUntil events search).found =
      (search.found || events.any (passesAt operator answer record expected)) := by
  induction events generalizing search with
  | nil => exact (Bool.or_false _).symm
  | cons event rest ih =>
    rw [Machine.performUntil]
    split
    -- the search stops here: a value has passed before, whatever the rest holds
    · next hsettled =>
      have hfound : search.found = true := (Bool.and_eq_true_iff.mp hsettled).2
      rw [hfound, Bool.true_or]
    · rw [ih, List.any_cons, ← Bool.or_assoc]
      exact congrArg (· || _) (found_testAt hpure expected event search)

end Pure

/-- The events of a compiled filter: one look below each element that the loops reach. -/
theorem exists_events_of_compile {blueprint : Blueprint} {declaration : FilterDeclaration}
    {filter : Filter} (h : compile blueprint declaration = .ok filter) :
    ∃ resolved, blueprint.resolveStrict declaration.localAttribute = .ok resolved ∧
      resolved.isScalar ∧ filter.operator = declaration.applied ∧
      ∀ record, filter.program.events record =
        (record.reach {} resolved.loops).map fun cursor => ⟨resolved.leaf, cursor⟩ := by
  obtain ⟨resolved, hdemand, h₁⟩ := Except.bind_eq_ok.mp h
  have hresolve := Blueprint.resolve_of_demand hdemand
  simp only at h₁
  split at h₁
  · cases h₁
  · next hscalar =>
    split at h₁
    · cases h₁
    · obtain ⟨program, hprogram, h₂⟩ := Except.bind_eq_ok.mp h₁
      cases h₂
      exact ⟨resolved, hresolve, by simpa using hscalar, rfl,
        Scaffold.events_of_add (Blueprint.synthesize_of_finish hprogram)⟩

section Pure

variable (hpure : ∀ matcher text pattern, (like matcher text pattern).1 = answer text pattern)
include hpure

/-- Both ways of searching tell whether some event looks at a value that passes. -/
theorem found_run (filter : Filter) (stops : Bool) (expected : Json) (matcher : μ) :
    (filter.program.run (searcher filter.operator like record expected stops)
      { matcher }).found =
        (filter.program.events record).any (passesAt filter.operator answer record expected) := by
  rw [Program.run_eq_performUntil _ (fun _ _ _ => rfl), found_performUntil fun _ => hpure]
  rfl

end Pure

/-- A compiled filter passes exactly if some value at its path does. To stop at the first one
changes no answer, and a list without lists inside is tested as its elements are. -/
theorem search_iff {blueprint : Blueprint} {store rootName : String} {descriptor : Descriptor}
    {declaration : FilterDeclaration} {filter : Filter}
    (hflatten : (flatten store rootName descriptor).1 = .ok blueprint.flattened)
    (hcompile : compile blueprint declaration = .ok filter)
    (hpure : ∀ matcher text pattern, (like matcher text pattern).1 = answer text pattern)
    (matcher : μ) (record expected : Json) :
    ((filter.search like matcher record expected).1 = true ↔
      ∃ found, blueprint.flattened.Finds declaration.localAttribute record found ∧
        declaration.applied.passes answer found expected) ∧
    (filter.search like matcher record expected).1 =
      filter.searchAll like matcher record expected ∧
    ∀ candidates, expected = .array candidates → (∀ list, .array list ∉ candidates) →
      (filter.search like matcher record expected).1 =
        candidates.any fun candidate => (filter.search like matcher record candidate).1 := by
  obtain ⟨resolved, hresolve, -, hoperator, hevents⟩ := exists_events_of_compile hcompile
  have hlevels := Blueprint.levelsDeclared_of_flatten hflatten
  -- which matcher is left behind does not matter, since every matcher answers alike
  have hsearch : ∀ expected, (filter.search like matcher record expected).1 =
      (filter.program.events record).any (passesAt filter.operator answer record expected) := by
    intro expected
    rw [search_eq]
    exact found_run hpure filter true expected matcher
  refine ⟨?_, ?_, ?_⟩
  · rw [hsearch, hevents, List.any_map, List.any_eq_true]
    constructor
    · rintro ⟨cursor, hcursor, hpasses⟩
      obtain ⟨found, hfound, hpasses⟩ := Option.any_eq_true _ _ |>.mp hpasses
      exact ⟨found, (Blueprint.finds_iff hlevels hresolve).mpr ⟨cursor, hcursor, hfound⟩,
        hoperator ▸ hpasses⟩
    · rintro ⟨found, hfinds, hpasses⟩
      obtain ⟨cursor, hcursor, hfound⟩ :=
        (Blueprint.finds_iff hlevels hresolve).mp hfinds
      refine ⟨cursor, hcursor, ?_⟩
      simp only [Function.comp, passesAt, hfound, Option.any_some, hoperator, hpasses]
  · rw [hsearch]
    exact (found_run hpure filter false expected matcher).symm
  · rintro candidates rfl hflat
    rw [hsearch, Bool.eq_iff_iff, List.any_eq_true, List.any_eq_true]
    simp only [hsearch, List.any_eq_true]
    constructor
    · rintro ⟨event, hevent, hpasses⟩
      obtain ⟨candidate, hcandidate, hpasses⟩ :=
        (passesAt_array hflat).mp hpasses
      exact ⟨candidate, hcandidate, event, hevent, hpasses⟩
    · rintro ⟨candidate, hcandidate, event, hevent, hpasses⟩
      exact ⟨event, hevent, (passesAt_array hflat).mpr
        ⟨candidate, hcandidate, hpasses⟩⟩

/-! ### Labels of the items in boxes -/

/-- Boxes with items that are labelled. -/
def boxed : Descriptor :=
  .mk [("id", .tuple [.word "int", .word "<<id>>"]),
    ("boxes", .tuple [.word "array", .nested (.mk [
      ("box", .tuple [.word "int", .word "<<box>>"]),
      ("items", .tuple [.word "array", .nested (.mk [
        ("item", .tuple [.word "int", .word "<<item>>"]),
        ("label", .tuple [.word "string"])])])])])]

/-- The store of these boxes. -/
def boxes : Store := Store.compiled "boxes" boxed (by decide +kernel)

/-- The filter for labels that match a pattern. -/
def labelled : FilterDeclaration :=
  { source := "shop", sourceAttribute := "pattern", localAttribute := "boxes.items.label",
    operator := .like }

/-- Two boxes and something that is none; one box has no items, one an item without a label. -/
def someBoxes : Json :=
  .object [("boxes", .array [
    .object [("items", .null)], .string "no box",
    .object [("items", .array [.object [("label", .null)], .object [("label", .string "Red")]])]])]

/-- A label of one of the items in the boxes matches one of two patterns, and none is `green`. -/
theorem search_iff_boxes : ∃ filter, compile boxes.blueprint labelled = .ok filter ∧
    (filter.test {} someBoxes (.array [.string "green", .string "r_%"])).1 = true ∧
    (∃ found, boxes.blueprint.flattened.Finds "boxes.items.label" someBoxes found ∧
      FilterOperator.like.passes LikeMatcher.answer found
        (.array [.string "green", .string "r_%"])) ∧
    (filter.test {} someBoxes (.string "green")).1 = false := by
  have hboth : (compile boxes.blueprint labelled).toOption.map (fun filter =>
      ((filter.test {} someBoxes (.array [.string "green", .string "r_%"])).1,
        (filter.test {} someBoxes (.string "green")).1)) = some (true, false) := by
    decide +kernel
  obtain ⟨filter, hfilter, hanswers⟩ := Option.map_eq_some_iff.mp hboth
  obtain ⟨hyes, hno⟩ := Prod.mk.inj hanswers
  have hcompile := Except.eq_ok_of_toOption hfilter
  obtain ⟨name, rootName, descriptor, hflatten⟩ :=
    (Store.isCompiled_compiled "boxes" boxed (by decide +kernel)).exists_flatten.1
  have hsearch := (search_iff hflatten hcompile LikeMatcher.test_fst {} someBoxes
    (.array [.string "green", .string "r_%"])).1
  exact ⟨filter, hcompile, hyes, hsearch.mp hyes, hno⟩

end Filter

end NestedRecord
