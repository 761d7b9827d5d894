import NestedRecord.Graph.Flatten
import NestedRecord.Proofs.Descriptor.Declarations
import NestedRecord.Proofs.Dotted

/-!
# Keys of annotated attributes

The storage column of an attribute is kept under a key that is written step by step on the way to
the attribute: the first name as it is, every further one in brackets, and an empty pair of brackets
behind a list. Where names are not empty and hold no brackets the way can be read off the key again.

Ways and not paths are what a key is made of: a list and an object of the same name lead to
different keys for the attributes below them. The key is read from left to right, by cutting it at
the opening brackets. This takes it apart into the names again as long as no name has a bracket in
it, and the empty names in between are the lists.

* `Descriptor.annotated` are the scalar attributes with a column, in order of declaration;
  `annotated_eq` finds them among the declarations.
* `columnKey` is the key, `unbracket` takes it apart: `unbracket_columnKey`.
* `columnKey_injective`: the names and the lists on the way are known from the key.
-/

namespace NestedRecord

/-! ## Annotated attributes -/

/-- A scalar attribute with a storage column, as it is seen from a level around it. -/
structure Annotated where
  /-- the nested attributes around it, outermost first, and whether they are lists -/
  way : List (String × Bool)
  name : String
  column : String
deriving DecidableEq

namespace Annotated

/-- The attribute of a nested level, seen from the level around. -/
def inside (around : String) (nesting : Option NodeKind) (attr : Annotated) : Annotated :=
  { attr with way := (around, decide (nesting = some .array)) :: attr.way }

/-- The names that lead to the attribute. -/
def names (attr : Annotated) : List String := attr.way.map (·.1) ++ [attr.name]

/-- The number of lists on the way to it. -/
def depth (attr : Annotated) : Nat := attr.way.countP (·.2)

/-- The names, the number of lists around and the column. -/
def found (attr : Annotated) : List String × Nat × String := (attr.names, attr.depth, attr.column)

/-- An attribute that is nested is found one name further in, and one list deeper in a list. -/
theorem found_inside (around : String) (nesting : Option NodeKind) (attr : Annotated) :
    (attr.inside around nesting).found = (around :: attr.found.1,
      attr.found.2.1 + (if nesting = some .array then 1 else 0), attr.found.2.2) := by
  simp [found, inside, names, depth, List.countP_cons]

end Annotated

/-- A scalar attribute may be annotated itself, a nested one holds annotated attributes. -/
def Tuple.annotated (name : String) (tuple : Tuple (List Annotated)) : List Annotated :=
  if tuple.isNested then (tuple.nested.getD []).map (.inside name tuple.nesting)
  else (tuple.column.map fun column => ⟨[], name, column.1⟩).toList

def Attribute.annotated (name : String) : Attribute (List Annotated) → List Annotated
  | .tuple directives =>
    match Tuple.ofDirectives directives with
    | .ok declared => declared.annotated name
    | .error _ => []
  | .bare _ => []
  | .malformed _ => []

/-- The annotated attributes of a level and below it, attribute by attribute. -/
def levelAnnotated (attributes : List (String × Attribute (List Annotated))) : List Annotated :=
  attributes.flatMap fun entry => entry.2.annotated entry.1

/-- The names, the number of lists around and the column of a declaration, if it is a scalar one
with a column. -/
def Declaration.annotated? (declaration : Declaration) : Option (List String × Nat × String) :=
  if declaration.tuple.isNested then none
  else declaration.column?.map (declaration.names, declaration.depth, ·)

theorem Tuple.isNested_outline {ν : Type} (tuple : Tuple ν) :
    tuple.outline.isNested = tuple.isNested := by
  simp [isNested, outline, Tuple.map]

namespace Descriptor

/-- All annotated attributes of a descriptor. -/
def annotated (descriptor : Descriptor) : List Annotated := descriptor.fold levelAnnotated

/-- The annotated attributes of one attribute. -/
def attributeAnnotated (entry : String × Attribute Descriptor) : List Annotated :=
  (entry.2.map annotated).annotated entry.1

/-- The annotated attributes of a level are those of its attributes, one after the other. -/
theorem annotated_mk (attributes : List (String × Attribute Descriptor)) :
    (mk attributes).annotated = attributes.flatMap attributeAnnotated := by
  rw [annotated, fold_mk, levelAnnotated, List.flatMap_map]
  rfl

variable {name : String} {directives : List (Directive Descriptor)} {tuple : Tuple Descriptor}

/-- The annotated attributes of an attribute whose tuple can be read. -/
theorem attributeAnnotated_read (read : Tuple.ofDirectives directives = .ok tuple) :
    attributeAnnotated (name, .tuple directives) =
      if tuple.isNested then
        ((tuple.nested.map annotated).getD []).map (.inside name tuple.nesting)
      else (tuple.column.map fun column => ⟨[], name, column.1⟩).toList := by
  show Attribute.annotated name (.tuple (directives.map (Directive.map annotated))) = _
  rw [Attribute.annotated, Tuple.ofDirectives_map, read]
  simp only [Except.map, Tuple.annotated]
  simp [Tuple.isNested, Tuple.map]

theorem names_of_annotated? {declaration : Declaration} {found : List String × Nat × String}
    (h : declaration.annotated? = some found) : declaration.names = found.1 := by
  unfold Declaration.annotated? at h
  split at h
  · cases h
  · obtain ⟨column, -, rfl⟩ := Option.map_eq_some_iff.mp h
    rfl

/-- What is nested in a tuple is found below its names. -/
theorem annotated?_inside (name : String) (nesting : Option NodeKind) (declaration : Declaration) :
    (declaration.inside name nesting).annotated? =
      declaration.annotated?.map fun found =>
        (name :: found.1, found.2.1 + (if nesting = some .array then 1 else 0), found.2.2) := by
  unfold Declaration.annotated? Declaration.column?
  by_cases hnested : declaration.tuple.isNested = true
  · rw [if_pos hnested]
    exact if_pos hnested
  · rw [if_neg hnested, Option.map_map, Option.map_map]
    refine (if_neg hnested).trans ?_
    rw [Option.map_map]
    rfl

/-- The annotated attributes of one attribute are found among its declarations, if they are for what
is nested in it. -/
theorem attributeAnnotated_eq {entry : String × Attribute Descriptor}
    (h : ∀ directives tuple inner, entry.2 = .tuple directives →
      Tuple.ofDirectives directives = .ok tuple → tuple.nested = some inner →
        inner.annotated.map Annotated.found = inner.declarations.filterMap (·.annotated?)) :
    (attributeAnnotated entry).map Annotated.found =
      (attributeDeclarations entry).filterMap (·.annotated?) := by
  obtain ⟨name, attr⟩ := entry
  cases attr with
  | bare text => rfl
  | malformed kind => rfl
  | tuple directives =>
    cases read : Tuple.ofDirectives directives with
    | error rule =>
      simp [attributeAnnotated, Attribute.map, Attribute.annotated, Tuple.ofDirectives_map, read,
        Except.map, attributeDeclarations_unread read]
    | ok tuple =>
      rw [attributeAnnotated_read read, attributeDeclarations_read read]
      -- an attribute with something nested in it has no column of its own
      by_cases hnested : tuple.isNested = true
      · have hown : Declaration.annotated? ⟨[name], 0, tuple.outline⟩ = none :=
          if_pos ((Tuple.isNested_outline tuple).trans hnested)
        rw [if_pos hnested, List.filterMap_cons_none hown, List.map_map, List.filterMap_map]
        cases hinner : tuple.nested with
        | none => rfl
        | some inner =>
          have hbelow := h directives tuple inner rfl read hinner
          simp only [Function.comp_def, annotated?_inside, Option.map_some, Option.getD_some]
          rw [← List.map_filterMap, ← hbelow, List.map_map]
          exact List.map_congr_left fun attr _ => Annotated.found_inside name tuple.nesting attr
      · have hplain : tuple.isNested = false := Bool.eq_false_iff.mpr hnested
        have hown : Declaration.annotated? ⟨[name], 0, tuple.outline⟩ =
            tuple.column.map fun column => ([name], 0, column.1) := by
          refine (if_neg ((Tuple.isNested_outline tuple).trans_ne hnested)).trans ?_
          exact Option.map_map ..
        rw [if_neg hnested, Tuple.nested_eq_none hplain, Option.map_none, Option.getD_none,
          List.map_nil, List.filterMap_cons, List.filterMap_nil, hown]
        cases tuple.column <;> rfl

/-- The annotated attributes are the scalar declarations with a column, in their order. -/
theorem annotated_eq (descriptor : Descriptor) : descriptor.annotated.map Annotated.found =
    descriptor.declarations.filterMap (·.annotated?) := by
  refine levels_induction (p := fun descriptor => descriptor.annotated.map Annotated.found =
    descriptor.declarations.filterMap (·.annotated?)) (fun attributes ih => ?_) descriptor
  show (mk attributes).annotated.map _ = (mk attributes).declarations.filterMap _
  rw [annotated_mk, declarations_mk, List.map_flatMap, List.filterMap_flatMap]
  refine List.flatMap_congr fun entry hentry => attributeAnnotated_eq ?_
  intro directives tuple inner htuple read nested
  exact ih entry hentry directives htuple inner (Tuple.mem_of_nested read nested)

/-- An annotated attribute stands under the names of a declaration. -/
theorem exists_declaration {descriptor : Descriptor} {attr : Annotated}
    (h : attr ∈ descriptor.annotated) :
    ∃ declaration ∈ descriptor.declarations, declaration.names = attr.names := by
  have hmem : attr.found ∈ descriptor.declarations.filterMap (·.annotated?) :=
    descriptor.annotated_eq ▸ List.mem_map_of_mem h
  obtain ⟨declaration, hdeclared, hfound⟩ := List.mem_filterMap.mp hmem
  exact ⟨declaration, hdeclared, names_of_annotated? hfound⟩

/-- Where the names of each level differ, no two annotated attributes stand under the same names. -/
theorem Levels.nodup_annotated {descriptor : Descriptor} (h : descriptor.Levels List.Nodup) :
    descriptor.annotated.Pairwise fun attr other => attr.names ≠ other.names := by
  have hfound : (descriptor.annotated.map Annotated.found).Pairwise fun a b => a.1 ≠ b.1 := by
    rw [annotated_eq, List.pairwise_filterMap]
    refine (List.pairwise_map.mp h.nodup_names).imp fun hne a ha b hb => ?_
    rwa [← names_of_annotated? ha, ← names_of_annotated? hb]
  rwa [List.pairwise_map] at hfound

end Descriptor

/-! ## Keys -/

/-- The key of an attribute behind nested attributes, below a column key. -/
def columnKey (column : String) : List (String × Bool) → String → String
  | [], name => nestedKey column name
  | (around, list) :: way, name =>
    columnKey (nestedKey column around ++ if list then "[]" else "") way name

/-- The key of an annotated attribute in the column table. -/
def Annotated.key (attr : Annotated) : String := columnKey "" attr.way attr.name

/-- What stands between the brackets of a key. -/
def unbracket (key : String) : List String :=
  (splitAtChar '[' key.toList).map fun piece => String.ofList (piece.filter (· ≠ ']'))

/-- The names on a way, each list followed by an empty one. -/
def wayNames : List (String × Bool) → String → List String
  | [], name => [name]
  | (around, false) :: way, name => around :: wayNames way name
  | (around, true) :: way, name => around :: "" :: wayNames way name

/-- A name that brackets can be put around. -/
structure Unbracketed (name : String) : Prop where
  named : name ≠ ""
  noOpening : '[' ∉ name.toList
  noClosing : ']' ∉ name.toList

instance (name : String) : Decidable (Unbracketed name) :=
  decidable_of_iff (name ≠ "" ∧ '[' ∉ name.toList ∧ ']' ∉ name.toList)
    ⟨fun ⟨named, noOpening, noClosing⟩ => ⟨named, noOpening, noClosing⟩,
      fun h => ⟨h.named, h.noOpening, h.noClosing⟩⟩

/-- Names that brackets can be put around, one by one. -/
structure UnbracketedWay (way : List (String × Bool)) (name : String) : Prop where
  around : ∀ step ∈ way, Unbracketed step.1
  last : Unbracketed name

theorem UnbracketedWay.tail {step : String × Bool} {way : List (String × Bool)} {name : String}
    (h : UnbracketedWay (step :: way) name) : UnbracketedWay way name :=
  ⟨fun other hother => h.around other (List.mem_cons_of_mem _ hother), h.last⟩

theorem filter_closing {name : String} (h : ']' ∉ name.toList) :
    name.toList.filter (· ≠ ']') = name.toList := by
  refine List.filter_eq_self.mpr fun c hc => decide_eq_true ?_
  rintro rfl
  exact h hc

theorem unbracket_of_not_mem {name : String} (hopening : '[' ∉ name.toList)
    (hclosing : ']' ∉ name.toList) : unbracket name = [name] := by
  rw [unbracket, splitAtChar_of_not_mem hopening, List.map_singleton, filter_closing hclosing,
    String.ofList_toList]

/-- A name in brackets is one name more. -/
theorem unbracket_brackets (column : String) {name : String} (hopening : '[' ∉ name.toList)
    (hclosing : ']' ∉ name.toList) :
    unbracket (column ++ "[" ++ name ++ "]") = unbracket column ++ [name] := by
  have htext : (column ++ "[" ++ name ++ "]").toList =
      column.toList ++ '[' :: (name.toList ++ [']']) := by
    simp
  have hfilter : (name.toList ++ [']']).filter (· ≠ ']') = name.toList := by
    rw [List.filter_append, filter_closing hclosing]
    exact List.append_nil _
  have hbehind : '[' ∉ name.toList ++ [']'] := by simpa using hopening
  rw [unbracket, htext, splitAtChar_append, List.map_append, splitAtChar_of_not_mem hbehind,
    List.map_singleton, hfilter, String.ofList_toList, unbracket]

/-- The empty brackets behind a list are an empty name. -/
theorem unbracket_list (column : String) :
    unbracket (column ++ "[]") = unbracket column ++ [""] := by
  rw [← unbracket_brackets column (by decide) (by decide), String.append_empty, String.append_assoc]
  rfl

/-- The names in a column key, none at the root. -/
def columnNames (column : String) : List String := if column = "" then [] else unbracket column

/-- A key is never empty, so the name behind it is put in brackets. -/
theorem nestedKey_ne_empty (column : String) {name : String} (h : name ≠ "") :
    nestedKey column name ≠ "" := by
  unfold nestedKey
  split
  · exact h
  · intro hempty
    have hlength := congrArg String.length hempty
    simp at hlength

/-- A name is added behind those of the key around it. -/
theorem unbracket_nestedKey (column : String) {name : String} (h : Unbracketed name) :
    unbracket (nestedKey column name) = columnNames column ++ [name] := by
  unfold nestedKey columnNames
  by_cases hcolumn : column = ""
  · rw [if_pos (String.isEmpty_iff.mpr hcolumn), if_pos hcolumn,
      unbracket_of_not_mem h.noOpening h.noClosing]
    rfl
  · rw [if_neg fun hempty => hcolumn (String.isEmpty_iff.mp hempty), if_neg hcolumn,
      unbracket_brackets column h.noOpening h.noClosing]

/-- The names on a way can be read off the key behind it. -/
theorem unbracket_columnKey {way : List (String × Bool)} {name : String} :
    ∀ (column : String), UnbracketedWay way name →
      unbracket (columnKey column way name) = columnNames column ++ wayNames way name := by
  induction way with
  | nil => exact fun column h => unbracket_nestedKey column h.last
  | cons step way ih =>
    obtain ⟨around, list⟩ := step
    intro column h
    have hstep : Unbracketed around := h.around _ List.mem_cons_self
    have hway : UnbracketedWay way name := h.tail
    have hne : nestedKey column around ≠ "" := nestedKey_ne_empty column hstep.named
    rw [columnKey, ih _ hway]
    cases list with
    | false =>
      rw [if_neg Bool.false_ne_true, String.append_empty, columnNames, if_neg hne,
        unbracket_nestedKey column hstep, List.append_assoc]
      rfl
    -- behind a list the empty brackets are one more name, an empty one
    | true =>
      have hne' : nestedKey column around ++ "[]" ≠ "" := by
        intro hempty
        have hlength := congrArg String.length hempty
        simp at hlength
      rw [if_pos rfl, columnNames, if_neg hne', unbracket_list, unbracket_nestedKey column hstep,
        List.append_assoc, List.append_assoc]
      rfl

/-- The first of the names on a way is not empty. -/
theorem exists_wayNames {way : List (String × Bool)} {name : String} (h : UnbracketedWay way name) :
    ∃ first rest, wayNames way name = first :: rest ∧ first ≠ "" := by
  cases way with
  | nil => exact ⟨name, [], rfl, h.last.named⟩
  | cons step way =>
    have hstep := h.around _ List.mem_cons_self
    obtain ⟨around, _ | _⟩ := step
    · exact ⟨around, _, rfl, hstep.named⟩
    · exact ⟨around, _, rfl, hstep.named⟩

theorem wayNames_ne_empty_cons {way : List (String × Bool)} {name : String}
    (h : UnbracketedWay way name) (rest : List String) : wayNames way name ≠ "" :: rest := by
  obtain ⟨first, others, heq, hne⟩ := exists_wayNames h
  rw [heq]
  exact fun hcons => hne (List.cons.inj hcons).1

theorem wayNames_ne_nil (way : List (String × Bool)) (name : String) : wayNames way name ≠ [] := by
  rcases way with _ | ⟨⟨around, _ | _⟩, way⟩ <;> exact List.cons_ne_nil _ _

/-- A way is known by the names on it. -/
theorem wayNames_injective {way way' : List (String × Bool)} {name name' : String}
    (hway : UnbracketedWay way name) (hway' : UnbracketedWay way' name')
    (h : wayNames way name = wayNames way' name') : way = way' ∧ name = name' := by
  induction way generalizing way' with
  | nil =>
    rcases way' with _ | ⟨⟨around, _ | _⟩, way'⟩
    · exact ⟨rfl, (List.cons.inj h).1⟩
    · exact absurd (List.cons.inj h).2.symm (wayNames_ne_nil _ _)
    · cases (List.cons.inj h).2
  | cons step way ih =>
    obtain ⟨around, list⟩ := step
    rcases way' with _ | ⟨⟨around', list'⟩, way'⟩
    · cases list with
      | false => exact absurd (List.cons.inj h).2 (wayNames_ne_nil _ _)
      | true => cases (List.cons.inj h).2
    · -- an empty name behind the first one tells a list from an object
      cases list <;> cases list' <;> obtain ⟨rfl, hrest⟩ := List.cons.inj h
      · obtain ⟨rfl, rfl⟩ := ih hway.tail hway'.tail hrest
        exact ⟨rfl, rfl⟩
      · exact absurd hrest (wayNames_ne_empty_cons hway.tail _)
      · exact absurd hrest.symm (wayNames_ne_empty_cons hway'.tail _)
      · obtain ⟨rfl, rfl⟩ := ih hway.tail hway'.tail (List.cons.inj hrest).2
        exact ⟨rfl, rfl⟩

/-- The names and the lists on a way are known from the key behind it. -/
theorem columnKey_injective {way way' : List (String × Bool)} {name name' : String}
    (hway : UnbracketedWay way name) (hway' : UnbracketedWay way' name')
    (h : columnKey "" way name = columnKey "" way' name') : way = way' ∧ name = name' := by
  refine wayNames_injective hway hway' ?_
  have hnames := congrArg unbracket h
  rwa [unbracket_columnKey "" hway, unbracket_columnKey "" hway'] at hnames

/-- Where all names can be put in brackets, those on the way to an annotated attribute can. -/
theorem Descriptor.unbracketedWay_of_annotated {descriptor : Descriptor}
    (h : descriptor.Levels fun names => ∀ name ∈ names, Unbracketed name) {attr : Annotated}
    (hmem : attr ∈ descriptor.annotated) : UnbracketedWay attr.way attr.name := by
  obtain ⟨declaration, hdeclared, hnames⟩ := exists_declaration hmem
  have hall : ∀ name ∈ attr.names, Unbracketed name :=
    hnames ▸ h.forall_names declaration hdeclared
  refine ⟨fun step hstep => hall _ (List.mem_append_left _ (List.mem_map_of_mem hstep)), ?_⟩
  exact hall _ (List.mem_append_right _ (List.mem_singleton_self _))

end NestedRecord
