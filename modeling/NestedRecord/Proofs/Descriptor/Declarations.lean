import Mathlib.Data.List.Nodup
import NestedRecord.Proofs.Descriptor.Mapping
import NestedRecord.Dotted

/-!
# The declarations of a descriptor

A descriptor is read attribute by attribute, and what is nested in an attribute directly behind it.
In this order the declared attributes are a list: each with the names that lead to it, the number of
lists around it and its tuple.

Everything that is compiled out of a descriptor walks through it level by level. Statements about
the result speak of single attributes, however deep they stand, and this list is what they speak of:
it is defined once, without any of the compiled structures, so that each of them can be compared
with it.

* `Descriptor.declarations` is the list. `declarations_mk` and `attributeDeclarations_read` give it
  attribute by attribute.
* `Descriptor.Nests` are the levels nested in a descriptor, under their names.
* `Descriptor.Levels` says something of the attribute names of all levels; `Levels.nodup_names`:
  where the names of each level differ, no attribute is declared twice.
* `Descriptor.keyPaths` are the key attributes of one element of a level.
-/

namespace NestedRecord

variable {μ ν : Type}

/-- A tuple without what is nested in it. -/
def Tuple.outline (tuple : Tuple ν) : Tuple Unit := tuple.map fun _ => ()

@[simp] theorem Tuple.outline_map (f : μ → ν) (tuple : Tuple μ) :
    (tuple.map f).outline = tuple.outline := by
  simp [outline, map]

/-- Whether the attribute is a key attribute. -/
def Tuple.isKey (tuple : Tuple ν) : Bool := tuple.column.any (·.2)

/-- A declared attribute, as it is seen from a level around it. -/
structure Declaration where
  /-- the names that lead to it -/
  names : List String
  /-- the number of lists on the way to it -/
  depth : Nat
  tuple : Tuple Unit

namespace Declaration

/-- The attribute of a nested level, seen from the level around. -/
def inside (name : String) (nesting : Option NodeKind) (declaration : Declaration) :
    Declaration where
  names := name :: declaration.names
  depth := declaration.depth + if nesting = some .array then 1 else 0
  tuple := declaration.tuple

/-- The dotted path of an attribute below a place. -/
def pathFrom (place : String) (declaration : Declaration) : String :=
  declaration.names.foldl joinPath place

/-- The dotted path of an attribute. -/
def path (declaration : Declaration) : String := declaration.pathFrom ""

/-- The column that the attribute is annotated with. -/
def column? (declaration : Declaration) : Option String := declaration.tuple.column.map (·.1)

/-- The column of a key attribute. -/
def keyColumn? (declaration : Declaration) : Option String :=
  (declaration.tuple.column.filter (·.2)).map (·.1)

end Declaration

/-- An attribute is declared before what is nested in it. -/
def Tuple.declarations (name : String) (tuple : Tuple (List Declaration)) : List Declaration :=
  ⟨[name], 0, tuple.outline⟩ :: (tuple.nested.getD []).map (.inside name tuple.nesting)

def Attribute.declarations (name : String) : Attribute (List Declaration) → List Declaration
  | .tuple directives =>
    match Tuple.ofDirectives directives with
    | .ok declared => declared.declarations name
    | .error _ => []
  | .bare _ => []
  | .malformed _ => []

/-- The declarations of a level, attribute by attribute. -/
def levelDeclarations (attributes : List (String × Attribute (List Declaration))) :
    List Declaration :=
  attributes.flatMap fun entry => entry.2.declarations entry.1

namespace Descriptor

/-- All declarations of a descriptor. -/
def declarations (descriptor : Descriptor) : List Declaration := descriptor.fold levelDeclarations

/-- The declarations of one attribute. -/
def attributeDeclarations (entry : String × Attribute Descriptor) : List Declaration :=
  (entry.2.map declarations).declarations entry.1

/-- The declarations of a level are those of its attributes, one after the other. -/
theorem declarations_mk (attributes : List (String × Attribute Descriptor)) :
    (mk attributes).declarations = attributes.flatMap attributeDeclarations := by
  rw [declarations, fold_mk, levelDeclarations, List.flatMap_map]
  rfl

variable {name : String} {directives : List (Directive Descriptor)} {tuple : Tuple Descriptor}
  {attributes : List (String × Attribute Descriptor)} {inner : Descriptor} {kind : NodeKind}

/-- The declarations of an attribute whose tuple can be read. -/
theorem attributeDeclarations_read (read : Tuple.ofDirectives directives = .ok tuple) :
    attributeDeclarations (name, .tuple directives) =
      ⟨[name], 0, tuple.outline⟩ ::
        ((tuple.nested.map declarations).getD []).map (.inside name tuple.nesting) := by
  show Attribute.declarations name (.tuple (directives.map (Directive.map declarations))) = _
  rw [Attribute.declarations, Tuple.ofDirectives_map, read]
  simp only [Except.map, Tuple.declarations, Tuple.outline_map]
  rfl

/-- An attribute whose tuple cannot be read declares nothing. -/
theorem attributeDeclarations_unread {rule : String}
    (read : Tuple.ofDirectives directives = .error rule) :
    attributeDeclarations (name, .tuple directives) = [] := by
  show Attribute.declarations name (.tuple (directives.map (Directive.map declarations))) = _
  rw [Attribute.declarations, Tuple.ofDirectives_map, read]
  rfl

/-- An attribute declares something only if its tuple can be read. -/
theorem attributeDeclarations_eq_nil_or_read (entry : String × Attribute Descriptor) :
    attributeDeclarations entry = [] ∨
      ∃ directives tuple, entry.2 = .tuple directives ∧
        Tuple.ofDirectives directives = .ok tuple := by
  obtain ⟨name, attr⟩ := entry
  cases attr with
  | bare text => exact .inl rfl
  | malformed kind => exact .inl rfl
  | tuple directives =>
    cases read : Tuple.ofDirectives directives with
    | error rule => exact .inl (attributeDeclarations_unread read)
    | ok tuple => exact .inr ⟨directives, tuple, rfl, read⟩

/-- Every declaration is that of an attribute that can be read, or is nested in one. -/
theorem mem_attributeDeclarations {declaration : Declaration}
    {entry : String × Attribute Descriptor} (h : declaration ∈ attributeDeclarations entry) :
    ∃ directives tuple, entry.2 = .tuple directives ∧ Tuple.ofDirectives directives = .ok tuple ∧
      (declaration = ⟨[entry.1], 0, tuple.outline⟩ ∨
        ∃ inner, tuple.nested = some inner ∧ ∃ below ∈ inner.declarations,
          declaration = below.inside entry.1 tuple.nesting) := by
  obtain hnil | ⟨directives, tuple, hattr, read⟩ := attributeDeclarations_eq_nil_or_read entry
  · rw [hnil] at h
    cases h
  obtain ⟨name, attr⟩ := entry
  obtain rfl : attr = .tuple directives := hattr
  refine ⟨directives, tuple, rfl, read, ?_⟩
  rw [attributeDeclarations_read read] at h
  rcases List.mem_cons.mp h with rfl | hbelow
  · exact .inl rfl
  · obtain ⟨below, hmem, rfl⟩ := List.mem_map.mp hbelow
    cases hnested : tuple.nested with
    | none =>
      rw [hnested] at hmem
      cases hmem
    | some inner =>
      rw [hnested] at hmem
      exact .inr ⟨inner, rfl, below, hmem, rfl⟩

/-- An attribute that can be read is declared at its level. -/
theorem mem_declarations (mem : (name, .tuple directives) ∈ attributes)
    (read : Tuple.ofDirectives directives = .ok tuple) :
    ⟨[name], 0, tuple.outline⟩ ∈ (mk attributes).declarations := by
  rw [declarations_mk]
  refine List.mem_flatMap.mpr ⟨_, mem, ?_⟩
  rw [attributeDeclarations_read read]
  exact List.mem_cons_self

/-- What is nested in an attribute is declared behind it. -/
theorem mem_declarations_inside (mem : (name, .tuple directives) ∈ attributes)
    (read : Tuple.ofDirectives directives = .ok tuple) (nested : tuple.nested = some inner)
    {declaration : Declaration} (h : declaration ∈ inner.declarations) :
    declaration.inside name tuple.nesting ∈ (mk attributes).declarations := by
  rw [declarations_mk]
  refine List.mem_flatMap.mpr ⟨_, mem, ?_⟩
  rw [attributeDeclarations_read read, nested]
  exact List.mem_cons_of_mem _ (List.mem_map_of_mem h)

/-- A level of a kind is nested in a descriptor under names. -/
inductive Nests : Descriptor → List String → NodeKind → Descriptor → Prop
  | level {attributes : List (String × Attribute Descriptor)} {name : String}
      {directives : List (Directive Descriptor)} {tuple : Tuple Descriptor} {kind : NodeKind}
      {inner : Descriptor} (mem : (name, .tuple directives) ∈ attributes)
      (read : Tuple.ofDirectives directives = .ok tuple) (nesting : tuple.nesting = some kind)
      (nested : tuple.nested = some inner) : Nests (.mk attributes) [name] kind inner
  | inside {attributes : List (String × Attribute Descriptor)} {name : String}
      {directives : List (Directive Descriptor)} {tuple : Tuple Descriptor} {middle : Descriptor}
      {names : List String} {kind : NodeKind} {inner : Descriptor}
      (mem : (name, .tuple directives) ∈ attributes)
      (read : Tuple.ofDirectives directives = .ok tuple) (nested : tuple.nested = some middle)
      (rest : Nests middle names kind inner) : Nests (.mk attributes) (name :: names) kind inner

theorem Nests.ne_nil {descriptor : Descriptor} {names : List String}
    (h : descriptor.Nests names kind inner) : names ≠ [] := by
  cases h <;> exact List.cons_ne_nil _ _

/-- The attribute names of a descriptor and of every level nested in it. -/
inductive Levels (p : List String → Prop) : Descriptor → Prop
  | mk {attributes : List (String × Attribute Descriptor)} (here : p (attributes.map (·.1)))
      (below : ∀ {name : String} {directives : List (Directive Descriptor)}
        {tuple : Tuple Descriptor} {inner : Descriptor}, (name, .tuple directives) ∈ attributes →
          Tuple.ofDirectives directives = .ok tuple → tuple.nested = some inner →
            Levels p inner) : Levels p (.mk attributes)

/-- An attribute is known by its name where names differ. -/
theorem tuple_unique {directives' : List (Directive Descriptor)} {tuple' : Tuple Descriptor}
    (hnodup : (attributes.map (·.1)).Nodup) (mem : (name, .tuple directives) ∈ attributes)
    (read : Tuple.ofDirectives directives = .ok tuple)
    (mem' : (name, .tuple directives') ∈ attributes)
    (read' : Tuple.ofDirectives directives' = .ok tuple') : tuple = tuple' := by
  cases List.inj_on_of_nodup_map hnodup mem mem' rfl
  exact Except.ok.inj (read.symm.trans read')

/-- One level is nested under names where the names of each level differ. -/
theorem Nests.unique {descriptor inner' : Descriptor} {names : List String} {kind' : NodeKind}
    (h : descriptor.Nests names kind inner) (h' : descriptor.Nests names kind' inner')
    (hlevels : descriptor.Levels List.Nodup) : kind = kind' ∧ inner = inner' := by
  induction h with
  -- the first name is that of one attribute, so both levels are in the same tuple
  | level mem read nesting nested =>
    obtain ⟨hnodup, -⟩ := hlevels
    cases h' with
    | level mem' read' nesting' nested' =>
      cases tuple_unique hnodup mem read mem' read'
      exact ⟨Option.some.inj (nesting.symm.trans nesting'),
        Option.some.inj (nested.symm.trans nested')⟩
    | inside mem' read' nested' rest => exact absurd rfl rest.ne_nil
  | inside mem read nested rest ih =>
    obtain ⟨hnodup, hbelow⟩ := hlevels
    cases h' with
    | level => exact absurd rfl rest.ne_nil
    | inside mem' read' nested' rest' =>
      cases tuple_unique hnodup mem read mem' read'
      cases Option.some.inj (nested.symm.trans nested')
      exact ih rest' (hbelow mem read nested)

end Descriptor

/-- A declared attribute has a name. -/
theorem Descriptor.names_ne_nil {descriptor : Descriptor} {declaration : Declaration}
    (h : declaration ∈ descriptor.declarations) : declaration.names ≠ [] := by
  cases descriptor with
  | mk attributes =>
    rw [declarations_mk] at h
    obtain ⟨entry, -, hmem⟩ := List.mem_flatMap.mp h
    obtain ⟨-, -, -, -, rfl | ⟨-, -, -, -, rfl⟩⟩ := mem_attributeDeclarations hmem <;>
      exact List.cons_ne_nil _ _

/-- The declarations of an attribute have its name in front. -/
theorem Descriptor.head?_names {declaration : Declaration}
    {entry : String × Attribute Descriptor} (h : declaration ∈ attributeDeclarations entry) :
    declaration.names.head? = some entry.1 := by
  obtain ⟨-, -, -, -, rfl | ⟨-, -, -, -, rfl⟩⟩ := mem_attributeDeclarations h <;> rfl

theorem Descriptor.Levels.imp {p q : List String → Prop} {descriptor : Descriptor}
    (h : descriptor.Levels p) (hpq : ∀ names, p names → q names) : descriptor.Levels q := by
  induction h with
  | mk here _ ih => exact .mk (hpq _ here) ih

/-- What holds of the names of all levels holds of the names that lead to attributes. -/
theorem Descriptor.Levels.forall_names {q : String → Prop} {descriptor : Descriptor}
    (h : descriptor.Levels fun names => ∀ name ∈ names, q name) :
    ∀ declaration ∈ descriptor.declarations, ∀ name ∈ declaration.names, q name := by
  induction h with
  | @mk attributes here below ih =>
    intro declaration hmem
    rw [declarations_mk] at hmem
    obtain ⟨⟨name, attr⟩, hentry, hmem⟩ := List.mem_flatMap.mp hmem
    have hname : q name := here name (List.mem_map_of_mem hentry)
    obtain ⟨directives, tuple, rfl, read, rfl | ⟨inner, nested, declared, hdeclared, rfl⟩⟩ :=
      mem_attributeDeclarations hmem
    · exact List.forall_mem_singleton.mpr hname
    · exact List.forall_mem_cons.mpr ⟨hname, ih hentry read nested declared hdeclared⟩

/-- Where the names of each level differ, no attribute is declared twice under the same names. -/
theorem Descriptor.Levels.nodup_names {descriptor : Descriptor} (h : descriptor.Levels List.Nodup) :
    (descriptor.declarations.map (·.names)).Nodup := by
  induction h with
  | @mk attributes here below ih =>
    rw [declarations_mk, List.map_flatMap, List.nodup_flatMap]
    constructor
    · rintro ⟨name, attr⟩ hentry
      obtain hnil | ⟨directives, tuple, hattr, read⟩ :=
        attributeDeclarations_eq_nil_or_read (name, attr)
      · rw [hnil]
        exact List.nodup_nil
      obtain rfl : attr = .tuple directives := hattr
      rw [attributeDeclarations_read read, List.map_cons, List.map_map, List.nodup_cons]
      cases nested : tuple.nested with
      | none => exact ⟨List.not_mem_nil, List.nodup_nil⟩
      | some inner =>
        constructor
        · intro hmem
          obtain ⟨declaration, hdeclared, hnames⟩ := List.mem_map.mp hmem
          exact names_ne_nil hdeclared (List.cons.inj hnames).2
        · have hinner := (ih hentry read nested).map (List.cons_injective (a := name))
          rwa [List.map_map] at hinner
    · -- what two attributes of a level declare differs in the first name already
      refine (List.pairwise_map.mp here).imp fun {a b} hne names hmem hmem' => hne ?_
      obtain ⟨declaration, hdeclared, rfl⟩ := List.mem_map.mp hmem
      obtain ⟨other, hother, hnames⟩ := List.mem_map.mp hmem'
      have hhead := head?_names hother
      rw [hnames, head?_names hdeclared] at hhead
      exact Option.some.inj hhead

/-! ## Keys -/

namespace Declaration

/-- Whether it is a key attribute with no list around it. -/
def IsOwnKey (declaration : Declaration) : Prop :=
  declaration.depth = 0 ∧ declaration.tuple.isKey = true

instance (declaration : Declaration) : Decidable declaration.IsOwnKey :=
  inferInstanceAs (Decidable (_ ∧ _))

/-- The key attributes among declarations with no list around them, by their names. -/
def keyPaths (declarations : List Declaration) : List String :=
  (declarations.filter fun declaration => declaration.IsOwnKey).map (ofSegments ·.names)

/-- An attribute of the level itself. -/
theorem keyPaths_cons (name : String) (tuple : Tuple ν) (rest : List Declaration) :
    keyPaths (⟨[name], 0, tuple.outline⟩ :: rest) =
      (if tuple.isKey then [name] else []) ++ keyPaths rest := by
  have hown : IsOwnKey ⟨[name], 0, tuple.outline⟩ ↔ tuple.isKey = true :=
    ⟨fun h => h.2, fun h => ⟨rfl, h⟩⟩
  rw [keyPaths, List.filter_cons]
  by_cases h : tuple.isKey = true
  · rw [if_pos (decide_eq_true (hown.mpr h)), if_pos h, List.map_cons, ofSegments,
      String.intercalate_singleton]
    rfl
  · rw [if_neg (by simpa [hown] using h), if_neg h]
    rfl

theorem keyPaths_append (front back : List Declaration) :
    keyPaths (front ++ back) = keyPaths front ++ keyPaths back := by
  rw [keyPaths, List.filter_append, List.map_append]
  rfl

/-- The keys of a list are its own, and no keys of the level around. -/
theorem keyPaths_array (name : String) (declarations : List Declaration) :
    keyPaths (declarations.map (.inside name (some .array))) = [] := by
  simp [keyPaths, List.filter_eq_nil_iff, IsOwnKey, inside]

/-- The keys of an object are keys of the level around, by one name more. -/
theorem keyPaths_object (name : String) {declarations : List Declaration}
    (h : ∀ declaration ∈ declarations, declaration.names ≠ []) :
    keyPaths (declarations.map (.inside name (some .object))) =
      (keyPaths declarations).map (name ++ "." ++ ·) := by
  rw [keyPaths, keyPaths, List.filter_map, List.map_map, List.map_map]
  refine List.map_congr_left fun declaration hmem => ?_
  have hne := h declaration (List.mem_filter.mp hmem).1
  obtain ⟨first, rest, hnames⟩ := List.exists_cons_of_ne_nil hne
  show ".".intercalate (name :: declaration.names) = _
  rw [hnames, String.intercalate_cons_cons, ← hnames]
  rfl

end Declaration

/-- The key attributes of one element of a level: those that objects only lead to. -/
def Descriptor.keyPaths (descriptor : Descriptor) : List String :=
  Declaration.keyPaths descriptor.declarations

/-! ## Columns -/

/-- The columns that attributes are annotated with, with the number of lists around each. -/
def Declaration.annotations (declarations : List Declaration) : List (String × Nat) :=
  declarations.filterMap fun declaration => declaration.column?.map (·, declaration.depth)

/-- The columns of key attributes in order of declaration, with the number of lists around. -/
def Declaration.keyColumns (declarations : List Declaration) : List (Nat × String) :=
  declarations.filterMap fun declaration => declaration.keyColumn?.map (declaration.depth, ·)

/-- A column of a key attribute is one that it is annotated with. -/
theorem Declaration.column?_of_keyColumn? {declaration : Declaration} {column : String}
    (h : declaration.keyColumn? = some column) : declaration.column? = some column := by
  obtain ⟨pair, hpair, rfl⟩ := Option.map_eq_some_iff.mp h
  rw [column?, (Option.filter_eq_some_iff.mp hpair).1]
  rfl

end NestedRecord
