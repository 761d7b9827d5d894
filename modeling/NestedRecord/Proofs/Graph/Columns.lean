import NestedRecord.Proofs.Graph.Tables

/-!
# The columns of a flattened descriptor

A column may annotate several attributes, with different numbers of lists around them. The grouping
by depth is a table by column, so it keeps one number for each: that of the attribute declared last.

- `Flattened.DescribesColumns` says that the grouping describes every annotated attribute.
- `Flattened.groupsColumns_of_flatten`: it does exactly if each column is on one level, and then key
  columns ascend in the grouping.

The table of the grouping is written attribute by attribute, so by `Tables` it holds the last number
of lists for each column. Whether that is the number for every attribute is a condition on the
declarations alone, and it can be decided. A key column that is annotated twice may otherwise be put
at the place of the wrong attribute.
-/

namespace NestedRecord

open Fields (get?)

/-- No column annotates attributes with different numbers of lists around them. -/
def Declaration.ColumnsLevel (declarations : List Declaration) : Prop :=
  ∀ entry ∈ annotations declarations, ∀ other ∈ annotations declarations,
    entry.1 = other.1 → entry.2 = other.2

instance (declarations : List Declaration) : Decidable (Declaration.ColumnsLevel declarations) :=
  inferInstanceAs (Decidable (∀ entry ∈ Declaration.annotations declarations,
    ∀ other ∈ Declaration.annotations declarations, entry.1 = other.1 → entry.2 = other.2))

/-- A key column is among the annotations, with the same number of lists around. -/
theorem Declaration.mem_annotations_of_keyColumns {declarations : List Declaration}
    {entry : Nat × String} (h : entry ∈ keyColumns declarations) :
    (entry.2, entry.1) ∈ annotations declarations := by
  obtain ⟨declaration, hdeclaration, hentry⟩ := List.mem_filterMap.mp h
  obtain ⟨column, hcolumn, rfl⟩ := Option.map_eq_some_iff.mp hentry
  refine List.mem_filterMap.mpr ⟨declaration, hdeclaration, ?_⟩
  rw [column?_of_keyColumn? hcolumn]
  rfl

namespace Flattened

variable {flattened : Flattened} {declarations : List Declaration}

/-- Each annotated attribute is described by the grouping: it gives the number of lists around the
attribute for its column. -/
def DescribesColumns (flattened : Flattened) (declarations : List Declaration) : Prop :=
  ∀ declaration ∈ declarations, ∀ column, declaration.column? = some column →
    get? flattened.metadata.sortGroup column = some declaration.depth

/-- The key columns ascend in the grouping. -/
def KeyColumnsAscend (flattened : Flattened) : Prop :=
  ∃ depths : List Nat, flattened.metadata.sortMandatory.map (get? flattened.metadata.sortGroup) =
    depths.map some ∧ depths.Pairwise (· ≤ ·)

/-- The grouping describes every attribute if it has every annotation. -/
theorem describesColumns_iff_annotations : flattened.DescribesColumns declarations ↔
    ∀ entry ∈ Declaration.annotations declarations,
      get? flattened.metadata.sortGroup entry.1 = some entry.2 := by
  constructor
  · rintro h entry hentry
    obtain ⟨declaration, hdeclaration, heq⟩ := List.mem_filterMap.mp hentry
    obtain ⟨column, hcolumn, rfl⟩ := Option.map_eq_some_iff.mp heq
    exact h declaration hdeclaration column hcolumn
  · intro h declaration hdeclaration column hcolumn
    refine h (column, declaration.depth) (List.mem_filterMap.mpr ⟨declaration, hdeclaration, ?_⟩)
    rw [hcolumn]
    rfl

/-- The grouping keeps the number of lists around the attribute that is declared last. -/
theorem Notes.get?_sortGroup (h : flattened.Notes declarations) (column : String) :
    get? flattened.metadata.sortGroup column =
      Fields.lastValue? column (Declaration.annotations declarations) := by
  rw [h.sortGroup, Fields.get?_setAll]
  exact Option.or_none

/-- Every annotation is described if and only if a column is on one level. -/
theorem Notes.describesColumns_iff (h : flattened.Notes declarations) :
    flattened.DescribesColumns declarations ↔ Declaration.ColumnsLevel declarations := by
  rw [describesColumns_iff_annotations]
  constructor
  · -- a table has one value for the column of both
    intro hdepth entry hentry other hother hcolumn
    have hsame := (hdepth entry hentry).symm.trans (hcolumn ▸ hdepth other hother)
    exact Option.some.inj hsame
  · intro hlevel entry hentry
    obtain ⟨depth, hlast, hmem⟩ := Fields.exists_lastValue?_of_mem hentry
    rw [h.get?_sortGroup, hlast]
    exact congrArg some (hlevel _ hmem entry hentry rfl)

/-- Where every column is on one level, key columns ascend: they stand in the order of the numbers
that the grouping keeps. -/
theorem Notes.keyColumnsAscend (h : flattened.Notes declarations)
    (hlevel : Declaration.ColumnsLevel declarations) : flattened.KeyColumnsAscend := by
  obtain ⟨order, hsorted, hmandatory⟩ := h.sortMandatory
  have hdepth := describesColumns_iff_annotations.mp (h.describesColumns_iff.mpr hlevel)
  refine ⟨order.map (·.1), ?_, List.pairwise_map.mpr hsorted.ascending⟩
  rw [hmandatory, List.map_map, List.map_map]
  refine List.map_congr_left fun entry hentry => ?_
  exact hdepth _ (Declaration.mem_annotations_of_keyColumns (hsorted.mem_iff.mp hentry))

/-- The grouping by depth and the order of the key columns. -/
structure GroupsColumns (flattened : Flattened) (declarations : List Declaration) : Prop where
  /-- of the attributes of a column, the one declared last is described -/
  last : ∀ column, get? flattened.metadata.sortGroup column =
    Fields.lastValue? column (Declaration.annotations declarations)
  /-- all of them are described exactly if they are on one level -/
  describes_iff : flattened.DescribesColumns declarations ↔ Declaration.ColumnsLevel declarations
  ascend : Declaration.ColumnsLevel declarations → flattened.KeyColumnsAscend

/-- The grouping by depth describes the columns that are on one level, and only them. -/
theorem groupsColumns_of_flatten {store rootName : String} {descriptor : Descriptor}
    (h : (flatten store rootName descriptor).1 = .ok flattened) :
    flattened.GroupsColumns descriptor.declarations := by
  have hnotes := notes_of_flatten h
  exact ⟨hnotes.get?_sortGroup, hnotes.describesColumns_iff, hnotes.keyColumnsAscend⟩

/-- Menus with their dishes; the names of both are kept in columns of one name. -/
def menus : Descriptor :=
  .mk [("id", .tuple [.word "int", .word "<<idMenu>>"]),
    ("dishes", .tuple [.word "array", .nested (.mk
      [("id", .tuple [.word "int", .word "<<idDish>>"]),
       ("price", .tuple [.word "number", .word "<price>"]),
       ("shown", .tuple [.word "object", .nested (.mk
         [("gross", .tuple [.word "number", .word "<price>"])])])])])]

/-- Every column of the menus is on one level. -/
theorem groupsColumns_of_flatten_menus : ∃ flattened,
    (flatten "menus" "main" menus).1 = .ok flattened ∧
      flattened.DescribesColumns menus.declarations ∧ flattened.KeyColumnsAscend := by
  have hlevel : Declaration.ColumnsLevel menus.declarations := by decide +kernel
  have haccepted : (flatten "menus" "main" menus).1.toOption.isSome = true := by decide +kernel
  obtain ⟨flattened, hflatten⟩ := Option.isSome_iff_exists.mp haccepted
  have hok := Except.eq_ok_of_toOption hflatten
  have hgroups := groupsColumns_of_flatten hok
  exact ⟨flattened, hok, hgroups.describes_iff.mpr hlevel, hgroups.ascend hlevel⟩

/-- Invoices whose lines repeat the key column of the invoice. -/
def invoices : Descriptor :=
  .mk [("id", .tuple [.word "int", .word "<<invoice>>"]),
    ("year", .tuple [.word "int", .word "<<year>>"]),
    ("lines", .tuple [.word "array", .nested (.mk
      [("invoice", .tuple [.word "int", .word "<<invoice>>"])])])]

/-- The key column of the invoices is described as one of their lines, and the year stands behind
it among the key columns. -/
theorem not_describesColumns_invoices : ∃ flattened,
    (flatten "shop" "main" invoices).1 = .ok flattened ∧
      ¬ flattened.DescribesColumns invoices.declarations ∧ ¬ flattened.KeyColumnsAscend := by
  have hcolumns : (flatten "shop" "main" invoices).1.toOption.map (fun flattened =>
      (flattened.metadata.sortGroup, flattened.metadata.sortMandatory)) =
        some ([("invoice", 1), ("year", 0)], ["invoice", "year", "invoice"]) := by
    decide +kernel
  obtain ⟨flattened, hflatten, hboth⟩ := Option.map_eq_some_iff.mp hcolumns
  obtain ⟨hgroup, hmandatory⟩ := Prod.mk.inj hboth
  have hok := Except.eq_ok_of_toOption hflatten
  refine ⟨flattened, hok, fun hdescribes => ?_, ?_⟩
  · have hlevel := (notes_of_flatten hok).describesColumns_iff.mp hdescribes
    exact absurd hlevel (by decide +kernel)
  · -- the key columns stand in the order of their own depths, which the grouping no longer knows
    rintro ⟨depths, hdepths, hascend⟩
    have hdepths : depths.map some = [1, 0, 1].map some := by
      rw [← hdepths, hgroup, hmandatory]
      decide
    obtain rfl := List.map_injective_iff.mpr (fun _ _ => Option.some.inj) hdepths
    exact absurd hascend (by decide)

end Flattened

end NestedRecord
