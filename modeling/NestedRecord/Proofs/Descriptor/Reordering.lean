import Mathlib.Data.List.Forall2
import NestedRecord.Proofs.Descriptor.Mapping

/-!
# Siblings in another order

Two descriptors may differ in nothing but the order in which attributes stand at some levels.

Two descriptors that are alike are compared by their tuples, and a tuple is read in one pass with an
error at any point. Rather than going through the reader with two tuples at a time, they are taken
for the two sides of a tuple that holds pairs: by `Tuple.ofDirectives_map` reading the pairs gives
both readings at once.

* `Directive.Alike` and `Attribute.Alike` compare what may hold nested descriptors by a relation
  of these.
* `Descriptor.Reordered` is the relation of descriptors that differ in the order of siblings only.
* `Tuple.exists_joint`: the tuples of two attributes that are alike are two views of one tuple, so
  they agree in all but what is nested. `Reordered.exists_entry` finds an attribute in the other
  order.
-/

namespace NestedRecord

variable {μ ν : Type} {r : μ → ν → Prop}

/-- Directives that differ at most in what is nested. -/
inductive Directive.Alike (r : μ → ν → Prop) : Directive μ → Directive ν → Prop
  | word (text : String) : Alike r (.word text) (.word text)
  | literal (value : Json) : Alike r (.literal value) (.literal value)
  | handler (handler : Handler) : Alike r (.handler handler) (.handler handler)
  | nested {inner : μ} {inner' : ν} (below : r inner inner') :
      Alike r (.nested inner) (.nested inner')

/-- Attributes of one name that differ at most in what is nested. -/
inductive Attribute.Alike (r : μ → ν → Prop) :
    String × Attribute μ → String × Attribute ν → Prop
  | tuple (name : String) {directives : List (Directive μ)} {directives' : List (Directive ν)}
      (alike : List.Forall₂ (Directive.Alike r) directives directives') :
      Alike r (name, .tuple directives) (name, .tuple directives')
  | bare (name text : String) : Alike r (name, .bare text) (name, .bare text)
  | malformed (name kind : String) : Alike r (name, .malformed kind) (name, .malformed kind)

/-- Two descriptors differ at most in the order of siblings, at any levels. -/
inductive Descriptor.Reordered : Descriptor → Descriptor → Prop
  | mk {attributes arranged attributes' : List (String × Attribute Descriptor)}
      (below : List.Forall₂ (Attribute.Alike Reordered) attributes arranged)
      (order : arranged.Perm attributes') : Reordered (.mk attributes) (.mk attributes')

theorem Attribute.Alike.name_eq {entry : String × Attribute μ} {entry' : String × Attribute ν}
    (h : Attribute.Alike r entry entry') : entry'.1 = entry.1 := by
  cases h <;> rfl

/-- An attribute is like itself if what is nested in it is. -/
theorem Attribute.alike_self {r : μ → μ → Prop} (entry : String × Attribute μ)
    (h : ∀ directives, entry.2 = .tuple directives → ∀ inner, .nested inner ∈ directives →
      r inner inner) : Attribute.Alike r entry entry := by
  obtain ⟨name, attr⟩ := entry
  cases attr with
  | bare text => exact .bare name text
  | malformed kind => exact .malformed name kind
  | tuple directives =>
    refine .tuple name (List.forall₂_same.mpr fun directive hmem => ?_)
    cases directive with
    | word text => exact .word text
    | literal value => exact .literal value
    | handler handler => exact .handler handler
    | nested inner => exact .nested (h directives rfl inner hmem)

/-- A descriptor differs in nothing from itself. -/
theorem Descriptor.Reordered.refl : ∀ descriptor : Descriptor, descriptor.Reordered descriptor :=
  Descriptor.levels_induction fun _ ih =>
    .mk (List.forall₂_same.mpr fun entry hentry => Attribute.alike_self entry (ih entry hentry))
      (.refl _)

/-! ## Tuples -/

/-- Directives that are alike are two views of directives that hold pairs. -/
theorem Directive.exists_joint {directives : List (Directive μ)} {directives' : List (Directive ν)}
    (h : List.Forall₂ (Directive.Alike r) directives directives') :
    ∃ joint : List (Directive { pair : μ × ν // r pair.1 pair.2 }),
      joint.map (Directive.map (·.1.1)) = directives ∧
        joint.map (Directive.map (·.1.2)) = directives' := by
  induction h with
  | nil => exact ⟨[], rfl, rfl⟩
  | cons first _ ih =>
    obtain ⟨joint, rfl, rfl⟩ := ih
    cases first with
    | word text => exact ⟨.word text :: joint, rfl, rfl⟩
    | literal value => exact ⟨.literal value :: joint, rfl, rfl⟩
    | handler handler => exact ⟨.handler handler :: joint, rfl, rfl⟩
    | nested below => exact ⟨.nested ⟨(_, _), below⟩ :: joint, rfl, rfl⟩

/-- The tuples of attributes that are alike are two views of a tuple that holds a pair. -/
theorem Tuple.exists_joint {directives : List (Directive μ)} {directives' : List (Directive ν)}
    {tuple : Tuple μ} (h : List.Forall₂ (Directive.Alike r) directives directives')
    (hread : Tuple.ofDirectives directives = .ok tuple) :
    ∃ joint : Tuple { pair : μ × ν // r pair.1 pair.2 },
      joint.map (·.1.1) = tuple ∧ Tuple.ofDirectives directives' = .ok (joint.map (·.1.2)) := by
  obtain ⟨pairs, rfl, rfl⟩ := Directive.exists_joint h
  rw [ofDirectives_map] at hread ⊢
  cases hpairs : Tuple.ofDirectives pairs with
  | error rule =>
    rw [hpairs] at hread
    cases hread
  | ok joint =>
    rw [hpairs] at hread
    exact ⟨joint, Except.ok.inj hread, rfl⟩

/-! ## Descriptors -/

namespace Descriptor.Reordered

variable {descriptor descriptor' : Descriptor}

/-- An attribute stands somewhere in the other order. -/
theorem exists_entry (h : descriptor.Reordered descriptor') {name : String}
    {directives : List (Directive Descriptor)}
    (hmem : (name, .tuple directives) ∈ descriptor.attributes) :
    ∃ directives', (name, .tuple directives') ∈ descriptor'.attributes ∧
      List.Forall₂ (Directive.Alike Reordered) directives directives' := by
  cases h with
  | @mk attributes arranged attributes' below order =>
    replace hmem : (name, .tuple directives) ∈ attributes := hmem
    -- a permutation keeps what is there, so the order is set aside
    suffices hfound : ∃ directives', (name, .tuple directives') ∈ arranged ∧
        List.Forall₂ (Directive.Alike Reordered) directives directives' by
      obtain ⟨directives', hmem', halike⟩ := hfound
      exact ⟨directives', order.mem_iff.mp hmem', halike⟩
    clear order
    induction below with
    | nil => cases hmem
    | cons first _ ih =>
      rcases List.mem_cons.mp hmem with rfl | hmem
      · cases first with
        | tuple _ alike => exact ⟨_, List.mem_cons_self, alike⟩
      · obtain ⟨directives', hmem', halike⟩ := ih hmem
        exact ⟨directives', List.mem_cons_of_mem _ hmem', halike⟩

/-- No attribute is left out and none is added. -/
theorem length_eq (h : descriptor.Reordered descriptor') :
    descriptor'.attributes.length = descriptor.attributes.length := by
  cases h with
  | mk below order => exact order.length_eq.symm.trans below.length_eq.symm

end Descriptor.Reordered

end NestedRecord
