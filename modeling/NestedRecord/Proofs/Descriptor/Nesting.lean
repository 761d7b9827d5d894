import NestedRecord.Descriptor.Tuple

/-!
# Where nested descriptors come from

A descriptor is folded by a recursion through attributes, tuples and directives, which are lists in
each other, so an induction over it needs one statement for each of them. They are proved here once,
together, and used through `fold_induction`, which speaks of levels only. Its hypothesis is about
attributes whose tuples are read, which is why the reader must not take a nested descriptor from
anywhere else.

- `Descriptor.fold_induction`: what holds of a level as soon as it holds of the levels nested in
  its attributes holds of all that a descriptor is folded into.
- `Tuple.mem_of_nested`: reading a tuple neither makes up a nested descriptor nor takes one from
  anywhere but the directives.
-/

namespace NestedRecord

variable {ν : Type}

/-- No word that stands for itself is a nested descriptor. -/
theorem Word.ne_nested_of_ofText {text : String} {token : Token ν}
    (h : Word.ofText text = .token token) (inner : ν) : token ≠ .nested inner := by
  rintro rfl
  unfold Word.ofText at h
  simp only at h
  repeat' split at h
  all_goals cases h

/-- No word is a nested descriptor. -/
theorem Word.ne_nested_of_classify {text : String} {token : Token ν}
    (h : Word.classify text = .token token) (inner : ν) : token ≠ .nested inner := by
  rintro rfl
  unfold Word.classify at h
  split at h
  case h_9 =>
    split at h
    · cases h
    · exact Word.ne_nested_of_ofText h inner rfl
  all_goals cases h

/-- No word with an operand is a nested descriptor. -/
theorem OperandWord.ne_nested_of_take {word : OperandWord} {operand : Directive ν}
    {token : Token ν} (h : word.take operand = .ok (.inl token)) (inner : ν) :
    token ≠ .nested inner := by
  rintro rfl
  unfold OperandWord.take at h
  repeat' split at h
  all_goals cases h

/-- A token for a nested descriptor stands for a directive. -/
theorem Token.mem_of_nested {inner : ν} {directives : List (Directive ν)}
    (h : .ok (.nested inner) ∈ Token.ofDirectives directives) : .nested inner ∈ directives := by
  fun_induction Token.ofDirectives directives with
  | case4 other rest ih =>
    rcases List.mem_cons.mp h with heq | hmem
    · cases heq
      exact List.mem_cons_self
    · exact List.mem_cons_of_mem _ (ih hmem)
  -- words and their operands make tokens, but none for a nested descriptor
  | case6 text rest token hclassify ih =>
    rcases List.mem_cons.mp h with heq | hmem
    · exact absurd (Except.ok.inj heq).symm (Word.ne_nested_of_classify hclassify inner)
    · exact List.mem_cons_of_mem _ (ih hmem)
  | case9 text word _ operand rest token htake ih =>
    rcases List.mem_cons.mp h with heq | hmem
    · exact absurd (Except.ok.inj heq).symm (OperandWord.ne_nested_of_take htake inner)
    · exact List.mem_cons_of_mem _ (List.mem_cons_of_mem _ (ih hmem))
  | _ => simp_all

/-- The nested descriptor of a tuple comes from one of its tokens. -/
theorem Tuple.nested_of_add {tuple tuple' : Tuple ν} {token : Token ν} {inner : ν}
    (h : tuple.add token = .ok tuple') (hnested : tuple'.nested = some inner) :
    tuple.nested = some inner ∨ token = .nested inner := by
  cases token with
  | nested other =>
    unfold Tuple.add at h
    simp only at h
    split at h
    · cases h
    · cases h
      exact .inr (congrArg Token.nested (Option.some.inj hnested))
  | bound side value =>
    cases side <;> cases h <;> exact .inl hnested
  | column | reference | handler =>
    unfold Tuple.add at h
    simp only at h
    split at h
    · cases h
    · cases h
      exact .inl hnested
  | _ =>
    cases h
    exact .inl hnested

/-- What is nested in the end was there at the start or is one of the tokens. -/
theorem Tuple.nested_of_foldlM {tokens : List (Except String (Token ν))} {start tuple : Tuple ν}
    {inner : ν}
    (h : tokens.foldlM (fun tuple token => token.bind tuple.add) start = .ok tuple)
    (hnested : tuple.nested = some inner) :
    start.nested = some inner ∨ .ok (.nested inner) ∈ tokens := by
  induction tokens generalizing start with
  | nil =>
    cases h
    exact .inl hnested
  | cons token rest ih =>
    rw [List.foldlM_cons] at h
    cases token with
    | error rule => cases h
    | ok token =>
      cases hadd : start.add token with
      | error rule =>
        simp only [Except.bind, hadd] at h
        cases h
      | ok next =>
        simp only [Except.bind, hadd] at h
        rcases ih h with hnext | hmem
        · rcases nested_of_add hadd hnext with hstart | rfl
          · exact .inl hstart
          · exact .inr List.mem_cons_self
        · exact .inr (List.mem_cons_of_mem _ hmem)

/-- The nested descriptor of a tuple is one of its directives. -/
theorem Tuple.mem_of_nested {directives : List (Directive ν)} {tuple : Tuple ν} {inner : ν}
    (h : Tuple.ofDirectives directives = .ok tuple) (hnested : tuple.nested = some inner) :
    .nested inner ∈ directives := by
  rcases nested_of_foldlM h hnested with hnone | hmem
  · cases hnone
  · exact Token.mem_of_nested hmem

namespace Descriptor

/-- A property that a level has as soon as the levels nested in its attributes have it. -/
def Inherited (level : List (String × Attribute ν) → ν) (p : ν → Prop) : Prop :=
  ∀ attributes, (∀ entry ∈ attributes, ∀ directives, entry.2 = .tuple directives →
    ∀ inner, .nested inner ∈ directives → p inner) → p (level attributes)

variable {level : List (String × Attribute ν) → ν} {p : ν → Prop}

mutual

/-- Everything that a descriptor is folded into has an inherited property. -/
theorem fold_induction (h : Inherited level p) : ∀ descriptor : Descriptor, p (descriptor.fold level)
  | .mk attributes => h _ (fold_induction_attributes h attributes)
termination_by structural descriptor => descriptor

theorem fold_induction_attributes (h : Inherited level p) :
    ∀ (attributes : List (String × Attribute Descriptor)),
      ∀ entry ∈ foldAttributes level attributes, ∀ directives, entry.2 = .tuple directives →
        ∀ inner, .nested inner ∈ directives → p inner
  | [], entry, hentry, _, _, _, _ => by cases hentry
  | (name, attr) :: rest, entry, hentry, directives, htuple, inner, hinner => by
    rcases List.mem_cons.mp hentry with rfl | hentry
    · exact fold_induction_attribute h attr directives htuple inner hinner
    · exact fold_induction_attributes h rest entry hentry directives htuple inner hinner
termination_by structural attributes => attributes

theorem fold_induction_attribute (h : Inherited level p) :
    ∀ (attr : Attribute Descriptor) (directives : List (Directive ν)),
      foldAttribute level attr = .tuple directives →
        ∀ inner, .nested inner ∈ directives → p inner
  | .tuple declared, directives, htuple, inner, hinner => by
    obtain rfl : foldDirectives level declared = directives := Attribute.tuple.inj htuple
    exact fold_induction_directives h declared inner hinner
  | .bare _, _, htuple, _, _ => by cases htuple
  | .malformed _, _, htuple, _, _ => by cases htuple
termination_by structural attr => attr

theorem fold_induction_directives (h : Inherited level p) :
    ∀ (directives : List (Directive Descriptor)) (inner : ν),
      .nested inner ∈ foldDirectives level directives → p inner
  | [], _, hinner => by cases hinner
  | directive :: rest, inner, hinner => by
    rcases List.mem_cons.mp hinner with heq | hinner
    · exact fold_induction_directive h directive inner heq.symm
    · exact fold_induction_directives h rest inner hinner
termination_by structural directives => directives

theorem fold_induction_directive (h : Inherited level p) :
    ∀ (directive : Directive Descriptor) (inner : ν),
      foldDirective level directive = .nested inner → p inner
  | .word _, _, heq => by cases heq
  | .literal _, _, heq => by cases heq
  | .handler _, _, heq => by cases heq
  | .nested descriptor, inner, heq => by
    obtain rfl : fold level descriptor = inner := Directive.nested.inj heq
    exact fold_induction h descriptor
termination_by structural directive => directive

end

end Descriptor

end NestedRecord
