import NestedRecord.Proofs.Descriptor.Nesting

/-!
# Reading a tuple does not look inside

A tuple is read in the same way whatever stands for the nested descriptors. So what a level makes of
its attributes can be described once for the declared tuples, and two descriptions of one descriptor
can be compared level by level.

The reader is a fold over words, literals and handlers, and at each of these it keeps what is nested
without looking at it. So it commutes with any map on nested descriptors, and the lemmas here say so
for each function of the reader in turn, from a single word up to the tuple.

* `Tuple.ofDirectives_map` says it of a whole tuple.
* `Descriptor.fold_mk` gives a folded descriptor as the level of its folded attributes,
  `Descriptor.levels_induction` proves a property of all descriptors, the nested ones first, and
  `Descriptor.map_fold` relates two descriptions.
-/

namespace NestedRecord

variable {μ ν : Type} (f : μ → ν)

/-! ## Another description of the nested descriptors -/

def Directive.map : Directive μ → Directive ν
  | .word text => .word text
  | .literal value => .literal value
  | .handler call => .handler call
  | .nested inner => .nested (f inner)

@[simp] theorem Directive.map_word (text : String) :
    (Directive.word text : Directive μ).map f = .word text := rfl

@[simp] theorem Directive.map_literal (value : Json) :
    (Directive.literal value : Directive μ).map f = .literal value := rfl

@[simp] theorem Directive.map_handler (call : Handler) :
    (Directive.handler call : Directive μ).map f = .handler call := rfl

@[simp] theorem Directive.map_nested (inner : μ) :
    (Directive.nested inner).map f = .nested (f inner) := rfl

def Attribute.map : Attribute μ → Attribute ν
  | .tuple directives => .tuple (directives.map (Directive.map f))
  | .bare text => .bare text
  | .malformed kind => .malformed kind

/-- What is nested in an attribute after a map is the image of what was nested before. -/
theorem Attribute.exists_of_nested_map {f : μ → ν} {attr : Attribute μ}
    {directives : List (Directive ν)} {inner : ν} (h : attr.map f = .tuple directives)
    (hmem : .nested inner ∈ directives) : ∃ original, f original = inner := by
  cases attr with
  | bare text => cases h
  | malformed kind => cases h
  | tuple declared =>
    obtain rfl := Attribute.tuple.inj h
    obtain ⟨directive, -, heq⟩ := List.mem_map.mp hmem
    cases directive <;> cases heq
    exact ⟨_, rfl⟩

/-- Two maps one after the other are one map. -/
theorem Attribute.map_map {ξ : Type} (g : ν → ξ) (attr : Attribute μ) :
    (attr.map f).map g = attr.map (g ∘ f) := by
  cases attr with
  | tuple directives =>
    refine congrArg Attribute.tuple ?_
    rw [List.map_map]
    refine List.map_congr_left fun directive _ => ?_
    cases directive <;> rfl
  | bare text => rfl
  | malformed kind => rfl

/-- An attribute is described by what stands for the descriptors that are nested in it. -/
theorem Attribute.map_congr {f g : μ → ν} {attr : Attribute μ}
    (h : ∀ directives, attr = .tuple directives → ∀ inner, .nested inner ∈ directives →
      f inner = g inner) : attr.map f = attr.map g := by
  cases attr with
  | tuple directives =>
    refine congrArg Attribute.tuple (List.map_congr_left fun directive hmem => ?_)
    cases directive with
    | nested inner => exact congrArg Directive.nested (h directives rfl inner hmem)
    | _ => rfl
  | bare text => rfl
  | malformed kind => rfl

def Token.map : Token μ → Token ν
  | .type scalarType => .type scalarType
  | .conversion change => .conversion change
  | .nesting kind => .nesting kind
  | .optional => .optional
  | .bound side value => .bound side value
  | .aggregate op path transformer => .aggregate op path transformer
  | .column name primary => .column name primary
  | .join store path => .join store path
  | .reference store => .reference store
  | .hook kind call => .hook kind call
  | .handler call => .handler call
  | .literal value => .literal value
  | .nested inner => .nested (f inner)

def Word.map : Word μ → Word ν
  | .token known => .token (known.map f)
  | .operand word => .operand word
  | .malformed rule => .malformed rule

def Tuple.map (tuple : Tuple μ) : Tuple ν where
  rules := tuple.rules
  scalarType := tuple.scalarType
  nesting := tuple.nesting
  nested := tuple.nested.map f
  column := tuple.column
  fallback := tuple.fallback
  hooks := tuple.hooks
  links := tuple.links
  computed := tuple.computed
  reference := tuple.reference

@[simp] theorem Tuple.isNested_map (tuple : Tuple μ) : (tuple.map f).isNested = tuple.isNested := by
  simp [isNested, map]

theorem Tuple.nested_eq_none {tuple : Tuple μ} (h : tuple.isNested = false) :
    tuple.nested = none := by
  simpa using (Bool.or_eq_false_iff.mp h).2

/-! ## Reading -/

theorem Word.ofText_map (text : String) : (Word.ofText text : Word μ).map f = Word.ofText text := by
  unfold Word.ofText
  simp only
  repeat' split
  all_goals rfl

/-- How a word is classified has nothing to do with what is nested. -/
theorem Word.classify_map (text : String) :
    (Word.classify text : Word μ).map f = Word.classify text := by
  unfold Word.classify
  split
  case h_9 =>
    split
    · rfl
    · exact ofText_map f text
  all_goals rfl

/-- An operand is taken in the same way. -/
theorem OperandWord.take_map (word : OperandWord) (operand : Directive μ) :
    word.take (operand.map f) = (word.take operand).map (Sum.map (Token.map f) id) := by
  cases operand with
  | word text =>
    cases word with
    | hook kind => rfl
    | reference =>
      simp only [take, Directive.map]
      split <;> rfl
    | bound side =>
      simp only [take, Directive.map]
      split
      · rfl
      · split <;> rfl
    | aggregate op =>
      simp only [take, Directive.map]
      split <;> rfl
  | literal value => cases word <;> rfl
  | handler call => cases word <;> rfl
  | nested inner => cases word <;> rfl

/-- The tokens of mapped directives are the mapped tokens, errors included. -/
theorem Token.ofDirectives_map (directives : List (Directive μ)) :
    Token.ofDirectives (directives.map (Directive.map f)) =
      (Token.ofDirectives directives).map (Except.map (Token.map f)) := by
  -- a word is the same word on both sides
  have hword {text : String} {word : Word μ} (h : Word.classify text = word) :
      Word.classify text = word.map f := by rw [← h, Word.classify_map]
  have htake {word : OperandWord} {operand : Directive μ} {result}
      (h : word.take operand = result) :
      word.take (operand.map f) = result.map (Sum.map (Token.map f) id) := by
    rw [OperandWord.take_map, h]
  fun_induction Token.ofDirectives directives with
  | case1 => rfl
  | case2 value rest ih => simpa [ofDirectives, Except.map, map] using ih
  | case3 call rest ih => simpa [ofDirectives, Except.map, map] using ih
  | case4 inner rest ih => simpa [ofDirectives, Except.map, map] using ih
  | case5 text rest rule h => simp [ofDirectives, Except.map, hword h, Word.map]
  | case6 text rest token h ih => simpa [ofDirectives, Except.map, hword h, Word.map] using ih
  | case7 text word h => simp [ofDirectives, Except.map, hword h, Word.map]
  | case8 text word h operand rest rule hrule =>
    simp [ofDirectives, Except.map, hword h, Word.map, htake hrule]
  | case9 text word h operand rest token htoken ih =>
    simpa [ofDirectives, Except.map, hword h, Word.map, htake htoken] using ih
  | case10 text word h operand op path haggregate call rest ih =>
    simpa [ofDirectives, Except.map, hword h, Word.map, htake haggregate, map] using ih
  | case11 text word h operand op path haggregate rest hcall ih =>
    have hrest : ∀ call behind, rest.map (Directive.map f) ≠ .handler call :: behind := by
      intro call behind heq
      obtain ⟨first, others, rfl, hfirst, -⟩ := List.map_eq_cons_iff.mp heq
      cases first <;> cases hfirst
      exact hcall call others rfl
    simp only [List.map_cons, Directive.map_word, ofDirectives, hword h, Word.map,
      htake haggregate, Except.map, Sum.map_inr, id]
    exact congrArg (List.cons _) ih

/-- A token is added in the same way. -/
theorem Tuple.add_map (tuple : Tuple μ) (token : Token μ) :
    (tuple.map f).add (token.map f) = (tuple.add token).map (Tuple.map f) := by
  cases token with
  | bound side value => cases side <;> rfl
  | nested inner =>
    cases h : tuple.nested.isSome <;> simp [add, Token.map, map, h, Except.map]
  | column name primary =>
    cases h : tuple.column.isSome <;> simp [add, Token.map, map, h, Except.map]
  | reference store =>
    cases h : tuple.reference.isSome <;> simp [add, Token.map, map, h, Except.map]
  | handler call =>
    cases h : tuple.computed.isSome <;> simp [add, Token.map, map, h, Except.map]
  | _ => rfl

/-- Tokens are added in the same way, up to the first error. -/
theorem Tuple.foldlM_add_map (tokens : List (Except String (Token μ))) (start : Tuple μ) :
    (tokens.map (Except.map (Token.map f))).foldlM
        (fun (tuple : Tuple ν) token => Except.bind token tuple.add) (start.map f) =
      (tokens.foldlM (fun (tuple : Tuple μ) token => Except.bind token tuple.add) start).map
        (Tuple.map f) := by
  induction tokens generalizing start with
  | nil => rfl
  | cons token rest ih =>
    rw [List.map_cons, List.foldlM_cons, List.foldlM_cons]
    cases token with
    | error rule => rfl
    | ok token =>
      show Except.bind ((start.map f).add (token.map f)) _ =
        (Except.bind (start.add token) _).map _
      rw [add_map]
      cases start.add token with
      | error rule => rfl
      | ok next => exact ih next

/-- A tuple is read in the same way whatever stands for the nested descriptors. -/
theorem Tuple.ofDirectives_map (directives : List (Directive μ)) :
    Tuple.ofDirectives (directives.map (Directive.map f)) =
      (Tuple.ofDirectives directives).map (Tuple.map f) := by
  rw [ofDirectives, Token.ofDirectives_map]
  exact foldlM_add_map f (Token.ofDirectives directives) {}

/-! ## Descriptors level by level -/

namespace Descriptor

variable (level : List (String × Attribute ν) → ν)

/-- The directives of a tuple are folded one by one. -/
theorem foldDirectives_eq (directives : List (Directive Descriptor)) :
    foldDirectives level directives = directives.map (Directive.map (fold level)) := by
  induction directives with
  | nil => rfl
  | cons directive rest ih =>
    rw [foldDirectives, ih, List.map_cons]
    cases directive <;> rfl

/-- The attributes of a level are folded one by one. -/
theorem foldAttributes_eq (attributes : List (String × Attribute Descriptor)) :
    foldAttributes level attributes =
      attributes.map fun entry => (entry.1, entry.2.map (fold level)) := by
  induction attributes with
  | nil => rfl
  | cons entry rest ih =>
    obtain ⟨name, attr⟩ := entry
    rw [foldAttributes, ih, List.map_cons]
    cases attr with
    | tuple directives =>
      rw [foldAttribute, foldDirectives_eq]
      rfl
    | bare text => rfl
    | malformed kind => rfl

/-- A descriptor is folded into what the level makes of its folded attributes. -/
theorem fold_mk (attributes : List (String × Attribute Descriptor)) :
    fold level (.mk attributes) =
      level (attributes.map fun entry => (entry.1, entry.2.map (fold level))) := by
  rw [fold, foldAttributes_eq]

/-- What holds of a descriptor as soon as it holds of those nested in its attributes holds of all.
-/
theorem levels_induction {p : Descriptor → Prop} (h : Inherited Descriptor.mk p)
    (descriptor : Descriptor) : p descriptor := by
  cases descriptor with
  | mk attributes =>
    refine h attributes fun entry hentry directives htuple inner hinner => ?_
    have hlt : sizeOf inner < sizeOf attributes := by
      have hdirective := List.sizeOf_lt_of_mem hinner
      have hattribute := List.sizeOf_lt_of_mem hentry
      obtain ⟨name, attr⟩ := entry
      obtain rfl : attr = .tuple directives := htuple
      simp only [Directive.nested.sizeOf_spec] at hdirective
      simp only [Prod.mk.sizeOf_spec, Attribute.tuple.sizeOf_spec] at hattribute
      omega
    exact levels_induction h inner
termination_by sizeOf descriptor
decreasing_by
  simp only [mk.sizeOf_spec]
  omega

/-- Two descriptions of a descriptor correspond if those of each level do. -/
theorem map_fold {f : μ → ν} {first : List (String × Attribute μ) → μ}
    {second : List (String × Attribute ν) → ν}
    (h : ∀ attributes, f (first attributes) =
      second (attributes.map fun entry => (entry.1, entry.2.map f))) (descriptor : Descriptor) :
    f (fold first descriptor) = fold second descriptor := by
  refine levels_induction (p := fun descriptor => f (fold first descriptor) = fold second descriptor)
    (fun attributes ih => ?_) descriptor
  show f (fold first (.mk attributes)) = fold second (.mk attributes)
  rw [fold_mk, fold_mk, h, List.map_map]
  refine congrArg second (List.map_congr_left fun entry hentry => ?_)
  refine congrArg (Prod.mk entry.1) ?_
  rw [Attribute.map_map]
  exact Attribute.map_congr (ih entry hentry)

end Descriptor

end NestedRecord
