import NestedRecord.Proofs.Key.Atomic
import NestedRecord.Proofs.Number.Shortest

/-!
# A record's own key written back

The parts of a composite key are texts, and a text is read as what the type of its attribute makes
of it. So a record into which its own key is written need not stay as it was: what is read is what
the text of a value stands for, which is the value itself only if the value is one that its type
reads.

- `PrimaryKey.Kept` are the values that stay, `PrimaryKey.Rewritten` is what becomes of any value.
- `PrimaryKey.Clear` leaves numbers out that a key does not tell.
- `PrimaryKey.rewritten_partValue`: a value is read from its own text as `Rewritten` says.
- `PrimaryKey.foldlM_place?_eq_self`: to write what is there changes nothing.
- `Store.IsCompiled.setKey_key` is the result for a store.

What becomes of a value is a relation with one constructor for each thing that can happen to it, so
that the result says it for all values at once: it stays, it is a number that is written as an
integer, it is a text that is read as a number or a truth value, or it is none of these and becomes
its text. To which constructor a value belongs is decided by its text alone, since the text is all
that a key keeps.
-/

namespace NestedRecord

open Fields (get?)

namespace Json

variable {value : Json}

theorem number?_eq_some {n : Number} : value.number? = some n ↔ value = .number n := by
  cases value <;> simp [number?]

theorem bool?_eq_some {b : Bool} : value.bool? = some b ↔ value = .bool b := by
  cases value <;> simp [bool?]

end Json

namespace PrimaryKey

/-- The parts of these types are read as numbers. -/
def Numeric (type : Option ScalarType) : Prop := type = some .int ∨ type = some .number

instance (type : Option ScalarType) : Decidable (Numeric type) :=
  inferInstanceAs (Decidable (_ ∨ _))

/-- The parts of these types stay texts. -/
def Textual (type : Option ScalarType) : Prop :=
  type ≠ some .int ∧ type ≠ some .number ∧ type ≠ some .boolean

/-- Whole doubles below this bound become integers. -/
def Integral (x : Finite) : Prop := x.isWhole = true ∧ x.truncate.natAbs < 9000000000000000

instance (x : Finite) : Decidable (Integral x) := inferInstanceAs (Decidable (_ ∧ _))

/-- The values that are read from their own text as they were. -/
inductive Kept : Option ScalarType → Json → Prop
  | text {type : Option ScalarType} {s : String} (textual : Textual type) : Kept type (.string s)
  | truth (b : Bool) : Kept (some .boolean) (.bool b)
  /-- a text that is no truth value -/
  | word {s : String} (other : s ≠ "true" ∧ s ≠ "false") : Kept (some .boolean) (.string s)
  | whole {type : Option ScalarType} {n : Whole} (numeric : Numeric type)
      (small : n.val.natAbs < 9000000000000000) : Kept type (.number (.whole n))
  | real {type : Option ScalarType} {x : Finite} (numeric : Numeric type)
      (fractional : ¬ Integral x) : Kept type (.number (.real x))
  /-- a text that is no numeral -/
  | prose {type : Option ScalarType} {s : String} (numeric : Numeric type)
      (other : Numeral.parse? s = none) : Kept type (.string s)

/-- What becomes of a value when it is read from its own text. -/
inductive Rewritten : Option ScalarType → Json → Json → Prop
  | kept {type : Option ScalarType} {value : Json} (kept : Kept type value) :
      Rewritten type value value
  | integral {type : Option ScalarType} {x : Finite} {n : Whole} (numeric : Numeric type)
      (integral : Integral x) (value : n.val = x.truncate) :
      Rewritten type (.number (.real x)) (.number (.whole n))
  | numeral {type : Option ScalarType} {s : String} {x : Double} (numeric : Numeric type)
      (read : Numeral.parse? s = some x) : Rewritten type (.string s) (.ofDouble x)
  | truth (b : Bool) : Rewritten (some .boolean) (.string (Json.bool b).render) (.bool b)
  /-- a value of a kind that the type does not read becomes its text -/
  | rendered {type : Option ScalarType} {value : Json} (present : value.isNull = false)
      (text : value.string? = none) (number : Numeric type → value.number? = none)
      (truth : type = some .boolean → value.bool? = none) :
      Rewritten type value (.string value.render)

/-- A value that a key tells, as far as it is a number: an integer that is whole as a double too,
and not the milliseconds of a date. -/
structure Clear (type : Option ScalarType) (value : Json) : Prop where
  /-- This only leaves dates in milliseconds out. What is said of a key written back is silent about
  them, and its proof never turns to this field. -/
  date : type = some .date → value.number? = none
  /-- An integer beyond the bound comes back from its text as a double, so this one is needed:
  `rewritten_partValue` would fail without it. -/
  small : Numeric type → ∀ n, value = .number (.whole n) → n.val.natAbs < 9000000000000000

variable {type : Option ScalarType} {value : Json}

/-- Only what is kept stays as it was. -/
theorem Rewritten.kept_of_eq {value' : Json} (h : Rewritten type value value')
    (hsame : value' = value) : Kept type value := by
  cases h with
  | kept hkept => exact hkept
  | integral => cases hsame
  | @numeral s x numeric read =>
    -- what is read from a numeral is no text
    unfold Json.ofDouble at hsame
    split at hsame <;> cases hsame
  | truth => cases hsame
  | rendered _ text =>
    rw [← hsame] at text
    cases text

/-- What is kept stays as it was. -/
theorem Rewritten.eq_of_kept {value' : Json} (h : Rewritten type value value')
    (hkept : Kept type value) : value' = value := by
  -- each way to change a value starts from one that is not kept
  cases h with
  | kept => rfl
  | integral numeric integral => cases hkept with
    | real _ fractional => exact absurd integral fractional
  | numeral numeric read => cases hkept with
    | text textual =>
      rcases numeric with rfl | rfl
      · exact absurd rfl textual.1
      · exact absurd rfl textual.2.1
    | word => rcases numeric with h | h <;> cases h
    | prose _ other =>
      rw [read] at other
      cases other
  | truth b => cases hkept with
    | text textual => exact absurd rfl textual.2.2
    | word other => cases b <;> simp [Json.render] at other
    | prose numeric => rcases numeric with h | h <;> cases h
  | rendered present text number truth => cases hkept with
    | truth b => cases truth rfl
    | whole numeric => cases number numeric
    | real numeric => cases number numeric
    | _ => cases text

/-- Where numbers are read, a part is a number if it is a numeral. -/
theorem partValue_of_numeric (h : Numeric type) (text : String) :
    partValue type text = ((Numeral.parse? text).map Json.ofDouble).getD (.string text) := by
  rcases h with rfl | rfl <;> rfl

end PrimaryKey

/-! ## Texts that are read -/

namespace Numeral

/-- A text that begins neither like a number nor like one of the words that are numerals. -/
theorem parse?_eq_none_of_head {text : String} {c : Char} {rest : List Char}
    (htext : text.toList = c :: rest) (hsign : c ≠ '-' ∧ c ≠ '+') (hdigit : isDigit c = false)
    (hpoint : c ≠ '.') (hword : c.toLower ≠ 'i' ∧ c.toLower ≠ 'n') : parse? text = none := by
  have hsplit : splitSign (c :: rest) = (false, c :: rest) := by
    unfold splitSign
    split
    · next heq => exact absurd (List.cons.inj heq).1 hsign.1
    · next heq => exact absurd (List.cons.inj heq).1 hsign.2
    · rfl
  have hother (d : Char) (word : List Char) (hd : c.toLower ≠ d) :
      String.ofList ((c :: rest).map Char.toLower) ≠ String.ofList (d :: word) := by
    intro heq
    have hlist := String.ofList_injective heq
    rw [List.map_cons] at hlist
    exact hd (List.cons.inj hlist).1
  -- no digit is at the beginning, and then there has to be a point
  have hspan : spanDigits (c :: rest) = ([], c :: rest) := by
    have hnot : ¬ isDigit c = true := Bool.eq_false_iff.mp hdigit
    unfold spanDigits
    rw [List.takeWhile_cons_of_neg hnot, List.dropWhile_cons_of_neg hnot]
  have hdecimal : parseDecimal? (c :: rest) = none := by
    unfold parseDecimal?
    rw [hspan]
    simp only
    split
    · next heq => exact absurd (List.cons.inj heq).1 hpoint
    · rfl
  have hinf := hother 'i' ['n', 'f'] hword.1
  have hinfinity := hother 'i' ['n', 'f', 'i', 'n', 'i', 't', 'y'] hword.1
  have hnan := hother 'n' ['a', 'n'] hword.2
  unfold parse?
  rw [htext, hsplit]
  simp only
  rw [if_neg (not_or.mpr ⟨hinf, hinfinity⟩), if_neg hnan, hdecimal]
  rfl

/-- The text of a number is a numeral. -/
theorem isSome_parse?_toText (n : Number) : (parse? n.toText).isSome = true := by
  cases n with
  | whole n =>
    obtain ⟨d, rest, hdigits, hd⟩ := exists_toDigits_eq_cons n.val.natAbs
    have hsign := splitSign_intText n.val
    rw [hdigits] at hsign
    rw [Number.toText, parse?_of_splitSign hsign hd, ← hdigits, parseDecimal?_toDigits]
    rfl
  | real x =>
    rw [Number.toText, Finite.parse?_toJsonText]
    rfl

end Numeral

/-- The text of a value that is neither a text nor a number is no numeral. -/
theorem Json.parse?_render {value : Json} (hnumber : value.number? = none)
    (htext : value.string? = none) : Numeral.parse? value.render = none := by
  cases value with
  | null => rfl
  | bool b => cases b <;> rfl
  | number n => cases hnumber
  | string s => cases htext
  | array items =>
    have hrender : (array items).render.toList =
        '[' :: (",".intercalate (renderItems items) ++ "]").toList := by
      rw [render, String.append_assoc, String.toList_append]
      rfl
    exact Numeral.parse?_eq_none_of_head hrender (by decide) (by decide) (by decide) (by decide)
  | object members =>
    have hrender : (object members).render.toList =
        '\x7b' :: (",".intercalate (renderMembers members) ++ "\x7d").toList := by
      rw [render, String.append_assoc, String.toList_append]
      rfl
    exact Numeral.parse?_eq_none_of_head hrender (by decide) (by decide) (by decide) (by decide)

/-- Only the text of a truth value is one of theirs. -/
theorem Json.render_ne_truth {value : Json} (htruth : value.bool? = none)
    (htext : value.string? = none) : value.render ≠ "true" ∧ value.render ≠ "false" := by
  have hword (word : String) (hword : Numeral.parse? word = none) (n : Number) :
      n.toText ≠ word := by
    intro heq
    have hsome := Numeral.isSome_parse?_toText n
    rw [heq, hword] at hsome
    cases hsome
  have hhead (text word : String) (c : Char) (hword : word.toList.head? ≠ some c)
      (htext : text.toList.head? = some c) : text ≠ word := by
    rintro rfl
    exact hword htext
  cases value with
  | null => decide
  | bool b => cases htruth
  | number n => exact ⟨hword "true" rfl n, hword "false" rfl n⟩
  | string s => cases htext
  | array items =>
    have hrender : (array items).render.toList.head? = some '[' := by
      rw [render, String.append_assoc, String.toList_append]
      rfl
    exact ⟨hhead _ "true" '[' (by decide) hrender, hhead _ "false" '[' (by decide) hrender⟩
  | object members =>
    have hrender : (object members).render.toList.head? = some '\x7b' := by
      rw [render, String.append_assoc, String.toList_append]
      rfl
    exact ⟨hhead _ "true" '\x7b' (by decide) hrender, hhead _ "false" '\x7b' (by decide) hrender⟩

namespace PrimaryKey

variable {type : Option ScalarType} {value record : Json} {path : List String}

/-- A double that is not turned into an integer stays as it is. -/
theorem ofDouble_of_not_integral {x : Finite} (h : ¬ Integral x) :
    Json.ofDouble (.finite x) = .number (.real x) := by
  have hcond : (x.isWhole && decide (x.truncate.natAbs < 9000000000000000)) = false := by
    rw [Bool.eq_false_iff, Ne, Bool.and_eq_true, decide_eq_true_eq]
    exact h
  unfold Json.ofDouble Number.ofDouble?
  simp only [Double.finite?, Option.map_some, hcond, Bool.false_eq_true, if_false]

theorem ofDouble_of_integral {x : Finite} (h : Integral x) :
    ∃ n : Whole, n.val = x.truncate ∧ Json.ofDouble (.finite x) = .number (.whole n) := by
  obtain ⟨hwhole, hsmall⟩ := h
  obtain ⟨n, hn⟩ : ∃ n : Whole, n.val = x.truncate := ⟨⟨x.truncate, by omega⟩, rfl⟩
  refine ⟨n, hn, ?_⟩
  rw [Json.ofDouble, Number.ofDouble?_finite hwhole hn.symm (hn ▸ hsmall)]

/-- Parts are read as numbers, as truth values, or not at all. -/
theorem numeric_or_boolean_or_textual (type : Option ScalarType) :
    Numeric type ∨ type = some .boolean ∨ Textual type := by
  by_cases hnumeric : Numeric type
  · exact .inl hnumeric
  · by_cases hboolean : type = some .boolean
    · exact .inr (.inl hboolean)
    · exact .inr (.inr ⟨fun h => hnumeric (.inl h), fun h => hnumeric (.inr h), hboolean⟩)

/-- A value is its own part as a text, and has its JSON text as its part otherwise. -/
theorem partText?_eq_some {text : String} (h : KeyAttribute.partText? value = some text) :
    value = .string text ∨
      value.isNull = false ∧ value.string? = none ∧ text = value.render := by
  cases value with
  | null => cases h
  | string s => exact .inl (congrArg Json.string (Option.some.inj h))
  | _ => exact .inr ⟨rfl, rfl, (Option.some.inj h).symm⟩

/-- A text is read as its type says. -/
theorem rewritten_string (type : Option ScalarType) (text : String) :
    Rewritten type (.string text) (partValue type text) := by
  rcases numeric_or_boolean_or_textual type with hnumeric | rfl | htextual
  · rw [partValue_of_numeric hnumeric]
    cases hread : Numeral.parse? text with
    | none => exact .kept (.prose hnumeric hread)
    | some x => exact .numeral hnumeric hread
  · by_cases htrue : text = "true"
    · subst htrue
      exact .truth true
    · by_cases hfalse : text = "false"
      · subst hfalse
        exact .truth false
      · rw [partValue, if_neg htrue, if_neg hfalse]
        exact .kept (.word ⟨htrue, hfalse⟩)
  · rw [partValue_of_textual htextual]
    exact .kept (.text htextual)

/-- A number is read from its text if numbers are read. -/
theorem rewritten_number (hnumeric : Numeric type) (n : Number)
    (hsmall : ∀ m, n = .whole m → m.val.natAbs < 9000000000000000) :
    Rewritten type (.number n) (partValue type n.toText) := by
  rw [partValue_of_numeric hnumeric]
  cases n with
  | whole n =>
    have hsmall := hsmall n rfl
    rw [Number.toText, Numeral.parse?_intText (Nat.le_of_lt (by omega)), Option.map_some,
      Option.getD_some, Json.ofDouble_ofInt hsmall]
    exact .kept (.whole hnumeric hsmall)
  | real x =>
    rw [Number.toText, Finite.parse?_toJsonText, Option.map_some, Option.getD_some]
    by_cases hintegral : Integral x
    · obtain ⟨n, hn, hread⟩ := ofDouble_of_integral hintegral
      rw [hread]
      exact .integral hnumeric hintegral hn
    · rw [ofDouble_of_not_integral hintegral]
      exact .kept (.real hnumeric hintegral)

/-- Nothing is read from the text of a value that is not of the kind of the type. -/
theorem partValue_render (htext : value.string? = none)
    (hnumber : Numeric type → value.number? = none)
    (htruth : type = some .boolean → value.bool? = none) :
    partValue type value.render = .string value.render := by
  rcases numeric_or_boolean_or_textual type with hnumeric | rfl | htextual
  · rw [partValue_of_numeric hnumeric, Json.parse?_render (hnumber hnumeric) htext]
    rfl
  · obtain ⟨htrue, hfalse⟩ := Json.render_ne_truth (htruth rfl) htext
    rw [partValue, if_neg htrue, if_neg hfalse]
  · exact partValue_of_textual htextual

/-- A value is read from its own text as what becomes of it. -/
theorem rewritten_partValue {text : String} (htext : KeyAttribute.partText? value = some text)
    (hclear : Clear type value) : Rewritten type value (partValue type text) := by
  rcases partText?_eq_some htext with rfl | ⟨hpresent, hword, rfl⟩
  · exact rewritten_string type text
  by_cases hnumber : Numeric type → value.number? = none
  · by_cases htruth : type = some .boolean → value.bool? = none
    · rw [partValue_render hword hnumber htruth]
      exact .rendered hpresent hword hnumber htruth
    · obtain ⟨rfl, hsome⟩ := Classical.not_imp.mp htruth
      obtain ⟨b, hb⟩ := Option.ne_none_iff_exists'.mp hsome
      obtain rfl := Json.bool?_eq_some.mp hb
      cases b <;> exact .kept (.truth _)
  · obtain ⟨hnumeric, hsome⟩ := Classical.not_imp.mp hnumber
    obtain ⟨n, hn⟩ := Option.ne_none_iff_exists'.mp hsome
    obtain rfl := Json.number?_eq_some.mp hn
    exact rewritten_number hnumeric n fun m hm => hclear.small hnumeric m (congrArg _ hm)

/-! ## Writing what is there -/

/-- The way to a value of a record is passable. -/
theorem passable_of_at? (hpath : path ≠ []) (h : record.at? path = some value) :
    Passable record path := by
  have hobject {inner : Json} {name : String} {rest : List String}
      (h : inner.at? (name :: rest) = some value) : inner.isObject = true := by
    cases inner <;> first | rfl | cases h
  constructor
  · obtain ⟨name, rest, rfl⟩ := List.exists_cons_of_ne_nil hpath
    exact hobject h
  · rintro front ⟨rest, rfl⟩ hne inner hinner
    rw [Json.at?_eq_locate?, List.map_append, Json.locate?_append, ← Json.at?_eq_locate?, hinner,
      Option.bind_some, ← Json.at?_eq_locate?] at h
    obtain ⟨name, rest, rfl⟩ := List.exists_cons_of_ne_nil fun hnil : rest = [] => by
      rw [hnil, List.append_nil] at hne
      exact hne rfl
    exact .inl (hobject h)

/-- To write the value that is there changes nothing. -/
theorem place?_eq_self (hpath : path ≠ []) (h : record.at? path = some value) :
    place? value path record = some record := by
  induction path generalizing record with
  | nil => exact absurd rfl hpath
  | cons name rest ih =>
    obtain ⟨inner, hinner, hbelow⟩ := Option.bind_eq_some_iff.mp h
    obtain ⟨members, rfl⟩ : ∃ members, record = .object members := by
      cases record <;> first | exact ⟨_, rfl⟩ | cases hinner
    replace hinner : get? members name = some inner := hinner
    cases rest with
    | nil =>
      obtain rfl := Option.some.inj hbelow
      rw [place?, Fields.set_of_get? hinner]
    | cons next rest =>
      have hbehind : behind members name = inner := by
        unfold behind
        rw [hinner]
        cases inner <;> first | rfl | cases hbelow
      rw [place?_cons, hbehind, ih (List.cons_ne_nil next rest) hbelow, Option.map_some,
        Fields.set_of_get? hinner]

/-- Nor does it to write several values that are there. -/
theorem foldlM_place?_eq_self (values : KeyAttribute → Json) {attributes : List KeyAttribute}
    (hne : ∀ attr ∈ attributes, attr.path ≠ [])
    (hvalues : ∀ attr ∈ attributes, record.at? attr.path = some (values attr)) :
    attributes.foldlM (fun record attr => place? (values attr) attr.path record) record =
      some record := by
  induction attributes with
  | nil => rfl
  | cons attr rest ih =>
    obtain ⟨hfirst, hrest⟩ := List.forall_mem_cons.mp hne
    obtain ⟨hvalue, hothers⟩ := List.forall_mem_cons.mp hvalues
    rw [List.foldlM_cons, place?_eq_self hfirst hvalue]
    exact ih hrest hothers

end PrimaryKey

/-! ## Stores -/

open PrimaryKey (Kept Rewritten Clear)

/-- A record's own key is written into it, whatever its values. Nothing apart from the key
attributes changes, each of these holds what becomes of its value, and all is as before exactly if
their values are ones that are kept. -/
theorem Store.IsCompiled.setKey_key {store : Store} (hstore : store.IsCompiled)
    (hdefault : store.config.keySeparator = "-") (hcomposite : 2 ≤ store.key.attributes.length)
    {record key : Json} (hkey : store.key? record = some key)
    (hclear : ∀ attr ∈ store.key.attributes, ∀ value, record.at? attr.path = some value →
      Clear attr.type value) :
    (store.setKey record key).2 = true ∧
      (∀ attr ∈ store.key.attributes, ∃ value value', record.at? attr.path = some value ∧
        (store.setKey record key).1.at? attr.path = some value' ∧
          Rewritten attr.type value value') ∧
      (∀ place : Location,
        (∀ attr ∈ store.key.attributes, Location.Apart (attr.path.map .key) place) →
          (store.setKey record key).1.locate? place = record.locate? place) ∧
      ((store.setKey record key).1 = record ↔
        ∀ attr ∈ store.key.attributes, ∀ value, record.at? attr.path = some value →
          Kept attr.type value) := by
  have hseparates : CompositeKey.Separates store.key.separator.toList := by
    rw [hstore.separator, hdefault]
    exact CompositeKey.separates_singleton (by decide)
  obtain ⟨hwrite, htexts⟩ :=
    PrimaryKey.write?_of_read? hcomposite hseparates hkey record
  -- every key attribute has a value, which becomes what is read from its part
  have hvalues : ∀ attr ∈ store.key.attributes, ∃ value, record.at? attr.path = some value ∧
      Rewritten attr.type value (PrimaryKey.partValue attr.type (attr.part record)) := by
    intro attr hattr
    obtain ⟨value, hvalue, htext⟩ := Option.bind_eq_some_iff.mp (htexts attr hattr)
    exact ⟨value, hvalue, PrimaryKey.rewritten_partValue htext (hclear attr hattr value hvalue)⟩
  have hway : ∀ attr ∈ store.key.attributes, PrimaryKey.Passable record attr.path := by
    intro attr hattr
    obtain ⟨value, hvalue, -⟩ := hvalues attr hattr
    exact PrimaryKey.passable_of_at? (hstore.proper.ne_nil attr hattr) hvalue
  obtain ⟨placed, hplaced, hparts, hapart⟩ :=
    PrimaryKey.exists_write? hstore.proper hcomposite hseparates hkey hway
  have hset : store.setKey record key = (placed, true) := by
    rw [Store.setKey, PrimaryKey.write_eq, hplaced]
  rw [hset]
  refine ⟨rfl, fun attr hattr => ?_, hapart, ?_⟩
  · obtain ⟨value, hvalue, hrewritten⟩ := hvalues attr hattr
    exact ⟨value, _, hvalue, (hparts attr hattr).2, hrewritten⟩
  · constructor
    · rintro rfl attr hattr value hvalue
      obtain ⟨value', hvalue', hrewritten⟩ := hvalues attr hattr
      obtain rfl := Option.some.inj (hvalue.symm.trans hvalue')
      exact hrewritten.kept_of_eq (Option.some.inj ((hparts attr hattr).2.symm.trans hvalue))
    · intro hkept
      have hsame : store.key.attributes.foldlM (fun target attr => PrimaryKey.place?
          (PrimaryKey.partValue attr.type (attr.part record)) attr.path target) record =
            some record := by
        refine PrimaryKey.foldlM_place?_eq_self
          (fun attr => PrimaryKey.partValue attr.type (attr.part record)) hstore.proper.ne_nil
          fun attr hattr => ?_
        obtain ⟨value, hvalue, hrewritten⟩ := hvalues attr hattr
        rw [hvalue, hrewritten.eq_of_kept (hkept attr hattr value hvalue)]
      exact Option.some.inj (hplaced.symm.trans (hwrite.trans hsame))

namespace Store

/-- Crates of a shop with a weight and a mark of any kind, known by all three. -/
def crates : Store :=
  compiled "crates"
    (.mk [("shop", .tuple [.word "string", .word "<<shop>>"]),
      ("weight", .tuple [.word "number", .word "<<weight>>"]),
      ("mark", .tuple [.word "<<mark>>"])])
    (by decide +kernel)

theorem key_crates :
    crates.key =
      ⟨[⟨["shop"], some .string⟩, ⟨["weight"], some .number⟩, ⟨["mark"], none⟩], "-"⟩ := by
  decide +kernel

/-- The number `1.5`. -/
def oneAndAHalf : Finite := ⟨false, 3 * Nat.pow 2 1073, by decide +kernel⟩

/-- A crate that is marked with a number. -/
def numberedCrate : Json :=
  .object [("shop", .string "north"), ("weight", .number (.real oneAndAHalf)),
    ("mark", .ofInt 5)]

/-- The numbers of the crate are told by its key. -/
theorem clear_numberedCrate : ∀ attr ∈ crates.key.attributes, ∀ value,
    numberedCrate.at? attr.path = some value → Clear attr.type value := by
  rw [key_crates]
  intro attr hattr value hvalue
  simp only [List.mem_cons, List.not_mem_nil, or_false] at hattr
  rcases hattr with rfl | rfl | rfl <;> obtain rfl := Option.some.inj hvalue
  · exact ⟨fun h => absurd h (by decide), fun h => absurd h (by decide)⟩
  · refine ⟨fun h => absurd h (by decide), fun _ n hn => ?_⟩
    cases hn
  · exact ⟨fun h => absurd h (by decide), fun h => absurd h (by decide)⟩

/-- The weight is read back as it was, the mark as a text. -/
theorem setKey_key_crates : crates.IsCompiled ∧ crates.config.keySeparator = "-" ∧
    2 ≤ crates.key.attributes.length ∧
    (∀ attr ∈ crates.key.attributes, ∀ value,
      numberedCrate.at? attr.path = some value → Clear attr.type value) ∧
    ∃ key, crates.key? numberedCrate = some key ∧
      (crates.setKey numberedCrate key).2 = true ∧
      (crates.setKey numberedCrate key).1.at? ["weight"] =
        some (.number (.real oneAndAHalf)) ∧
      (crates.setKey numberedCrate key).1.at? ["mark"] = some (.string "5") := by
  have hstore : crates.IsCompiled := isCompiled_compiled ..
  have hdefault : crates.config.keySeparator = "-" := by rw [← hstore.separator, key_crates]
  have hcomposite : 2 ≤ crates.key.attributes.length := by
    rw [key_crates]
    decide
  obtain ⟨key, hkey⟩ : ∃ key, crates.key? numberedCrate = some key := by
    rw [key?, key_crates]
    exact ⟨_, rfl⟩
  obtain ⟨hwritten, hvalues, -, -⟩ :=
    IsCompiled.setKey_key hstore hdefault hcomposite hkey clear_numberedCrate
  refine ⟨hstore, hdefault, hcomposite, clear_numberedCrate, key, hkey, hwritten, ?_, ?_⟩
  · obtain ⟨value, value', hvalue, hvalue', hrewritten⟩ :=
      hvalues ⟨["weight"], some .number⟩ (by rw [key_crates]; decide)
    obtain rfl := Option.some.inj hvalue
    rw [hvalue', hrewritten.eq_of_kept (.real (.inr rfl) (by decide +kernel))]
  · obtain ⟨value, value', hvalue, hvalue', hrewritten⟩ :=
      hvalues ⟨["mark"], none⟩ (by rw [key_crates]; decide)
    obtain rfl := Option.some.inj hvalue
    rw [hvalue']
    cases hrewritten with
    | kept hkept => cases hkept with
      | whole numeric => rcases numeric with h | h <;> cases h
    | rendered => rfl

/-- Even what validation accepts need not stay as it was: the mark becomes a text. -/
theorem not_setKey_key : ¬ ∀ (store : Store) (record key : Json), store.IsCompiled →
    store.config.keySeparator = "-" → 2 ≤ store.key.attributes.length →
      store.validate record = .ok () → store.key? record = some key →
        (store.setKey record key).2 = true ∧ (store.setKey record key).1 = record := by
  intro h
  have hstore : crates.IsCompiled := isCompiled_compiled ..
  have hvalid : (crates.validate numberedCrate).toOption = some () := by decide +kernel
  obtain ⟨key, hkey⟩ : ∃ key, crates.key? numberedCrate = some key := by
    rw [key?, key_crates]
    exact ⟨_, rfl⟩
  obtain ⟨-, hsame⟩ := h crates numberedCrate key hstore
    (by rw [← hstore.separator, key_crates]) (by rw [key_crates]; decide)
    (Except.eq_ok_of_toOption hvalid) hkey
  have hmark := congrArg (fun record : Json => (record.at? ["mark"]).bind Json.string?) hsame
  have hchanged : (crates.key? numberedCrate).bind (fun key =>
      ((crates.setKey numberedCrate key).1.at? ["mark"]).bind Json.string?) = some "5" := by
    decide +kernel
  rw [hkey, Option.bind_some, hmark] at hchanged
  cases hchanged

end Store

end NestedRecord
