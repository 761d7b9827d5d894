import Mathlib.Data.List.Infix
import NestedRecord.Key.Composite

/-!
# Composite keys and their parts

A composite key gives its parts back exactly if nothing that an escaped part brings about can
be mistaken for the separator.

- `CompositeKey.Separates` is this condition on separators: no beginning of the separator is an
  escaped text after which the separator starts over, or a lone backslash ends it.
- `pieces_escape` is one part: it is read back whatever follows it.
- `decode_encode` puts the parts of a key together, for a separator that separates.
- `decode_encode_iff`: for any other separator there is a key that reads back wrongly.

Two faults are possible when a text is read back: the separator is found too early, in what escaping
a part has put together, or it is not found where it was put. The first is excluded by looking at
where an occurrence begins: inside the text of a part it is an escaped text itself and has been
escaped as one, and across the end of a part it would overlap itself. The second cannot happen,
since the escaped part in front of it does not end with half an escaped backslash. For the converse
each of the three ways in which a separator can fail has a key of its own.
-/

namespace NestedRecord

namespace CompositeKey

/-! ## Escaped texts -/

theorem escapeBackslash_backslash (rest : List Char) :
    escapeBackslash ('\\' :: rest) = '\\' :: '\\' :: escapeBackslash rest := rfl

theorem escapeBackslash_of_ne {c : Char} (hc : c ≠ '\\') (rest : List Char) :
    escapeBackslash (c :: rest) = c :: escapeBackslash rest := by
  rw [escapeBackslash, if_neg hc]

/-- Texts are escaped piece by piece. -/
theorem escapeBackslash_append (front back : List Char) :
    escapeBackslash (front ++ back) = escapeBackslash front ++ escapeBackslash back := by
  induction front with
  | nil => rfl
  | cons c front ih =>
    by_cases hc : c = '\\'
    · simp [escapeBackslash, hc, ih]
    · simp [escapeBackslash, hc, ih]

/-- An escaped text does not end with one half of an escaped backslash. -/
theorem escapeBackslash_ne_append {part front : List Char} :
    escapeBackslash part ≠ escapeBackslash front ++ ['\\'] := by
  induction front generalizing part with
  | nil =>
    cases part with
    | nil => simp [escapeBackslash]
    | cons c part =>
      by_cases hc : c = '\\'
      · simp [escapeBackslash, hc]
      · simp [escapeBackslash, hc]
  | cons f front ih =>
    cases part with
    | nil =>
      by_cases hf : f = '\\'
      · simp [escapeBackslash, hf]
      · simp [escapeBackslash, hf]
    | cons c part =>
      by_cases hf : f = '\\'
      · by_cases hc : c = '\\'
        · simpa [escapeBackslash, hf, hc] using ih
        · simp [escapeBackslash, hf, hc]
      · by_cases hc : c = '\\'
        · simp [escapeBackslash, hf, hc, Ne.symm hf]
        · simpa [escapeBackslash, hf, hc] using fun _ => ih

theorem escapeBackslash_ne_nil {part : List Char} (h : part ≠ []) : escapeBackslash part ≠ [] := by
  cases part with
  | nil => exact absurd rfl h
  | cons c rest =>
    unfold escapeBackslash
    split <;> simp

/-- Wherever an escaped text is cut, both pieces are escaped texts, or the cut goes through an
escaped backslash. -/
theorem escapeBackslash_eq_append {part front back : List Char}
    (h : escapeBackslash part = front ++ back) :
    (∃ early late, part = early ++ late ∧ front = escapeBackslash early ∧
      back = escapeBackslash late) ∨
        ∃ early, front = escapeBackslash early ++ ['\\'] ∧ back.head? = some '\\' := by
  induction part generalizing front with
  | nil =>
    obtain ⟨rfl, rfl⟩ := List.append_eq_nil_iff.mp h.symm
    exact .inl ⟨[], [], rfl, rfl, rfl⟩
  | cons c part ih =>
    cases front with
    | nil => exact .inl ⟨[], c :: part, rfl, rfl, h.symm⟩
    | cons f front =>
      by_cases hc : c = '\\'
      · subst hc
        rw [escapeBackslash_backslash, List.cons_append, List.cons.injEq] at h
        obtain ⟨rfl, h⟩ := h
        -- a cut between the two leaves one half of an escaped backslash
        cases front with
        | nil => exact .inr ⟨[], rfl, by rw [← show _ = back from h]; rfl⟩
        | cons f front =>
          rw [List.cons_append, List.cons.injEq] at h
          obtain ⟨rfl, h⟩ := h
          rcases ih h with ⟨early, late, rfl, rfl, hlate⟩ | ⟨early, rfl, hback⟩
          · exact .inl ⟨'\\' :: early, late, rfl, rfl, hlate⟩
          · exact .inr ⟨'\\' :: early, rfl, hback⟩
      · rw [escapeBackslash_of_ne hc, List.cons_append, List.cons.injEq] at h
        obtain ⟨rfl, h⟩ := h
        rcases ih h with ⟨early, late, rfl, rfl, hlate⟩ | ⟨early, rfl, hback⟩
        · exact .inl ⟨c :: early, late, rfl, by rw [escapeBackslash_of_ne hc], hlate⟩
        · exact .inr ⟨c :: early, by rw [escapeBackslash_of_ne hc]; rfl, hback⟩

/-! ## Separators -/

/-- A separator that is found in a key exactly where it was put. -/
structure Separates (separator : List Char) : Prop where
  ne_nil : separator ≠ []
  start : separator.head? ≠ some '\\'
  /-- the separator does not start over behind an escaped text, nor is it one up to a last
  backslash -/
  apart : ∀ front back, separator = escapeBackslash front ++ back → front ≠ [] → back ≠ [] →
    ¬ back <+: separator ∧ back ≠ ['\\']

/-- A single character other than a backslash separates. -/
theorem separates_singleton {c : Char} (hc : c ≠ '\\') : Separates [c] where
  ne_nil := List.cons_ne_nil c []
  start := by simpa using hc
  apart front back h hfront hback := by
    have hlength := congrArg List.length h
    have hfront' := List.length_pos_of_ne_nil (escapeBackslash_ne_nil hfront)
    have hback' := List.length_pos_of_ne_nil hback
    rw [List.length_append, List.length_singleton] at hlength
    omega

/-- A text at the beginning of two others behind each other is at the beginning of the first
one, or runs over into the second one. -/
theorem isPrefix_append_cases {α : Type} {xs front back : List α} (h : xs <+: front ++ back) :
    xs <+: front ∨ ∃ excess, excess ≠ [] ∧ xs = front ++ excess ∧ excess <+: back := by
  rcases Nat.le_total xs.length front.length with hle | hle
  · exact .inl (List.prefix_of_prefix_length_le h (List.prefix_append front back) hle)
  · obtain ⟨excess, rfl⟩ := List.prefix_of_prefix_length_le (List.prefix_append front back) h hle
    rcases excess with _ | ⟨x, excess⟩
    · exact .inl (by simp)
    · exact .inr ⟨x :: excess, List.cons_ne_nil x excess, rfl,
        (List.prefix_append_right_inj front).mp h⟩

/-! ## Escaped separators -/

theorem escapeSeparator_inside (separator front back : List Char) :
    escapeSeparator separator front.length (front ++ back) =
      front ++ escapeSeparator separator 0 back := by
  induction front with
  | nil => rfl
  | cons c front ih => rw [List.length_cons, List.cons_append, escapeSeparator, ih, List.cons_append]

variable {separator : List Char}

/-- An occurrence of the separator gets a backslash in front. -/
theorem escapeSeparator_found {c : Char} (rest back : List Char) :
    escapeSeparator (c :: rest) 0 (c :: rest ++ back) =
      '\\' :: (c :: rest ++ escapeSeparator (c :: rest) 0 back) := by
  have hfound : (c :: rest).isPrefixOf (c :: (rest ++ back)) = true :=
    List.isPrefixOf_iff_prefix.mpr (List.prefix_append (c :: rest) back)
  rw [List.cons_append, escapeSeparator, if_pos (by simp [hfound]), List.length_cons,
    Nat.add_sub_cancel, escapeSeparator_inside]
  rfl

/-- Where the separator does not begin, the character is kept. -/
theorem escapeSeparator_cons {c : Char} {text : List Char} (h : ¬ separator <+: c :: text) :
    escapeSeparator separator 0 (c :: text) = c :: escapeSeparator separator 0 text := by
  have hnone : separator.isPrefixOf (c :: text) = false := by
    rw [Bool.eq_false_iff, Ne, List.isPrefixOf_iff_prefix]
    exact h
  rw [escapeSeparator, hnone, Bool.and_false, if_neg Bool.false_ne_true]

/-- A text up to where the separator is found first. -/
theorem escapeSeparator_append {front text : List Char}
    (h : ∀ early late, front = early ++ late → late ≠ [] → ¬ separator <+: late ++ text) :
    escapeSeparator separator 0 (front ++ text) = front ++ escapeSeparator separator 0 text := by
  induction front with
  | nil => rfl
  | cons c front ih =>
    have hlate := ih fun early late hsplit => h (c :: early) late (by rw [hsplit]; rfl)
    have hnone : ¬ separator <+: c :: (front ++ text) :=
      h [] (c :: front) rfl (List.cons_ne_nil c front)
    rw [List.cons_append, escapeSeparator_cons hnone, hlate, List.cons_append]

/-- A text stays as it is, or it does up to an occurrence of the separator. -/
theorem escapeSeparator_cases (hne : separator ≠ []) (text : List Char) :
    escapeSeparator separator 0 text = text ∨
      ∃ front back, text = front ++ (separator ++ back) ∧
        escapeSeparator separator 0 text =
          front ++ '\\' :: (separator ++ escapeSeparator separator 0 back) := by
  induction text with
  | nil => exact .inl rfl
  | cons c text ih =>
    by_cases hfound : separator <+: c :: text
    · obtain ⟨back, hback⟩ := hfound
      obtain ⟨s, rest, rfl⟩ := List.exists_cons_of_ne_nil hne
      exact .inr ⟨[], back, hback.symm, by rw [← hback, escapeSeparator_found]; rfl⟩
    · rw [escapeSeparator_cons hfound]
      rcases ih with hsame | ⟨front, back, htext, hescaped⟩
      · exact .inl (by rw [hsame])
      · exact .inr ⟨c :: front, back, by rw [htext]; rfl, by rw [hescaped]; rfl⟩

/-- A text shorter than the separator stays as it is. -/
theorem escapeSeparator_of_length {text : List Char} (h : text.length < separator.length) :
    escapeSeparator separator 0 text = text := by
  have hne : separator ≠ [] := List.ne_nil_of_length_pos (Nat.lt_of_le_of_lt (Nat.zero_le _) h)
  rcases escapeSeparator_cases hne text with hsame | ⟨front, back, htext, -⟩
  · exact hsame
  · rw [htext, List.length_append, List.length_append] at h
    omega

/-! ## Pieces -/

theorem pieces_backslash (c : Char) (rest : List Char) :
    pieces separator 0 ('\\' :: c :: rest) = extendFirst c (pieces separator 0 rest) := rfl

/-- Where the separator does not begin, the character belongs to the piece. -/
theorem pieces_cons {c : Char} (hc : c ≠ '\\') {rest : List Char}
    (h : ¬ separator <+: c :: rest) :
    pieces separator 0 (c :: rest) = extendFirst c (pieces separator 0 rest) := by
  have hnone : separator.isPrefixOf (c :: rest) = false := by
    rw [Bool.eq_false_iff, Ne, List.isPrefixOf_iff_prefix]
    exact h
  rw [pieces, if_neg hc, hnone, Bool.and_false, if_neg Bool.false_ne_true]
  exact fun next rest' hbackslash _ => absurd hbackslash hc

theorem pieces_skipped (separator front back : List Char) :
    pieces separator front.length (front ++ back) = pieces separator 0 back := by
  induction front with
  | nil => rfl
  | cons c front ih => rw [List.length_cons, List.cons_append, pieces, ih]

/-- A separator ends a piece. -/
theorem pieces_separator {c : Char} (hc : c ≠ '\\') (rest back : List Char) :
    pieces (c :: rest) 0 (c :: rest ++ back) = [] :: pieces (c :: rest) 0 back := by
  have hfound : (c :: rest).isPrefixOf (c :: (rest ++ back)) = true :=
    List.isPrefixOf_iff_prefix.mpr (List.prefix_append (c :: rest) back)
  rw [List.cons_append, pieces, if_neg hc, if_pos (by simp [hfound]), List.length_cons,
    Nat.add_sub_cancel, pieces_skipped]
  exact fun next rest' hbackslash _ => absurd hbackslash hc

theorem foldr_extendFirst (part piece : List Char) (rest : List (List Char)) :
    part.foldr extendFirst (piece :: rest) = (part ++ piece) :: rest := by
  induction part with
  | nil => rfl
  | cons c part ih => rw [List.foldr_cons, ih]; rfl

/-- A part is read back if the separator is found nowhere in it. -/
theorem pieces_escapeBackslash {part text : List Char}
    (h : ∀ early late, part = early ++ late → late ≠ [] →
      ¬ separator <+: escapeBackslash late ++ text) :
    pieces separator 0 (escapeBackslash part ++ text) =
      part.foldr extendFirst (pieces separator 0 text) := by
  induction part with
  | nil => rfl
  | cons c part ih =>
    have hlate := ih fun early late hsplit => h (c :: early) late (by rw [hsplit]; rfl)
    have hnone := h [] (c :: part) rfl (List.cons_ne_nil c part)
    by_cases hc : c = '\\'
    · subst hc
      rw [escapeBackslash_backslash, List.cons_append, List.cons_append, pieces_backslash, hlate,
        List.foldr_cons]
    · rw [escapeBackslash_of_ne hc, List.cons_append] at hnone ⊢
      rw [pieces_cons hc hnone, hlate, List.foldr_cons]

/-! ## Reading back -/

namespace Separates

variable (h : Separates separator)
include h

/-- A separator begins with a character other than a backslash. -/
theorem exists_cons : ∃ c rest, separator = c :: rest ∧ c ≠ '\\' := by
  obtain ⟨c, rest, rfl⟩ := List.exists_cons_of_ne_nil h.ne_nil
  exact ⟨c, rest, rfl, fun hc => h.start (by rw [hc]; rfl)⟩

theorem not_isPrefix_backslash (text : List Char) : ¬ separator <+: '\\' :: text := by
  obtain ⟨c, rest, rfl, hc⟩ := h.exists_cons
  intro hfound
  exact hc (List.cons_prefix_cons.mp hfound).1

/-- An occurrence of the separator in an escaped text is itself an escaped text. -/
theorem exists_escapeBackslash {part back : List Char}
    (hpart : escapeBackslash part = separator ++ back) :
    ∃ early late, part = early ++ late ∧ separator = escapeBackslash early ∧
      back = escapeBackslash late := by
  rcases escapeBackslash_eq_append hpart with hsplit | ⟨early, hearly, -⟩
  · exact hsplit
  · rcases eq_or_ne early [] with rfl | hne
    · exact absurd (by rw [hearly]; rfl) h.start
    · exact absurd rfl (h.apart early _ hearly hne (List.cons_ne_nil _ [])).2

/-- The separator is found behind an escaped text only where it was put. -/
theorem not_isPrefix_append {part text : List Char} (hpart : part ≠ [])
    (hnone : ¬ separator <+: escapeBackslash part) :
    ¬ separator <+: escapeBackslash part ++ (separator ++ text) := by
  intro hfound
  rcases isPrefix_append_cases hfound with hinside | ⟨excess, hexcess, hsplit, hbegin⟩
  · exact hnone hinside
  · have hlength : excess.length ≤ separator.length := by
      rw [hsplit, List.length_append]
      exact Nat.le_add_left ..
    exact (h.apart part excess hsplit hpart hexcess).1
      (List.prefix_of_prefix_length_le hbegin (List.prefix_append separator text) hlength)

/-- Nor does a backslash in front of an escaped occurrence bring one about. -/
theorem not_isPrefix_escaped {part front back text : List Char}
    (hpart : escapeBackslash part = front ++ (separator ++ back))
    (hnone : ¬ separator <+: escapeBackslash part) :
    ¬ separator <+: front ++ '\\' :: (separator ++ text) := by
  obtain ⟨c, rest, hseparator, hc⟩ := h.exists_cons
  -- the occurrence is not cut off its escaped text, so that both are escaped texts
  rcases escapeBackslash_eq_append hpart with ⟨early, late, rfl, rfl, hlate⟩ | ⟨-, -, hhead⟩
  swap
  · rw [hseparator] at hhead
    exact absurd (Option.some.inj hhead) hc
  obtain ⟨inner, -, -, hinner, -⟩ := h.exists_escapeBackslash hlate.symm
  intro hfound
  rw [← List.singleton_append, ← List.append_assoc] at hfound
  rcases isPrefix_append_cases hfound with hinside | ⟨excess, hexcess, hsplit, hbegin⟩
  · rcases isPrefix_append_cases hinside with hearly | ⟨excess, hexcess, hsplit, hbegin⟩
    · exact hnone (by rw [hpart]; exact hearly.trans (List.prefix_append ..))
    · -- up to a last backslash the separator is an escaped text
      obtain rfl : excess = ['\\'] := by
        rcases List.prefix_cons_iff.mp hbegin with rfl | ⟨tail, rfl, htail⟩
        · exact absurd rfl hexcess
        · rw [List.prefix_nil.mp htail]
      rcases eq_or_ne early [] with rfl | hne
      · exact h.start (by rw [hsplit]; rfl)
      · exact (h.apart early _ hsplit hne (List.cons_ne_nil _ [])).2 rfl
  · -- a single backslash stands inside the separator, which is an escaped text
    rw [hinner] at hsplit
    rcases escapeBackslash_eq_append hsplit with ⟨both, -, -, hboth, -⟩ | ⟨-, -, hhead⟩
    · exact escapeBackslash_ne_append hboth.symm
    · obtain ⟨o, excess, rfl⟩ := List.exists_cons_of_ne_nil hexcess
      rw [hseparator, List.cons_append] at hbegin
      obtain rfl := (List.cons_prefix_cons.mp hbegin).1
      exact hc (Option.some.inj hhead)

/-- The separator is found in an escaped part and what follows it only where it was put. -/
theorem not_isPrefix_escape {part text : List Char} (hpart : part ≠ [])
    (hnone : ¬ separator <+: escapeBackslash part) (htext : text = [] ∨ separator <+: text) :
    ¬ separator <+: escape separator part ++ text := by
  unfold escape
  rcases escapeSeparator_cases h.ne_nil (escapeBackslash part) with
    hsame | ⟨front, back, hfront, hescaped⟩
  · rw [hsame]
    rcases htext with rfl | ⟨rest, rfl⟩
    · rwa [List.append_nil]
    · exact h.not_isPrefix_append hpart hnone
  · rw [hescaped, List.append_assoc, List.cons_append, List.append_assoc]
    exact h.not_isPrefix_escaped hfront hnone

/-- An escaped occurrence of the separator is read back. -/
theorem pieces_escaped {early text : List Char} (hearly : separator = escapeBackslash early) :
    pieces separator 0 ('\\' :: (separator ++ text)) =
      early.foldr extendFirst (pieces separator 0 text) := by
  obtain ⟨c, rest, hseparator, hc⟩ := h.exists_cons
  obtain ⟨d, inner, rfl⟩ : ∃ d inner, early = d :: inner := by
    refine List.exists_cons_of_ne_nil ?_
    rintro rfl
    exact h.ne_nil hearly
  have hd : d ≠ '\\' := by
    rintro rfl
    exact h.start (by rw [hearly]; rfl)
  -- further inside an occurrence would begin where the separator overlaps itself
  have hinside : ∀ front back, inner = front ++ back → back ≠ [] →
      ¬ separator <+: escapeBackslash back ++ text := by
    rintro front back rfl hback hfound
    have hsplit : separator = escapeBackslash (d :: front) ++ escapeBackslash back := by
      rw [hearly, ← escapeBackslash_append, List.cons_append]
    refine (h.apart _ _ hsplit (List.cons_ne_nil d front) (escapeBackslash_ne_nil hback)).1 ?_
    refine List.prefix_of_prefix_length_le (List.prefix_append _ text) hfound ?_
    rw [hsplit, List.length_append]
    exact Nat.le_add_left ..
  have hbegin : separator ++ text = d :: (escapeBackslash inner ++ text) := by
    rw [hearly, escapeBackslash_of_ne hd, List.cons_append]
  rw [hbegin, pieces_backslash, pieces_escapeBackslash hinside, List.foldr_cons]

end Separates

/-- A part is read back, at the end of a key and in front of a separator. -/
theorem pieces_escape (h : Separates separator) {part text : List Char}
    (htext : text = [] ∨ separator <+: text) :
    pieces separator 0 (escape separator part ++ text) =
      part.foldr extendFirst (pieces separator 0 text) := by
  -- an escaped occurrence takes several characters of the part at once
  induction hlength : part.length using Nat.strong_induction_on generalizing part with
  | _ length ih =>
    cases part with
    | nil => rfl
    | cons c part =>
      rw [List.length_cons] at hlength
      have hpart := ih part.length (by omega) rfl
      by_cases hc : c = '\\'
      · subst hc
        rw [escape, escapeBackslash_backslash,
          escapeSeparator_cons (h.not_isPrefix_backslash _),
          escapeSeparator_cons (h.not_isPrefix_backslash _), List.cons_append, List.cons_append,
          pieces_backslash, ← escape, hpart, List.foldr_cons]
      · by_cases hfound : separator <+: escapeBackslash (c :: part)
        · obtain ⟨back, hback⟩ := hfound
          obtain ⟨early, late, hsplit, hearly, rfl⟩ := h.exists_escapeBackslash hback.symm
          have hne : early ≠ [] := by
            rintro rfl
            exact h.ne_nil hearly
          have hshorter : late.length < length := by
            have hsum := congrArg List.length hsplit
            have hpos := List.length_pos_of_ne_nil hne
            rw [List.length_append, List.length_cons] at hsum
            omega
          have hescape : escape separator (c :: part) =
              '\\' :: (separator ++ escape separator late) := by
            obtain ⟨s, rest, rfl, -⟩ := h.exists_cons
            rw [escape, ← hback, escapeSeparator_found]
            rfl
          rw [hescape, List.cons_append, List.append_assoc, h.pieces_escaped hearly,
            ih late.length hshorter rfl, hsplit, List.foldr_append]
        · have hnone := h.not_isPrefix_escape (List.cons_ne_nil c part) hfound htext
          have hescape : escape separator (c :: part) = c :: escape separator part := by
            rw [escape, escapeBackslash_of_ne hc] at *
            rw [escapeSeparator_cons hfound]
            rfl
          rw [hescape, List.cons_append] at hnone ⊢
          rw [pieces_cons hc hnone, hpart, List.foldr_cons]

/-! ## Keys -/

/-- A key is read back part by part, each up to the separator behind it. -/
theorem pieces_intercalate (h : Separates separator) {parts : List (List Char)}
    (hparts : parts ≠ []) :
    pieces separator 0 (separator.intercalate (parts.map (escape separator))) = parts := by
  induction parts with
  | nil => exact absurd rfl hparts
  | cons part rest ih =>
    cases rest with
    | nil =>
      have hlast : pieces separator 0 (escape separator part ++ []) = _ :=
        pieces_escape h (.inl rfl)
      rw [List.append_nil] at hlast
      rw [List.map_cons, List.map_nil, List.intercalate_singleton, hlast, pieces,
        foldr_extendFirst, List.append_nil]
    | cons next rest =>
      obtain ⟨c, tail, hseparator, hc⟩ := h.exists_cons
      have hrest := ih (List.cons_ne_nil next rest)
      rw [List.map_cons] at hrest ⊢
      rw [List.map_cons, List.intercalate_cons_cons, List.append_assoc, pieces_escape h (.inr (List.prefix_append ..))]
      rw [hseparator] at hrest ⊢
      rw [pieces_separator hc, hrest, foldr_extendFirst, List.append_nil]

/-! ## Separators that do not separate -/

/-- When a key begins with the separator, its first part reads as an empty one. -/
theorem pieces_ne_of_isPrefix {text part : List Char} {parts : List (List Char)}
    (hstart : separator.head? ≠ some '\\') (hne : separator ≠ []) (hpart : part ≠ [])
    (htext : separator <+: text) : pieces separator 0 text ≠ part :: parts := by
  obtain ⟨back, rfl⟩ := htext
  obtain ⟨c, rest, rfl⟩ := List.exists_cons_of_ne_nil hne
  rw [pieces_separator fun hc => hstart (by rw [hc]; rfl)]
  exact fun hpieces => hpart (List.cons.inj hpieces).1.symm

/-- What begins with a backslash is not read as two empty pieces. -/
theorem pieces_of_backslash {text : List Char} (parts : List (List Char)) :
    pieces separator 0 ('\\' :: text) ≠ [] :: [] :: parts := by
  cases text with
  | nil => simp [pieces]
  | cons c text =>
    rw [pieces_backslash]
    cases pieces separator 0 text <;> simp [extendFirst]

/-- A part that is followed by a separator starting over. -/
theorem pieces_ne_of_border {front back : List Char} (hstart : separator.head? ≠ some '\\')
    (hsplit : separator = escapeBackslash front ++ back) (hfront : front ≠ []) (hback : back ≠ [])
    (hborder : back <+: separator) (parts : List (List Char)) :
    pieces separator 0 (escape separator front ++ separator) ≠ front :: parts := by
  have hshort : (escapeBackslash front).length < separator.length := by
    have hpos := List.length_pos_of_ne_nil hback
    rw [hsplit, List.length_append]
    omega
  rw [escape, escapeSeparator_of_length hshort]
  refine pieces_ne_of_isPrefix hstart (List.ne_nil_of_length_pos (by omega)) hfront ?_
  calc separator = escapeBackslash front ++ back := hsplit
    _ <+: escapeBackslash front ++ separator := (List.prefix_append_right_inj _).mpr hborder

/-- The separator of a dangling backslash is not found before it is found whole. -/
theorem not_isPrefix_of_dangling {begin early late : List Char}
    (hstart : separator.head? ≠ some '\\') (hsplit : separator = begin ++ ['\\'])
    (hbegin : begin = early ++ late) (hlate : late ≠ []) :
    ¬ separator <+: late ++ (separator ++ ['\\']) := by
  intro hfound
  obtain ⟨d, late, rfl⟩ := List.exists_cons_of_ne_nil hlate
  have hlength : separator.length = early.length + late.length + 2 := by
    rw [hsplit, hbegin]
    simp
    omega
  obtain ⟨excess, hexcess⟩ := List.prefix_of_prefix_length_le (List.prefix_append (d :: late) _)
    hfound (by rw [hlength, List.length_cons]; omega)
  have hexcessLength : excess.length = early.length + 1 := by
    have hsum := congrArg List.length hexcess
    rw [List.length_append, List.length_cons, hlength] at hsum
    omega
  -- what the occurrence takes of the next one is its beginning up to `d`
  have hnext : excess <+: separator := by
    have hrest : d :: late ++ excess <+: d :: late ++ (separator ++ ['\\']) := by
      rw [hexcess]
      exact hfound
    exact List.prefix_of_prefix_length_le ((List.prefix_append_right_inj _).mp hrest)
      (List.prefix_append separator ['\\']) (by omega)
  have hbeginning : early ++ [d] <+: separator :=
    ⟨late ++ ['\\'], by rw [hsplit, hbegin]; simp⟩
  obtain rfl : excess = early ++ [d] :=
    (List.prefix_of_prefix_length_le hnext hbeginning (by simp [hexcessLength])).eq_of_length
      (by simp [hexcessLength])
  have hlast : some d = some '\\' := by
    have hboth := congrArg List.getLast? (hexcess.trans hsplit)
    rwa [← List.append_assoc, List.getLast?_concat, List.getLast?_concat] at hboth
  exact hstart (by rw [← hexcess, ← hlast]; rfl)

/-- A part in which an escaped occurrence puts a backslash behind the beginning of the
separator. -/
theorem pieces_ne_of_dangling {front : List Char} (hstart : separator.head? ≠ some '\\')
    (hsplit : separator = escapeBackslash front ++ ['\\']) (hfront : front ≠ [])
    (text : List Char) (parts : List (List Char)) :
    pieces separator 0 (escape separator (front ++ (front ++ ['\\'])) ++ text) ≠
      (front ++ (front ++ ['\\'])) :: parts := by
  have hescaped : escapeBackslash (front ++ (front ++ ['\\'])) =
      escapeBackslash front ++ (separator ++ ['\\']) := by
    rw [escapeBackslash_append, escapeBackslash_append, hsplit, List.append_assoc]
    rfl
  obtain ⟨c, rest, hseparator⟩ : ∃ c rest, separator = c :: rest :=
    List.exists_cons_of_ne_nil (by rw [hsplit]; simp)
  refine pieces_ne_of_isPrefix hstart (by rw [hseparator]; simp) (by simp [hfront]) ?_
  rw [escape, hescaped, escapeSeparator_append fun early late hbegin hlate =>
    not_isPrefix_of_dangling hstart hsplit hbegin hlate]
  refine ⟨separator ++ escapeSeparator separator 0 ['\\'] ++ text, ?_⟩
  have hfound : escapeSeparator separator 0 (separator ++ ['\\']) =
      '\\' :: (separator ++ escapeSeparator separator 0 ['\\']) := by
    rw [hseparator, escapeSeparator_found]
  rw [hfound]
  generalize escapeSeparator separator 0 ['\\'] = tail
  nth_rewrite 1 [hsplit]
  simp

/-- Every separator that does not separate has a key of two parts that reads back wrongly. -/
theorem exists_pieces_ne (hne : separator ≠ []) (h : ¬ Separates separator) :
    ∃ part other, pieces separator 0
      (separator.intercalate ([part, other].map (escape separator))) ≠ [part, other] := by
  by_contra! hall
  refine h ⟨hne, fun hstart => ?_, fun front back hsplit hfront hback => ?_⟩
  · obtain ⟨c, rest, rfl⟩ := List.exists_cons_of_ne_nil hne
    obtain rfl := Option.some.inj hstart
    exact pieces_of_backslash [] (hall [] [])
  by_cases hstart : separator.head? = some '\\'
  · obtain ⟨c, rest, rfl⟩ := List.exists_cons_of_ne_nil hne
    obtain rfl := Option.some.inj hstart
    exact absurd (hall [] []) (pieces_of_backslash [])
  -- the separator starts over behind a part of itself, or ends with a lone backslash
  constructor
  · intro hborder
    have hread := hall front []
    rw [List.map_cons, List.map_cons, List.map_nil, List.intercalate_cons_cons,
      List.append_assoc, List.intercalate_singleton] at hread
    refine pieces_ne_of_border hstart hsplit hfront hback hborder [[]] ?_
    rwa [show escape separator [] = [] from rfl, List.append_nil] at hread
  · rintro rfl
    have hread := hall (front ++ (front ++ ['\\'])) []
    rw [List.map_cons, List.map_cons, List.map_nil, List.intercalate_cons_cons,
      List.append_assoc] at hread
    exact pieces_ne_of_dangling hstart hsplit hfront _ _ hread

/-! ## Texts -/

theorem toList_encode (separator : String) (parts : List String) :
    (encode separator parts).toList =
      separator.toList.intercalate ((parts.map String.toList).map (escape separator.toList)) := by
  rw [encode, String.toList_intercalate, List.map_map, List.map_map]
  congr 1
  simp [Function.comp_def]

theorem decode_encode {separator : String} (h : Separates separator.toList) {parts : List String}
    (hparts : parts ≠ []) : decode separator (encode separator parts) = parts := by
  rw [decode, toList_encode, pieces_intercalate h (by simpa using hparts), List.map_map]
  simp [Function.comp_def]

/-- Keys give their parts back exactly if the separator separates. -/
theorem decode_encode_iff {separator : String} (hne : separator ≠ "") :
    (∀ parts : List String, 2 ≤ parts.length →
      decode separator (encode separator parts) = parts) ↔ Separates separator.toList := by
  constructor
  · intro hall
    by_contra hnot
    obtain ⟨part, other, hread⟩ := exists_pieces_ne (by simpa using hne) hnot
    refine hread ?_
    have hdecode := hall [String.ofList part, String.ofList other] (Nat.le_refl 2)
    rw [decode, toList_encode] at hdecode
    have hlists := congrArg (List.map String.toList) hdecode
    simpa [Function.comp_def] using hlists
  · intro h parts hparts
    exact decode_encode h (List.ne_nil_of_length_pos (by omega))

end CompositeKey

end NestedRecord
