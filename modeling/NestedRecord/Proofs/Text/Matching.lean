import Mathlib.Data.Finset.Card
import NestedRecord.Text.Like

/-!
# What a LIKE pattern matches

A matcher answers whether a pattern generates a text, whatever it has been asked before.

- `Like.read?_source`: the regular expression for a pattern asks for what the pattern asks for.
  Characters with a meaning of their own in regular expressions are not an exception.
- `Like.Covers` says what an expression covers, one item after the other. `Like.Descending` is the
  invariant of the search: what may be left of the text is a chain of rests of each other, which is
  why the rests of the longest are all rests of any of them.
- `Like.isMatch_iff`: the search finds exactly what a pattern generates.
- `LikeMatcher.after` is a matcher after any calls, `LikeMatcher.test_after` what it answers and how
  many patterns it has kept.

The search keeps all that may be left of the text after an item, instead of going back. A run may
leave any rest of what was left, so that the same rests would come from several; keeping only those
of the longest loses nothing because of the invariant.
-/

namespace NestedRecord

open Text

namespace Like

/-! ## Reading an expression -/

/-- A dot stands for one character, unless a star follows. -/
theorem readItems?_dot {rest : List Char} (h : rest.head? ≠ some '*') :
    readItems? ('.' :: rest) = (readItems? rest).map (.any :: ·) := by
  cases rest with
  | nil => rfl
  | cons c rest =>
    have hstar : c ≠ '*' := fun hc => h (by rw [hc]; rfl)
    simp [readItems?, hstar]

/-- An escaped character is read as itself. -/
theorem readItems?_escape (c : Char) (rest : List Char) :
    readItems? (escape c ++ rest) = (readItems? rest).map (.char c :: ·) := by
  unfold escape
  split
  next hmeta => simp [readItems?, hmeta]
  next hplain =>
    have hdot : c ≠ '.' := fun hc => hplain (by rw [hc]; decide)
    have hslash : c ≠ '\\' := fun hc => hplain (by rw [hc]; decide)
    have hend : c ≠ '$' := fun hc => hplain (by rw [hc]; decide)
    simp [readItems?, hplain, hdot, hslash, hend]

/-- Nothing that is written for a character begins with a star, so none comes behind a dot that
stands for one character. -/
theorem head?_piece_append (c : Char) (rest : List Char) :
    (piece c ++ rest).head? ≠ some '*' := by
  -- a piece is a dot, something escaped, or a character without a meaning
  unfold piece escape
  split
  · simp
  · split
    · simp
    · split
      · simp
      next hplain =>
        intro hstar
        exact hplain (by rw [Option.some.inj hstar]; decide)

/-- What is written for a character is read as its item. -/
theorem readItems?_piece (c : Char) {rest : List Char} (hstar : rest.head? ≠ some '*') :
    readItems? (piece c ++ rest) = (readItems? rest).map (Item.ofChar c :: ·) := by
  unfold piece Item.ofChar
  split
  · rfl
  · split
    · exact readItems?_dot hstar
    · exact readItems?_escape c rest

/-- A regular expression is read as what its pattern asks for. -/
theorem read?_source (pattern : String) : read? (source pattern) = some (expression pattern) := by
  unfold source expression
  change readItems? (pattern.toList.flatMap piece ++ ['$']) = _
  induction pattern.toList with
  | nil => rfl
  | cons c pattern ih =>
    -- behind a piece comes another one, or the end of the expression
    have hstar : (pattern.flatMap piece ++ ['$']).head? ≠ some '*' := by
      cases pattern with
      | nil => decide
      | cons next pattern =>
        rw [List.flatMap_cons, List.append_assoc]
        exact head?_piece_append next _
    rw [List.flatMap_cons, List.append_assoc, readItems?_piece c hstar, ih]
    rfl

theorem compile?_eq (pattern : String) :
    compile? pattern = if isAccepted pattern then some (expression pattern) else none := by
  rw [compile?, read?_source, isAccepted, Option.filter_some]

/-! ## What an expression covers -/

/-- What an item may leave of a folded text. -/
def Item.Leaves : Item → List Char → List Char → Prop
  | .run, start, rest => rest <:+ start
  | .any, start, rest => ∃ c, start = c :: rest
  | .char p, start, rest => start = fold p :: rest

/-- What an expression covers: its items leave nothing, one after the other. -/
def Covers : Expression → List Char → Prop
  | [], start => start = []
  | item :: expression, start => ∃ rest, item.Leaves start rest ∧ Covers expression rest

/-- An expression for a pattern covers what the pattern generates. -/
theorem covers_map_ofChar {pattern text : List Char} :
    Covers (pattern.map Item.ofChar) (text.map fold) ↔ Generates pattern text := by
  induction pattern generalizing text with
  | nil =>
    constructor
    · intro h
      rw [List.map_eq_nil_iff.mp h]
      exact .nil
    · rintro ⟨⟩
      rfl
  | cons p pattern ih =>
    rw [List.map_cons, Covers]
    constructor
    · -- what is left of the folded text is itself a folded text
      rintro ⟨rest, hleaves, hcovers⟩
      unfold Item.ofChar at hleaves
      split at hleaves
      next hrun =>
        obtain ⟨folded, happend⟩ := hleaves
        obtain ⟨left, right, rfl, -, rfl⟩ := List.map_eq_append_iff.mp happend.symm
        rw [hrun]
        exact .run left (ih.mp hcovers)
      next hrun =>
        split at hleaves
        next hany =>
          obtain ⟨folded, hcons⟩ := hleaves
          obtain ⟨c, right, rfl, -, rfl⟩ := List.map_eq_cons_iff.mp hcons
          rw [hany]
          exact .any c (ih.mp hcovers)
        next hany =>
          obtain ⟨c, right, rfl, hfold, rfl⟩ := List.map_eq_cons_iff.mp hleaves
          exact .char hrun hany hfold.symm (ih.mp hcovers)
    · -- each way to generate a text folds to the way in which the item covers it
      intro h
      cases h with
      | @run left _ text h =>
        exact ⟨text.map fold, ⟨left.map fold, List.map_append.symm⟩, ih.mpr h⟩
      | @any c _ text h => exact ⟨text.map fold, ⟨fold c, List.map_cons⟩, ih.mpr h⟩
      | @char _ c _ text hrun hany hfold h =>
        refine ⟨text.map fold, ?_, ih.mpr h⟩
        rw [Item.ofChar, if_neg hrun, if_neg hany, Item.Leaves, hfold, List.map_cons]

/-! ## The search -/

/-- Each is a rest of all before it. -/
abbrev Descending (left : List (List Char)) : Prop :=
  left.Pairwise fun longer shorter => shorter <:+ longer

/-- The rests of a text are what stands at its end. -/
theorem mem_rests {rest start : List Char} : rest ∈ rests start ↔ rest <:+ start := by
  induction start with
  | nil => rw [rests, List.mem_singleton, List.suffix_nil]
  | cons c start ih => rw [rests, List.mem_cons, List.suffix_cons_iff, ih]

theorem descending_rests (start : List Char) : Descending (rests start) := by
  induction start with
  | nil => exact List.pairwise_singleton _ _
  | cons c start ih =>
    exact .cons (fun rest hrest => (mem_rests.mp hrest).trans (List.suffix_cons c start)) ih

theorem advanceOne_eq_some {accepts : Char → Bool} {start rest : List Char} :
    advanceOne accepts start = some rest ↔ ∃ c, start = c :: rest ∧ accepts c := by
  cases start with
  | nil => simp [advanceOne]
  | cons c start => cases h : accepts c <;> simp [advanceOne, h]

/-- Taking one character keeps the chain. -/
theorem Descending.filterMap_advanceOne {left : List (List Char)} (h : Descending left)
    (accepts : Char → Bool) : Descending (left.filterMap (advanceOne accepts)) := by
  refine h.filterMap _ fun longer shorter hsuffix rest hrest rest' hrest' => ?_
  obtain ⟨c, rfl, -⟩ := advanceOne_eq_some.mp hrest
  obtain ⟨c', rfl, -⟩ := advanceOne_eq_some.mp hrest'
  rcases List.suffix_cons_iff.mp hsuffix with heq | hshorter
  · rw [(List.cons.inj heq).2]
  · exact (List.suffix_cons c' rest').trans hshorter

variable {left : List (List Char)}

/-- So does any item. -/
theorem Descending.advance (h : Descending left) (item : Item) : Descending (advance left item) := by
  cases item with
  | run =>
    cases left with
    | nil => exact .nil
    | cons longest _ => exact descending_rests longest
  | any => exact h.filterMap_advanceOne _
  | char p => exact h.filterMap_advanceOne _

/-- One step of the search finds what the item may leave of any of the texts. -/
theorem Descending.mem_advance (h : Descending left) {item : Item} {rest : List Char} :
    rest ∈ Like.advance left item ↔ ∃ start ∈ left, item.Leaves start rest := by
  cases item with
  | run =>
    cases left with
    | nil => simp [Like.advance]
    | cons longest others =>
      rw [Like.advance, mem_rests]
      -- the rests of the others are among those of the longest
      constructor
      · exact fun hrest => ⟨longest, List.mem_cons_self, hrest⟩
      · rintro ⟨start, hstart, hrest⟩
        rcases List.mem_cons.mp hstart with rfl | hother
        · exact hrest
        · exact hrest.trans (List.rel_of_pairwise_cons h hother)
  | any => simp only [Like.advance, List.mem_filterMap, advanceOne_eq_some, and_true, Item.Leaves]
  | char p =>
    simp only [Like.advance, List.mem_filterMap, advanceOne_eq_some, Item.Leaves, beq_iff_eq]
    refine exists_congr fun start => and_congr_right fun _ => ?_
    constructor
    · rintro ⟨c, rfl, rfl⟩
      rfl
    · exact fun heq => ⟨fold p, heq, rfl⟩

/-- The search ends with nothing left if the expression covers one of the texts. -/
theorem Descending.foldl_advance (h : Descending left) (expression : Expression) :
    (expression.foldl Like.advance left).any List.isEmpty ↔
      ∃ start ∈ left, Covers expression start := by
  induction expression generalizing left with
  | nil => simp [Covers]
  | cons item expression ih =>
    rw [List.foldl_cons, ih (h.advance item)]
    simp only [h.mem_advance, Covers]
    constructor
    · rintro ⟨rest, ⟨start, hstart, hleaves⟩, hcovers⟩
      exact ⟨start, hstart, rest, hleaves, hcovers⟩
    · rintro ⟨start, hstart, rest, hleaves, hcovers⟩
      exact ⟨rest, ⟨start, hstart, hleaves⟩, hcovers⟩

/-- The expression for a pattern covers exactly the texts that the pattern generates. -/
theorem isMatch_iff (text pattern : String) :
    isMatch text pattern ↔ Generates pattern.toList text.toList := by
  unfold isMatch Expression.isMatch expression
  rw [Descending.foldl_advance (List.pairwise_singleton _ _), ← covers_map_ofChar]
  simp only [List.mem_singleton, exists_eq_left]

end Like

/-! ## A matcher that has been used -/

namespace LikeMatcher

open Fields (keys)

/-- Whether a text matches a pattern up to case. -/
def answer (text pattern : String) : Bool :=
  Like.isMatch text pattern && Like.isAccepted pattern

/-- The patterns that a matcher has seen make no difference. -/
theorem test_fst (matcher : LikeMatcher) (text pattern : String) :
    (matcher.test text pattern).1 = answer text pattern := by
  change ((matcher.remember pattern).expression? pattern).any (·.isMatch text) = _
  rw [expression?_remember, Like.compile?_eq, answer, Like.isMatch]
  cases Like.isAccepted pattern <;> simp

/-- A call keeps its pattern and those before. -/
theorem mem_keys_remember (matcher : LikeMatcher) (pattern other : String) :
    other ∈ keys (matcher.remember pattern).compiled ↔
      other ∈ keys matcher.compiled ∨ other = pattern := by
  unfold remember
  split
  next h =>
    have hpattern : pattern ∈ keys matcher.compiled := Fields.mem_keys_iff_has.mpr h
    refine ⟨.inl, ?_⟩
    rintro (hseen | rfl)
    · exact hseen
    · exact hpattern
  next => simp [keys]

/-- A new matcher after calls, each with a text and a pattern. -/
def after (calls : List (String × String)) : LikeMatcher :=
  calls.foldl (fun matcher call => (matcher.test call.1 call.2).2) {}

theorem after_append (calls : List (String × String)) (text pattern : String) :
    after (calls ++ [(text, pattern)]) = (after calls).remember pattern :=
  List.foldl_append

/-- The patterns kept are those of the calls. -/
theorem mem_keys_after (calls : List (String × String)) (pattern : String) :
    pattern ∈ keys (after calls).compiled ↔ pattern ∈ calls.map Prod.snd := by
  induction calls using List.reverseRecOn with
  | nil => rfl
  | append_singleton calls call ih =>
    rw [after_append, mem_keys_remember, ih, List.map_append, List.mem_append]
    exact or_congr_right List.mem_singleton.symm

/-- There are as many patterns kept as different ones have been asked for. -/
theorem patternCount_after (calls : List (String × String)) :
    (after calls).patternCount = (calls.map Prod.snd).toFinset.card := by
  have hkeys : (keys (after calls).compiled).toFinset = (calls.map Prod.snd).toFinset := by
    ext pattern
    rw [List.mem_toFinset, List.mem_toFinset, mem_keys_after]
  rw [← hkeys, List.toFinset_card_of_nodup (after calls).distinct, keys, List.length_map]
  rfl

/-- After any calls, a matcher says whether the pattern generates the whole text and its expression
is not refused for its size. A new matcher says the same. Every pattern has been kept once. -/
theorem test_after (calls : List (String × String)) (text pattern : String) :
    (((after calls).test text pattern).1 ↔
        Like.isAccepted pattern ∧ Like.Generates pattern.toList text.toList) ∧
      ((after calls).test text pattern).1 = (({} : LikeMatcher).test text pattern).1 ∧
      (after calls).patternCount = (calls.map Prod.snd).toFinset.card := by
  refine ⟨?_, ?_, patternCount_after calls⟩
  · rw [test_fst, answer, Bool.and_eq_true, and_comm, Like.isMatch_iff]
  · rw [test_fst, test_fst]

/-- A dot and a star stand for themselves, the Kelvin sign for a `k`, and a line may end in between.
-/
example : ((after [("a.*", "_.%"), ("b", "%")]).test "\u212A.*\nx" "k.*_%").1 = true ∧
    ((after [("a", "%")]).test "kg" "k.*").1 = false ∧
    (after [("a.*", "_.%"), ("b", "%"), ("c", "_.%")]).patternCount = 2 := by
  decide +kernel

end LikeMatcher

end NestedRecord
