import NestedRecord.Fields
import NestedRecord.Text.Automaton

/-!
# LIKE patterns

In a pattern `%` stands for any run of characters, `_` for exactly one character,
and every other character for itself up to case. A pattern must cover the whole
text. It is written as a regular expression, which is read and compiled; one whose automata
would be too large is refused and matches nothing.

* `Like.Generates` is the meaning of a pattern: the texts it generates.
* `Like.source` is the regular expression for a pattern and `Like.read?` what it asks for,
  item by item, which is `Like.expression` of the pattern.
* `Like.Expression.isMatch` decides whether an expression covers a text by carrying, from
  left to right, what may be left of the text once the expression so far has covered its
  beginning.
* `LikeMatcher` compiles every pattern once and keeps it for later texts.
-/

namespace NestedRecord

namespace Like

open Text

/-- The texts that a pattern generates. -/
inductive Generates : List Char → List Char → Prop where
  | nil : Generates [] []
  | run (left : List Char) {pattern text : List Char} :
      Generates pattern text → Generates ('%' :: pattern) (left ++ text)
  | any (c : Char) {pattern text : List Char} :
      Generates pattern text → Generates ('_' :: pattern) (c :: text)
  | char {p c : Char} {pattern text : List Char} :
      p ≠ '%' → p ≠ '_' → fold p = fold c → Generates pattern text →
      Generates (p :: pattern) (c :: text)

/-! ## Expressions -/

/-- What one character of a pattern asks for. -/
inductive Item where
  /-- any run of characters -/
  | run
  /-- any one character -/
  | any
  /-- a character up to case -/
  | char (p : Char)
deriving DecidableEq

def Item.ofChar (p : Char) : Item :=
  if p = '%' then .run else if p = '_' then .any else .char p

/-- What a text has to consist of, one item after the other. -/
abbrev Expression := List Item

/-- What a pattern asks for. -/
def expression (pattern : String) : Expression := pattern.toList.map Item.ofChar

/-! ## Sources -/

/-- The characters that have a meaning of their own in a regular expression. -/
def metaChars : List Char :=
  ['\\', '.', '+', '*', '?', '(', ')', '|', '[', ']', '\x7b', '\x7d', '^', '$', '#', '&', '-', '~']

/-- A character written so that it stands for itself. -/
def escape (c : Char) : List Char := if c ∈ metaChars then ['\\', c] else [c]

/-- What is written for one character of a pattern. -/
def piece (c : Char) : List Char :=
  if c = '%' then ['.', '*'] else if c = '_' then ['.'] else escape c

/-- The regular expression for a pattern. -/
def source (pattern : String) : List Char := '^' :: pattern.toList.flatMap piece ++ ['$']

/-- The items of a regular expression behind its start. Only what stands for items can be
read: characters, dots with or without a star, and the end. -/
def readItems? : List Char → Option Expression
  | ['$'] => some []
  | '.' :: '*' :: rest => (readItems? rest).map (.run :: ·)
  | '.' :: rest => (readItems? rest).map (.any :: ·)
  | '\\' :: c :: rest => if c ∈ metaChars then (readItems? rest).map (.char c :: ·) else none
  | c :: rest => if c ∈ metaChars then none else (readItems? rest).map (.char c :: ·)
  | [] => none

/-- What a regular expression asks of a whole text. -/
def read? : List Char → Option Expression
  | '^' :: items => readItems? items
  | _ => none

/-! ## Matching -/

/-- A text and what is left of it after one, two and more characters, down to nothing. -/
def rests : List Char → List (List Char)
  | [] => [[]]
  | text@(_ :: shorter) => text :: rests shorter

/-- What is left of a folded text behind its first character if that one is of an item. -/
def advanceOne (accepts : Char → Bool) : List Char → Option (List Char)
  | c :: rest => if accepts c then some rest else none
  | [] => none

/-- What may be left after one more item. The text is folded; of what may be left before, the
longest comes first, and all others are rests of it. -/
def advance (left : List (List Char)) : Item → List (List Char)
  | .run =>
    match left with
    | longest :: _ => rests longest
    | [] => []
  | .any => left.filterMap (advanceOne fun _ => true)
  | .char p =>
    let folded := fold p
    left.filterMap (advanceOne fun c => folded == c)

/-- Whether an expression covers a text. -/
def Expression.isMatch (expression : Expression) (text : String) : Bool :=
  (expression.foldl advance [text.toList.map fold]).any List.isEmpty

/-- Whether a pattern generates a text. -/
def isMatch (text pattern : String) : Bool := (expression pattern).isMatch text

/-! ## Sizes -/

/-- The size of the automata for one item. -/
def Item.size : Item → AutomatonSize
  | .run => AutomatonSize.anyChar.run
  | .any => AutomatonSize.anyChar
  | .char p => AutomatonSize.ofChars (foldMates p)

/-- The size of the automata around an expression. Both have an entry, a state for each end of
the text and an accepting state; the one that reads forward also marks where the match
begins and ends. -/
def frameSize : AutomatonSize := ⟨6 * AutomatonSize.state, 4 * AutomatonSize.state⟩

/-- The size of the automata for an expression. -/
def Expression.size (expression : Expression) : AutomatonSize :=
  expression.foldl (fun size item => size + item.size) frameSize

/-- The greatest size of an automaton that the matching library compiles unless it is told
otherwise: 10 MiB. -/
def sizeLimit : Nat := 10485760

/-- Whether both automata keep to the limit. The library counts while it builds them and stops as
soon as one is too large, so the sums of whole automata decide. -/
def Expression.isSmall (expression : Expression) : Bool :=
  decide (expression.size.forward ≤ sizeLimit) && decide (expression.size.backward ≤ sizeLimit)

/-- Whether the expression for a pattern is small enough. It is for every pattern of up to 10443
characters, and for none of more than 327674; in between it depends on which characters there are. -/
def isAccepted (pattern : String) : Bool := (expression pattern).isSmall

/-- The expression for a pattern, unless it is too large. -/
def compile? (pattern : String) : Option Expression :=
  (read? (source pattern)).filter Expression.isSmall

end Like

/-- A matcher with the distinct patterns it has been asked about, oldest first, each with what
it has been compiled to. -/
structure LikeMatcher where
  compiled : Fields (Option Like.Expression) := []
  compiled_eq : ∀ entry ∈ compiled, entry.2 = Like.compile? entry.1 := by simp
  distinct : (Fields.keys compiled).Nodup := by simp [Fields.keys]

namespace LikeMatcher

open Fields (get? has keys)

/-- The number of distinct patterns seen. -/
def patternCount (matcher : LikeMatcher) : Nat := matcher.compiled.length

/-- What is kept for a pattern that has been seen. -/
def expression? (matcher : LikeMatcher) (pattern : String) : Option Like.Expression :=
  (get? matcher.compiled pattern).join

/-- The matcher once it has seen a pattern. Only a new one is compiled. -/
def remember (matcher : LikeMatcher) (pattern : String) : LikeMatcher :=
  if h : has matcher.compiled pattern then matcher
  else
    { compiled := matcher.compiled ++ [(pattern, Like.compile? pattern)]
      compiled_eq := by
        intro entry hentry
        rcases List.mem_append.mp hentry with hold | hnew
        · exact matcher.compiled_eq entry hold
        · rw [List.mem_singleton.mp hnew]
      distinct := by
        have hnew : pattern ∉ keys matcher.compiled := mt Fields.mem_keys_iff_has.mp h
        have hkeys : keys (matcher.compiled ++ [(pattern, Like.compile? pattern)]) =
            keys matcher.compiled ++ [pattern] := List.map_append
        rw [hkeys, List.nodup_append]
        refine ⟨matcher.distinct, List.pairwise_singleton _ _, fun seen hseen p hp heq => hnew ?_⟩
        rw [← List.mem_singleton.mp hp, ← heq]
        exact hseen }

/-- What is kept for a pattern that has just been seen is what it compiles to. -/
theorem expression?_remember (matcher : LikeMatcher) (pattern : String) :
    (matcher.remember pattern).expression? pattern = Like.compile? pattern := by
  unfold remember expression?
  split
  next h =>
    obtain ⟨kept, hkept⟩ := Option.isSome_iff_exists.mp h
    rw [hkept]
    exact matcher.compiled_eq _ (Fields.mem_of_get? hkept)
  next h =>
    have hnone : get? matcher.compiled pattern = none := Option.not_isSome_iff_eq_none.mp h
    rw [Fields.get?_append, hnone]
    simp [get?]

/-- Matches a text against a pattern and remembers the pattern, be it refused or not. -/
def test (matcher : LikeMatcher) (text pattern : String) : Bool × LikeMatcher :=
  let matcher := matcher.remember pattern
  ((matcher.expression? pattern).any (·.isMatch text), matcher)

end LikeMatcher

end NestedRecord
