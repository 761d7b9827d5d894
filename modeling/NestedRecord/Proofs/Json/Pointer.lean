import Mathlib.Data.List.Basic
import NestedRecord.Json.Location
import NestedRecord.Proofs.Dotted

/-!
# Pointers

A pointer shows the tokens of a location: no escaped key and no index holds a slash, so the
slashes are where the steps begin. It is read by cutting it there and putting the escaped
characters of every token back, the slashes first: a tilde that is written out may stand before
a one.

- `Location.unescape` reads a token, `unescape_stepText` says that it is the key or the index.
- `Location.escapeKey_injective` and `Numeral.natText_injective`: a token shows its key or
  its index.
- `Location.splitAtChar_pointer`: a pointer shows its tokens. It does not show which of them are
  keys: `/0` may be the first item of a list or the member `0` of an object.
- `Location.unescape_pointer` reads a whole pointer.
-/

namespace NestedRecord

theorem Numeral.natText_injective {m n : Nat} (h : natText m = natText n) : m = n := by
  have hdigits : Nat.toDigits 10 m = Nat.toDigits 10 n := String.ofList_injective h
  rw [← Nat.ofDigitChars_ten_toDigits (n := m), hdigits, Nat.ofDigitChars_ten_toDigits]

/-- A key, or an index in decimal digits. -/
def Step.name : Step → String
  | .key text => text
  | .index n => Numeral.natText n

namespace Location

/-! ## Tokens -/

/-- A character of a key as it stands in a pointer. -/
def escapeChar (c : Char) : List Char :=
  if c = '~' then ['~', '0'] else if c = '/' then ['~', '1'] else [c]

theorem toList_escapeKey (key : String) :
    (escapeKey key).toList = key.toList.flatMap escapeChar := by
  rw [escapeKey, String.toList_ofList]
  rfl

/-- No escaped character has a slash in it. -/
theorem slash_not_mem_escapeChar (c : Char) : '/' ∉ escapeChar c := by
  unfold escapeChar
  split
  · decide
  · split
    · decide
    · next hslash => simpa using Ne.symm hslash

/-- No token has a slash in it. -/
theorem slash_not_mem_stepText (step : Step) : '/' ∉ (stepText step).toList := by
  cases step with
  | key key =>
    rw [stepText, toList_escapeKey, List.mem_flatMap]
    rintro ⟨c, -, hc⟩
    exact slash_not_mem_escapeChar c hc
  | index index =>
    rw [stepText, Numeral.natText, String.toList_ofList]
    intro hslash
    exact absurd (Nat.isDigit_of_mem_toDigits (by decide) (by decide) hslash) (by decide)

/-- Replaces two characters that stand next to each other, wherever they do, from left to right. -/
def replacePair (first second char : Char) : List Char → List Char
  | [] => []
  | [c] => [c]
  | c :: d :: rest =>
    if c = first ∧ d = second then char :: replacePair first second char rest
    else c :: replacePair first second char (d :: rest)

/-- The key of a token: `~1` stands for a slash and `~0` for a tilde. -/
def unescape (token : List Char) : String :=
  String.ofList (replacePair '~' '0' '~' (replacePair '~' '1' '/' token))

variable {first second char : Char}

theorem replacePair_cons {c : Char} (h : c ≠ first) (rest : List Char) :
    replacePair first second char (c :: rest) = c :: replacePair first second char rest := by
  cases rest with
  | nil => rfl
  | cons d rest => rw [replacePair, if_neg fun hboth => h hboth.1]

theorem replacePair_of_ne {d : Char} (h : d ≠ second) (rest : List Char) :
    replacePair first second char (first :: d :: rest) =
      first :: replacePair first second char (d :: rest) := by
  rw [replacePair, if_neg fun hboth => h hboth.2]

@[simp] theorem replacePair_pair (rest : List Char) :
    replacePair first second char (first :: second :: rest) =
      char :: replacePair first second char rest := by
  rw [replacePair, if_pos ⟨rfl, rfl⟩]

/-- Nothing is replaced where the first character does not occur. -/
theorem replacePair_of_not_mem {cs : List Char} (h : first ∉ cs) :
    replacePair first second char cs = cs := by
  induction cs with
  | nil => rfl
  | cons c cs ih =>
    rw [List.mem_cons, not_or] at h
    rw [replacePair_cons (Ne.symm h.1), ih h.2]

/-- A character of a key once the slashes are back. -/
def tildeChar (c : Char) : List Char := if c = '~' then ['~', '0'] else [c]

/-- The slashes are put back first. -/
theorem replacePair_escapeChar (cs : List Char) :
    replacePair '~' '1' '/' (cs.flatMap escapeChar) = cs.flatMap tildeChar := by
  induction cs with
  | nil => rfl
  | cons c cs ih =>
    rw [List.flatMap_cons, List.flatMap_cons, ← ih]
    by_cases htilde : c = '~'
    · -- a tilde is followed by a zero, so it is left for the second replacement
      subst htilde
      show replacePair '~' '1' '/' ('~' :: '0' :: cs.flatMap escapeChar) = _
      rw [replacePair_of_ne (by decide), replacePair_cons (by decide)]
      rfl
    · by_cases hslash : c = '/'
      · subst hslash
        exact replacePair_pair _
      · have hescape : escapeChar c = [c] := by rw [escapeChar, if_neg htilde, if_neg hslash]
        rw [hescape, tildeChar, if_neg htilde]
        exact replacePair_cons htilde _

/-- And then the tildes. -/
theorem replacePair_tildeChar (cs : List Char) :
    replacePair '~' '0' '~' (cs.flatMap tildeChar) = cs := by
  induction cs with
  | nil => rfl
  | cons c cs ih =>
    rw [List.flatMap_cons]
    by_cases htilde : c = '~'
    · subst htilde
      exact (replacePair_pair _).trans (congrArg _ ih)
    · rw [tildeChar, if_neg htilde]
      exact (replacePair_cons htilde _).trans (congrArg _ ih)

/-- Escaped keys are read back. -/
theorem unescape_escapeKey (key : String) : unescape (escapeKey key).toList = key := by
  rw [unescape, toList_escapeKey, replacePair_escapeChar, replacePair_tildeChar,
    String.ofList_toList]

theorem escapeKey_injective {a b : String} (h : escapeKey a = escapeKey b) : a = b := by
  rw [← unescape_escapeKey a, h, unescape_escapeKey]

theorem tilde_not_mem_natText (n : Nat) : '~' ∉ (Numeral.natText n).toList := by
  rw [Numeral.natText, String.toList_ofList]
  intro htilde
  exact absurd (Nat.isDigit_of_mem_toDigits (by decide) (by decide) htilde) (by decide)

/-- A token shows its key or its index. -/
theorem unescape_stepText (step : Step) : unescape (stepText step).toList = step.name := by
  cases step with
  | key key => exact unescape_escapeKey key
  | index index =>
    rw [stepText, unescape, replacePair_of_not_mem (tilde_not_mem_natText index),
      replacePair_of_not_mem (tilde_not_mem_natText index), String.ofList_toList]
    rfl

/-! ## Pointers -/

/-- Pieces with a separator before each of them. -/
theorem splitAtChar_flatMap {separator : Char} {pieces : List (List Char)} :
    ∀ {piece : List Char}, separator ∉ piece → (∀ other ∈ pieces, separator ∉ other) →
      splitAtChar separator (piece ++ pieces.flatMap (separator :: ·)) = piece :: pieces := by
  induction pieces with
  | nil =>
    intro piece hpiece _
    rw [List.flatMap_nil, List.append_nil, splitAtChar_of_not_mem hpiece]
  | cons next rest ih =>
    intro piece hpiece hrest
    have hnext := ih (hrest next List.mem_cons_self) fun other hother =>
      hrest other (List.mem_cons_of_mem _ hother)
    rw [List.flatMap_cons, List.cons_append, splitAtChar_append, splitAtChar_of_not_mem hpiece,
      hnext]
    rfl

/-- A pointer shows the tokens of its location. -/
theorem splitAtChar_pointer (location : Location) :
    splitAtChar '/' location.pointer.toList =
      [] :: location.map fun step => (stepText step).toList := by
  have htext : location.pointer.toList =
      [] ++ (location.map fun step => (stepText step).toList).flatMap ('/' :: ·) := by
    rw [pointer, String.toList_join, List.flatMap_map, List.flatMap_map]
    refine List.flatMap_congr fun step _ => ?_
    rw [String.toList_append]
    rfl
  have hslash : ∀ piece ∈ location.map fun step => (stepText step).toList, '/' ∉ piece := by
    intro piece hpiece
    obtain ⟨step, -, rfl⟩ := List.mem_map.mp hpiece
    exact slash_not_mem_stepText step
  rw [htext, splitAtChar_flatMap List.not_mem_nil hslash]

theorem tokens_of_pointer {a b : Location} (h : pointer a = pointer b) :
    a.map stepText = b.map stepText := by
  have hpieces := splitAtChar_pointer a
  rw [h, splitAtChar_pointer b] at hpieces
  have htexts := congrArg (List.map String.ofList) (List.cons.inj hpieces).2
  simpa [List.map_map, Function.comp_def] using htexts.symm

/-- A pointer is read as the keys and indices of its location. -/
theorem unescape_pointer (location : Location) :
    (splitAtChar '/' location.pointer.toList).map unescape = "" :: location.map Step.name := by
  rw [splitAtChar_pointer, List.map_cons, List.map_map]
  exact congrArg₂ List.cons (by decide) (List.map_congr_left fun step _ => unescape_stepText step)

end Location

end NestedRecord
