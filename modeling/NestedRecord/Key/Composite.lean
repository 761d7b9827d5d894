/-!
# Texts of composite keys

A key of several parts is one text: the parts with a separator between them. Inside a
part, a backslash stands before every backslash and every occurrence of the separator.

* `CompositeKey.encode` writes such a text, `CompositeKey.decode` takes it apart.
-/

namespace NestedRecord

namespace CompositeKey

/-! ## Writing -/

/-- A backslash before every backslash. -/
def escapeBackslash : List Char → List Char
  | [] => []
  | c :: rest =>
    if c = '\\' then '\\' :: '\\' :: escapeBackslash rest else c :: escapeBackslash rest

/-- A backslash before every occurrence of the separator, from left to right. The first
`inside` characters belong to an occurrence that has begun already. -/
def escapeSeparator (separator : List Char) : Nat → List Char → List Char
  | _, [] => []
  | inside + 1, c :: rest => c :: escapeSeparator separator inside rest
  | 0, c :: rest =>
    if !separator.isEmpty && separator.isPrefixOf (c :: rest) then
      '\\' :: c :: escapeSeparator separator (separator.length - 1) rest
    else c :: escapeSeparator separator 0 rest

/-- A part as it stands in a key. -/
def escape (separator part : List Char) : List Char :=
  escapeSeparator separator 0 (escapeBackslash part)

/-- The text of a key of the given parts. -/
def encode (separator : String) (parts : List String) : String :=
  separator.intercalate (parts.map fun part =>
    String.ofList (escape separator.toList part.toList))

/-! ## Reading -/

/-- Puts a character in front of the first piece. -/
def extendFirst (c : Char) : List (List Char) → List (List Char)
  | [] => [[c]]
  | piece :: rest => (c :: piece) :: rest

/-- The pieces between separators. A backslash makes the character behind it part of a
piece, and counts for nothing at the very end. The first `skipped` characters belong to a
separator that has been seen already. -/
def pieces (separator : List Char) : Nat → List Char → List (List Char)
  | _, [] => [[]]
  | skipped + 1, _ :: rest => pieces separator skipped rest
  | 0, '\\' :: c :: rest => extendFirst c (pieces separator 0 rest)
  | 0, c :: rest =>
    -- a backslash gets here only at the very end
    if c = '\\' then pieces separator 0 rest
    else if !separator.isEmpty && separator.isPrefixOf (c :: rest) then
      [] :: pieces separator (separator.length - 1) rest
    else extendFirst c (pieces separator 0 rest)

/-- The parts of a key's text. -/
def decode (separator text : String) : List String :=
  (pieces separator.toList 0 text.toList).map String.ofList

end CompositeKey

end NestedRecord
