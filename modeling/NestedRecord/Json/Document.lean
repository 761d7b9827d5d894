import NestedRecord.Json.Basic
import NestedRecord.Json.Token

/-!
# JSON documents

A document is the nesting of a JSON text with its literals still as written. It is
read from the tokens by a machine with a stack of open containers, and turned into
a value in a second step.

* `Document.parse?` reads a text that holds exactly one value.
* `Document.toJson?` gives the value. It refuses what a document may hold and a value
  may not: a number beyond the binary64 range, half a surrogate pair, and more than
  127 containers inside one another.
* `Json.parse?` is both steps together.

Decimals are read to the nearest binary64 number. A parser that scales the digits by a power of
ten in binary64 arithmetic, `Decimal.scaled`, reads the same numbers as long as they have fifteen
digits or fewer and a moderate exponent, `Decimal.scaled_eq_toDouble`; of others it can miss the
nearest by a last place: it reads 97.45365320034685 as 97.45365320034684. Only the literals of a
text are concerned: whatever is done with a value once it has been read depends on neither way.
-/

namespace NestedRecord

/-- A JSON text's nesting, its numbers and strings as written. -/
inductive Document where
  | null
  | bool (b : Bool)
  | number (literal : NumberLiteral)
  | string (units : List Nat)
  | array (items : List Document)
  | object (members : List (List Nat × Document))

namespace Document

/-- An open container with what has been read of it, in reverse. -/
inductive Frame where
  | array (items : List Document)
  | object (members : List (List Nat × Document)) (key : Option (List Nat))

/-- What may come next. -/
inductive Expecting where
  | value
  /-- the first item of a list or its end -/
  | firstItem
  /-- the first key of an object or its end -/
  | firstKey
  | key
  | colon
  /-- a comma or the end of the innermost container -/
  | separator
  /-- nothing: the document is complete -/
  | done (document : Document)

/-- The machine: the open containers, innermost first, and what may come next. -/
structure Builder where
  frames : List Frame
  expecting : Expecting

/-- Puts a finished value into the innermost container. -/
def complete? (frames : List Frame) (document : Document) : Option Builder :=
  match frames with
  | [] => some ⟨[], .done document⟩
  | .array items :: rest => some ⟨.array (document :: items) :: rest, .separator⟩
  | .object members (some key) :: rest =>
    some ⟨.object ((key, document) :: members) none :: rest, .separator⟩
  | .object _ none :: _ => none

/-- Reads a token that starts a value. -/
def startValue? (frames : List Frame) : JsonToken → Option Builder
  | .null => complete? frames .null
  | .bool b => complete? frames (.bool b)
  | .number literal => complete? frames (.number literal)
  | .string units => complete? frames (.string units)
  | .openArray => some ⟨.array [] :: frames, .firstItem⟩
  | .openObject => some ⟨.object [] none :: frames, .firstKey⟩
  | _ => none

/-- Closes the innermost container if the token is its end. -/
def close? (frames : List Frame) (token : JsonToken) : Option Builder :=
  match frames, token with
  | .array items :: rest, .closeArray => complete? rest (.array items.reverse)
  | .object members none :: rest, .closeObject => complete? rest (.object members.reverse)
  | _, _ => none

/-- Reads a key of the innermost object. -/
def startMember? (frames : List Frame) (token : JsonToken) : Option Builder :=
  match frames, token with
  | .object members _ :: rest, .string units =>
    some ⟨.object members (some units) :: rest, .colon⟩
  | _, _ => none

/-- Reads one token. -/
def step? (builder : Builder) (token : JsonToken) : Option Builder :=
  let frames := builder.frames
  match builder.expecting, token with
  | .value, token => startValue? frames token
  | .firstItem, .closeArray => close? frames .closeArray
  | .firstItem, token => startValue? frames token
  | .firstKey, .closeObject => close? frames .closeObject
  | .firstKey, token => startMember? frames token
  | .key, token => startMember? frames token
  | .colon, .colon => some ⟨frames, .value⟩
  | .separator, .comma =>
    match frames with
    | .array _ :: _ => some ⟨frames, .value⟩
    | _ => some ⟨frames, .key⟩
  | .separator, token => close? frames token
  | _, _ => none

/-- The document of a token list that holds exactly one value. -/
def ofTokens? (tokens : List JsonToken) : Option Document :=
  (tokens.foldlM step? ⟨[], .value⟩).bind fun builder =>
    match builder.expecting with
    | .done document => some document
    | _ => none

/-- Reads a text that holds exactly one value. -/
def parse? (text : String) : Option Document :=
  (JsonToken.scan? text.toList).bind ofTokens?

end Document

/-- The number that a literal stands for: whole if it is written so and fits 64 bits,
else the nearest binary64 number, if that is finite. A negated zero is real. The nearest number is
meant exactly, whatever the number of digits; `Decimal.scaled` is the rule that rounds more often. -/
def NumberLiteral.number? (literal : NumberLiteral) : Option Number :=
  let real := (literal.decimal.toDouble literal.negative).finite?.map Number.real
  let value : Int :=
    if literal.negative then -literal.decimal.digits else literal.decimal.digits
  if literal.isWhole && !(literal.negative && value == 0) then
    match Whole.ofInt? value with
    | some n => some (.whole n)
    -- an integer beyond 64 bits
    | none => real
  else real

/-- The text that code units stand for. -/
def text? (units : List Nat) : Option String := (decodeUnits? units).map String.ofList

namespace Document

mutual

/-- The value of a document, with at most `depth` containers inside one another. -/
def toJson? (depth : Nat) : Document → Option Json
  | .null => some .null
  | .bool b => some (.bool b)
  | .number literal => literal.number?.map .number
  | .string units => (text? units).map .string
  | .array items =>
    if depth = 0 then none else (itemsToJson? (depth - 1) items).map .array
  | .object members =>
    if depth = 0 then none
    else (membersToJson? (depth - 1) members).map fun pairs => .object (Fields.ofPairs pairs)
termination_by structural document => document

/-- The values of a list's items. -/
def itemsToJson? (depth : Nat) : List Document → Option (List Json)
  | [] => some []
  | item :: rest =>
    match toJson? depth item, itemsToJson? depth rest with
    | some item, some rest => some (item :: rest)
    | _, _ => none
termination_by structural items => items

/-- The members of an object as written, repeated keys included. -/
def membersToJson? (depth : Nat) : List (List Nat × Document) → Option (List (String × Json))
  | [] => some []
  | (units, document) :: rest =>
    match text? units, toJson? depth document, membersToJson? depth rest with
    | some key, some value, some rest => some ((key, value) :: rest)
    | _, _, _ => none
termination_by structural members => members

end

/-- How many containers may stand inside one another. -/
def maxDepth : Nat := 127

end Document

/-- Reads the value of a JSON text. -/
def Json.parse? (text : String) : Option Json :=
  (Document.parse? text).bind (Document.toJson? Document.maxDepth)

end NestedRecord
