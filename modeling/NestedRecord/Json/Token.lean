import NestedRecord.Number.Numeral

/-!
# JSON tokens

JSON text is cut into tokens by a machine that reads one character at a time.

* `NumberLiteral` is a number as written: its decimal, its sign and whether it has
  a fraction or an exponent.
* A string token holds *code units*: the characters between the quotes, an escape
  `\uXXXX` standing for its four digits. `decodeUnits?` joins surrogate pairs and
  refuses a surrogate that stands alone.
* `JsonToken.scan?` gives the tokens of a text, or none where the text holds something
  that is no token.
-/

namespace NestedRecord

/-- A number as it is written in JSON text. -/
structure NumberLiteral where
  negative : Bool
  decimal : Decimal
  /-- whether neither a fraction nor an exponent is written -/
  isWhole : Bool

namespace NumberLiteral

open Numeral

/-- The exponent part: nothing, or its letter, an optional sign and digits. -/
def exponent? : List Char → Option (Option Int)
  | [] => some none
  | c :: rest => if c = 'e' ∨ c = 'E' then (parseExponent? rest).map some else none

/-- The fraction part: nothing, or a point and at least one digit, and what follows. -/
def fraction? : List Char → Option (Option (List Char) × List Char)
  | '.' :: rest =>
    let (digits, rest) := spanDigits rest
    if digits.isEmpty then none else some (some digits, rest)
  | rest => some (none, rest)

/-- Reads a JSON number: no sign but a minus, no leading zero, digits on both sides
of a point. -/
def parse? (cs : List Char) : Option NumberLiteral := do
  let (negative, unsigned) :=
    match cs with
    | '-' :: rest => (true, rest)
    | cs => (false, cs)
  let (digits, rest) := spanDigits unsigned
  let leadingZero := digits.head? == some '0' && decide (1 < digits.length)
  if digits.isEmpty || leadingZero then none
  else
    let (fraction, rest) ← fraction? rest
    let exponent ← exponent? rest
    let decimals := fraction.getD []
    let decimal : Decimal :=
      ⟨digitsValue (digits ++ decimals), exponent.getD 0 - decimals.length⟩
    some ⟨negative, decimal, fraction.isNone && exponent.isNone⟩

end NumberLiteral

/-! ## Code units -/

/-- Whether a code unit is the first half of a pair. -/
def isHighSurrogate (unit : Nat) : Bool := decide (0xD800 ≤ unit) && decide (unit < 0xDC00)

/-- Whether a code unit is the second half of a pair. -/
def isLowSurrogate (unit : Nat) : Bool := decide (0xDC00 ≤ unit) && decide (unit < 0xE000)

/-- The characters that code units stand for. Two halves of a pair are one character,
and a half alone stands for none. -/
def decodeUnits? : List Nat → Option (List Char)
  | [] => some []
  | high :: low :: rest =>
    if isHighSurrogate high then
      if isLowSurrogate low then
        let code := 0x10000 + (high - 0xD800) * 0x400 + (low - 0xDC00)
        (decodeUnits? rest).map (Char.ofNat code :: ·)
      else none
    else if isLowSurrogate high then none
    else (decodeUnits? (low :: rest)).map (Char.ofNat high :: ·)
  | [unit] =>
    if isHighSurrogate unit || isLowSurrogate unit then none
    else some [Char.ofNat unit]

/-! ## Tokens -/

/-- A token of JSON text. -/
inductive JsonToken where
  | openArray
  | closeArray
  | openObject
  | closeObject
  | comma
  | colon
  | null
  | bool (b : Bool)
  | number (literal : NumberLiteral)
  | string (units : List Nat)

namespace JsonToken

/-- Where the machine stands inside a string. -/
inductive InString where
  | plain
  | afterBackslash
  /-- after `\u` and some of its four digits -/
  | hex (count value : Nat)

/-- Where the machine stands; what it has read of a token is kept in reverse. -/
inductive Mode where
  | between
  | word (read : List Char)
  | number (read : List Char)
  | string (read : List Nat) (place : InString)

/-- The machine: its mode and the tokens found, in reverse. -/
structure Scanner where
  mode : Mode
  found : List JsonToken

def isBlank (c : Char) : Bool := c = ' ' ∨ c = '\t' ∨ c = '\n' ∨ c = '\r'

def isWordChar (c : Char) : Bool := decide ('a' ≤ c) && decide (c ≤ 'z')

def isNumberChar (c : Char) : Bool :=
  Numeral.isDigit c || c = '-' || c = '+' || c = '.' || c = 'e' || c = 'E'

/-- The value of a hexadecimal digit. -/
def hexValue? (c : Char) : Option Nat :=
  if '0' ≤ c ∧ c ≤ '9' then some (c.toNat - '0'.toNat)
  else if 'a' ≤ c ∧ c ≤ 'f' then some (c.toNat - 'a'.toNat + 10)
  else if 'A' ≤ c ∧ c ≤ 'F' then some (c.toNat - 'A'.toNat + 10)
  else none

/-- The character that an escape letter stands for. -/
def unescape? : Char → Option Char
  | '"' => some '"'
  | '\\' => some '\\'
  | '/' => some '/'
  | 'b' => some '\x08'
  | 'f' => some '\x0c'
  | 'n' => some '\n'
  | 'r' => some '\r'
  | 't' => some '\t'
  | _ => none

def word? (read : List Char) : Option JsonToken :=
  match String.ofList read.reverse with
  | "null" => some .null
  | "true" => some (.bool true)
  | "false" => some (.bool false)
  | _ => none

/-- Starts a token with its first character. -/
def start? (found : List JsonToken) (c : Char) : Option Scanner :=
  if isBlank c then some ⟨.between, found⟩
  else if c = '"' then some ⟨.string [] .plain, found⟩
  else if c = '[' then some ⟨.between, .openArray :: found⟩
  else if c = ']' then some ⟨.between, .closeArray :: found⟩
  else if c = '\x7b' then some ⟨.between, .openObject :: found⟩
  else if c = '\x7d' then some ⟨.between, .closeObject :: found⟩
  else if c = ',' then some ⟨.between, .comma :: found⟩
  else if c = ':' then some ⟨.between, .colon :: found⟩
  else if isWordChar c then some ⟨.word [c], found⟩
  else if Numeral.isDigit c || c = '-' then some ⟨.number [c], found⟩
  else none

/-- Reads a character of a string. Control characters must be escaped. -/
def stepString? (found : List JsonToken) (read : List Nat) (place : InString) (c : Char) :
    Option Scanner :=
  match place with
  | .plain =>
    if c = '"' then some ⟨.between, .string read.reverse :: found⟩
    else if c = '\\' then some ⟨.string read .afterBackslash, found⟩
    else if c.toNat < 0x20 then none
    else some ⟨.string (c.toNat :: read) .plain, found⟩
  | .afterBackslash =>
    if c = 'u' then some ⟨.string read (.hex 0 0), found⟩
    else (unescape? c).map fun c => ⟨.string (c.toNat :: read) .plain, found⟩
  | .hex count value =>
    (hexValue? c).map fun digit =>
      let value := 16 * value + digit
      if count = 3 then ⟨.string (value :: read) .plain, found⟩
      else ⟨.string read (.hex (count + 1) value), found⟩

/-- Reads one character. -/
def step? (scanner : Scanner) (c : Char) : Option Scanner :=
  match scanner.mode with
  | .between => start? scanner.found c
  | .word read =>
    if isWordChar c then some { scanner with mode := .word (c :: read) }
    -- the character ends one token and starts the next
    else (word? read).bind fun token => start? (token :: scanner.found) c
  | .number read =>
    if isNumberChar c then some { scanner with mode := .number (c :: read) }
    else (NumberLiteral.parse? read.reverse).bind fun literal =>
      start? (.number literal :: scanner.found) c
  | .string read place => stepString? scanner.found read place c

/-- The tokens once the text has ended. -/
def finish? (scanner : Scanner) : Option (List JsonToken) :=
  match scanner.mode with
  | .between => some scanner.found.reverse
  | .word read => (word? read).map fun token => (token :: scanner.found).reverse
  | .number read =>
    (NumberLiteral.parse? read.reverse).map fun literal =>
      (JsonToken.number literal :: scanner.found).reverse
  | .string _ _ => none

/-- The tokens of a text. -/
def scan? (cs : List Char) : Option (List JsonToken) :=
  (cs.foldlM step? ⟨.between, []⟩).bind finish?

end JsonToken

end NestedRecord
