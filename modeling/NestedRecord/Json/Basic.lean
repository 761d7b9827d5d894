import NestedRecord.Fields
import NestedRecord.Json.Number

/-!
# JSON values

Records, attributes' literals and answers are JSON values. An object keeps its
members in order of arrival, which every text of it shows; equality of values
(`Json.same`) ignores that order.

* `Json.get?` and `Json.at?` read a member and a place below it.
* `Json.kindName` names the kind of a value in messages.
* `Json.escape` writes a text between quotes.
* `Json.render` is the compact text of a value.
-/

namespace NestedRecord

/-- A JSON value. -/
inductive Json where
  | null
  | bool (b : Bool)
  | number (n : Number)
  | string (s : String)
  | array (items : List Json)
  | object (members : List (String × Json))

namespace Json

instance : Inhabited Json := ⟨.null⟩

/-! ## Construction -/

/-- An integer; one beyond 64 signed bits is cut to that range. -/
def ofInt (n : Int) : Json := .number (.whole (.clamp n))

/-- A natural number; one beyond 64 bits is cut to the largest. -/
def ofNat (n : Nat) : Json := .number (.whole (.ofNat n))

/-- A double as a JSON number, whole where it can be; null for NaN and the
infinities. -/
def ofDouble (x : Double) : Json :=
  match Number.ofDouble? x with
  | some n => .number n
  | none => .null

/-- A double kept as a double; null for NaN and the infinities. -/
def ofReal (x : Double) : Json :=
  match x with
  | .finite x => .number (.real x)
  | _ => .null

/-- A text, or null when there is none. -/
def ofString? : Option String → Json
  | some s => .string s
  | none => .null

/-- A list of texts. -/
def ofStrings (texts : List String) : Json := .array (texts.map .string)

/-! ## Reading -/

def isNull : Json → Bool
  | .null => true
  | _ => false

def isObject : Json → Bool
  | .object _ => true
  | _ => false

def isArray : Json → Bool
  | .array _ => true
  | _ => false

def string? : Json → Option String
  | .string s => some s
  | _ => none

def number? : Json → Option Number
  | .number n => some n
  | _ => none

def bool? : Json → Option Bool
  | .bool b => some b
  | _ => none

def items? : Json → Option (List Json)
  | .array items => some items
  | _ => none

def members? : Json → Option (List (String × Json))
  | .object members => some members
  | _ => none

/-- The member of an object. -/
def get? : Json → String → Option Json
  | .object members, key => Fields.get? members key
  | _, _ => none

/-- The value below an object's members, one key after the other. -/
def at? : Json → List String → Option Json
  | value, [] => some value
  | value, key :: rest => (value.get? key).bind (at? · rest)

/-- The value, unless it is null. -/
def nonNull? : Json → Option Json
  | .null => none
  | value => some value

/-- The kind of a value as messages name it. -/
def kindName : Json → String
  | .null => "null"
  | .bool _ => "boolean"
  | .number _ => "number"
  | .string _ => "string"
  | .array _ => "array"
  | .object _ => "object"

/-! ## Equality of values -/

mutual

/-- Equality of values: members of objects in any order, whole and real numbers
apart. -/
def same : Json → Json → Bool
  | .null, .null => true
  | .bool a, .bool b => a == b
  | .number m, .number n => m.same n
  | .string s, .string t => s == t
  | .array xs, .array ys => sameItems xs ys
  | .object xs, .object ys => xs.length == ys.length && sameMembers xs ys
  | _, _ => false
termination_by structural value => value

/-- Equality of lists, item by item. -/
def sameItems : List Json → List Json → Bool
  | [], [] => true
  | x :: xs, y :: ys => same x y && sameItems xs ys
  | _, _ => false
termination_by structural items => items

/-- Whether every member on the left stands on the right with the same value. -/
def sameMembers : List (String × Json) → List (String × Json) → Bool
  | [], _ => true
  | (key, x) :: rest, ys =>
    (match Fields.get? ys key with
      | some y => same x y
      | none => false) && sameMembers rest ys
termination_by structural members => members

end

instance : BEq Json := ⟨same⟩

/-! ## Text -/

/-- The lower-case hexadecimal digit of a number below sixteen. -/
def hexDigit (n : Nat) : Char :=
  if n < 10 then Char.ofNat ('0'.toNat + n) else Char.ofNat ('a'.toNat + (n - 10))

/-- A character as it stands inside quotes: the quote, the backslash and the control
characters are escaped. -/
def escapeChar (c : Char) : List Char :=
  if c = '"' then ['\\', '"']
  else if c = '\\' then ['\\', '\\']
  else if c = '\x08' then ['\\', 'b']
  else if c = '\x0c' then ['\\', 'f']
  else if c = '\n' then ['\\', 'n']
  else if c = '\r' then ['\\', 'r']
  else if c = '\t' then ['\\', 't']
  else if c.toNat < 0x20 then
    ['\\', 'u', '0', '0', hexDigit (c.toNat / 16), hexDigit (c.toNat % 16)]
  else [c]

/-- A text between quotes. -/
def escape (text : String) : String :=
  String.ofList ('"' :: text.toList.flatMap escapeChar ++ ['"'])

mutual

/-- The compact text of a value: no blanks, members in order of arrival. -/
def render : Json → String
  | .null => "null"
  | .bool b => if b then "true" else "false"
  | .number n => n.toText
  | .string s => escape s
  | .array items => "[" ++ ",".intercalate (renderItems items) ++ "]"
  | .object members => "\x7b" ++ ",".intercalate (renderMembers members) ++ "\x7d"
termination_by structural value => value

/-- The texts of a list's items. -/
def renderItems : List Json → List String
  | [] => []
  | item :: rest => render item :: renderItems rest
termination_by structural items => items

/-- The texts of an object's members. -/
def renderMembers : List (String × Json) → List String
  | [] => []
  | (key, value) :: rest => (escape key ++ ":" ++ render value) :: renderMembers rest
termination_by structural members => members

end

end Json

end NestedRecord
