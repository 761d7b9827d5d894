import NestedRecord.Json.Basic
import NestedRecord.Text.Blank
import NestedRecord.Timestamp

/-!
# Scalar types and conversions

The vocabulary for single values in a descriptor.

* `ScalarType` is the declared type of an attribute; `ScalarType.accepts` checks a
  value against it and never converts.
* `Conversion` brings a value closer to its type before it is validated. A value
  that cannot be converted becomes null.
-/

namespace NestedRecord

/-- The declared type of a scalar attribute. -/
inductive ScalarType where
  | string
  | number
  | int
  | boolean
  /-- a timestamp, as text or in milliseconds -/
  | date
  | email
deriving DecidableEq

namespace ScalarType

/-- The type that a word of a descriptor names. -/
def ofToken? : String → Option ScalarType
  | "string" => some .string
  | "number" => some .number
  | "int" | "integer" => some .int
  | "boolean" | "bool" => some .boolean
  | "date" => some .date
  | "email" => some .email
  | _ => none

/-- The name of the type in messages and metadata. -/
def name : ScalarType → String
  | .string => "string"
  | .number => "number"
  | .int => "int"
  | .boolean => "boolean"
  | .date => "date"
  | .email => "email"

/-- Whether patterns can be matched against values of the type. -/
def isTextual : ScalarType → Bool
  | .string | .email => true
  | _ => false

/-- An address has a non-empty part before its first `@` and a point behind it. -/
def isEmail (text : String) : Bool :=
  let cs := text.toList
  let localPart := cs.takeWhile (· ≠ '@')
  let domain := (cs.dropWhile (· ≠ '@')).drop 1
  cs.contains '@' && !localPart.isEmpty && domain.contains '.'

/-- Whether a value has the type as it stands. -/
def accepts : ScalarType → Json → Bool
  | .string, .string _ => true
  | .number, .number _ => true
  | .int, .number n => n.isWhole
  | .boolean, .bool _ => true
  | .date, .string s => Timestamp.isValid s
  | .date, .number n => n.isWhole
  | .email, .string s => isEmail s
  | _, _ => false

end ScalarType

/-- A conversion applied before validation. -/
inductive Conversion where
  | toNumber
  | toInt
  | toBoolean
deriving DecidableEq

namespace Conversion

/-- The conversion that a word of a descriptor names. -/
def ofToken? : String → Option Conversion
  | "toNumber" => some .toNumber
  | "toInt" => some .toInt
  | "toBoolean" => some .toBoolean
  | _ => none

/-- The word that names the conversion. -/
def token : Conversion → String
  | .toNumber => "toNumber"
  | .toInt => "toInt"
  | .toBoolean => "toBoolean"

/-- The number written by a text, blanks at its ends aside. -/
def numeral? (text : String) : Option Double := Numeral.parse? (Text.trim text)

/-- The number that a value stands for: a number, a numeral, or a truth value as
`1` or `0`. -/
def reading? : Json → Option Double
  | .number n => some n.toDouble
  | .string s => numeral? s
  | .bool b => some (.ofInt (if b then 1 else 0))
  | _ => none

/-- Converts a value. -/
def apply : Conversion → Json → Json
  | .toNumber, .number n => .number n
  | .toNumber, .string s => (numeral? s).elim .null .ofDouble
  | .toNumber, .bool b => .ofInt (if b then 1 else 0)
  | .toNumber, _ => .null
  | .toInt, value =>
    match (reading? value).bind Double.finite? with
    | some x => .ofInt x.truncate
    | none => .null
  | .toBoolean, .bool b => .bool b
  | .toBoolean, .number n => .bool (!n.toDouble.same .zero)
  | .toBoolean, .string s =>
    match Text.trim s with
    | "true" | "1" => .bool true
    | "false" | "0" => .bool false
    | _ => .null
  | .toBoolean, _ => .null

end Conversion

end NestedRecord
